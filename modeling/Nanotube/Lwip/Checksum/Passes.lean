/-
  Nanotube.Lwip.Checksum.Passes — does what is sent pass at the receiver?
  (src/lwIP/core/ipv4/ip4.c `ip4_output_if_src`, `ip4_input`; core/ipv4/icmp.c `icmp_input`;
  core/udp.c `udp_sendto_if_src`, `udp_input`)

  A receiver drops what does not sum up to 0. The checksum in the IP header is added up
  while the header is filled in, and the one of an echo reply is made from that of the
  request.

  Proved:
  - what is sent with its checksum passes, however it is split and aligned at the receiver
    (`sent_passes`); when a byte changes on the way it does not (`damage_noticed`).
  - the inline checksum of an IP header is the plain one, and makes the header pass
    (`inline_chksum_agrees`).
  - the reply to an echo request that passes does too, with the data of the request
    (`echo_reply_passes`).
-/

import Nanotube.Lwip.Checksum.Sums

namespace Nanotube.Lwip.Checksum

open Nanotube.Lib.OnesComplement Nanotube.Lib.Wire

/-! ## What passes -/

theorem toNat_complement (c : UInt16) : (~~~c).toNat = 65535 - c.toNat := by
  rw [UInt16.toNat_not]
  rfl

/-- The checksum of what is summed up is 0. -/
theorem complement_eq_zero_iff {sum : UInt16} {x : Nat} (h : Alike sum.toNat x) : ~~~sum = 0 ↔ Alike x 65535 := by
  have hlt := sum.toNat_lt
  rw [← UInt16.toNat_inj, toNat_complement]
  constructor
  · intro hzero
    change 65535 - sum.toNat = 0 at hzero
    have hsum : sum.toNat = 65535 := by omega
    rw [← hsum]
    exact h.symm
  · intro hx
    change 65535 - sum.toNat = 0
    rw [(h.trans hx).eq_of_word hlt (by decide)]

/-- A word as it is stored. -/
def bytes16 (c : UInt16) : List UInt8 := [c.toUInt8, (c >>> 8).toUInt8]

theorem value_bytes16 (c : UInt16) : value (bytes16 c) = c.toNat := by
  have h := c.toNat_lt
  simp only [bytes16, value_cons, value_nil, UInt16.toNat_toUInt8, UInt16.toNat_shiftRight, Nat.shiftRight_eq_div_pow]
  change c.toNat % 256 + 256 * (c.toNat / 256 % 256 + 256 * 0) = _
  omega

/-- A word at an even offset that was 0 before. -/
theorem value_word {as : List UInt8} (h : as.length % 2 = 0) (c : UInt16) (bs : List UInt8) :
    Alike (value (as ++ bytes16 c ++ bs)) (value (as ++ [0, 0] ++ bs) + c.toNat) := by
  have hword := value_append_alike (show (as ++ bytes16 c).length % 2 = 0 by simpa [bytes16] using h) bs
  have hzero := value_append_alike (show (as ++ [0, 0]).length % 2 = 0 by simpa using h) bs
  have hc := value_append_alike h (bytes16 c)
  have h0 : value (as ++ [0, 0]) = value as := by rw [value_append]; simp
  rw [value_bytes16] at hc
  rw [h0] at hzero
  refine hword.trans ((hc.add (Same.refl _)).trans ?_)
  rw [Nat.add_right_comm]
  exact hzero.symm.add (Same.refl _)

/-- The checksum is put where the zeros were. -/
theorem passes_with_checksum {as bs : List UInt8} {sum : UInt16} (h : as.length % 2 = 0)
    (hsum : Alike sum.toNat (value (as ++ [0, 0] ++ bs))) : Alike (value (as ++ bytes16 (~~~sum) ++ bs)) 65535 := by
  refine (value_word h _ bs).trans ?_
  rw [toNat_complement]
  exact hsum.symm.complement sum.toNat_lt

/-- 0 is "no checksum"; `udp_sendto_if_src`. -/
def udpChksum (chksum : UInt16) : UInt16 := if chksum = 0 then 0xffff else chksum

/-- Of the two zeros it does not matter which one is sent. -/
theorem passes_with_udpChksum {as bs : List UInt8} {sum : UInt16} (h : as.length % 2 = 0)
    (hsum : Alike sum.toNat (value (as ++ [0, 0] ++ bs))) : Alike (value (as ++ bytes16 (udpChksum (~~~sum)) ++ bs)) 65535 := by
  rw [udpChksum]
  split
  · next hzero =>
    have hvalue := (complement_eq_zero_iff hsum).mp hzero
    refine (value_word h _ bs).trans ((hvalue.add (Same.refl _)).trans ?_)
    exact ⟨by decide, by decide⟩
  · exact passes_with_checksum h hsum

theorem sent_passes {sent received : List Pbuf} {front back : List UInt8} (heven : front.length % 2 = 0)
    (hsent : contents sent = front ++ [0, 0] ++ back) (hlen : (contents sent).length < 65536)
    (proto : UInt8) (protoLen : UInt16) (src dest : UInt32) :
    (contents received = front ++ bytes16 (inetChksumPseudo sent proto protoLen src dest) ++ back →
      inetChksumPseudo received proto protoLen src dest = 0) ∧
    (contents received = front ++ bytes16 (udpChksum (inetChksumPseudo sent proto protoLen src dest)) ++ back →
      inetChksumPseudo received proto protoLen src dest = 0) ∧
    udpChksum (inetChksumPseudo sent proto protoLen src dest) ≠ 0 := by
  obtain ⟨sum, hchksum, halike⟩ := inetChksumPseudo_alike hlen proto protoLen src dest
  have hhead : (pseudoHeader proto protoLen src dest ++ front).length % 2 = 0 := by
    rw [List.length_append]
    change (12 + front.length) % 2 = 0
    omega
  rw [hsent, ← List.append_assoc, ← List.append_assoc] at halike
  -- either word makes the sum 0, and the receiver has the same bytes
  have hreceived : ∀ c : UInt16, Alike (value (pseudoHeader proto protoLen src dest ++ front ++ bytes16 c ++ back)) 65535 →
      contents received = front ++ bytes16 c ++ back → inetChksumPseudo received proto protoLen src dest = 0 := by
    intro c hpasses hcontents
    have hrlen : (contents received).length < 65536 := by
      rw [hcontents]
      rw [hsent] at hlen
      simpa [bytes16] using hlen
    obtain ⟨sum', hchksum', halike'⟩ := inetChksumPseudo_alike hrlen proto protoLen src dest
    rw [hchksum', complement_eq_zero_iff halike', hcontents, ← List.append_assoc, ← List.append_assoc]
    exact hpasses
  rw [hchksum]
  refine ⟨hreceived _ (passes_with_checksum hhead halike), hreceived _ (passes_with_udpChksum hhead halike), ?_⟩
  rw [udpChksum]
  split
  · decide
  · next hne => exact hne

def someSegment : List Pbuf := [⟨false, [0x12, 0x34, 0]⟩, ⟨true, [0, 0x56]⟩]

/-- The segment arrives in one piece. -/
theorem someSegment_passes :
    inetChksumPseudo [⟨true, [0x12, 0x34] ++ bytes16 (inetChksumPseudo someSegment 6 5 0x0201a8c0 0x0101a8c0) ++ [0x56]⟩]
      6 5 0x0201a8c0 0x0101a8c0 = 0 := by
  have hsent : contents someSegment = [0x12, 0x34] ++ [0, 0] ++ [0x56] := rfl
  exact (sent_passes (by simp) hsent (by decide) 6 5 0x0201a8c0 0x0101a8c0).1 (List.append_nil _)

/-- Bytes that differ at one place are never alike. -/
theorem value_one_byte {as bs : List UInt8} {b b' : UInt8} (h : Alike (value (as ++ b :: bs)) (value (as ++ b' :: bs))) : b = b' := by
  have hb := b.toNat_lt
  have hb' := b'.toNat_lt
  have hmod := h.mod
  rw [value_append, value_append, value_cons, value_cons, Nat.mul_add, Nat.mul_add] at hmod
  have hdigit : 256 ^ as.length * b.toNat ≡ 256 ^ as.length * b'.toNat [MOD 256 * 256 - 1] :=
    Nat.ModEq.add_right_cancel' _ (Nat.ModEq.add_left_cancel' _ hmod)
  -- shifted by the same number of bytes once more
  have hback : ∀ x : Nat, 256 ^ as.length * (256 ^ as.length * x) ≡ x [MOD 256 * 256 - 1] := by
    intro x
    rw [← Nat.mul_assoc, ← Nat.pow_add, ← Nat.two_mul]
    exact (Same.pow_even (by decide) as.length x).mod
  have heq := ((hback b.toNat).symm.trans (hdigit.mul_left (256 ^ as.length))).trans (hback b'.toNat)
  rw [Nat.ModEq, Nat.mod_eq_of_lt (by omega), Nat.mod_eq_of_lt (by omega)] at heq
  exact UInt8.toNat_inj.mp heq

theorem damage_noticed {sent received : List Pbuf} {front back : List UInt8} {b b' : UInt8} (hne : b ≠ b')
    (hsent : contents sent = front ++ b :: back) (hreceived : contents received = front ++ b' :: back)
    (hlen : (contents sent).length < 65536) {proto : UInt8} {protoLen : UInt16} {src dest : UInt32}
    (hpasses : inetChksumPseudo sent proto protoLen src dest = 0) :
    inetChksumPseudo received proto protoLen src dest ≠ 0 := by
  have hrlen : (contents received).length < 65536 := by
    rw [hreceived]
    rw [hsent] at hlen
    simpa using hlen
  obtain ⟨sum, hchksum, halike⟩ := inetChksumPseudo_alike hlen proto protoLen src dest
  obtain ⟨sum', hchksum', halike'⟩ := inetChksumPseudo_alike hrlen proto protoLen src dest
  rw [hchksum, complement_eq_zero_iff halike, hsent, ← List.append_assoc] at hpasses
  rw [hchksum', Ne, complement_eq_zero_iff halike', hreceived, ← List.append_assoc]
  exact fun hpasses' => hne (value_one_byte (hpasses.trans hpasses'.symm))

/-- A byte of the second pbuf is changed on the way, and the segment arrives in one piece. -/
theorem broken_byte_noticed :
    inetChksumPseudo [⟨false, [0x12, 0x34, 20]⟩, ⟨true, [108, 0x56]⟩] 6 5 0x0201a8c0 0x0101a8c0 = 0 ∧
      inetChksumPseudo [⟨true, [0x12, 0x34, 20, 44, 0x56]⟩] 6 5 0x0201a8c0 0x0101a8c0 ≠ 0 := by
  have hpasses : inetChksumPseudo [⟨false, [0x12, 0x34, 20]⟩, ⟨true, [108, 0x56]⟩] 6 5 0x0201a8c0 0x0101a8c0 = 0 := by
    decide
  exact ⟨hpasses, damage_noticed (show (108 : UInt8) ≠ 44 by decide)
    (show contents [⟨false, [0x12, 0x34, 20]⟩, ⟨true, [108, 0x56]⟩] = [0x12, 0x34, 20] ++ 108 :: [0x56] from rfl) rfl
    (by decide) hpasses⟩

/-! ## The IP header -/

/-- What `ip4_output_if_src` is given, or has, for the header. -/
structure IpFields where
  tos : UInt8
  totLen : UInt16
  ipId : UInt16
  ttl : UInt8
  proto : UInt8
  src : UInt32
  dest : UInt32
  deriving DecidableEq, Repr

/-- IPH_VHL_SET with 4 and IP_HLEN / 4. -/
def vHl : UInt8 := 0x45

/-- The header in memory. -/
def ip4Header (f : IpFields) (chksum : UInt16) : List UInt8 :=
  [[vHl, f.tos], be16 f.totLen, be16 f.ipId, [0, 0], [f.ttl, f.proto]].flatten ++ bytes16 chksum ++
    [bytes32 f.src, bytes32 f.dest].flatten

/-- Two bytes of the header as PP_NTOHS makes a word of them. -/
def ntohsWord (lower upper : UInt8) : UInt16 := lwipHtons (lower.toUInt16 ||| (upper.toUInt16 <<< 8))

/-- `chk_sum`, as it is added up while the header is filled in. -/
def inlineSum (f : IpFields) : UInt32 :=
  let sum := (ntohsWord f.proto f.ttl).toUInt32
  let sum := sum + (f.dest &&& (0xffff : UInt32))
  let sum := sum + (f.dest >>> (16 : UInt32))
  let sum := sum + (ntohsWord f.tos vHl).toUInt32
  let sum := sum + (lwipHtons f.totLen).toUInt32
  let sum := sum + (lwipHtons f.ipId).toUInt32
  let sum := sum + (f.src &&& (0xffff : UInt32))
  sum + (f.src >>> (16 : UInt32))

/-- The second fold does not mask. -/
def inlineChksum (f : IpFields) : UInt16 :=
  let sum := foldU32t (inlineSum f)
  let sum := (sum >>> 16) + sum
  (~~~sum).toUInt16

theorem toNat_ntohsWord (lower upper : UInt8) : (ntohsWord lower upper).toNat = upper.toNat + 256 * lower.toNat := by
  have hl := lower.toNat_lt
  have hu := upper.toNat_lt
  have hor : (lower.toUInt16 ||| (upper.toUInt16 <<< 8)).toNat = upper.toNat * 256 + lower.toNat := by
    rw [UInt16.toNat_or, UInt16.toNat_shiftLeft, UInt8.toNat_toUInt16, UInt8.toNat_toUInt16]
    change lower.toNat ||| upper.toNat <<< 8 % 65536 = _
    have hsmall : upper.toNat <<< 8 < 65536 := by
      rw [Nat.shiftLeft_eq]
      omega
    rw [Nat.mod_eq_of_lt hsmall, Nat.or_comm, ← Nat.shiftLeft_add_eq_or_of_lt hl, Nat.shiftLeft_eq]
  rw [ntohsWord, toNat_lwipHtons, hor]
  omega

theorem toNat_lower (a : UInt32) : (a &&& (0xffff : UInt32)).toNat = a.toNat % 65536 := by
  rw [UInt32.toNat_and]
  change a.toNat &&& 2 ^ 16 - 1 = _
  rw [Nat.and_two_pow_sub_one_eq_mod]

theorem toNat_upper (a : UInt32) : (a >>> (16 : UInt32)).toNat = a.toNat / 65536 := by
  rw [UInt32.toNat_shiftRight, Nat.shiftRight_eq_div_pow]
  rfl

theorem inlineSum_eq (f : IpFields) : (inlineSum f).toNat =
    (f.ttl.toNat + 256 * f.proto.toNat) + (f.dest.toNat / 65536 + f.dest.toNat % 65536) + (vHl.toNat + 256 * f.tos.toNat) +
      (lwipHtons f.totLen).toNat + (lwipHtons f.ipId).toNat + (f.src.toNat / 65536 + f.src.toNat % 65536) := by
  have hsrc := f.src.toNat_lt
  have hdest := f.dest.toNat_lt
  have hlen := (lwipHtons f.totLen).toNat_lt
  have hid := (lwipHtons f.ipId).toNat_lt
  have httl := f.ttl.toNat_lt
  have hproto := f.proto.toNat_lt
  have htos := f.tos.toNat_lt
  have hvhl := vHl.toNat_lt
  simp only [inlineSum, UInt32.toNat_add, UInt16.toNat_toUInt32, toNat_ntohsWord, toNat_lower, toNat_upper, Nat.mod_add_mod]
  rw [Nat.mod_eq_of_lt (by omega)]
  omega

theorem ip4Header_words (f : IpFields) (chksum : UInt16) :
    ip4Header f chksum = [[vHl, f.tos], be16 f.totLen, be16 f.ipId, [0, 0], [f.ttl, f.proto], bytes16 chksum, bytes32 f.src,
      bytes32 f.dest].flatten ++ [] := by
  simp [ip4Header]

theorem value_ip4Header (f : IpFields) : Alike (value (ip4Header f 0)) (inlineSum f).toNat := by
  have hparts : ∀ as ∈ [[vHl, f.tos], be16 f.totLen, be16 f.ipId, [0, 0], [f.ttl, f.proto], bytes16 0, bytes32 f.src,
      bytes32 f.dest], as.length % 2 = 0 := by
    simp [bytes16, bytes32, be16]
  have hvalue := value_flatten_alike hparts []
  simp only [List.map_cons, List.map_nil, List.sum_cons, List.sum_nil, value_bytes16, value_bytes32, value_be16, value_cons,
    value_nil] at hvalue
  have hsrc : Alike f.src.toNat (f.src.toNat / 65536 + f.src.toNat % 65536) := (Same.fold (by decide) _).symm
  have hdest : Alike f.dest.toNat (f.dest.toNat / 65536 + f.dest.toNat % 65536) := (Same.fold (by decide) _).symm
  have hrest := (hsrc.add hdest).add (Same.refl (f.ttl.toNat + 256 * f.proto.toNat + (vHl.toNat + 256 * f.tos.toNat) +
    (lwipHtons f.totLen).toNat + (lwipHtons f.ipId).toNat))
  rw [ip4Header_words, inlineSum_eq]
  refine hvalue.trans ((Same.of_eq ?_).trans (hrest.trans (Same.of_eq ?_)))
  · have h0 : (0 : UInt16).toNat = 0 := rfl
    have h0' : (0 : UInt8).toNat = 0 := rfl
    omega
  · omega

/-- The second fold leaves the same word without the mask. -/
theorem inlineChksum_alike (f : IpFields) :
    ∃ sum : UInt16, inlineChksum f = ~~~sum ∧ Alike sum.toNat (value (ip4Header f 0)) := by
  obtain ⟨hlt, hfold⟩ := foldU32t_twice (inlineSum f)
  refine ⟨(foldU32t (foldU32t (inlineSum f))).toUInt16, ?_, ?_⟩
  · rw [inlineChksum]
    generalize foldU32t (inlineSum f) = sum at hlt
    have hsum := sum.toNat_lt
    rw [toNat_foldU32t] at hlt
    have hshift : ((sum >>> 16) + sum).toNat % 65536 = sum.toNat / 65536 + sum.toNat % 65536 := by
      rw [UInt32.toNat_add, toNat_upper]
      omega
    rw [← UInt16.toNat_inj, toNat_complement, UInt32.toNat_toUInt16, UInt32.toNat_toUInt16, UInt32.toNat_not,
      toNat_foldU32t]
    have hbound := ((sum >>> 16) + sum).toNat_lt
    change (4294967295 - ((sum >>> 16) + sum).toNat) % 65536 = 65535 - (sum.toNat / 65536 + sum.toNat % 65536) % 65536
    omega
  · rw [toNat_toUInt16_of_lt hlt]
    exact hfold.trans (value_ip4Header f).symm

theorem inline_chksum_agrees (f : IpFields) (odd : Bool) :
    inlineChksum f = inetChksum odd (ip4Header f 0) ∧ inetChksum odd (ip4Header f (inlineChksum f)) = 0 := by
  have hlen : ∀ c, (ip4Header f c).length < 65536 := fun c => by
    change 20 < 65536
    decide
  obtain ⟨sum, hinline, halike⟩ := inlineChksum_alike f
  obtain ⟨sum', hplain, halike'⟩ := inetChksum_alike odd (hlen 0)
  refine ⟨by rw [hinline, hplain, eq_of_alike (halike.trans halike'.symm)], ?_⟩
  obtain ⟨sum'', hcheck, hpasses⟩ := inetChksum_alike odd (hlen (inlineChksum f))
  rw [hcheck, complement_eq_zero_iff hpasses, hinline]
  exact passes_with_checksum (by simp [be16]) halike

/-! ## Echo -/

def ICMP_ER : UInt8 := 0
def ICMP_ECHO : UInt8 := 8

/-- The type goes down by ICMP_ECHO, so the checksum goes up. -/
def echoChksum (chksum : UInt16) : UInt16 :=
  if chksum > lwipHtons ((0xffff : UInt16) - (ICMP_ECHO.toUInt16 <<< 8)) then chksum + lwipHtons (ICMP_ECHO.toUInt16 <<< 8) + 1
  else chksum + lwipHtons (ICMP_ECHO.toUInt16 <<< 8)

/-- Where the reply is made: in the pbufs of the request when there is room for the headers
    in front of them, and else in a new pbuf; `dropped` is when that fails. -/
inductive Place where
  | inPlace
  | copied (odd : Bool)
  | dropped
  deriving DecidableEq, Repr

def place (p : List Pbuf) : Place → Option (List Pbuf)
  | .inPlace => some p
  | .copied odd => some [⟨odd, contents p⟩]
  | .dropped => none

/-- The reply is written over the request. -/
def turnIntoReply (p : List Pbuf) : Option (List Pbuf) :=
  match p with
  | ⟨odd, _ :: code :: c0 :: c1 :: data⟩ :: qs =>
    some (⟨odd, ICMP_ER :: code :: (bytes16 (echoChksum (loadWord c0 c1)) ++ data)⟩ :: qs)
  | _ => none

/-- An echo request in `icmp_input`, and the reply; none when it is dropped. `unicast` is
    whether it was sent to a unicast address. -/
def icmpEcho (unicast : Bool) (where_ : Place) (p : List Pbuf) : Option (List Pbuf) :=
  match p with
  | ⟨_, type :: _ :: _ :: _ :: _⟩ :: _ =>
    if type ≠ ICMP_ECHO ∨ !unicast then none
    else if (contents p).length < 8 then none
    else if inetChksumPbuf p ≠ 0 then none
    else (place p where_).bind turnIntoReply
  | _ => none

theorem echoChksum_alike (chksum : UInt16) : Alike (echoChksum chksum).toNat (chksum.toNat + 8) := by
  have hlt := chksum.toNat_lt
  have hbound : lwipHtons ((0xffff : UInt16) - (ICMP_ECHO.toUInt16 <<< 8)) = 0xfff7 := by decide
  have hstep : lwipHtons (ICMP_ECHO.toUInt16 <<< 8) = 8 := by decide
  rw [echoChksum, hbound, hstep]
  split
  · next hcarry =>
    have hcarry : 0xfff7 < chksum.toNat := UInt16.lt_iff_toNat_lt.mp hcarry
    have hsum : (chksum + 8 + 1).toNat = (chksum.toNat + 8) / 65536 + (chksum.toNat + 8) % 65536 := by
      rw [UInt16.toNat_add, UInt16.toNat_add]
      change ((chksum.toNat + 8) % 65536 + 1) % 65536 = _
      omega
    rw [hsum]
    exact Same.fold (by decide) _
  · next hno =>
    have hno : ¬ 0xfff7 < chksum.toNat := fun h => hno (UInt16.lt_iff_toNat_lt.mpr h)
    have hsum : (chksum + 8).toNat = chksum.toNat + 8 := by
      rw [UInt16.toNat_add]
      change (chksum.toNat + 8) % 65536 = _
      omega
    rw [hsum]

theorem bytes16_loadWord (c0 c1 : UInt8) : bytes16 (loadWord c0 c1) = [c0, c1] := by
  have h0 := c0.toNat_lt
  have h1 := c1.toNat_lt
  have hlower : (loadWord c0 c1).toUInt8 = c0 := by
    rw [← UInt8.toNat_inj, UInt16.toNat_toUInt8, toNat_loadWord]
    omega
  have hupper : (loadWord c0 c1 >>> 8).toUInt8 = c1 := by
    rw [← UInt8.toNat_inj, UInt16.toNat_toUInt8, UInt16.toNat_shiftRight, toNat_loadWord, Nat.shiftRight_eq_div_pow]
    change (c0.toNat + 256 * c1.toNat) / 256 % 256 = c1.toNat
    omega
  rw [bytes16, hlower, hupper]

theorem contents_place {p p' : List Pbuf} {where_ : Place} (h : place p where_ = some p') : contents p' = contents p := by
  cases where_ with
  | inPlace => rw [← Option.some.inj h]
  | copied odd =>
    rw [← Option.some.inj h]
    exact List.append_nil _
  | dropped => cases h

theorem turnIntoReply_spec {p reply : List Pbuf} (h : turnIntoReply p = some reply) :
    ∃ type code chksum data, contents p = type :: code :: (bytes16 chksum ++ data) ∧
      contents reply = ICMP_ER :: code :: (bytes16 (echoChksum chksum) ++ data) := by
  unfold turnIntoReply at h
  split at h
  · next odd type code c0 c1 data qs =>
    refine ⟨type, code, loadWord c0 c1, data ++ contents qs, ?_, ?_⟩
    · rw [bytes16_loadWord]
      simp [contents]
    · rw [← Option.some.inj h]
      simp [contents]
  · cases h

/-- What is sent back for what. -/
theorem icmpEcho_spec {unicast : Bool} {where_ : Place} {p reply : List Pbuf} (h : icmpEcho unicast where_ p = some reply) :
    inetChksumPbuf p = 0 ∧ ∃ code chksum data, contents p = ICMP_ECHO :: code :: (bytes16 chksum ++ data) ∧
      contents reply = ICMP_ER :: code :: (bytes16 (echoChksum chksum) ++ data) := by
  unfold icmpEcho at h
  split at h
  · next odd type b c0 c1 rest qs =>
    split at h
    · cases h
    · next htype =>
      split at h
      · cases h
      split at h
      · cases h
      · next hpasses =>
        have htype : type = ICMP_ECHO := not_not.mp fun h0 => htype (Or.inl h0)
        obtain ⟨p', hplace, hreply⟩ := Option.bind_eq_some_iff.mp h
        obtain ⟨type', code, chksum, data, hp', hr⟩ := turnIntoReply_spec hreply
        rw [contents_place hplace] at hp'
        -- the type that was checked is the type that is written over
        have hhead : type' = ICMP_ECHO := by
          rw [← htype]
          exact (List.cons.inj hp').1.symm
        rw [hhead] at hp'
        exact ⟨not_not.mp hpasses, code, chksum, data, hp', hr⟩
  · cases h

theorem echo_reply_passes {unicast : Bool} {where_ : Place} {p reply received : List Pbuf}
    (h : icmpEcho unicast where_ p = some reply)
    (hlen : (contents p).length < 65536) (hreceived : contents received = contents reply) :
    inetChksumPbuf received = 0 ∧
      ∃ code chksum data, contents p = ICMP_ECHO :: code :: (bytes16 chksum ++ data) ∧
        contents received = ICMP_ER :: code :: (bytes16 (echoChksum chksum) ++ data) := by
  obtain ⟨hpasses, code, chksum, data, hp, hreply⟩ := icmpEcho_spec h
  rw [← hreceived] at hreply
  refine ⟨?_, code, chksum, data, hp, hreply⟩
  have hrlen : (contents received).length < 65536 := by
    rw [hreply]
    rw [hp] at hlen
    simpa [bytes16] using hlen
  obtain ⟨sum, hsum, halike⟩ := inetChksumPbuf_alike hlen
  obtain ⟨sum', hsum', halike'⟩ := inetChksumPbuf_alike hrlen
  rw [hsum, complement_eq_zero_iff halike] at hpasses
  rw [hsum', complement_eq_zero_iff halike']
  refine Same.trans ?_ hpasses
  -- 8 less in the first word, 8 more in the second
  rw [hp, hreply]
  have hrest : ∀ (type : UInt8) (c : UInt16),
      Alike (value (type :: code :: (bytes16 c ++ data))) (type.toNat + 256 * code.toNat + (c.toNat + value data)) := by
    intro type c
    have hfirst := value_append_alike (show [type, code].length % 2 = 0 by simp) (bytes16 c ++ data)
    have hsecond := value_append_alike (show (bytes16 c).length % 2 = 0 by simp [bytes16]) data
    rw [value_bytes16] at hsecond
    refine hfirst.trans (Same.trans (Same.of_eq ?_) ((Same.refl (type.toNat + 256 * code.toNat)).add hsecond))
    simp
  refine (hrest _ _).trans (Same.trans ?_ (hrest _ _).symm)
  refine (((Same.refl _).add ((echoChksum_alike chksum).add (Same.refl _)))).trans (Same.of_eq ?_)
  change 0 + 256 * code.toNat + (chksum.toNat + 8 + value data) = 8 + 256 * code.toNat + (chksum.toNat + value data)
  omega

def someEcho : List Pbuf := [⟨false, [8, 0, 0xf7, 0xff, 0, 0, 0, 0]⟩]

theorem someEcho_answered : inetChksumPbuf [⟨false, [0, 0, 0xff, 0xff, 0, 0, 0, 0]⟩] = 0 :=
  (echo_reply_passes (show icmpEcho true (.copied false) someEcho = some [⟨false, [0, 0, 0xff, 0xff, 0, 0, 0, 0]⟩] by decide) (by decide) rfl).1

end Nanotube.Lwip.Checksum
