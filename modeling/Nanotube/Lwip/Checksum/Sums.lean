/-
  Nanotube.Lwip.Checksum.Sums — does it matter to the checksum how a packet lies in memory?
  (src/lwIP/core/inet_chksum.c `lwip_standard_chksum`, `inet_chksum`, `inet_chksum_pbuf`,
  `inet_chksum_pseudo`)

  The sum is made from 16-bit loads, in the byte order of the machine, from addresses that
  may be odd and over pbufs that may have odd lengths; bytes are swapped back and forth to
  make up for it.

  Proved: alignment and split do not matter, and the pseudo header counts as 12 bytes in
  front of the packet (`chksum_any_split`).
-/

import Nanotube.Lib.OnesComplement
import Nanotube.Lib.Wire

namespace Nanotube.Lwip.Checksum

open Nanotube.Lib.OnesComplement Nanotube.Lib.Wire

/-- The bytes at `payload`, and whether its address is odd. -/
structure Pbuf where
  odd : Bool
  payload : List UInt8
  deriving DecidableEq, Repr

def contents (p : List Pbuf) : List UInt8 := p.flatMap Pbuf.payload

/-! ## The code: sums -/

def foldU32t (u : UInt32) : UInt32 := (u >>> 16) + (u &&& 0x0000ffff)

def swapBytesInWord (w : UInt32) : UInt32 := ((w &&& 0xff) <<< 8) ||| ((w &&& 0xff00) >>> 8)

def lwipHtons (n : UInt16) : UInt16 := ((n &&& 0xff) <<< 8) ||| ((n &&& 0xff00) >>> 8)

/-- A load of 16 bits; the machine has the lower byte first. -/
def loadWord (b0 b1 : UInt8) : UInt16 := b0.toUInt16 + 256 * b1.toUInt16

/-- The loop of `lwip_standard_chksum`, and the byte that is left over, or 0. -/
def sumLoop : UInt32 → List UInt8 → UInt32 × UInt8
  | sum, b0 :: b1 :: bs => sumLoop (sum + (loadWord b0 b1).toUInt32) bs
  | sum, [b] => (sum, b)
  | sum, [] => (sum, 0)

/-- `t` takes the first byte, if it has an odd address, and the byte that is left over. -/
def lwipStandardChksum (odd : Bool) (data : List UInt8) : UInt16 :=
  let first := if odd then data.headD 0 else 0
  let r := sumLoop 0 (if odd then data.tail else data)
  let sum := r.1 + (loadWord r.2 first).toUInt32
  let sum := foldU32t (foldU32t sum)
  (if odd then swapBytesInWord sum else sum).toUInt16

def inetChksum (odd : Bool) (data : List UInt8) : UInt16 := ~~~lwipStandardChksum odd data

/-- The loop over the pbufs: `acc` and `swapped`. -/
def chksumLoop : UInt32 → Bool → List Pbuf → UInt32 × Bool
  | acc, swapped, [] => (acc, swapped)
  | acc, swapped, q :: qs =>
    let acc := foldU32t (acc + (lwipStandardChksum q.odd q.payload).toUInt32)
    if q.payload.length % 2 ≠ 0 then chksumLoop (swapBytesInWord acc) (!swapped) qs else chksumLoop acc swapped qs

/-- The loop, and the swap behind it. -/
def chainSum (acc : UInt32) (p : List Pbuf) : UInt32 :=
  let r := chksumLoop acc false p
  if r.2 then swapBytesInWord r.1 else r.1

def inetChksumPbuf (p : List Pbuf) : UInt16 := ~~~(chainSum 0 p).toUInt16

def inetCksumPseudoBase (p : List Pbuf) (proto : UInt8) (protoLen : UInt16) (acc : UInt32) : UInt16 :=
  let acc := chainSum acc p
  let acc := acc + (lwipHtons proto.toUInt16).toUInt32
  let acc := acc + (lwipHtons protoLen).toUInt32
  let acc := foldU32t (foldU32t acc)
  ~~~acc.toUInt16

/-- The halves of an address. -/
def addrSum (addr : UInt32) : UInt32 := (addr &&& (0xffff : UInt32)) + ((addr >>> 16) &&& (0xffff : UInt32))

/-- Addresses are as they are loaded from memory. -/
def inetChksumPseudo (p : List Pbuf) (proto : UInt8) (protoLen : UInt16) (src dest : UInt32) : UInt16 :=
  let acc := addrSum src + addrSum dest
  inetCksumPseudoBase p proto protoLen (foldU32t (foldU32t acc))

/-! ## What the sums are -/

/-- The bytes as one number. -/
def value (bs : List UInt8) : Nat := Nat.ofDigits 256 (bs.map UInt8.toNat)

@[simp] theorem value_nil : value [] = 0 := rfl

@[simp] theorem value_cons (b : UInt8) (bs : List UInt8) : value (b :: bs) = b.toNat + 256 * value bs := by
  rw [value, List.map_cons, Nat.ofDigits_cons]
  rfl

theorem value_append (as bs : List UInt8) : value (as ++ bs) = value as + 256 ^ as.length * value bs := by
  rw [value, List.map_append, Nat.ofDigits_append, List.length_map]
  rfl

abbrev Alike (x y : Nat) : Prop := Same 256 x y

theorem toNat_foldU32t (u : UInt32) : (foldU32t u).toNat = u.toNat / 65536 + u.toNat % 65536 := by
  have h := u.toNat_lt
  rw [foldU32t, UInt32.toNat_add, UInt32.toNat_shiftRight, UInt32.toNat_and, Nat.shiftRight_eq_div_pow]
  change (u.toNat / 65536 + (u.toNat &&& 2 ^ 16 - 1)) % 2 ^ 32 = _
  rw [Nat.and_two_pow_sub_one_eq_mod]
  omega

theorem foldU32t_alike (u : UInt32) : Alike (foldU32t u).toNat u.toNat := by
  rw [toNat_foldU32t]
  exact Same.fold (by decide) u.toNat

/-- Two folds leave a word. -/
theorem foldU32t_twice (u : UInt32) :
    (foldU32t (foldU32t u)).toNat < 65536 ∧ Alike (foldU32t (foldU32t u)).toNat u.toNat := by
  refine ⟨?_, (foldU32t_alike _).trans (foldU32t_alike u)⟩
  have h := u.toNat_lt
  rw [toNat_foldU32t, toNat_foldU32t]
  omega

theorem toNat_swap (w : Nat) : ((w &&& 0xff) <<< 8) ||| ((w &&& 0xff00) >>> 8) = w % 256 * 256 + w / 256 % 256 := by
  rw [Nat.shiftRight_and_distrib]
  change ((w &&& 2 ^ 8 - 1) <<< 8) ||| (w >>> 8 &&& 2 ^ 8 - 1) = _
  rw [Nat.and_two_pow_sub_one_eq_mod, Nat.and_two_pow_sub_one_eq_mod,
    ← Nat.shiftLeft_add_eq_or_of_lt (Nat.mod_lt _ (by decide)), Nat.shiftLeft_eq, Nat.shiftRight_eq_div_pow]

theorem toNat_swapBytesInWord {w : UInt32} (h : w.toNat < 65536) :
    (swapBytesInWord w).toNat = w.toNat % 256 * 256 + w.toNat / 256 := by
  have hswap := toNat_swap w.toNat
  rw [swapBytesInWord, UInt32.toNat_or, UInt32.toNat_shiftLeft, UInt32.toNat_shiftRight, UInt32.toNat_and, UInt32.toNat_and]
  change (w.toNat &&& 0xff) <<< 8 % 2 ^ 32 ||| (w.toNat &&& 0xff00) >>> 8 = _
  have hsmall : (w.toNat &&& 0xff) <<< 8 < 2 ^ 32 := by
    change (w.toNat &&& 2 ^ 8 - 1) <<< 8 < 2 ^ 32
    rw [Nat.and_two_pow_sub_one_eq_mod, Nat.shiftLeft_eq]
    omega
  rw [Nat.mod_eq_of_lt hsmall, hswap]
  omega

theorem toNat_lwipHtons (n : UInt16) : (lwipHtons n).toNat = n.toNat % 256 * 256 + n.toNat / 256 := by
  have hlt := n.toNat_lt
  have hswap := toNat_swap n.toNat
  rw [lwipHtons, UInt16.toNat_or, UInt16.toNat_shiftLeft, UInt16.toNat_shiftRight, UInt16.toNat_and, UInt16.toNat_and]
  change (n.toNat &&& 0xff) <<< 8 % 2 ^ 16 ||| (n.toNat &&& 0xff00) >>> 8 = _
  have hsmall : (n.toNat &&& 0xff) <<< 8 < 2 ^ 16 := by
    change (n.toNat &&& 2 ^ 8 - 1) <<< 8 < 2 ^ 16
    rw [Nat.and_two_pow_sub_one_eq_mod, Nat.shiftLeft_eq]
    omega
  rw [Nat.mod_eq_of_lt hsmall, hswap]
  omega

theorem swapBytesInWord_alike {w : UInt32} (h : w.toNat < 65536) :
    (swapBytesInWord w).toNat < 65536 ∧ Alike (swapBytesInWord w).toNat (256 * w.toNat) := by
  rw [toNat_swapBytesInWord h]
  exact ⟨by omega, Same.swap (by decide) w.toNat⟩

theorem toNat_loadWord (b0 b1 : UInt8) : (loadWord b0 b1).toNat = b0.toNat + 256 * b1.toNat := by
  have h0 := b0.toNat_lt
  have h1 := b1.toNat_lt
  rw [loadWord, UInt16.toNat_add, UInt16.toNat_mul, UInt8.toNat_toUInt16, UInt8.toNat_toUInt16]
  change (b0.toNat + 256 * b1.toNat % 65536) % 65536 = _
  omega

/-- No carry is lost: the sum has room for all the words of a packet. -/
theorem sumLoop_eq (sum : UInt32) (bs : List UInt8) (h : sum.toNat + wordSum 256 (bs.map UInt8.toNat) < 2 ^ 32) :
    (sumLoop sum bs).1.toNat + (sumLoop sum bs).2.toNat = sum.toNat + wordSum 256 (bs.map UInt8.toNat) := by
  induction sum, bs using sumLoop.induct with
  | case1 sum b0 b1 bs ih =>
    simp only [List.map_cons, wordSum] at h ⊢
    have hstep : (sum + (loadWord b0 b1).toUInt32).toNat = sum.toNat + (b0.toNat + 256 * b1.toNat) := by
      rw [UInt32.toNat_add, UInt16.toNat_toUInt32, toNat_loadWord]
      omega
    rw [sumLoop, ih (by rw [hstep]; omega), hstep]
    omega
  | case2 sum b => rfl
  | case3 sum => rfl

theorem mem_map_toNat_lt {bs : List UInt8} {d : Nat} (h : d ∈ bs.map UInt8.toNat) : d < 256 := by
  obtain ⟨b, _, rfl⟩ := List.mem_map.mp h
  exact b.toNat_lt

/-- The sum before it is folded, `first` in the upper half of `t`. -/
theorem sumLoop_word (first : UInt8) {bs : List UInt8} (h : bs.length < 65536) :
    Alike ((sumLoop 0 bs).1 + (loadWord (sumLoop 0 bs).2 first).toUInt32).toNat (256 * first.toNat + value bs) := by
  have hbound : wordSum 256 (bs.map UInt8.toNat) ≤ 65536 * bs.length := by
    have hle : wordSum 256 (bs.map UInt8.toNat) ≤ 256 * 256 * (bs.map UInt8.toNat).length := wordSum_le fun d => mem_map_toNat_lt
    rwa [List.length_map] at hle
  have hfirst := first.toNat_lt
  have hsum := sumLoop_eq 0 bs (by change 0 + _ < _; omega)
  have hzero : (0 : UInt32).toNat = 0 := rfl
  have htotal : ((sumLoop 0 bs).1 + (loadWord (sumLoop 0 bs).2 first).toUInt32).toNat =
      256 * first.toNat + wordSum 256 (bs.map UInt8.toNat) := by
    rw [UInt32.toNat_add, UInt16.toNat_toUInt32, toNat_loadWord]
    omega
  rw [htotal]
  exact (Same.refl _).add (wordSum_same (by decide) _)

theorem toNat_toUInt16_of_lt {u : UInt32} (h : u.toNat < 65536) : u.toUInt16.toNat = u.toNat := by
  rw [UInt32.toNat_toUInt16]
  exact Nat.mod_eq_of_lt h

theorem lwipStandardChksum_alike (odd : Bool) {data : List UInt8} (h : data.length < 65536) :
    Alike (lwipStandardChksum odd data).toNat (value data) := by
  rw [lwipStandardChksum]
  cases odd with
  | false =>
    obtain ⟨hlt, hfold⟩ := foldU32t_twice ((sumLoop 0 data).1 + (loadWord (sumLoop 0 data).2 0).toUInt32)
    have hsum := sumLoop_word 0 h
    simp only [Bool.false_eq_true, if_false]
    rw [toNat_toUInt16_of_lt hlt]
    exact hfold.trans (hsum.trans (by simp [Same.refl]))
  | true =>
    -- the first byte was added as an upper byte, and so was every second one behind it
    have hlen : data.tail.length < 65536 := by
      rw [List.length_tail]
      omega
    obtain ⟨hlt, hfold⟩ :=
      foldU32t_twice ((sumLoop 0 data.tail).1 + (loadWord (sumLoop 0 data.tail).2 (data.headD 0)).toUInt32)
    obtain ⟨hlt', hswap⟩ := swapBytesInWord_alike hlt
    have hsum := hfold.trans (sumLoop_word (data.headD 0) hlen)
    simp only [if_true]
    rw [toNat_toUInt16_of_lt hlt']
    refine hswap.trans ((hsum.mul_left 256).trans ?_)
    cases data with
    | nil => exact Same.refl 0
    | cons b bs =>
      rw [value_cons, List.headD_cons, List.tail_cons, Nat.mul_add, ← Nat.mul_assoc]
      exact (Same.square (by decide) _).add (Same.refl _)

/-- One pbuf is added; one fold is enough for the sum of two words. -/
theorem addPbuf_alike {acc : UInt32} (hacc : acc.toNat < 65536) (odd : Bool) {data : List UInt8} (h : data.length < 65536) :
    (foldU32t (acc + (lwipStandardChksum odd data).toUInt32)).toNat < 65536 ∧
      Alike (foldU32t (acc + (lwipStandardChksum odd data).toUInt32)).toNat (acc.toNat + value data) := by
  have hword := (lwipStandardChksum odd data).toNat_lt
  have hsum : (acc + (lwipStandardChksum odd data).toUInt32).toNat = acc.toNat + (lwipStandardChksum odd data).toNat := by
    rw [UInt32.toNat_add, UInt16.toNat_toUInt32]
    omega
  constructor
  · rw [toNat_foldU32t, hsum]
    omega
  · refine (foldU32t_alike _).trans ?_
    rw [hsum]
    exact (Same.refl _).add (lwipStandardChksum_alike odd h)

/-- A shift by the bytes of both parts, made part by part. -/
theorem shift_append_alike (as bs : List UInt8) {acc x : Nat} (hx : Alike x (256 ^ as.length * (acc + value as))) :
    Alike (256 ^ bs.length * (x + value bs)) (256 ^ (as.length + bs.length) * (acc + value (as ++ bs))) := by
  have hback : Alike (256 ^ (2 * as.length) * value bs) (value bs) := Same.pow_even (by decide) _ _
  refine ((hx.add hback.symm).mul_left _).trans (Same.of_eq ?_)
  rw [value_append]
  ring

/-- What a loop over pbufs has in `acc`: the bytes so far, shifted by their number. -/
theorem chksumLoop_alike {acc : UInt32} (hacc : acc.toNat < 65536) (swapped : Bool) {p : List Pbuf}
    (h : (contents p).length < 65536) :
    (chksumLoop acc swapped p).1.toNat < 65536 ∧
      Alike (chksumLoop acc swapped p).1.toNat (256 ^ (contents p).length * (acc.toNat + value (contents p))) ∧
      (chksumLoop acc swapped p).2 = (swapped ^^ decide ((contents p).length % 2 = 1)) := by
  induction p generalizing acc swapped with
  | nil => exact ⟨hacc, by simp [contents, chksumLoop, Same.refl], by simp [contents, chksumLoop]⟩
  | cons q qs ih =>
    have hsplit : contents (q :: qs) = q.payload ++ contents qs := List.flatMap_cons
    rw [hsplit, List.length_append] at h ⊢
    have hqs : (contents qs).length < 65536 := by omega
    obtain ⟨hlt, halike⟩ := addPbuf_alike hacc q.odd (show q.payload.length < 65536 by omega)
    have hshift : Alike (256 ^ q.payload.length * (acc.toNat + value q.payload)) _ := Same.pow (by decide) _ _
    rw [chksumLoop]
    generalize foldU32t (acc + (lwipStandardChksum q.odd q.payload).toUInt32) = acc' at hlt halike ⊢
    split
    · next hodd =>
      obtain ⟨hswlt, hswap⟩ := swapBytesInWord_alike hlt
      rw [if_neg hodd] at hshift
      obtain ⟨hend, hvalue, hflag⟩ := ih hswlt (!swapped) hqs
      have hacc' := hswap.trans ((halike.mul_left 256).trans hshift.symm)
      refine ⟨hend, hvalue.trans (shift_append_alike _ _ hacc'), ?_⟩
      rw [hflag]
      have : decide ((q.payload.length + (contents qs).length) % 2 = 1) = !decide ((contents qs).length % 2 = 1) := by
        rw [← decide_not]
        exact decide_eq_decide.mpr (by omega)
      rw [this]
      cases swapped <;> simp
    · next heven =>
      rw [if_pos (not_not.mp heven)] at hshift
      obtain ⟨hend, hvalue, hflag⟩ := ih hlt swapped hqs
      refine ⟨hend, hvalue.trans (shift_append_alike _ _ (halike.trans hshift.symm)), ?_⟩
      rw [hflag]
      have : decide ((q.payload.length + (contents qs).length) % 2 = 1) = decide ((contents qs).length % 2 = 1) :=
        decide_eq_decide.mpr (by omega)
      rw [this]

theorem chainSum_alike {acc : UInt32} (hacc : acc.toNat < 65536) {p : List Pbuf} (h : (contents p).length < 65536) :
    (chainSum acc p).toNat < 65536 ∧ Alike (chainSum acc p).toNat (acc.toNat + value (contents p)) := by
  obtain ⟨hlt, halike, hflag⟩ := chksumLoop_alike hacc false h
  have hshift : Alike (256 ^ (contents p).length * (acc.toNat + value (contents p))) _ := Same.pow (by decide) _ _
  rw [chainSum, hflag]
  simp only [Bool.false_xor, decide_eq_true_eq]
  split
  · next hodd =>
    rw [if_neg (by omega)] at hshift
    obtain ⟨hswlt, hswap⟩ := swapBytesInWord_alike hlt
    refine ⟨hswlt, hswap.trans (((halike.trans hshift).mul_left 256).trans ?_)⟩
    rw [← Nat.mul_assoc]
    exact Same.square (by decide) _
  · next heven =>
    rw [if_pos (by omega)] at hshift
    exact ⟨hlt, halike.trans hshift⟩

/-! ## Alignment and split -/

/-- An address in memory. -/
def bytes32 (a : UInt32) : List UInt8 := [a.toUInt8, (a >>> 8).toUInt8, (a >>> 16).toUInt8, (a >>> 24).toUInt8]

/-- The pseudo header of UDP and TCP. -/
def pseudoHeader (proto : UInt8) (protoLen : UInt16) (src dest : UInt32) : List UInt8 :=
  [bytes32 src, bytes32 dest, [0, proto], be16 protoLen].flatten

theorem value_bytes32 (a : UInt32) : value (bytes32 a) = a.toNat := by
  have h := a.toNat_lt
  simp only [bytes32, value_cons, value_nil, UInt32.toNat_toUInt8, UInt32.toNat_shiftRight, Nat.shiftRight_eq_div_pow]
  change a.toNat % 256 + 256 * (a.toNat / 256 % 256 + 256 * (a.toNat / 65536 % 256 + 256 * (a.toNat / 16777216 % 256 + 0))) = _
  omega

theorem value_be16 (n : UInt16) : value (be16 n) = (lwipHtons n).toNat := by
  have h := n.toNat_lt
  rw [toNat_lwipHtons]
  simp only [be16, value_cons, value_nil, UInt16.toNat_toUInt8, UInt16.toNat_shiftRight, Nat.shiftRight_eq_div_pow]
  change n.toNat / 256 % 256 + 256 * (n.toNat % 256 + 256 * 0) = _
  omega

/-- What stands in front counts with the rest, when it is a number of whole words. -/
theorem value_append_alike {as : List UInt8} (h : as.length % 2 = 0) (bs : List UInt8) :
    Alike (value (as ++ bs)) (value as + value bs) := by
  rw [value_append]
  have hshift : Alike (256 ^ as.length * value bs) _ := Same.pow (by decide) _ _
  rw [if_pos h] at hshift
  exact (Same.refl _).add hshift

theorem value_flatten_alike {parts : List (List UInt8)} (h : ∀ as ∈ parts, as.length % 2 = 0) (bs : List UInt8) :
    Alike (value (parts.flatten ++ bs)) ((parts.map value).sum + value bs) := by
  induction parts with
  | nil => simp [Same.refl]
  | cons as parts ih =>
    have hrest := ih fun bs hbs => h bs (List.mem_cons_of_mem _ hbs)
    rw [List.flatten_cons, List.append_assoc, List.map_cons, List.sum_cons, Nat.add_assoc]
    exact (value_append_alike (h as List.mem_cons_self) _).trans ((Same.refl _).add hrest)

theorem value_pseudoHeader (proto : UInt8) (protoLen : UInt16) (src dest : UInt32) (bs : List UInt8) :
    Alike (value (pseudoHeader proto protoLen src dest ++ bs))
      (src.toNat + dest.toNat + value bs + 256 * proto.toNat + (lwipHtons protoLen).toNat) := by
  have hparts : ∀ as ∈ [bytes32 src, bytes32 dest, [0, proto], be16 protoLen], as.length % 2 = 0 := by
    simp [bytes32, be16]
  have hvalue := value_flatten_alike hparts bs
  simp only [List.map_cons, List.map_nil, List.sum_cons, List.sum_nil, value_bytes32, value_be16, value_cons, value_nil] at hvalue
  refine hvalue.trans (Same.of_eq ?_)
  change src.toNat + (dest.toNat + (0 + 256 * (proto.toNat + 256 * 0) + ((lwipHtons protoLen).toNat + 0))) + value bs = _
  omega

theorem addrSum_alike (a : UInt32) : (addrSum a).toNat < 131072 ∧ Alike (addrSum a).toNat a.toNat := by
  have h := a.toNat_lt
  have hsum : (addrSum a).toNat = a.toNat / 65536 + a.toNat % 65536 := by
    rw [addrSum, UInt32.toNat_add, UInt32.toNat_and, UInt32.toNat_and, UInt32.toNat_shiftRight, Nat.shiftRight_eq_div_pow]
    change ((a.toNat &&& 2 ^ 16 - 1) + (a.toNat / 65536 &&& 2 ^ 16 - 1)) % 2 ^ 32 = _
    rw [Nat.and_two_pow_sub_one_eq_mod, Nat.and_two_pow_sub_one_eq_mod]
    have hupper : a.toNat / 65536 < 65536 := by omega
    rw [Nat.mod_eq_of_lt hupper]
    omega
  rw [hsum]
  exact ⟨by omega, Same.fold (by decide) _⟩

theorem inetChksum_alike (odd : Bool) {data : List UInt8} (h : data.length < 65536) :
    ∃ sum : UInt16, inetChksum odd data = ~~~sum ∧ Alike sum.toNat (value data) :=
  ⟨_, rfl, lwipStandardChksum_alike odd h⟩

theorem inetChksumPbuf_alike {p : List Pbuf} (h : (contents p).length < 65536) :
    ∃ sum : UInt16, inetChksumPbuf p = ~~~sum ∧ Alike sum.toNat (value (contents p)) := by
  have hzero : (0 : UInt32).toNat < 65536 := by decide
  obtain ⟨hlt, halike⟩ := chainSum_alike hzero h
  refine ⟨_, rfl, ?_⟩
  rw [toNat_toUInt16_of_lt hlt]
  exact halike.trans (by simp [Same.refl])

theorem inetChksumPseudo_alike {p : List Pbuf} (h : (contents p).length < 65536) (proto : UInt8) (protoLen : UInt16)
    (src dest : UInt32) :
    ∃ sum : UInt16, inetChksumPseudo p proto protoLen src dest = ~~~sum ∧
      Alike sum.toNat (value (pseudoHeader proto protoLen src dest ++ contents p)) := by
  obtain ⟨hsrclt, hsrc⟩ := addrSum_alike src
  obtain ⟨hdestlt, hdest⟩ := addrSum_alike dest
  obtain ⟨hacclt, hacc⟩ := foldU32t_twice (addrSum src + addrSum dest)
  have haddrs : (addrSum src + addrSum dest).toNat = (addrSum src).toNat + (addrSum dest).toNat := by
    rw [UInt32.toNat_add]
    omega
  rw [haddrs] at hacc
  obtain ⟨hchainlt, hchain⟩ := chainSum_alike hacclt h
  generalize hacc' : chainSum (foldU32t (foldU32t (addrSum src + addrSum dest))) p = acc at hchainlt hchain
  have hproto : (lwipHtons proto.toUInt16).toNat = 256 * proto.toNat := by
    have hlt := proto.toNat_lt
    rw [toNat_lwipHtons, UInt8.toNat_toUInt16]
    omega
  have hprotolt := (lwipHtons proto.toUInt16).toNat_lt
  have hlenlt := (lwipHtons protoLen).toNat_lt
  have htotal : (acc + (lwipHtons proto.toUInt16).toUInt32 + (lwipHtons protoLen).toUInt32).toNat =
      acc.toNat + 256 * proto.toNat + (lwipHtons protoLen).toNat := by
    rw [UInt32.toNat_add, UInt32.toNat_add, UInt16.toNat_toUInt32, UInt16.toNat_toUInt32, hproto]
    omega
  obtain ⟨hlt, hfold⟩ := foldU32t_twice (acc + (lwipHtons proto.toUInt16).toUInt32 + (lwipHtons protoLen).toUInt32)
  refine ⟨(foldU32t (foldU32t (acc + (lwipHtons proto.toUInt16).toUInt32 + (lwipHtons protoLen).toUInt32))).toUInt16, ?_, ?_⟩
  · rw [← hacc']
    rfl
  · rw [toNat_toUInt16_of_lt hlt]
    rw [htotal] at hfold
    refine hfold.trans (Same.trans ?_ (value_pseudoHeader proto protoLen src dest (contents p)).symm)
    exact ((hchain.trans ((hacc.trans (hsrc.add hdest)).add (Same.refl _))).add (Same.refl _)).add (Same.refl _)

theorem eq_of_alike {a b : UInt16} (h : Alike a.toNat b.toNat) : a = b :=
  UInt16.toNat_inj.mp (h.eq_of_word a.toNat_lt b.toNat_lt)

theorem chksum_any_split {p : List Pbuf} (h : (contents p).length + 12 < 65536) (proto : UInt8) (protoLen : UInt16)
    (src dest : UInt32) (odd : Bool) :
    inetChksumPbuf p = inetChksum odd (contents p) ∧
      inetChksumPseudo p proto protoLen src dest = inetChksum odd (pseudoHeader proto protoLen src dest ++ contents p) := by
  have hlen : (contents p).length < 65536 := by omega
  have hplen : (pseudoHeader proto protoLen src dest ++ contents p).length < 65536 := by
    rw [List.length_append]
    change 12 + _ < _
    omega
  obtain ⟨sum, hpbuf, halike⟩ := inetChksumPbuf_alike hlen
  obtain ⟨sum', hplain, halike'⟩ := inetChksum_alike odd hlen
  obtain ⟨psum, hpseudo, hpalike⟩ := inetChksumPseudo_alike hlen proto protoLen src dest
  obtain ⟨psum', hpplain, hpalike'⟩ := inetChksum_alike odd hplen
  constructor
  · rw [hpbuf, hplain, eq_of_alike (halike.trans halike'.symm)]
  · rw [hpseudo, hpplain, eq_of_alike (hpalike.trans hpalike'.symm)]

/-- Three bytes at an odd address, and one more. -/
theorem odd_pbufs_summed :
    inetChksumPbuf [⟨true, [1, 2, 3]⟩, ⟨false, [4]⟩] = inetChksum false [1, 2, 3, 4] :=
  (chksum_any_split (p := [⟨true, [1, 2, 3]⟩, ⟨false, [4]⟩]) (by decide) 17 4 0 0 false).1

end Nanotube.Lwip.Checksum
