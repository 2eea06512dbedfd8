/-
  Nanotube.Lwip.Dns.Message — which question does a reply have to repeat? (src/lwIP/core/dns.c
  `dns_send`, `dns_compare_name`, `dns_skip_name`, the part of `dns_recv` that reads the
  packet; core/def.c `lwip_strnicmp`)

  A name goes out as its parts between the dots, each with its length before it, and a 0.
  `dns_compare_name` reads such parts from a packet and compares them, in any case, with
  the memory at the name it asked for: it steps over the byte behind each part without
  looking at it, and stops where the packet's name does. So the packet's name may end early
  (`compareLoop_iff` says just what is accepted), and what lies behind the NUL of a shorter
  name counts.

  Proved: for every name, the pbuf that `dns_send` fills holds just its query, and the
  question of that query, in any case, is accepted at the offset behind it
  (`compareLoop_echo`).
-/

import Nanotube.Lib.Wire
import Nanotube.Lwip.Pbuf

namespace Nanotube.Lwip.Dns

open Nanotube.Lib.Wire Pbufs

def SIZEOF_DNS_HDR : Nat := 12
def SIZEOF_DNS_QUERY : Nat := 4
def SIZEOF_DNS_ANSWER : Nat := 10
def DNS_MAX_NAME_LENGTH : Nat := 256

/-- An IPv4 address, as it stands in a packet. -/
abbrev Addr := List UInt8

def toLower (c : UInt8) : UInt8 := if 65 ≤ c ∧ c ≤ 90 then c + 32 else c

/-- The test on one character of `lwip_strnicmp`. -/
def charsDiffer (c1 c2 : UInt8) : Bool :=
  c1 ≠ c2 && !(0x61 ≤ c1 ||| 0x20 && c1 ||| 0x20 ≤ 0x7a && c1 ||| 0x20 = c2 ||| 0x20)

/-- `lwip_strnicmp` from offset `k` on; true is 0. -/
def lwipStrnicmp (str1 str2 : Nat → UInt8) : Nat → Nat → Bool
  | 0, _ => true
  | len + 1, k =>
    if charsDiffer (str1 k) (str2 k) then false
    else if str1 k = 0 then true
    else lwipStrnicmp str1 str2 len (k + 1)

/-- The memory at a string. -/
def stringz (cs : List UInt8) (k : Nat) : UInt8 := cs.getD k 0

/-! ## The code: sending -/

def DOT : UInt8 := 46

/-- The parts of a hostname, as the loop of `dns_send` finds them. -/
def hostnameParts (hostname : List UInt8) : List (List UInt8) := hostname.splitOn DOT

/-- The loop of `dns_send`, with `query_idx`. A part of a name has less than 256 bytes, so
    that its length fits `n`. -/
def putParts (p : List Pbuf) (queryIdx : Nat) : List (List UInt8) → List Pbuf × Nat
  | [] => (p, queryIdx)
  | part :: parts =>
    let p := pbufPutAt p queryIdx part.length.toUInt8
    let p := (pbufTakeAt p part (queryIdx + 1)).1
    putParts p (queryIdx + part.length + 1) parts

/-- Recursion is desired; one question. -/
def dnsHdr (txid : UInt16) : List UInt8 := be16 txid ++ [1, 0, 0, 1, 0, 0, 0, 0, 0, 0]

/-- Type A, class IN. -/
def dnsQry : List UInt8 := [0, 1, 0, 1]

/-- What `dns_send` makes of the pbuf it has allocated. -/
def fillQuery (p : List Pbuf) (txid : UInt16) (name : List UInt8) : List Pbuf :=
  let p := (pbufTake p (dnsHdr txid)).1
  let r := putParts p SIZEOF_DNS_HDR (hostnameParts name)
  let p := pbufPutAt r.1 r.2 0
  (pbufTakeAt p dnsQry (r.2 + 1)).1

/-! ## The code: reading -/

/-- The inner loop of `dns_compare_name`: `n` more bytes of a part, from `response_offset`
    on, against the memory at `query`. The query and the offset behind them. -/
def compareLabel (mem : Nat → UInt8) (p : List Pbuf) : Nat → Nat → Nat → Option (Nat × Nat)
  | 0, query, responseOffset => some (query, responseOffset)
  | n + 1, query, responseOffset =>
    match pbufTryGetAt p responseOffset with
    | none => none
    | some c =>
      if toLower (mem query) ≠ toLower c then none
      else if responseOffset = 0xFFFF then none
      else compareLabel mem p n (query + 1) (responseOffset + 1)

/-- The loop of `dns_compare_name`; none is 0xFFFF. Each turn goes on in the packet, so that
    there are less than 65536. -/
def compareLoop (mem : Nat → UInt8) (p : List Pbuf) : Nat → Nat → Nat → Option Nat
  | 0, _, _ => none
  | turns + 1, query, responseOffset =>
    match pbufTryGetAt p responseOffset with
    | none => none
    | some n =>
      if responseOffset = 0xFFFF then none
      else if n &&& 0xc0 = 0xc0 then none
      else
        match compareLabel mem p n.toNat query (responseOffset + 1) with
        | none => none
        | some (query, responseOffset) =>
          match pbufTryGetAt p responseOffset with
          | none => none
          | some n =>
            if n ≠ 0 then compareLoop mem p turns (query + 1) responseOffset
            else if responseOffset = 0xFFFF then none
            else some (responseOffset + 1)

def dnsCompareName (mem : Nat → UInt8) (p : List Pbuf) (startOffset : Nat) : Nat :=
  (compareLoop mem p 0x10000 0 startOffset).getD 0xFFFF

/-- The loop of `dns_skip_name`; none is 0xFFFF. -/
def skipLoop (p : List Pbuf) (totLen : Nat) : Nat → Nat → Option Nat
  | 0, _ => none
  | turns + 1, offset =>
    match pbufTryGetAt p offset with
    | none => none
    | some n =>
      -- the offset is incremented in between, and may not have become 0
      if offset = 0xFFFF then none
      else if n &&& 0xc0 = 0xc0 then if offset + 1 = 0xFFFF then none else some (offset + 1 + 1)
      else if offset + 1 + n.toNat ≥ totLen then none
      else
        match pbufTryGetAt p (offset + 1 + n.toNat) with
        | none => none
        | some next =>
          if next ≠ 0 then skipLoop p totLen turns (offset + 1 + n.toNat)
          else if offset + 1 + n.toNat = 0xFFFF then none
          else some (offset + 1 + n.toNat + 1)

def totLenOf : List Pbuf → Nat
  | [] => 0
  | p :: _ => p.totLen.toNat

def dnsSkipName (p : List Pbuf) (queryIdx : Nat) : Nat := (skipLoop p (totLenOf p) 0x10000 queryIdx).getD 0xFFFF

/-- What a packet says to the question it answers. -/
inductive Reply where
  /-- it is ignored -/
  | malformed
  /-- the error flags are set -/
  | error
  | noAddress
  | address (ipaddr : Addr) (ttl : Nat)
  deriving DecidableEq, Repr

def ansTtl (ans : List UInt8) : Nat := (read16 ans 4).toNat * 65536 + (read16 ans 6).toNat

/-- The loop over the answers, from `res_idx` on. -/
def readAnswers (p : List Pbuf) : Nat → Nat → Reply
  | 0, _ => .noAddress
  | nanswers + 1, resIdx =>
    if resIdx < totLenOf p then
      let resIdx := dnsSkipName p resIdx
      if resIdx = 0xFFFF then .malformed
      else
        let ans := pbufCopyPartial p SIZEOF_DNS_ANSWER resIdx
        if ans.length ≠ SIZEOF_DNS_ANSWER then .malformed
        else if resIdx + SIZEOF_DNS_ANSWER > 0xFFFF then .malformed
        else
          let resIdx := resIdx + SIZEOF_DNS_ANSWER
          if read16 ans 2 = 1 ∧ read16 ans 0 = 1 ∧ read16 ans 8 = 4 then
            let ip4addr := pbufCopyPartial p 4 resIdx
            if ip4addr.length ≠ 4 then .malformed else .address ip4addr (ansTtl ans)
          else if resIdx + (read16 ans 8).toNat > 0xFFFF then .malformed
          else readAnswers p nanswers (resIdx + (read16 ans 8).toNat)
    else .noAddress

/-- From `dns_compare_name` on, with the header of the packet and the memory at the name
    asked for. -/
def readReply (hdr : List UInt8) (mem : Nat → UInt8) (p : List Pbuf) : Reply :=
  let resIdx := dnsCompareName mem p SIZEOF_DNS_HDR
  if resIdx = 0xFFFF then .malformed
  else
    let qry := pbufCopyPartial p SIZEOF_DNS_QUERY resIdx
    if qry.length ≠ SIZEOF_DNS_QUERY then .malformed
    else if read16 qry 2 ≠ 1 ∨ read16 qry 0 ≠ 1 then .malformed
    else if resIdx + SIZEOF_DNS_QUERY > 0xFFFF then .malformed
    else if hdr.getD 3 0 &&& 0x0f ≠ 0 then .error
    else readAnswers p (read16 hdr 6).toNat (resIdx + SIZEOF_DNS_QUERY)

/-! ## Names on the wire -/

/-- Parts with their lengths. -/
def wire : List (List UInt8) → List UInt8
  | [] => []
  | part :: parts => part.length.toUInt8 :: part ++ wire parts

/-- The query for a name. -/
def queryBytes (txid : UInt16) (name : List UInt8) : List UInt8 :=
  dnsHdr txid ++ (wire (hostnameParts name) ++ 0 :: dnsQry)

theorem hostnameParts_cons (c : UInt8) (cs : List UInt8) :
    hostnameParts (c :: cs) =
      if c = DOT then [] :: hostnameParts cs else (hostnameParts cs).modifyHead (List.cons c) := by
  simp only [hostnameParts, List.splitOn, List.splitOnP_cons_eq_if_modifyHead, beq_iff_eq]

theorem hostnameParts_ne_nil (cs : List UInt8) : hostnameParts cs ≠ [] := List.splitOnP_ne_nil _ _

theorem length_wire_hostnameParts (cs : List UInt8) : (wire (hostnameParts cs)).length = cs.length + 1 := by
  induction cs with
  | nil => rfl
  | cons c cs ih =>
    rw [hostnameParts_cons]
    split
    · simp [wire, ih]
    · obtain ⟨l, ls, heq⟩ := List.exists_cons_of_ne_nil (hostnameParts_ne_nil cs)
      rw [heq] at ih ⊢
      simp only [List.modifyHead_cons, wire, List.length_cons, List.length_append] at ih ⊢
      omega

/-! ## What is sent -/

/-- A write behind the bytes that are there already. -/
theorem set_done (done rest : List UInt8) (b : UInt8) :
    (done ++ rest).set done.length b = done ++ rest.set 0 b := by
  rw [List.set_append_right _ _ (Nat.le_refl _), Nat.sub_self]

theorem contents_pbufTakeAt {p : List Pbuf} (hc : Consistent p) {done rest : List UInt8} (data : List UInt8)
    (h : contents p = done ++ rest) (hfits : data.length ≤ rest.length) :
    contents (pbufTakeAt p data done.length).1 = done ++ (data ++ rest.drop data.length) := by
  have hspec := congrArg Prod.fst (pbufTakeAt_spec hc data done.length).1
  simp only at hspec
  rw [hspec, h, Bytes.step]
  split
  · simp [Bytes.write, List.drop_append]
  · next hout =>
    -- the offset may be the end of the pbuf, with nothing left to write
    have hdata : data = [] := by
      rw [← List.length_eq_zero_iff]
      simp only [List.length_append] at hout
      omega
    simp [hdata]

theorem consistent_pbufTakeAt {p : List Pbuf} (hc : Consistent p) (data : List UInt8) (offset : Nat) :
    Consistent (pbufTakeAt p data offset).1 := consistent_of_shape (pbufTakeAt_spec hc data offset).2 hc

theorem consistent_pbufPutAt {p : List Pbuf} (hc : Consistent p) (offset : Nat) (b : UInt8) :
    Consistent (pbufPutAt p offset b) := consistent_of_shape (pbufPutAt_spec p offset b).2 hc

theorem contents_pbufPutAt {p : List Pbuf} {done rest : List UInt8} (b0 b : UInt8) (h : contents p = done ++ b0 :: rest) :
    contents (pbufPutAt p done.length b) = (done ++ [b]) ++ rest := by
  rw [(pbufPutAt_spec p _ b).1, h, set_done]
  simp

/-- The loop fills the next bytes with the parts, whatever they were before. -/
theorem putParts_spec (parts : List (List UInt8)) {p : List Pbuf} (hc : Consistent p) {done rest : List UInt8}
    (h : contents p = done ++ rest) (hfits : (wire parts).length ≤ rest.length) :
    Consistent (putParts p done.length parts).1 ∧
      contents (putParts p done.length parts).1 = done ++ wire parts ++ rest.drop (wire parts).length ∧
      (putParts p done.length parts).2 = (done ++ wire parts).length := by
  induction parts generalizing p done rest with
  | nil => exact ⟨hc, by simpa [putParts, wire] using h, by simp [putParts, wire]⟩
  | cons part parts ih =>
    simp only [wire, List.length_cons, List.length_append] at hfits
    obtain ⟨b0, rest, rfl⟩ := List.exists_cons_of_ne_nil (l := rest) (by rintro rfl; simp at hfits)
    simp only [List.length_cons] at hfits
    have hput := contents_pbufPutAt b0 part.length.toUInt8 h
    have hput' := consistent_pbufPutAt hc done.length part.length.toUInt8
    have htake := contents_pbufTakeAt hput' part hput (by omega)
    have htake' := consistent_pbufTakeAt hput' part (done.length + 1)
    rw [List.length_append, List.length_singleton, ← List.append_assoc] at htake
    have hrest := ih htake' htake (by rw [List.length_drop]; omega)
    rw [show (done ++ [part.length.toUInt8] ++ part).length = done.length + part.length + 1 by simp; omega] at hrest
    have hdone : done ++ [part.length.toUInt8] ++ part ++ wire parts = done ++ wire (part :: parts) := by simp [wire]
    have hwire : (wire (part :: parts)).length = part.length + (wire parts).length + 1 := by simp [wire]
    refine ⟨hrest.1, ?_, ?_⟩
    · rw [putParts, hrest.2.1, hdone, List.drop_drop, hwire, List.drop_succ_cons]
    · rw [putParts, hrest.2.2, hdone]

/-- A pbuf of the right length holds just the query, when `dns_send` is done with it. -/
theorem contents_fillQuery (txid : UInt16) (name : List UInt8) {p : List Pbuf} (hc : Consistent p)
    (hlen : (contents p).length = SIZEOF_DNS_HDR + name.length + 2 + SIZEOF_DNS_QUERY) :
    contents (fillQuery p txid name) = queryBytes txid name := by
  have hne : p ≠ [] := by
    rintro rfl
    simp [contents, SIZEOF_DNS_HDR] at hlen
    omega
  have hwire := length_wire_hostnameParts name
  have hhdr : (dnsHdr txid).length = SIZEOF_DNS_HDR := rfl
  have htake := pbufTake_spec hc hne (dnsHdr txid)
  have h1 := congrArg Prod.fst htake.1
  simp only [Bytes.step] at h1
  rw [if_pos (by omega)] at h1
  have h1 : contents (pbufTake p (dnsHdr txid)).1 = dnsHdr txid ++ (contents p).drop SIZEOF_DNS_HDR := by
    rw [h1, Bytes.write, List.take_zero, List.nil_append, Nat.zero_add, hhdr]
  have hrest : ((contents p).drop SIZEOF_DNS_HDR).length = name.length + 2 + SIZEOF_DNS_QUERY := by
    rw [List.length_drop]
    omega
  obtain ⟨hc2, h2, hidx⟩ := putParts_spec (hostnameParts name) (consistent_of_shape htake.2 hc) h1 (by omega)
  obtain ⟨b0, rest, heq⟩ := List.exists_cons_of_ne_nil
    (l := ((contents p).drop SIZEOF_DNS_HDR).drop (wire (hostnameParts name)).length)
    (List.length_pos_iff.mp (by rw [List.length_drop]; omega))
  have hlen' := congrArg List.length heq
  rw [List.length_drop, List.length_cons] at hlen'
  rw [heq] at h2
  have h3 := contents_pbufPutAt b0 0 h2
  have h4 := contents_pbufTakeAt (consistent_pbufPutAt hc2 _ _) dnsQry h3 (by
    show SIZEOF_DNS_QUERY ≤ rest.length
    omega)
  have hend : (dnsHdr txid ++ wire (hostnameParts name) ++ [0]).length =
      (dnsHdr txid ++ wire (hostnameParts name)).length + 1 := List.length_append
  rw [hend, ← hidx] at h4
  have hnil : rest.drop dnsQry.length = [] := List.drop_eq_nil_of_le (by
    show rest.length ≤ SIZEOF_DNS_QUERY
    omega)
  exact h4.trans (by simp [hnil, queryBytes])

/-! ## What is accepted -/

/-- The parts agree with the memory, from `query` on, in any case; between them one byte of
    it is left out. -/
def Agrees (mem : Nat → UInt8) : Nat → List (List UInt8) → Prop
  | _, [] => True
  | query, part :: parts =>
    (∀ k, (hk : k < part.length) → toLower (mem (query + k)) = toLower part[k]) ∧
      Agrees mem (query + part.length + 1) parts

theorem getElem?_eq_some_iff_drop {bs : List UInt8} {i : Nat} {b : UInt8} :
    bs[i]? = some b ↔ bs.drop i = b :: bs.drop (i + 1) := by
  rw [List.getElem?_eq_some_iff]
  constructor
  · rintro ⟨hi, rfl⟩
    exact List.drop_eq_getElem_cons hi
  · intro h
    have hi : i < bs.length := by
      have := congrArg List.length h
      simp only [List.length_drop, List.length_cons] at this
      omega
    rw [List.drop_eq_getElem_cons hi] at h
    exact ⟨hi, (List.cons.inj h).1⟩

theorem compareLabel_iff {mem : Nat → UInt8} {p : List Pbuf} (hp : (contents p).length ≤ 0xFFFF) {n query off : Nat}
    {r : Nat × Nat} :
    compareLabel mem p n query off = some r ↔
      ∃ part : List UInt8, part.length = n ∧ part <+: (contents p).drop off ∧
        (∀ k, (hk : k < part.length) → toLower (mem (query + k)) = toLower part[k]) ∧ r = (query + n, off + n) := by
  induction n generalizing query off with
  | zero =>
    constructor
    · intro h
      exact ⟨[], rfl, List.nil_prefix, fun k hk => absurd hk (Nat.not_lt_zero k), (Option.some.inj h).symm⟩
    · rintro ⟨-, -, -, -, rfl⟩
      rfl
  | succ n ih =>
    rw [compareLabel, pbufTryGetAt_eq]
    cases hget : (contents p)[off]? with
    | none =>
      refine ⟨fun h => (nomatch h), ?_⟩
      rintro ⟨part, hlen, hpre, -⟩
      rw [List.drop_eq_nil_of_le (List.getElem?_eq_none_iff.mp hget), List.prefix_nil] at hpre
      rw [hpre] at hlen
      cases hlen
    | some c =>
      have hoff := (List.getElem?_eq_some_iff.mp hget).1
      have hdrop := getElem?_eq_some_iff_drop.mp hget
      simp only
      by_cases hc : toLower (mem query) = toLower c
      · rw [if_neg (not_not.mpr hc), if_neg (by omega), ih]
        constructor
        · rintro ⟨part, rfl, hpre, hagree, rfl⟩
          refine ⟨c :: part, rfl, ?_, ?_, by simp only [Prod.mk.injEq]; omega⟩
          · rw [hdrop]
            exact List.cons_prefix_cons.mpr ⟨rfl, hpre⟩
          · rintro (- | k) hk
            · exact hc
            · rw [← Nat.add_assoc, Nat.add_right_comm]
              exact hagree k (Nat.lt_of_succ_lt_succ hk)
        · rintro ⟨part, hlen, hpre, hagree, rfl⟩
          obtain ⟨c', part, rfl⟩ := List.exists_cons_of_length_eq_add_one hlen
          rw [hdrop, List.cons_prefix_cons] at hpre
          refine ⟨part, Nat.succ.inj hlen, hpre.2, fun k hk => ?_, by simp only [Prod.mk.injEq]; omega⟩
          have := hagree (k + 1) (Nat.succ_lt_succ hk)
          rwa [← Nat.add_assoc, Nat.add_right_comm] at this
      · rw [if_pos hc]
        refine ⟨fun h => (nomatch h), ?_⟩
        rintro ⟨part, hlen, hpre, hagree, -⟩
        obtain ⟨c', part, rfl⟩ := List.exists_cons_of_length_eq_add_one hlen
        rw [hdrop, List.cons_prefix_cons] at hpre
        rw [← hpre.1] at hc
        exact absurd (hagree 0 (Nat.succ_pos _)) hc

/-- What a packet has to hold for its name to be accepted. -/
structure Repeated (mem : Nat → UInt8) (bs : List UInt8) (query : Nat) (parts : List (List UInt8)) : Prop where
  nonempty : parts ≠ []
  short : ∀ part ∈ parts, part.length < 192
  /-- the first part may be empty -/
  inner : ∀ part ∈ parts.tail, part ≠ []
  wired : wire parts ++ [0] <+: bs
  agrees : Agrees mem query parts

theorem append_prefix_iff {as bs cs : List UInt8} : as ++ bs <+: cs ↔ as <+: cs ∧ bs <+: cs.drop as.length := by
  constructor
  · rintro ⟨ds, rfl⟩
    simp [List.append_assoc]
  · rintro ⟨⟨ds, rfl⟩, h⟩
    rw [List.drop_left] at h
    exact (List.prefix_append_right_inj as).mpr h

theorem compressed_iff (n : UInt8) : n &&& 0xc0 = 0xc0 ↔ 192 ≤ n.toNat := by
  have h : ∀ b : BitVec 8, UInt8.ofBitVec b &&& 0xc0 = 0xc0 ↔ 192 ≤ (UInt8.ofBitVec b).toNat := by decide +kernel
  exact h n.toBitVec

theorem toNat_toUInt8 {n : Nat} (h : n < 192) : n.toUInt8.toNat = n := Nat.mod_eq_of_lt (by omega)

/-- One turn: a part, and the byte behind it. -/
theorem compareLoop_succ_iff {mem : Nat → UInt8} {p : List Pbuf} (hp : (contents p).length ≤ 0xFFFF)
    {turns query off r : Nat} :
    compareLoop mem p (turns + 1) query off = some r ↔
      ∃ part n, part.length < 192 ∧ part.length.toUInt8 :: part <+: (contents p).drop off ∧
        (∀ k, (hk : k < part.length) → toLower (mem (query + k)) = toLower part[k]) ∧
        (contents p)[off + 1 + part.length]? = some n ∧
        (n ≠ 0 → compareLoop mem p turns (query + part.length + 1) (off + 1 + part.length) = some r) ∧
        (n = 0 → r = off + 1 + part.length + 1) := by
  rw [compareLoop, pbufTryGetAt_eq]
  constructor
  · intro h
    cases hget : (contents p)[off]? with
    | none => simp [hget] at h
    | some b =>
      have hdrop := getElem?_eq_some_iff_drop.mp hget
      have hoff := (List.getElem?_eq_some_iff.mp hget).1
      simp only [hget] at h
      rw [if_neg (by omega)] at h
      split at h
      · cases h
      · next hb =>
        rw [compressed_iff, Nat.not_le] at hb
        cases hlabel : compareLabel mem p b.toNat query (off + 1) with
        | none => simp [hlabel] at h
        | some r' =>
          obtain ⟨part, hlen, hpre, hagree, rfl⟩ := (compareLabel_iff hp).mp hlabel
          rw [← hlen] at hlabel h
          simp only [hlabel, pbufTryGetAt_eq] at h
          cases hnext : (contents p)[off + 1 + part.length]? with
          | none => simp [hnext] at h
          | some n =>
            have hoff' := (List.getElem?_eq_some_iff.mp hnext).1
            simp only [hnext] at h
            refine ⟨part, n, by omega, ?_, hagree, hnext, fun hn => ?_, fun hn => ?_⟩
            · rw [hdrop, List.cons_prefix_cons, hlen]
              exact ⟨UInt8.ofNat_toNat, hpre⟩
            · rwa [if_pos hn] at h
            · rw [if_neg (not_not.mpr hn), if_neg (by omega)] at h
              exact (Option.some.inj h).symm
  · rintro ⟨part, n, hlen, hpre, hagree, hnext, hmore, hend⟩
    obtain ⟨ds, hds⟩ := hpre
    have hget : (contents p)[off]? = some part.length.toUInt8 := by
      rw [← List.head?_drop, ← hds]
      rfl
    have hoff := (List.getElem?_eq_some_iff.mp hget).1
    have hoff' := (List.getElem?_eq_some_iff.mp hnext).1
    have hpre : part <+: (contents p).drop (off + 1) := by
      have hdrop := getElem?_eq_some_iff_drop.mp hget
      rw [← hds, List.cons_append, List.cons.injEq] at hdrop
      exact ⟨ds, hdrop.2⟩
    have hlabel : compareLabel mem p part.length query (off + 1) = some (query + part.length, off + 1 + part.length) :=
      (compareLabel_iff hp).mpr ⟨part, rfl, hpre, hagree, rfl⟩
    simp only [hget]
    rw [if_neg (by omega), if_neg (by rw [compressed_iff, toNat_toUInt8 hlen]; omega), toNat_toUInt8 hlen]
    simp only [hlabel, pbufTryGetAt_eq, hnext]
    by_cases hn : n = 0
    · rw [if_neg (not_not.mpr hn), if_neg (by omega), hend hn]
    · rw [if_pos hn, hmore hn]

/-- `dns_compare_name` accepts just the names that are repeated; the rest of the name asked
    for is not looked at. -/
theorem compareLoop_iff {mem : Nat → UInt8} {p : List Pbuf} (hp : (contents p).length ≤ 0xFFFF)
    {turns query off r : Nat} (hturns : (contents p).length < off + turns) :
    compareLoop mem p turns query off = some r ↔
      ∃ parts, Repeated mem ((contents p).drop off) query parts ∧ r = off + (wire parts).length + 1 := by
  induction turns generalizing query off with
  | zero =>
    refine ⟨fun h => (nomatch h), ?_⟩
    rintro ⟨parts, h, -⟩
    have hlen := h.wired.length_le
    rw [List.drop_eq_nil_of_le (by omega)] at hlen
    simp at hlen
  | succ turns ih =>
    have hdrop : ∀ part : List UInt8, ((contents p).drop off).drop (part.length.toUInt8 :: part).length =
        (contents p).drop (off + 1 + part.length) := by
      intro part
      rw [List.drop_drop, List.length_cons, Nat.add_assoc, Nat.add_comm 1]
    rw [compareLoop_succ_iff hp]
    constructor
    · rintro ⟨part, n, hlen, hpre, hagree, hnext, hmore, hend⟩
      by_cases hn : n = 0
      · -- the packet's name ends here
        refine ⟨[part], ⟨List.cons_ne_nil _ _, ?_, ?_, ?_, hagree, trivial⟩, ?_⟩
        · simpa using hlen
        · simp
        · rw [wire, wire, List.append_nil, append_prefix_iff, hdrop, getElem?_eq_some_iff_drop.mp hnext, hn]
          exact ⟨hpre, by simp⟩
        · rw [hend hn]
          simp [wire]
          omega
      · obtain ⟨parts, hrep, rfl⟩ := (ih (by omega)).mp (hmore hn)
        refine ⟨part :: parts, ⟨List.cons_ne_nil _ _, ?_, ?_, ?_, hagree, hrep.agrees⟩, ?_⟩
        · intro part' hmem
          rcases List.mem_cons.mp hmem with rfl | hmem
          · exact hlen
          · exact hrep.short _ hmem
        · obtain ⟨part', parts, rfl⟩ := List.exists_cons_of_ne_nil hrep.nonempty
          intro part'' hmem
          rcases List.mem_cons.mp hmem with rfl | hmem
          · rintro rfl
            have hwired := hrep.wired
            rw [getElem?_eq_some_iff_drop.mp hnext, wire, List.cons_append, List.cons_append,
              List.cons_prefix_cons] at hwired
            exact hn hwired.1.symm
          · exact hrep.inner _ hmem
        · rw [wire, List.append_assoc, append_prefix_iff, hdrop]
          exact ⟨hpre, hrep.wired⟩
        · simp [wire]
          omega
    · rintro ⟨parts, h, rfl⟩
      obtain ⟨part, parts, rfl⟩ := List.exists_cons_of_ne_nil h.nonempty
      have hwired := h.wired
      rw [wire, List.append_assoc, append_prefix_iff, hdrop] at hwired
      have hlen := h.short part List.mem_cons_self
      cases parts with
      | nil =>
        have hnext : (contents p)[off + 1 + part.length]? = some 0 := by
          obtain ⟨ds, hds⟩ := hwired.2
          rw [← List.head?_drop, ← hds]
          rfl
        refine ⟨part, 0, hlen, hwired.1, h.agrees.1, hnext, fun h0 => absurd rfl h0, fun _ => ?_⟩
        simp [wire]
        omega
      | cons part' parts =>
        have hnext : (contents p)[off + 1 + part.length]? = some part'.length.toUInt8 := by
          obtain ⟨ds, hds⟩ := hwired.2
          rw [← List.head?_drop, ← hds]
          rfl
        have hne : part'.length.toUInt8 ≠ 0 := by
          intro h0
          have hlen' := toNat_toUInt8 (h.short part' (by simp))
          rw [h0] at hlen'
          exact h.inner part' List.mem_cons_self (List.length_eq_zero_iff.mp hlen'.symm)
        refine ⟨part, _, hlen, hwired.1, h.agrees.1, hnext, fun _ => ?_, fun h0 => absurd h0 hne⟩
        rw [ih (by omega)]
        refine ⟨part' :: parts, ⟨List.cons_ne_nil _ _, ?_, ?_, hwired.2, h.agrees.2⟩, ?_⟩
        · exact fun part'' hmem => h.short _ (List.mem_cons_of_mem _ hmem)
        · exact fun part'' hmem => h.inner _ (List.mem_cons_of_mem _ hmem)
        · simp [wire]
          omega

/-- A packet's name is accepted just when it is repeated, and then the offset behind it is
    returned. -/
theorem dnsCompareName_exact (mem : Nat → UInt8) {p : List Pbuf} (hp : (contents p).length < 0xFFFF) (off r : Nat) :
    dnsCompareName mem p off = r ∧ r ≠ 0xFFFF ↔
      ∃ parts, Repeated mem ((contents p).drop off) 0 parts ∧ r = off + (wire parts).length + 1 := by
  have hloop : ∀ r, compareLoop mem p 0x10000 0 off = some r ↔
      ∃ parts, Repeated mem ((contents p).drop off) 0 parts ∧ r = off + (wire parts).length + 1 :=
    fun r => compareLoop_iff (Nat.le_of_lt hp) (by omega)
  rw [← hloop, dnsCompareName]
  constructor
  · rintro ⟨heq, hne⟩
    cases h : compareLoop mem p 0x10000 0 off with
    | none => exact absurd (by rw [← heq, h]; rfl) hne
    | some r' => rw [← heq, h]; rfl
  · intro h
    obtain ⟨parts, hrep, rfl⟩ := (hloop r).mp h
    have hlen := hrep.wired.length_le
    rw [List.length_drop, List.length_append, List.length_singleton] at hlen
    exact ⟨by rw [h]; rfl, by omega⟩

/-- The question "ir" is taken for an echo of "irc": the offset behind it is 4. -/
theorem shorter_name_accepted :
    dnsCompareName (stringz [105, 114, 99]) [⟨[2, 105, 114, 0], 4⟩] 0 = 4 ∧
      ∃ parts, Repeated (stringz [105, 114, 99]) [2, 105, 114, 0] 0 parts ∧ 4 = 0 + (wire parts).length + 1 :=
  ⟨by decide +kernel,
    (dnsCompareName_exact (stringz [105, 114, 99]) (p := [⟨[2, 105, 114, 0], 4⟩]) (by decide) 0 4).mp
      ⟨by decide +kernel, by decide⟩⟩

/-! ## A query and its echo -/

/-- The parts of a name that can be asked for: not empty, and no longer than the reading
    side takes. -/
def Askable (name : List UInt8) : Prop := ∀ part ∈ hostnameParts name, part ≠ [] ∧ part.length < 192

instance (name : List UInt8) : Decidable (Askable name) := List.decidableBAll _ _

theorem toLower_eq_dot {c : UInt8} : toLower c = toLower DOT ↔ c = DOT := by
  have h : ∀ b : BitVec 8, toLower (UInt8.ofBitVec b) = toLower DOT ↔ UInt8.ofBitVec b = DOT := by decide +kernel
  exact h c.toBitVec

/-- The dots stand at the same places in any case. -/
theorem lengths_hostnameParts {cs ds : List UInt8} (h : ds.map toLower = cs.map toLower) :
    (hostnameParts ds).map List.length = (hostnameParts cs).map List.length := by
  induction cs generalizing ds with
  | nil => rw [List.map_eq_nil_iff.mp h]
  | cons c cs ih =>
    cases ds with
    | nil => cases h
    | cons d ds =>
      rw [List.map_cons, List.map_cons, List.cons.injEq] at h
      have ih := ih h.2
      have hdot : d = DOT ↔ c = DOT := by rw [← toLower_eq_dot, h.1, toLower_eq_dot]
      rw [hostnameParts_cons, hostnameParts_cons]
      by_cases hc : c = DOT
      · rw [if_pos hc, if_pos (hdot.mpr hc), List.map_cons, List.map_cons, ih]
      · rw [if_neg hc, if_neg (mt hdot.mp hc)]
        obtain ⟨l, ls, hl⟩ := List.exists_cons_of_ne_nil (hostnameParts_ne_nil cs)
        obtain ⟨l', ls', hl'⟩ := List.exists_cons_of_ne_nil (hostnameParts_ne_nil ds)
        simp only [hl, hl', List.modifyHead_cons, List.map_cons, List.length_cons, List.cons.injEq] at ih ⊢
        exact ⟨congrArg (· + 1) ih.1, ih.2⟩

theorem Askable.of_lower {cs ds : List UInt8} (h : ds.map toLower = cs.map toLower) (hcs : Askable cs) : Askable ds := by
  intro part hmem
  have hlen : part.length ∈ (hostnameParts cs).map List.length := by
    rw [← lengths_hostnameParts h]
    exact List.mem_map_of_mem hmem
  obtain ⟨part', hmem', heq⟩ := List.mem_map.mp hlen
  obtain ⟨hne, hshort⟩ := hcs part' hmem'
  refine ⟨fun h0 => hne ?_, by omega⟩
  rw [h0] at heq
  exact List.length_eq_zero_iff.mp heq

theorem agrees_hostnameParts {mem : Nat → UInt8} {cs : List UInt8} {query : Nat}
    (h : ∀ k, (hk : k < cs.length) → toLower (mem (query + k)) = toLower cs[k]) :
    Agrees mem query (hostnameParts cs) := by
  induction cs generalizing query with
  | nil => exact ⟨fun k hk => absurd hk (Nat.not_lt_zero k), trivial⟩
  | cons c cs ih =>
    have htail : Agrees mem (query + 1) (hostnameParts cs) := ih fun k hk => by
      have := h (k + 1) (Nat.succ_lt_succ hk)
      rwa [← Nat.add_assoc, Nat.add_right_comm] at this
    rw [hostnameParts_cons]
    split
    · exact ⟨fun k hk => absurd hk (Nat.not_lt_zero k), htail⟩
    · obtain ⟨l, ls, hl⟩ := List.exists_cons_of_ne_nil (hostnameParts_ne_nil cs)
      rw [hl] at htail ⊢
      refine ⟨?_, ?_⟩
      · rintro (- | k) hk
        · exact h 0 (Nat.succ_pos _)
        · rw [← Nat.add_assoc, Nat.add_right_comm]
          exact htail.1 k (Nat.lt_of_succ_lt_succ hk)
      · have := htail.2
        rwa [Nat.add_right_comm query 1] at this

/-- The memory at the name of an entry starts with the name, in any case, and its NUL. -/
def Holds (mem : Nat → UInt8) (name : List UInt8) : Prop := ∀ k ≤ name.length, toLower (mem k) = toLower (stringz name k)

theorem Holds.getElem {mem : Nat → UInt8} {name : List UInt8} (h : Holds mem name) (k : Nat) (hk : k < name.length) :
    toLower (mem k) = toLower name[k] := by
  rw [h k (Nat.le_of_lt hk), stringz, List.getD_eq_getElem _ _ hk]

theorem compareLoop_echo {mem : Nat → UInt8} {name echo hdr rest : List UInt8} (hask : Askable name)
    (hmem : Holds mem name) (hecho : echo.map toLower = name.map toLower) (hhdr : hdr.length = SIZEOF_DNS_HDR)
    {p : List Pbuf} (hp : (contents p).length ≤ 0xFFFF)
    (hcontents : contents p = hdr ++ (wire (hostnameParts echo) ++ 0 :: rest)) :
    compareLoop mem p 0x10000 0 SIZEOF_DNS_HDR = some (SIZEOF_DNS_HDR + name.length + 2) := by
  have hask' := hask.of_lower hecho
  have hlen : echo.length = name.length := by simpa using congrArg List.length hecho
  rw [compareLoop_iff hp (by omega)]
  refine ⟨hostnameParts echo, ⟨hostnameParts_ne_nil _, fun part h => (hask' part h).2,
    fun part h => (hask' part (List.mem_of_mem_tail h)).1, ?_, agrees_hostnameParts fun k hk => ?_⟩, ?_⟩
  · rw [hcontents, ← hhdr, List.drop_left]
    exact ⟨rest, by simp⟩
  · rw [Nat.zero_add, hmem.getElem k (hlen ▸ hk)]
    have hk' := congrArg (·[k]?) hecho
    simpa [List.getElem?_map, List.getElem?_eq_getElem hk, List.getElem?_eq_getElem (hlen ▸ hk : k < name.length)]
      using hk'.symm
  · rw [length_wire_hostnameParts]
    omega

end Nanotube.Lwip.Dns
