/-
  Nanotube.Lwip.Dns.Answers — in which answers is an address found? (src/lwIP/core/dns.c
  `dns_skip_name`, the loop over the answers of `dns_recv`)

  An answer repeats the question and lists records: the name of the owner, type, class, time
  to live, and data behind its length. A name is parts, each behind its length, and ends with
  a 0 or with a pointer to where it goes on. The loop steps over records until it comes to
  one with an IPv4 address; it does not look at the names.

  Proved: of an answer to a question, in any case, with any records without an address and
  then one with an address, this one is read (`Answer.readReply_eq`). An owner may not be
  the root: of a name that is a single 0 `dns_skip_name` takes the 0 for the length of a part
  and goes on behind it.
-/

import Nanotube.Lwip.Dns.Message

namespace Nanotube.Lwip.Dns

open Nanotube.Lib.Wire Pbufs

/-! ## Names that are stepped over -/

/-- How a name ends: with a pointer, or a 0. -/
def nameEnd : Option (UInt8 × UInt8) → List UInt8
  | none => [0]
  | some (hi, lo) => [hi, lo]

/-- The parts have lengths that are no pointers, and there is one if the name ends with a 0. -/
structure IsName (parts : List (List UInt8)) (pointer : Option (UInt8 × UInt8)) : Prop where
  short : ∀ part ∈ parts, part ≠ [] ∧ part.length < 192
  named : pointer = none → parts ≠ []
  flagged : ∀ q ∈ pointer, q.1 &&& 0xc0 = 0xc0

/-- A name does not begin with a 0, so what is behind a part is a 0 only where a name ends. -/
theorem IsName.head {parts : List (List UInt8)} {pointer : Option (UInt8 × UInt8)} (h : IsName parts pointer)
    (t : List UInt8) : ∃ b, (wire parts ++ (nameEnd pointer ++ t)).head? = some b ∧ b ≠ 0 := by
  cases parts with
  | nil =>
    cases pointer with
    | none => exact absurd rfl (h.named rfl)
    | some q =>
      refine ⟨q.1, rfl, fun h0 => ?_⟩
      have hq := h.flagged q rfl
      rw [h0] at hq
      exact absurd hq (by decide)
  | cons part parts =>
    obtain ⟨hne, hlt⟩ := h.short part List.mem_cons_self
    refine ⟨part.length.toUInt8, rfl, fun h0 => hne ?_⟩
    have hlen := toNat_toUInt8 hlt
    rw [h0] at hlen
    exact List.length_eq_zero_iff.mp hlen.symm

theorem length_wire_cons (part : List UInt8) (parts : List (List UInt8)) :
    (wire (part :: parts)).length = 1 + part.length + (wire parts).length := by
  simp only [wire, List.length_append, List.length_cons]
  omega

theorem nameEnd_pos (pointer : Option (UInt8 × UInt8)) : 0 < (nameEnd pointer).length := by
  cases pointer with
  | none => exact Nat.one_pos
  | some q => exact Nat.two_pos

section Skip

variable {p : List Pbuf} {off : Nat}

/-- A pointer ends the name. -/
theorem skipLoop_pointer (hp : (contents p).length < 0xFFFF) {q : UInt8 × UInt8} (hq : q.1 &&& 0xc0 = 0xc0)
    {t : List UInt8} (ht : 0 < t.length) (hdrop : (contents p).drop off = nameEnd (some q) ++ t) (turns : Nat) :
    skipLoop p (contents p).length (turns + 1) off = some (off + 2) := by
  have hlen := congrArg List.length hdrop
  simp only [nameEnd, List.length_append, List.length_cons, List.length_nil, List.length_drop] at hlen
  have hget : (contents p)[off]? = some q.1 := by
    rw [← List.head?_drop, hdrop]
    rfl
  rw [skipLoop, pbufTryGetAt_eq, hget]
  simp only
  rw [if_neg (by omega), if_pos hq, if_neg (by omega)]

/-- What stands behind a part. -/
theorem drop_part {part : List UInt8} {parts : List (List UInt8)} {t : List UInt8}
    (hdrop : (contents p).drop off = wire (part :: parts) ++ t) :
    (contents p).drop (off + 1 + part.length) = wire parts ++ t := by
  rw [Nat.add_assoc, ← List.drop_drop, hdrop, Nat.add_comm 1]
  simp only [wire, List.cons_append, List.append_assoc, List.drop_succ_cons]
  exact List.drop_left

theorem skipLoop_name (hp : (contents p).length < 0xFFFF) {parts : List (List UInt8)}
    {pointer : Option (UInt8 × UInt8)} (hname : IsName parts pointer) {t : List UInt8} (ht : t ≠ []) {turns : Nat}
    (hturns : parts.length < turns) (hdrop : (contents p).drop off = wire parts ++ (nameEnd pointer ++ t)) :
    skipLoop p (contents p).length turns off = some (off + (wire parts).length + (nameEnd pointer).length) := by
  have htlen : 0 < t.length := List.length_pos_of_ne_nil ht
  induction parts generalizing off turns with
  | nil =>
    obtain ⟨turns, rfl⟩ := Nat.exists_eq_succ_of_ne_zero (Nat.ne_of_gt hturns)
    cases pointer with
    | none => exact absurd rfl (hname.named rfl)
    | some q => exact skipLoop_pointer hp (hname.flagged q rfl) htlen hdrop turns
  | cons part parts ih =>
    obtain ⟨turns, rfl⟩ := Nat.exists_eq_succ_of_ne_zero (Nat.ne_of_gt (Nat.lt_of_le_of_lt (Nat.zero_le _) hturns))
    obtain ⟨-, hlt⟩ := hname.short part List.mem_cons_self
    have hnat := toNat_toUInt8 hlt
    have hget : (contents p)[off]? = some part.length.toUInt8 := by
      rw [← List.head?_drop, hdrop]
      rfl
    have hdrop' := drop_part hdrop
    have hlen := congrArg List.length hdrop'
    simp only [List.length_append, List.length_drop] at hlen
    have hend := nameEnd_pos pointer
    have hcompressed : ¬ part.length.toUInt8 &&& 0xc0 = 0xc0 := by
      rw [compressed_iff, hnat]
      omega
    rw [skipLoop, pbufTryGetAt_eq, hget]
    simp only
    rw [if_neg (by omega), if_neg hcompressed, hnat, if_neg (by omega), pbufTryGetAt_eq, ← List.head?_drop, hdrop',
      length_wire_cons]
    by_cases hlast : pointer = none ∧ parts = []
    · obtain ⟨rfl, rfl⟩ := hlast
      have hzero : (wire [] ++ (nameEnd none ++ t)).head? = some 0 := rfl
      rw [hzero]
      simp only [ne_eq, not_true_eq_false, if_false]
      rw [if_neg (by omega)]
      exact congrArg some (by simp only [wire, nameEnd, List.length_nil, List.length_cons]; omega)
    · have hrest : IsName parts pointer :=
        ⟨fun q hq => hname.short q (List.mem_cons_of_mem _ hq), fun h0 h1 => hlast ⟨h0, h1⟩, hname.flagged⟩
      obtain ⟨b, hb, hne⟩ := hrest.head t
      rw [hb]
      simp only [ne_eq, hne, not_false_eq_true, if_true]
      rw [ih hrest (Nat.lt_of_succ_lt_succ hturns) hdrop']
      exact congrArg some (by omega)

end Skip

/-! ## Records -/

structure Record where
  parts : List (List UInt8)
  pointer : Option (UInt8 × UInt8)
  type : UInt16
  cls : UInt16
  ttl : List UInt8
  data : List UInt8
  isName : IsName parts pointer
  ttl_length : ttl.length = 4
  data_length : data.length < 65536

namespace Record

/-- `struct dns_answer` -/
def fixed (r : Record) : List UInt8 := be16 r.type ++ (be16 r.cls ++ (r.ttl ++ be16 r.data.length.toUInt16))

def bytes (r : Record) : List UInt8 := wire r.parts ++ (nameEnd r.pointer ++ (r.fixed ++ r.data))

/-- An IPv4 address of the class IN. -/
def IsAddress (r : Record) : Prop := r.cls = 1 ∧ r.type = 1 ∧ r.data.length = 4

instance (r : Record) : Decidable r.IsAddress := inferInstanceAs (Decidable (_ ∧ _))

variable (r : Record)

theorem length_fixed : r.fixed.length = SIZEOF_DNS_ANSWER := by
  simp [fixed, be16, r.ttl_length, SIZEOF_DNS_ANSWER]

theorem read16_fixed : read16 r.fixed 0 = r.type ∧ read16 r.fixed 2 = r.cls ∧ read16 r.fixed 8 = r.data.length.toUInt16 := by
  refine ⟨read16_be16 _ _, ?_, ?_⟩
  · exact read16_be16 r.cls (r.ttl ++ be16 r.data.length.toUInt16)
  · have h := read16_append (be16 r.type ++ (be16 r.cls ++ r.ttl)) (be16 r.data.length.toUInt16) 0
    rw [List.append_assoc, List.append_assoc, List.length_append, List.length_append, r.ttl_length] at h
    exact h.trans (read16_be16 r.data.length.toUInt16 [])

theorem toNat_length : r.data.length.toUInt16.toNat = r.data.length := Nat.mod_eq_of_lt r.data_length

theorem isAddress_iff :
    (read16 r.fixed 2 = 1 ∧ read16 r.fixed 0 = 1 ∧ read16 r.fixed 8 = 4) ↔ r.IsAddress := by
  obtain ⟨htype, hcls, hlen⟩ := r.read16_fixed
  have hfour : r.data.length.toUInt16 = 4 ↔ r.data.length = 4 := by
    rw [← UInt16.toNat_inj, toNat_length]
    rfl
  rw [htype, hcls, hlen, hfour]
  rfl

end Record

theorem totLenOf_eq {p : List Pbuf} (hne : p ≠ []) (hc : Consistent p) : totLenOf p = (contents p).length := by
  cases p with
  | nil => exact absurd rfl hne
  | cons q qs => exact Pbufs.totLen_eq hc

theorem parts_length_le (parts : List (List UInt8)) : parts.length ≤ (wire parts).length := by
  induction parts with
  | nil => exact Nat.le_refl _
  | cons part parts ih =>
    simp only [wire, List.length_append, List.length_cons]
    omega

section Records

variable {p : List Pbuf} (hne : p ≠ []) (hc : Consistent p) (hp : (contents p).length < 0xFFFF)
include hne hc hp

/-- What the loop sees of a record: the fixed part and the offset of the data. -/
theorem readAnswers_record {r : Record} {t : List UInt8} {off : Nat} (hdrop : (contents p).drop off = r.bytes ++ t)
    (nanswers : Nat) :
    readAnswers p (nanswers + 1) off =
      if r.IsAddress then .address r.data (ansTtl r.fixed) else readAnswers p nanswers (off + r.bytes.length) := by
  have hbytes : r.bytes.length = (wire r.parts).length + ((nameEnd r.pointer).length + (SIZEOF_DNS_ANSWER + r.data.length)) := by
    rw [Record.bytes, List.length_append, List.length_append, List.length_append, r.length_fixed]
  have hten : SIZEOF_DNS_ANSWER = 10 := rfl
  have hlen := congrArg List.length hdrop
  rw [List.length_drop, List.length_append] at hlen
  have hfixed : r.fixed ++ (r.data ++ t) ≠ [] := by
    intro h0
    have hzero := congrArg List.length h0
    rw [List.length_append, r.length_fixed, List.length_nil] at hzero
    omega
  have hdrop0 : (contents p).drop off = wire r.parts ++ (nameEnd r.pointer ++ (r.fixed ++ (r.data ++ t))) := by
    rw [hdrop, Record.bytes]
    simp only [List.append_assoc]
  have hwire := parts_length_le r.parts
  have hskip : dnsSkipName p off = off + (wire r.parts).length + (nameEnd r.pointer).length := by
    rw [dnsSkipName, totLenOf_eq hne hc, skipLoop_name hp r.isName hfixed (by omega) hdrop0]
    rfl
  -- from the fixed part on, and from the data on
  have hdrop1 : (contents p).drop (off + (wire r.parts).length + (nameEnd r.pointer).length) =
      r.fixed ++ (r.data ++ t) := by
    rw [← List.drop_drop, ← List.drop_drop, hdrop0, List.drop_left, List.drop_left]
  have hdrop2 : (contents p).drop (off + (wire r.parts).length + (nameEnd r.pointer).length + SIZEOF_DNS_ANSWER) =
      r.data ++ t := by
    rw [← List.drop_drop, hdrop1, ← r.length_fixed, List.drop_left]
  have hcopy : pbufCopyPartial p SIZEOF_DNS_ANSWER (off + (wire r.parts).length + (nameEnd r.pointer).length) = r.fixed := by
    rw [pbufCopyPartial_eq, hdrop1, ← r.length_fixed]
    exact List.take_left
  rw [readAnswers, if_pos (by rw [totLenOf_eq hne hc]; omega), hskip]
  simp only [hcopy]
  rw [if_neg (by omega), if_neg (not_not.mpr r.length_fixed), if_neg (by omega)]
  by_cases haddr : r.IsAddress
  · have hip : pbufCopyPartial p 4 (off + (wire r.parts).length + (nameEnd r.pointer).length + SIZEOF_DNS_ANSWER) = r.data := by
      rw [pbufCopyPartial_eq, hdrop2, ← haddr.2.2]
      exact List.take_left
    rw [if_pos (r.isAddress_iff.mpr haddr), if_pos haddr, hip, if_neg (not_not.mpr haddr.2.2)]
  · rw [if_neg (fun h0 => haddr (r.isAddress_iff.mp h0)), if_neg haddr, (Record.read16_fixed r).2.2, r.toNat_length,
      if_neg (by omega), hbytes]
    congr 1
    omega

/-- Records without an address are stepped over. -/
theorem readAnswers_found {skipped : List Record} (hother : ∀ r ∈ skipped, ¬ r.IsAddress) {found : Record}
    (haddr : found.IsAddress) {t : List UInt8} {off nanswers : Nat} (hmore : skipped.length < nanswers)
    (hdrop : (contents p).drop off = (skipped.map Record.bytes).flatten ++ (found.bytes ++ t)) :
    readAnswers p nanswers off = .address found.data (ansTtl found.fixed) := by
  induction skipped generalizing off nanswers with
  | nil =>
    obtain ⟨n, rfl⟩ := Nat.exists_eq_succ_of_ne_zero (Nat.ne_of_gt hmore)
    rw [readAnswers_record hne hc hp hdrop, if_pos haddr]
  | cons r skipped ih =>
    obtain ⟨n, rfl⟩ := Nat.exists_eq_succ_of_ne_zero (Nat.ne_of_gt (Nat.lt_of_le_of_lt (Nat.zero_le _) hmore))
    have hrest : (contents p).drop off = r.bytes ++ ((skipped.map Record.bytes).flatten ++ (found.bytes ++ t)) := by
      rw [hdrop, List.map_cons, List.flatten_cons, List.append_assoc]
    have hnext : (contents p).drop (off + r.bytes.length) = (skipped.map Record.bytes).flatten ++ (found.bytes ++ t) := by
      rw [← List.drop_drop, hrest, List.drop_left]
    rw [readAnswers_record hne hc hp hrest, if_neg (hother r List.mem_cons_self)]
    exact ih (fun r' h' => hother r' (List.mem_cons_of_mem _ h')) (Nat.lt_of_succ_lt_succ hmore) hnext

end Records

/-! ## Answers -/

/-- A message that answers a question with an address, behind any other records. -/
structure Answer where
  flags1 : UInt8
  flags2 : UInt8
  nanswers : UInt16
  /-- the counts of the records that are no answers -/
  counts : List UInt8
  /-- the name asked for, in some case -/
  echo : List UInt8
  skipped : List Record
  found : Record
  rest : List UInt8
  response : flags1 &&& 0x80 ≠ 0
  noError : flags2 &&& 0x0f = 0
  enough : skipped.length < nanswers.toNat
  counts_length : counts.length = 4
  skipped_other : ∀ r ∈ skipped, ¬ r.IsAddress
  found_address : found.IsAddress

def Answer.ipaddr (m : Answer) : Addr := m.found.data

def Answer.hdr (m : Answer) (txid : UInt16) : List UInt8 :=
  be16 txid ++ ([m.flags1, m.flags2] ++ (be16 1 ++ (be16 m.nanswers ++ m.counts)))

def Answer.records (m : Answer) : List UInt8 := (m.skipped.map Record.bytes).flatten ++ (m.found.bytes ++ m.rest)

def Answer.bytes (m : Answer) (txid : UInt16) : List UInt8 :=
  m.hdr txid ++ (wire (hostnameParts m.echo) ++ 0 :: (dnsQry ++ m.records))

namespace Answer
variable (m : Answer) (txid : UInt16)

theorem length_hdr : (m.hdr txid).length = SIZEOF_DNS_HDR := by
  simp [hdr, be16, m.counts_length, SIZEOF_DNS_HDR]

theorem read16_hdr : read16 (m.hdr txid) 0 = txid ∧ read16 (m.hdr txid) 4 = 1 ∧ read16 (m.hdr txid) 6 = m.nanswers := by
  refine ⟨read16_be16 _ _, ?_, ?_⟩
  · exact read16_be16 1 (be16 m.nanswers ++ m.counts)
  · exact read16_be16 m.nanswers m.counts

/-- What stands from the offset behind the question's name on. -/
theorem drop_bytes : (m.bytes txid).drop (SIZEOF_DNS_HDR + m.echo.length + 2) = dnsQry ++ m.records := by
  have hpre : m.bytes txid = (m.hdr txid ++ wire (hostnameParts m.echo) ++ [0]) ++ (dnsQry ++ m.records) := by simp [bytes]
  have hlen : (m.hdr txid ++ wire (hostnameParts m.echo) ++ [0]).length = SIZEOF_DNS_HDR + m.echo.length + 2 := by
    rw [List.length_append, List.length_append, length_hdr, length_wire_hostnameParts]
    rfl
  rw [hpre, ← hlen, List.drop_left]

theorem length_bytes : (m.bytes txid).length = SIZEOF_DNS_HDR + m.echo.length + 2 + SIZEOF_DNS_QUERY + m.records.length := by
  simp only [bytes, List.length_append, length_hdr, length_wire_hostnameParts, List.length_cons,
    show dnsQry.length = SIZEOF_DNS_QUERY from rfl]
  omega

variable {m} {txid} {p : List Pbuf}

theorem copy_hdr (h : contents p = m.bytes txid) : pbufCopyPartial p SIZEOF_DNS_HDR 0 = m.hdr txid := by
  rw [pbufCopyPartial_eq, h, List.drop_zero, ← m.length_hdr txid]
  exact List.take_left

theorem readReply_eq {mem : Nat → UInt8} {name : List UInt8} (hask : Askable name) (hmem : Holds mem name)
    (hecho : m.echo.map toLower = name.map toLower) (hne : p ≠ []) (hc : Consistent p) (h : contents p = m.bytes txid)
    (hlen : (contents p).length < 0xFFFF) :
    readReply (m.hdr txid) mem p = .address m.ipaddr (ansTtl m.found.fixed) := by
  have hlength := m.length_bytes txid
  rw [← h] at hlength
  have hecholen : m.echo.length = name.length := by simpa using congrArg List.length hecho
  have hname : dnsCompareName mem p SIZEOF_DNS_HDR = SIZEOF_DNS_HDR + m.echo.length + 2 := by
    rw [dnsCompareName, compareLoop_echo hask hmem hecho (m.length_hdr txid) (Nat.le_of_lt hlen) h, hecholen]
    rfl
  have hqry : pbufCopyPartial p SIZEOF_DNS_QUERY (SIZEOF_DNS_HDR + m.echo.length + 2) = dnsQry := by
    rw [pbufCopyPartial_eq, h, m.drop_bytes txid]
    show List.take dnsQry.length _ = dnsQry
    exact List.take_left
  have hrecords : (contents p).drop (SIZEOF_DNS_HDR + m.echo.length + 2 + SIZEOF_DNS_QUERY) = m.records := by
    rw [← List.drop_drop, h, m.drop_bytes txid]
    show List.drop dnsQry.length _ = m.records
    exact List.drop_left
  have hflags : (m.hdr txid).getD 3 0 = m.flags2 := rfl
  simp only [readReply, hname, hqry, hflags, (m.read16_hdr txid).2.2]
  rw [if_neg (by omega), if_neg (by decide), if_neg (by decide), if_neg (by omega), if_neg (not_not.mpr m.noError)]
  exact readAnswers_found hne hc hlen m.skipped_other m.found_address m.enough hrecords

end Answer

end Nanotube.Lwip.Dns
