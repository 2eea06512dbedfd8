/-
  Nanotube.Lwip.Pbuf — can the split of a packet into pbufs be seen? (src/lwIP/core/pbuf.c:
  `pbuf_copy_partial`, `pbuf_skip_const`, `pbuf_try_get_at`, `pbuf_put_at`, `pbuf_take`,
  `pbuf_take_at`, `pbuf_memcmp`, `pbuf_memfind`, `pbuf_realloc`, `pbuf_free_header`,
  `pbuf_cat`, `pbuf_copy`, `pbuf_clone`, `pbuf_coalesce`)

  A packet is a chain of pbufs; every function here walks the chain with its own loop and
  its own offsets. `Bytes.step` is what each of them is for: the same operation on the
  bytes of the packet in one piece.

  Proved: over any sequence of operations, with any splits and whatever memory
  `pbuf_coalesce` is given, each operation returns what it returns on the bytes in one
  piece, and the chain keeps its `tot_len` fields right (`chain_refines_bytes`).
  `pbuf_clone` drops the result of `pbuf_copy`, which refuses a chain that ends in an empty
  pbuf after having copied part of it; so a packet must not end in one (`Good.tail`).
-/

import Nanotube.Device.Transmit
import Nanotube.Lib.Simulation

namespace Nanotube.Lwip.Pbufs

open Nanotube.Device.Transmit (Memory load length_load)
open Nanotube.Lib.Runs Nanotube.Lib.Simulation

/-- The `len` bytes at `payload`, and `tot_len`. -/
structure Pbuf where
  payload : List UInt8
  totLen : UInt16
  deriving DecidableEq, Repr

def Pbuf.len (p : Pbuf) : Nat := p.payload.length

/-- The bytes of a chain; the empty chain is NULL. -/
def contents : List Pbuf → List UInt8
  | [] => []
  | p :: ps => p.payload ++ contents ps

inductive Err where
  | ok
  | mem
  | val
  | arg
  deriving DecidableEq, Repr

/-! ## The code -/

/-- What is written to `dataptr`; its length is `copied_total`. -/
def pbufCopyPartial : List Pbuf → Nat → Nat → List UInt8
  | [], _, _ => []
  | p :: ps, len, offset =>
    if len = 0 then []
    else if offset ≠ 0 ∧ offset ≥ p.len then pbufCopyPartial ps len (offset - p.len)
    else
      let bufCopyLen := min (p.len - offset) len
      (p.payload.drop offset).take bufCopyLen ++ pbufCopyPartial ps (len - bufCopyLen) 0

/-- `pbuf_skip_const`: the pbuf with the byte at `in_offset`, and where in it. -/
def pbufSkip : List Pbuf → Nat → List Pbuf × Nat
  | [], inOffset => ([], inOffset)
  | p :: ps, inOffset => if p.len ≤ inOffset then pbufSkip ps (inOffset - p.len) else (p :: ps, inOffset)

/-- None is -1. -/
def pbufTryGetAt (p : List Pbuf) (offset : Nat) : Option UInt8 :=
  match pbufSkip p offset with
  | ([], _) => none
  | (q :: _, qIdx) => if q.len > qIdx then q.payload[qIdx]? else none

def pbufGetAt (p : List Pbuf) (offset : Nat) : UInt8 := (pbufTryGetAt p offset).getD 0

/-- The walk of `pbuf_skip`, and the write at its end. -/
def pbufPutAt : List Pbuf → Nat → UInt8 → List Pbuf
  | [], _, _ => []
  | p :: ps, offset, data =>
    if p.len ≤ offset then p :: pbufPutAt ps (offset - p.len) data
    else { p with payload := p.payload.set offset data } :: ps

/-- `MEMCPY` to `offset` of the payload. -/
def Pbuf.write (p : Pbuf) (offset : Nat) (data : List UInt8) : Pbuf :=
  { p with payload := p.payload.take offset ++ data ++ p.payload.drop (offset + data.length) }

/-- The loop of `pbuf_take`; it stops when nothing is left of the data. -/
def takeLoop : List Pbuf → List UInt8 → List Pbuf
  | [], _ => []
  | p :: ps, data =>
    if data.length = 0 then p :: ps
    else p.write 0 (data.take p.len) :: takeLoop ps (data.drop p.len)

def pbufTake (buf : List Pbuf) (data : List UInt8) : List Pbuf × Err :=
  match buf with
  | [] => ([], .arg)
  | p :: ps => if p.totLen.toNat < data.length then (p :: ps, .mem) else (takeLoop (p :: ps) data, .ok)

/-- The walk of `pbuf_skip`, and at its end the write to the pbuf found and to those behind. -/
def pbufTakeAt : List Pbuf → List UInt8 → Nat → List Pbuf × Err
  | [], _, _ => ([], .mem)
  | p :: ps, data, offset =>
    if p.len ≤ offset then
      let r := pbufTakeAt ps data (offset - p.len)
      (p :: r.1, r.2)
    else if p.totLen.toNat ≥ offset + data.length then
      let firstCopyLen := min (p.len - offset) data.length
      let q := p.write offset (data.take firstCopyLen)
      if data.length - firstCopyLen > 0 then
        let r := pbufTake ps (data.drop firstCopyLen)
        (q :: r.1, r.2)
      else (q :: ps, .ok)
    else (p :: ps, .mem)

/-- The loop of `pbuf_memcmp`, from `i` on: 0, or the index behind the first difference. -/
def memcmpLoop (q : List Pbuf) (start : Nat) : Nat → List UInt8 → Nat
  | _, [] => 0
  | i, b :: s2 => if pbufGetAt q (start + i) ≠ b then min (i + 1) 0xFFFF else memcmpLoop q start (i + 1) s2

def pbufMemcmp (p : List Pbuf) (offset : Nat) (s2 : List UInt8) : Nat :=
  match p with
  | [] => 0xFFFF
  | q :: qs =>
    if q.totLen.toNat < offset + s2.length then 0xFFFF
    else memcmpLoop (pbufSkip (q :: qs) offset).1 (pbufSkip (q :: qs) offset).2 0 s2

/-- The loop of `pbuf_memfind`: `n` more offsets to try, from `i` on. -/
def memfindLoop (p : List Pbuf) (mem : List UInt8) : Nat → Nat → Nat
  | 0, _ => 0xFFFF
  | n + 1, i => if pbufMemcmp p i mem = 0 then i else memfindLoop p mem n (i + 1)

def pbufMemfind (p : List Pbuf) (mem : List UInt8) (startOffset : Nat) : Nat :=
  match p with
  | [] => 0xFFFF
  | q :: qs =>
    if q.totLen.toNat ≥ mem.length + startOffset then
      memfindLoop (q :: qs) mem (q.totLen.toNat - mem.length + 1 - startOffset) startOffset
    else 0xFFFF

/-- The loop of `pbuf_realloc`: `shrink` is taken off each `tot_len` up to the pbuf that is
    the last one from now on. -/
def reallocLoop (shrink : UInt16) : List Pbuf → Nat → List Pbuf
  | [], _ => []
  | q :: qs, remLen =>
    if remLen > q.len then { q with totLen := q.totLen - shrink } :: reallocLoop shrink qs (remLen - q.len)
    else [⟨q.payload.take remLen, remLen.toUInt16⟩]

def pbufRealloc (p : List Pbuf) (newLen : UInt16) : List Pbuf :=
  match p with
  | [] => []
  | q :: qs => if newLen ≥ q.totLen then q :: qs else reallocLoop (q.totLen - newLen) (q :: qs) newLen.toNat

/-- With at least `size` bytes in the first pbuf. -/
def pbufRemoveHeader (p : Pbuf) (size : Nat) : Pbuf := ⟨p.payload.drop size, p.totLen - size.toUInt16⟩

def pbufFreeHeader : List Pbuf → Nat → List Pbuf
  | [], _ => []
  | p :: ps, freeLeft =>
    if freeLeft = 0 then p :: ps
    else if freeLeft ≥ p.len then pbufFreeHeader ps (freeLeft - p.len)
    else pbufRemoveHeader p freeLeft :: ps

def Pbuf.grow (n : UInt16) (p : Pbuf) : Pbuf := { p with totLen := p.totLen + n }

def pbufCat : List Pbuf → List Pbuf → List Pbuf
  | [], _ => []
  | h, [] => h
  | h, t :: ts => h.map (Pbuf.grow t.totLen) ++ t :: ts

/-- The check for packet queues. -/
def isQueue : List Pbuf → Bool
  | [] => false
  | p :: ps => p.len = p.totLen.toNat && !ps.isEmpty

/-- What ends the loop of `pbuf_copy` after a turn: no target left, a packet queue, or no
    source left. -/
def copyStop (pTo pFrom : List Pbuf) : Option Err :=
  if pTo = [] ∧ pFrom ≠ [] then some .arg
  else if isQueue pFrom || isQueue pTo then some .val
  else if pFrom = [] then some .ok
  else none

/-- The loop of `pbuf_copy`, with the pbufs of the target that are behind it in `done`. A
    turn ends the current pbuf of the source, or of the target, or both. -/
def copyLoop (done pTo : List Pbuf) (offsetTo : Nat) (pFrom : List Pbuf) (offsetFrom : Nat) : List Pbuf × Err :=
  match pTo, pFrom with
  | t :: ts, f :: fs =>
    if t.len - offsetTo ≥ f.len - offsetFrom then
      let t' := t.write offsetTo (f.payload.drop offsetFrom)
      if offsetTo + (f.len - offsetFrom) = t.len then
        match copyStop ts fs with
        | some err => (done ++ t' :: ts, err)
        | none => copyLoop (done ++ [t']) ts 0 fs 0
      else
        match copyStop (t' :: ts) fs with
        | some err => (done ++ t' :: ts, err)
        | none => copyLoop done (t' :: ts) (offsetTo + (f.len - offsetFrom)) fs 0
    else
      let len := t.len - offsetTo
      let t' := t.write offsetTo ((f.payload.drop offsetFrom).take len)
      match copyStop ts (f :: fs) with
      | some err => (done ++ t' :: ts, err)
      | none => copyLoop (done ++ [t']) ts 0 (f :: fs) (offsetFrom + len)
  | ts, _ => (done ++ ts, .ok)
termination_by pTo.length + pFrom.length
decreasing_by all_goals (simp only [List.length_cons]; omega)

def pbufCopy (pTo pFrom : List Pbuf) : List Pbuf × Err :=
  match pTo, pFrom with
  | t :: ts, f :: fs =>
    if t.totLen.toNat ≥ f.totLen.toNat then copyLoop [] (t :: ts) 0 (f :: fs) 0 else (t :: ts, .arg)
  | ts, _ => (ts, .arg)

/-- `pbuf_alloc(layer, length, PBUF_RAM)`; none when the lengths do not fit 16 bits or there
    is no memory. What the memory holds is not set. -/
def pbufAllocRam (layer : Nat) (length : UInt16) (mem : Option Memory) : Option Pbuf :=
  if (layer + length.toNat) % 65536 < length.toNat then none
  else mem.map fun m => ⟨load m 0 length.toNat, length⟩

/-- The result of `pbuf_copy` is not used. -/
def pbufClone (layer : Nat) (mem : Option Memory) (p : List Pbuf) : Option (List Pbuf) :=
  match p with
  | [] => none
  | q :: qs => (pbufAllocRam layer q.totLen mem).map fun r => (pbufCopy [r] (q :: qs)).1

def pbufCoalesce (layer : Nat) (mem : Option Memory) (p : List Pbuf) : List Pbuf :=
  match p with
  | [] => []
  | [q] => [q]
  | p => (pbufClone layer mem p).getD p

/-! ## The bytes in one piece -/

inductive Op where
  | tryGetAt (offset : Nat)
  | putAt (offset : Nat) (data : UInt8)
  | take (data : List UInt8)
  | takeAt (data : List UInt8) (offset : Nat)
  | copyPartial (len offset : Nat)
  | memcmp (offset : Nat) (s2 : List UInt8)
  | memfind (mem : List UInt8) (startOffset : Nat)
  | realloc (newLen : UInt16)
  | freeHeader (size : Nat)
  | cat (t : List Pbuf)
  | coalesce (layer : Nat) (mem : Option Memory)

inductive Out where
  | none
  | byte (b : Option UInt8)
  | bytes (bs : List UInt8)
  | offset (n : Nat)
  | err (e : Err)
  deriving DecidableEq, Repr

def step (p : List Pbuf) : Op → List Pbuf × Out
  | .tryGetAt offset => (p, .byte (pbufTryGetAt p offset))
  | .putAt offset data => (pbufPutAt p offset data, .none)
  | .take data => let r := pbufTake p data; (r.1, .err r.2)
  | .takeAt data offset => let r := pbufTakeAt p data offset; (r.1, .err r.2)
  | .copyPartial len offset => (p, .bytes (pbufCopyPartial p len offset))
  | .memcmp offset s2 => (p, .offset (pbufMemcmp p offset s2))
  | .memfind mem startOffset => (p, .offset (pbufMemfind p mem startOffset))
  | .realloc newLen => (pbufRealloc p newLen, .none)
  | .freeHeader size => (pbufFreeHeader p size, .none)
  | .cat t => (pbufCat p t, .none)
  | .coalesce layer mem => (pbufCoalesce layer mem p, .none)

namespace Bytes

def write (bs : List UInt8) (offset : Nat) (data : List UInt8) : List UInt8 :=
  bs.take offset ++ data ++ bs.drop (offset + data.length)

/-- 0, or the index behind the first difference. -/
def memcmp (bs : List UInt8) (offset : Nat) (s2 : List UInt8) : Nat :=
  if bs.length < offset + s2.length then 0xFFFF
  else match ((bs.drop offset).zip s2).findIdx? (fun ab => ab.1 ≠ ab.2) with
    | none => 0
    | some i => min (i + 1) 0xFFFF

/-- The first offset from `startOffset` on at which `mem` stands. -/
def memfind (bs mem : List UInt8) (startOffset : Nat) : Nat :=
  ((List.range' startOffset (bs.length + 1 - startOffset)).find?
    fun i => i + mem.length ≤ bs.length ∧ mem <+: bs.drop i).getD 0xFFFF

def step (bs : List UInt8) : Op → List UInt8 × Out
  | .tryGetAt offset => (bs, .byte bs[offset]?)
  | .putAt offset data => (bs.set offset data, .none)
  | .take data => if data.length ≤ bs.length then (write bs 0 data, .err .ok) else (bs, .err .mem)
  | .takeAt data offset =>
    if offset < bs.length ∧ offset + data.length ≤ bs.length then (write bs offset data, .err .ok) else (bs, .err .mem)
  | .copyPartial len offset => (bs, .bytes ((bs.drop offset).take len))
  | .memcmp offset s2 => (bs, .offset (memcmp bs offset s2))
  | .memfind mem startOffset => (bs, .offset (memfind bs mem startOffset))
  | .realloc newLen => (bs.take newLen.toNat, .none)
  | .freeHeader size => (bs.drop size, .none)
  | .cat t => (bs ++ contents t, .none)
  | .coalesce _ _ => (bs, .none)

end Bytes

/-! ## Chains that are right -/

/-- Each `tot_len` is the length of the pbuf and those behind it. -/
def Consistent : List Pbuf → Prop
  | [] => True
  | p :: ps => p.totLen.toNat = p.len + (contents ps).length ∧ Consistent ps

/-- The last pbuf is not empty. -/
def EndsFull : List Pbuf → Prop
  | [] => True
  | p :: ps => (ps = [] → p.payload ≠ []) ∧ EndsFull ps

structure Good (c : List Pbuf) : Prop where
  nonempty : c ≠ []
  consistent : Consistent c
  tail : contents c = [] ∨ EndsFull c

/-- The lengths of the pbufs, which the writes leave alone. -/
def shape (c : List Pbuf) : List (Nat × UInt16) := c.map fun p => (p.len, p.totLen)

theorem length_contents_of_shape {c c' : List Pbuf} (h : shape c' = shape c) :
    (contents c').length = (contents c).length := by
  induction c generalizing c' with
  | nil =>
    rw [shape, shape, List.map_nil, List.map_eq_nil_iff] at h
    rw [h]
  | cons p ps ih =>
    cases c' with
    | nil => cases h
    | cons p' ps' =>
      simp only [shape, List.map_cons, List.cons.injEq, Prod.mk.injEq] at h
      have hlen : p'.payload.length = p.payload.length := h.1.1
      simp only [contents, List.length_append, hlen, ih h.2]

theorem consistent_of_shape {c c' : List Pbuf} (h : shape c' = shape c) (hc : Consistent c) : Consistent c' := by
  induction c generalizing c' with
  | nil =>
    rw [shape, shape, List.map_nil, List.map_eq_nil_iff] at h
    rw [h]
    trivial
  | cons p ps ih =>
    cases c' with
    | nil => trivial
    | cons p' ps' =>
      simp only [shape, List.map_cons, List.cons.injEq, Prod.mk.injEq] at h
      refine ⟨?_, ih h.2 hc.2⟩
      rw [h.1.1, h.1.2, length_contents_of_shape h.2]
      exact hc.1

theorem endsFull_of_shape {c c' : List Pbuf} (h : shape c' = shape c) (hc : EndsFull c) : EndsFull c' := by
  induction c generalizing c' with
  | nil =>
    rw [shape, shape, List.map_nil, List.map_eq_nil_iff] at h
    rw [h]
    trivial
  | cons p ps ih =>
    cases c' with
    | nil => trivial
    | cons p' ps' =>
      simp only [shape, List.map_cons, List.cons.injEq, Prod.mk.injEq] at h
      refine ⟨fun hnil => ?_, ih h.2 hc.2⟩
      have hps : ps = [] := by
        have hlen := congrArg List.length h.2
        simp only [List.length_map, hnil, List.length_nil] at hlen
        exact List.length_eq_zero_iff.mp hlen.symm
      have hlen : p'.payload.length = p.payload.length := h.1.1
      exact fun h0 => hc.1 hps (List.length_eq_zero_iff.mp (by rw [← hlen, h0]; rfl))

theorem good_of_shape {c c' : List Pbuf} (h : shape c' = shape c) (hc : Good c) : Good c' where
  nonempty h0 := by
    rw [h0] at h
    exact hc.nonempty (List.map_eq_nil_iff.mp h.symm)
  consistent := consistent_of_shape h hc.consistent
  tail := by
    refine hc.tail.imp (fun h0 => ?_) (endsFull_of_shape h)
    rw [← List.length_eq_zero_iff, length_contents_of_shape h, h0]
    rfl

theorem totLen_eq {p : Pbuf} {ps : List Pbuf} (h : Consistent (p :: ps)) :
    p.totLen.toNat = (contents (p :: ps)).length := by
  rw [h.1, contents, List.length_append]
  rfl

/-! ## Reading -/

theorem pbufCopyPartial_eq (c : List Pbuf) (len offset : Nat) :
    pbufCopyPartial c len offset = ((contents c).drop offset).take len := by
  induction c generalizing len offset with
  | nil => simp [pbufCopyPartial, contents]
  | cons p ps ih =>
    rw [pbufCopyPartial, contents, List.drop_append, List.take_append]
    split
    next h => simp [h]
    next h =>
      split
      next hskip =>
        rw [ih, List.drop_eq_nil_of_le hskip.2]
        simp [Pbuf.len]
      next hcopy =>
        have hle : offset ≤ p.payload.length := by
          have : p.len = p.payload.length := rfl
          omega
        simp only [ih, Nat.sub_eq_zero_of_le hle, List.drop_zero, List.length_drop]
        congr 1
        · rw [List.take_eq_take_iff]
          simp only [Pbuf.len, List.length_drop]
          omega
        · congr 1
          simp only [Pbuf.len]
          omega

theorem pbufTryGetAt_eq (c : List Pbuf) (offset : Nat) : pbufTryGetAt c offset = (contents c)[offset]? := by
  induction c generalizing offset with
  | nil => simp [pbufTryGetAt, pbufSkip, contents]
  | cons p ps ih =>
    rw [contents]
    by_cases h : p.len ≤ offset
    · rw [List.getElem?_append_right h, ← Pbuf.len, ← ih]
      simp only [pbufTryGetAt, pbufSkip, if_pos h]
    · rw [List.getElem?_append_left (by simpa [Pbuf.len] using h)]
      simp only [pbufTryGetAt, pbufSkip, if_neg h, gt_iff_lt, Nat.not_le.mp h, if_true]

theorem pbufGetAt_eq (c : List Pbuf) (offset : Nat) : pbufGetAt c offset = (contents c).getD offset 0 := by
  rw [pbufGetAt, pbufTryGetAt_eq, List.getD_eq_getElem?_getD]

theorem drop_pbufSkip (c : List Pbuf) (offset : Nat) :
    (contents (pbufSkip c offset).1).drop (pbufSkip c offset).2 = (contents c).drop offset := by
  induction c generalizing offset with
  | nil => simp [pbufSkip, contents]
  | cons p ps ih =>
    rw [pbufSkip]
    split
    next h =>
      rw [ih, contents, List.drop_append, List.drop_eq_nil_of_le h]
      rfl
    next h => rfl

theorem memcmpLoop_eq (q : List Pbuf) (start i : Nat) (s2 : List UInt8)
    (h : start + i + s2.length ≤ (contents q).length) :
    memcmpLoop q start i s2 = match (((contents q).drop (start + i)).zip s2).findIdx? (fun ab => ab.1 ≠ ab.2) with
      | none => 0
      | some k => min (i + k + 1) 0xFFFF := by
  induction s2 generalizing i with
  | nil => simp [memcmpLoop]
  | cons b s2 ih =>
    have hlt : start + i < (contents q).length := by simp only [List.length_cons] at h; omega
    rw [List.drop_eq_getElem_cons hlt, List.zip_cons_cons, List.findIdx?_cons, memcmpLoop, pbufGetAt_eq,
      List.getD_eq_getElem?_getD, List.getElem?_eq_getElem hlt, Option.getD_some]
    split
    next hne => simp [hne]
    next heq =>
      rw [ih (i + 1) (by simp only [List.length_cons] at h; omega)]
      simp only [ne_eq, Decidable.not_not] at heq
      simp only [heq, ne_eq, not_true_eq_false, decide_false, Bool.false_eq_true, if_false, ← Nat.add_assoc]
      generalize List.findIdx? _ (((contents q).drop (start + i + 1)).zip s2) = r
      cases r with
      | none => rfl
      | some k =>
        have hk : i + 1 + k + 1 = i + (k + 1) + 1 := by omega
        simp only [Option.map_some, hk]

theorem pbufMemcmp_eq {c : List Pbuf} (hne : c ≠ []) (hc : Consistent c) (offset : Nat) (s2 : List UInt8) :
    pbufMemcmp c offset s2 = Bytes.memcmp (contents c) offset s2 := by
  cases c with
  | nil => exact absurd rfl hne
  | cons p ps =>
    rw [pbufMemcmp, Bytes.memcmp, totLen_eq hc]
    split
    next => rfl
    next h =>
      have hdrop := drop_pbufSkip (p :: ps) offset
      have hlen := congrArg List.length hdrop
      simp only [List.length_drop] at hlen
      by_cases h0 : s2 = []
      · subst h0
        simp [memcmpLoop]
      · have hpos := List.length_pos_iff.mpr h0
        rw [memcmpLoop_eq _ _ _ _ (by omega)]
        simp only [Nat.add_zero, Nat.zero_add, hdrop]

theorem zip_agrees_iff {cs s2 : List UInt8} (h : s2.length ≤ cs.length) :
    ((cs.zip s2).findIdx? fun ab => ab.1 ≠ ab.2) = none ↔ s2 <+: cs := by
  rw [List.findIdx?_eq_none_iff]
  induction s2 generalizing cs with
  | nil => simp
  | cons b s2 ih =>
    cases cs with
    | nil => cases h
    | cons a cs =>
      have ih' := ih (Nat.le_of_succ_le_succ h)
      rw [List.cons_prefix_cons, ← ih', List.zip_cons_cons]
      simp only [List.mem_cons, forall_eq_or_imp, ne_eq, decide_eq_false_iff_not, Decidable.not_not]
      exact and_congr_left fun _ => eq_comm

theorem memcmp_eq_zero_iff (bs : List UInt8) (offset : Nat) (s2 : List UInt8) :
    Bytes.memcmp bs offset s2 = 0 ↔ offset + s2.length ≤ bs.length ∧ s2 <+: bs.drop offset := by
  rw [Bytes.memcmp]
  split
  next h => exact ⟨fun h0 => absurd h0 (by decide), fun h' => by omega⟩
  next h =>
    have hle : offset + s2.length ≤ bs.length := by omega
    have hlen : s2.length ≤ (bs.drop offset).length := by rw [List.length_drop]; omega
    rw [← zip_agrees_iff hlen]
    split
    next h0 => exact ⟨fun _ => ⟨hle, h0⟩, fun _ => rfl⟩
    next k hk => exact ⟨fun h0 => by omega, fun h0 => by rw [hk] at h0; cases h0.2⟩

/-- The loop finds the first offset at or behind `i` among the `n` it tries. -/
theorem memfindLoop_eq {c : List Pbuf} (hne : c ≠ []) (hc : Consistent c) (mem : List UInt8) (n i : Nat) :
    memfindLoop c mem n i = ((List.range' i n).find? fun k => Bytes.memcmp (contents c) k mem = 0).getD 0xFFFF := by
  induction n generalizing i with
  | zero => rfl
  | succ n ih =>
    rw [memfindLoop, pbufMemcmp_eq hne hc, List.range'_succ, List.find?_cons]
    split
    next h => simp [h]
    next h => simp [h, ih]

/-- Where `mem` does not fit, it does not stand. -/
theorem find_beyond (bs mem : List UInt8) {i n : Nat} (h : bs.length < i + mem.length) :
    ((List.range' i n).find? fun k => k + mem.length ≤ bs.length ∧ mem <+: bs.drop k) = none := by
  rw [List.find?_eq_none]
  intro k hk
  rw [List.mem_range'_1] at hk
  rw [decide_eq_true_eq]
  exact fun hfits => by omega

theorem pbufMemfind_eq {c : List Pbuf} (hne : c ≠ []) (hc : Consistent c) (mem : List UInt8) (startOffset : Nat) :
    pbufMemfind c mem startOffset = Bytes.memfind (contents c) mem startOffset := by
  cases c with
  | nil => exact absurd rfl hne
  | cons p ps =>
    rw [pbufMemfind, totLen_eq hc, memfindLoop_eq hne hc, Bytes.memfind]
    simp only [memcmp_eq_zero_iff]
    generalize contents (p :: ps) = bs
    split
    next h =>
      -- the offsets that are tried, and those at which `mem` does not fit any more
      have hsplit : bs.length + 1 - startOffset = (bs.length - mem.length + 1 - startOffset) + mem.length := by omega
      rw [hsplit, ← List.range'_append_1, List.find?_append,
        find_beyond bs mem (i := startOffset + (bs.length - mem.length + 1 - startOffset)) (by omega), Option.or_none]
    next h =>
      rw [find_beyond bs mem (by omega)]
      rfl

/-! ## Writing -/

theorem pbufPutAt_spec (c : List Pbuf) (offset : Nat) (data : UInt8) :
    contents (pbufPutAt c offset data) = (contents c).set offset data ∧ shape (pbufPutAt c offset data) = shape c := by
  induction c generalizing offset with
  | nil => simp [pbufPutAt, contents]
  | cons p ps ih =>
    rw [pbufPutAt]
    split
    next h =>
      obtain ⟨hcontents, hshape⟩ := ih (offset - p.len)
      refine ⟨?_, ?_⟩
      · rw [contents, contents, hcontents, List.set_append_right _ _ h]
        rfl
      · simp only [shape, List.map_cons] at hshape ⊢
        rw [hshape]
    next h =>
      refine ⟨?_, ?_⟩
      · rw [contents, contents, List.set_append_left _ _ (by simpa [Pbuf.len] using h)]
      · simp [shape, Pbuf.len]

theorem length_write {bs data : List UInt8} {offset : Nat} (h : offset + data.length ≤ bs.length) :
    (Bytes.write bs offset data).length = bs.length := by
  simp only [Bytes.write, List.length_append, List.length_take, List.length_drop]
  omega

/-- A write that ends in the first part, or runs through it into the second. -/
theorem write_append_left {as bs data : List UInt8} {offset : Nat} (h : offset + data.length ≤ as.length) :
    Bytes.write (as ++ bs) offset data = Bytes.write as offset data ++ bs := by
  rw [Bytes.write, Bytes.write, List.take_append_of_le_length (by omega), List.drop_append_of_le_length h]
  simp only [List.append_assoc]

theorem write_append {as bs data : List UInt8} {offset n : Nat} (hn : offset + n = as.length) (hle : n ≤ data.length) :
    Bytes.write (as ++ bs) offset data = Bytes.write as offset (data.take n) ++ Bytes.write bs 0 (data.drop n) := by
  have hlen : (data.take n).length = n := List.length_take_of_le hle
  simp only [Bytes.write, List.length_drop, List.take_zero, List.nil_append, Nat.zero_add, hlen]
  rw [List.take_append_of_le_length (by omega), List.drop_append, List.drop_eq_nil_of_le (by omega),
    List.drop_eq_nil_of_le (Nat.le_of_eq hn.symm), List.append_nil, List.nil_append]
  have hrest : offset + data.length - as.length = data.length - n := by omega
  rw [hrest]
  simp only [List.append_assoc, List.append_cancel_left_eq]
  rw [← List.append_assoc, List.take_append_drop]

/-- Two writes, the second where the first one ends. -/
theorem write_write {bs d d' : List UInt8} {offset : Nat} (h : offset + d.length ≤ bs.length) :
    Bytes.write (Bytes.write bs offset d) (offset + d.length) d' = Bytes.write bs offset (d ++ d') := by
  have hfront : (bs.take offset ++ d).length = offset + d.length := by
    rw [List.length_append, List.length_take]
    omega
  rw [Bytes.write, Bytes.write, Bytes.write, List.take_left' hfront, ← List.append_assoc, List.length_append,
    List.drop_append, List.drop_eq_nil_of_le (by omega), hfront, List.drop_drop, List.nil_append]
  congr 2
  omega

theorem Pbuf.payload_write (p : Pbuf) (offset : Nat) (data : List UInt8) :
    (p.write offset data).payload = Bytes.write p.payload offset data := rfl

theorem shape_write {p : Pbuf} {offset : Nat} {data : List UInt8} (h : offset + data.length ≤ p.len)
    {ps qs : List Pbuf} (hs : shape qs = shape ps) : shape (p.write offset data :: qs) = shape (p :: ps) := by
  have hlen : (p.write offset data).len = p.len := length_write h
  simp only [shape, List.map_cons, hlen] at hs ⊢
  rw [hs]
  rfl

theorem takeLoop_spec (c : List Pbuf) {data : List UInt8} (h : data.length ≤ (contents c).length) :
    contents (takeLoop c data) = Bytes.write (contents c) 0 data ∧ shape (takeLoop c data) = shape c := by
  induction c generalizing data with
  | nil =>
    have h0 : data = [] := List.length_eq_zero_iff.mp (Nat.le_zero.mp h)
    subst h0
    exact ⟨rfl, rfl⟩
  | cons p ps ih =>
    rw [takeLoop]
    split
    next h0 =>
      rw [List.length_eq_zero_iff.mp h0]
      exact ⟨by simp [Bytes.write], rfl⟩
    next h0 =>
      simp only [contents, List.length_append] at h
      have hlen : p.len = p.payload.length := rfl
      have hrest : (data.drop p.len).length ≤ (contents ps).length := by rw [List.length_drop]; omega
      obtain ⟨hcontents, hshape⟩ := ih hrest
      refine ⟨?_, shape_write (by rw [List.length_take]; omega) hshape⟩
      rw [contents, contents, Pbuf.payload_write, hcontents]
      by_cases hle : p.len ≤ data.length
      · rw [write_append (n := p.len) (by omega) hle]
      · rw [List.take_of_length_le (by omega), List.drop_eq_nil_of_le (by omega), write_append_left (by omega)]
        simp [Bytes.write]

theorem pbufTake_spec {c : List Pbuf} (hc : Consistent c) (hne : c ≠ []) (data : List UInt8) :
    ((contents (pbufTake c data).1, Out.err (pbufTake c data).2) = Bytes.step (contents c) (.take data)) ∧
      shape (pbufTake c data).1 = shape c := by
  cases c with
  | nil => exact absurd rfl hne
  | cons p ps =>
    rw [pbufTake, totLen_eq hc, Bytes.step]
    split
    next h =>
      rw [if_neg (by omega)]
      exact ⟨rfl, rfl⟩
    next h =>
      obtain ⟨hcontents, hshape⟩ := takeLoop_spec (p :: ps) (Nat.not_lt.mp h)
      rw [if_pos (by omega), hcontents]
      exact ⟨rfl, hshape⟩

theorem write_append_right {as bs data : List UInt8} {offset : Nat} (h : as.length ≤ offset) :
    Bytes.write (as ++ bs) offset data = as ++ Bytes.write bs (offset - as.length) data := by
  have hrest : offset + data.length - as.length = offset - as.length + data.length := by omega
  simp only [Bytes.write]
  rw [List.take_append, List.take_of_length_le h, List.drop_append, List.drop_eq_nil_of_le (by omega), hrest]
  simp only [List.nil_append, List.append_assoc]

theorem pbufTakeAt_spec {c : List Pbuf} (hc : Consistent c) (data : List UInt8) (offset : Nat) :
    ((contents (pbufTakeAt c data offset).1, Out.err (pbufTakeAt c data offset).2) =
        Bytes.step (contents c) (.takeAt data offset)) ∧
      shape (pbufTakeAt c data offset).1 = shape c := by
  induction c generalizing offset with
  | nil => simp [pbufTakeAt, contents, Bytes.step]
  | cons p ps ih =>
    have hlen : p.len = p.payload.length := rfl
    rw [pbufTakeAt, totLen_eq hc]
    simp only [Bytes.step, contents, List.length_append]
    split
    next hskip =>
      obtain ⟨heq, hshape⟩ := ih hc.2 (offset - p.len)
      simp only [Bytes.step, Prod.ext_iff] at heq
      refine ⟨?_, ?_⟩
      · rw [contents, heq.1, heq.2]
        by_cases hfits : offset < p.payload.length + (contents ps).length ∧
            offset + data.length ≤ p.payload.length + (contents ps).length
        · rw [if_pos hfits, if_pos (by omega), write_append_right (by omega)]
          rfl
        · rw [if_neg hfits, if_neg (by omega)]
      · simp only [shape, List.map_cons] at hshape ⊢
        rw [hshape]
    next hskip =>
      split
      next hroom =>
        have hflat : offset < p.payload.length + (contents ps).length ∧
            offset + data.length ≤ p.payload.length + (contents ps).length := ⟨by omega, hroom⟩
        rw [if_pos hflat]
        split
        next hmore =>
          -- the data runs into the next pbufs, which have room for the rest of it
          have hmin : min (p.len - offset) data.length = p.len - offset := by omega
          rw [hmin]
          have hrest : (data.drop (p.len - offset)).length ≤ (contents ps).length := by rw [List.length_drop]; omega
          have hne : ps ≠ [] := by
            rintro rfl
            simp only [contents, List.length_nil, List.length_drop] at hrest
            omega
          obtain ⟨heq, hshape⟩ := pbufTake_spec hc.2 hne (data.drop (p.len - offset))
          simp only [Bytes.step, if_pos hrest, Prod.ext_iff] at heq
          refine ⟨?_, shape_write (by rw [List.length_take]; omega) hshape⟩
          rw [contents, heq.1, heq.2, Pbuf.payload_write, ← write_append (by omega) (by omega)]
        next hmore =>
          have hmin : min (p.len - offset) data.length = data.length := by omega
          rw [hmin, List.take_length]
          refine ⟨?_, shape_write (by omega) rfl⟩
          rw [contents, Pbuf.payload_write, write_append_left (by omega)]
      next hroom =>
        rw [if_neg (fun h => hroom h.2)]
        exact ⟨rfl, rfl⟩

/-! ## Cutting and joining -/

theorem contents_eq_nil_of_endsFull {c : List Pbuf} (h : EndsFull c) (h0 : contents c = []) : c = [] := by
  induction c with
  | nil => rfl
  | cons p ps ih =>
    rw [contents, List.append_eq_nil_iff] at h0
    exact absurd h0.1 (h.1 (ih h.2 h0.2))

theorem reallocLoop_spec {c : List Pbuf} (hc : Consistent c) (shrink : UInt16) {remLen : Nat} (hpos : 0 < remLen)
    (h : (contents c).length = remLen + shrink.toNat) :
    contents (reallocLoop shrink c remLen) = (contents c).take remLen ∧
      Consistent (reallocLoop shrink c remLen) ∧ EndsFull (reallocLoop shrink c remLen) := by
  induction c generalizing remLen with
  | nil => simp only [contents, List.length_nil] at h; omega
  | cons q qs ih =>
    have hlen : q.len = q.payload.length := rfl
    have htot := totLen_eq hc
    have hlt := UInt16.toNat_lt q.totLen
    simp only [contents, List.length_append] at h htot
    rw [reallocLoop]
    split
    next hmore =>
      have hrest : (contents qs).length = remLen - q.len + shrink.toNat := by omega
      obtain ⟨hcontents, hcons, hends⟩ := ih hc.2 (Nat.sub_pos_of_lt hmore) hrest
      have hsub : (q.totLen - shrink).toNat = q.totLen.toNat - shrink.toNat :=
        UInt16.toNat_sub_of_le _ _ (UInt16.le_iff_toNat_le.mpr (by omega))
      refine ⟨?_, ⟨?_, hcons⟩, ?_, hends⟩
      · have hle : q.payload.length ≤ remLen := by omega
        rw [contents, contents, hcontents, List.take_append, List.take_of_length_le hle]
        rfl
      · rw [hcontents, List.length_take, hsub]
        have : ({ q with totLen := q.totLen - shrink } : Pbuf).len = q.len := rfl
        omega
      · intro h0
        rw [h0, contents] at hcontents
        have := congrArg List.length hcontents
        simp only [List.length_nil, List.length_take] at this
        omega
    next hend =>
      have hrem : remLen.toUInt16.toNat = remLen := Nat.mod_eq_of_lt (by omega)
      refine ⟨?_, ⟨?_, trivial⟩, ?_, trivial⟩
      · rw [contents, contents, contents, List.append_nil, List.take_append_of_le_length (by omega)]
      · simp only [contents, List.length_nil, Pbuf.len, List.length_take, hrem]
        omega
      · intro _ h0
        have := congrArg List.length h0
        simp only [List.length_nil, List.length_take] at this
        omega

theorem pbufRealloc_spec {c : List Pbuf} (hc : Good c) (newLen : UInt16) :
    contents (pbufRealloc c newLen) = (contents c).take newLen.toNat ∧ Good (pbufRealloc c newLen) := by
  cases c with
  | nil => exact absurd rfl hc.nonempty
  | cons q qs =>
    have htot := totLen_eq hc.consistent
    rw [pbufRealloc]
    split
    next h =>
      have hle := UInt16.le_iff_toNat_le.mp h
      exact ⟨(List.take_of_length_le (by omega)).symm, hc⟩
    next h =>
      have hlt : newLen.toNat < q.totLen.toNat := UInt16.lt_iff_toNat_lt.mp (UInt16.not_le.mp h)
      by_cases h0 : newLen.toNat = 0
      · -- the first pbuf stays, without data
        rw [reallocLoop, h0, if_neg (by omega)]
        refine ⟨rfl, ⟨by simp, ⟨rfl, trivial⟩, Or.inl rfl⟩⟩
      · have hsub : (q.totLen - newLen).toNat = q.totLen.toNat - newLen.toNat :=
          UInt16.toNat_sub_of_le _ _ (UInt16.le_iff_toNat_le.mpr (by omega))
        obtain ⟨hcontents, hcons, hends⟩ :=
          reallocLoop_spec hc.consistent (q.totLen - newLen) (Nat.pos_of_ne_zero h0) (by omega)
        refine ⟨hcontents, ?_, hcons, Or.inr hends⟩
        intro hnil
        rw [hnil, contents] at hcontents
        have := congrArg List.length hcontents
        simp only [List.length_nil, List.length_take] at this
        omega

theorem pbufFreeHeader_spec {c : List Pbuf} (hc : Good c) {size : Nat} (h : size < (contents c).length) :
    contents (pbufFreeHeader c size) = (contents c).drop size ∧ Good (pbufFreeHeader c size) := by
  have hends : EndsFull c := hc.tail.resolve_left fun h0 => by rw [h0] at h; exact absurd h (Nat.not_lt_zero _)
  induction c generalizing size with
  | nil => exact absurd rfl hc.nonempty
  | cons p ps ih =>
    have hlen : p.len = p.payload.length := rfl
    simp only [contents, List.length_append] at h
    rw [pbufFreeHeader]
    split
    next h0 => rw [h0]; exact ⟨rfl, hc⟩
    next h0 =>
      split
      next hge =>
        have hne : ps ≠ [] := by
          rintro rfl
          simp only [contents, List.length_nil] at h
          omega
        have hgood : Good ps := ⟨hne, hc.consistent.2, Or.inr hends.2⟩
        rw [contents, List.drop_append, List.drop_eq_nil_of_le hge, List.nil_append]
        exact ih hgood (by omega) hends.2
      next hge =>
        have htot := hc.consistent.1
        have hlt := UInt16.toNat_lt p.totLen
        have hsz : size.toUInt16.toNat = size := Nat.mod_eq_of_lt (by omega)
        have hsub : (p.totLen - size.toUInt16).toNat = p.totLen.toNat - size := by
          rw [UInt16.toNat_sub_of_le _ _ (UInt16.le_iff_toNat_le.mpr (by omega)), hsz]
        refine ⟨?_, by simp, ⟨?_, hc.consistent.2⟩, Or.inr ⟨fun _ h0 => ?_, hends.2⟩⟩
        · rw [contents, contents, List.drop_append_of_le_length (by omega)]
          rfl
        · simp only [pbufRemoveHeader, Pbuf.len, List.length_drop, hsub]
          omega
        · have := congrArg List.length h0
          simp only [pbufRemoveHeader, List.length_drop, List.length_nil] at this
          omega

theorem pbufCat_spec {c t : List Pbuf} (hc : Good c) (ht : Good t) (hdata : contents t ≠ [])
    (hfits : (contents c).length + (contents t).length < 65536) :
    contents (pbufCat c t) = contents c ++ contents t ∧ Good (pbufCat c t) := by
  have hends : EndsFull t := ht.tail.resolve_left hdata
  cases t with
  | nil => exact absurd rfl ht.nonempty
  | cons t ts =>
    have htot := totLen_eq ht.consistent
    have hcat : pbufCat c (t :: ts) = c.map (Pbuf.grow t.totLen) ++ t :: ts := by
      cases c with
      | nil => exact absurd rfl hc.nonempty
      | cons p ps => rfl
    have hall : contents (pbufCat c (t :: ts)) = contents c ++ contents (t :: ts) ∧
        Consistent (pbufCat c (t :: ts)) ∧ EndsFull (pbufCat c (t :: ts)) := by
      rw [hcat]
      have hcons := hc.consistent
      clear hc hcat
      induction c with
      | nil => exact ⟨rfl, ht.consistent, hends⟩
      | cons p ps ih =>
        simp only [contents, List.length_append] at hfits htot
        obtain ⟨ih1, ih2, ih3⟩ := ih (by simp only [contents, List.length_append]; omega) hcons.2
        have hadd : (p.totLen + t.totLen).toNat = p.totLen.toNat + t.totLen.toNat := by
          have := hcons.1
          have hlen : p.len = p.payload.length := rfl
          rw [UInt16.toNat_add, Nat.mod_eq_of_lt (by omega)]
        refine ⟨?_, ⟨?_, ih2⟩, fun h0 => by simp at h0, ih3⟩
        · rw [List.map_cons, List.cons_append, contents, ih1]
          simp only [contents, List.append_assoc]
          rfl
        · have hgrown : (contents (ps.map (Pbuf.grow t.totLen) ++ t :: ts)).length =
              (contents ps).length + t.totLen.toNat := by
            rw [ih1, List.length_append, htot, contents, List.length_append]
          have htotal : (p.grow t.totLen).totLen.toNat = p.len + (contents ps).length + t.totLen.toNat := by
            rw [← hcons.1]
            exact hadd
          rw [List.append_eq, hgrown, ← Nat.add_assoc]
          exact htotal
    exact ⟨hall.1, by rw [hcat]; simp, hall.2.1, Or.inr hall.2.2⟩

/-! ## Copying to one pbuf -/

theorem isQueue_eq_false {c : List Pbuf} (hc : Consistent c) (hends : EndsFull c) : isQueue c = false := by
  cases c with
  | nil => rfl
  | cons p ps =>
    rw [isQueue, Bool.and_eq_false_imp]
    intro hlen
    have htot := hc.1
    rw [decide_eq_true_eq] at hlen
    have h0 : contents ps = [] := List.length_eq_zero_iff.mp (by omega)
    rw [contents_eq_nil_of_endsFull hends.2 h0]
    rfl

/-- Into one pbuf with room for it, a chain whose last pbuf is not empty is copied whole. -/
theorem copyLoop_single {c : List Pbuf} (hc : Consistent c) (hends : EndsFull c) (hne : c ≠ []) (t : Pbuf)
    {offsetTo : Nat} (h : offsetTo + (contents c).length ≤ t.len) :
    copyLoop [] [t] offsetTo c 0 = ([t.write offsetTo (contents c)], .ok) := by
  induction c generalizing t offsetTo with
  | nil => exact absurd rfl hne
  | cons f fs ih =>
    have hlen : f.len = f.payload.length := rfl
    simp only [contents, List.length_append] at h
    have hq : isQueue fs = false := isQueue_eq_false hc.2 hends.2
    have hlt' : (t.write offsetTo f.payload).len = t.len := length_write (by simp only [Pbuf.len] at h; omega)
    rw [copyLoop, Nat.sub_zero, List.drop_zero, if_pos (by omega)]
    have hlast : fs = [] → t.write offsetTo (contents (f :: fs)) = t.write offsetTo f.payload := by
      rintro rfl
      rw [contents, contents, List.append_nil]
    split
    next hend =>
      -- the target is full, so nothing of the source is left
      have hfs : fs = [] := contents_eq_nil_of_endsFull hends.2 (List.length_eq_zero_iff.mp (by omega))
      subst hfs
      simp [copyStop, isQueue, hlast]
    next hend =>
      by_cases hfs : fs = []
      · subst hfs
        simp [copyStop, isQueue, hlast]
      · have hone : isQueue [t.write offsetTo f.payload] = false := by
          rw [isQueue, List.isEmpty_nil, Bool.not_true, Bool.and_false]
        have hstop : copyStop [t.write offsetTo f.payload] fs = none := by
          rw [copyStop, if_neg (fun h0 => List.cons_ne_nil _ _ h0.1), hq, hone, if_neg (by decide), if_neg hfs]
        have hwrite : (t.write offsetTo f.payload).write (offsetTo + f.len) (contents fs) =
            t.write offsetTo (contents (f :: fs)) := by
          rw [Pbuf.write, Pbuf.payload_write]
          exact congrArg (Pbuf.mk · t.totLen) (write_write (by simp only [Pbuf.len] at h; omega))
        simp only [hstop]
        rw [ih hc.2 hends.2 hfs _ (by omega), hwrite]

/-- A copy of a packet is one pbuf with its bytes. -/
theorem pbufClone_spec {c d : List Pbuf} (hc : Good c) {layer : Nat} {mem : Option Memory}
    (h : pbufClone layer mem c = some d) : contents d = contents c ∧ Good d := by
  cases c with
  | nil => exact absurd rfl hc.nonempty
  | cons q qs =>
    have htot := totLen_eq hc.consistent
    rw [pbufClone, pbufAllocRam] at h
    split at h
    next => cases h
    next =>
      cases mem with
      | none => cases h
      | some m =>
        simp only [Option.map_some, Option.some_inj, pbufCopy, ge_iff_le, Nat.le_refl, if_true] at h
        rcases hc.tail with h0 | hends
        · -- no bytes: whatever `pbuf_copy` says, the copy has none either
          rw [h0, List.length_nil] at htot
          rw [contents, List.append_eq_nil_iff] at h0
          have hd : d = [⟨[], q.totLen⟩] := by
            rw [← h, htot, copyLoop, if_pos (by simp [Pbuf.len, h0]), if_pos (by simp [Pbuf.len, h0, load])]
            cases qs <;> simp [copyStop, isQueue, Pbuf.write, h0, load]
          have hq : contents (q :: qs) = [] := by rw [contents, h0.1, h0.2]; rfl
          rw [hd, hq]
          exact ⟨rfl, by simp, ⟨by rw [htot]; rfl, trivial⟩, Or.inl rfl⟩
        · have hlen : (Pbuf.mk (load m 0 q.totLen.toNat) q.totLen).len = q.totLen.toNat := length_load _ _ _
          rw [copyLoop_single hc.consistent hends (by simp) _ (by omega)] at h
          have hall : Bytes.write (load m 0 q.totLen.toNat) 0 (contents (q :: qs)) = contents (q :: qs) := by
            rw [Bytes.write, List.take_zero, List.nil_append, Nat.zero_add,
              List.drop_eq_nil_of_le (Nat.le_of_eq (by rw [length_load, htot])), List.append_nil]
          have hd : d = [⟨contents (q :: qs), q.totLen⟩] := by
            rw [← h]
            exact congrArg (fun bs => [Pbuf.mk bs q.totLen]) hall
          rw [hd]
          refine ⟨List.append_nil _, by simp, ⟨htot, trivial⟩, Or.inr ⟨fun _ h0 => ?_, trivial⟩⟩
          exact absurd (contents_eq_nil_of_endsFull hends h0) (by simp)

theorem pbufCoalesce_spec {c : List Pbuf} (hc : Good c) (layer : Nat) (mem : Option Memory) :
    contents (pbufCoalesce layer mem c) = contents c ∧ Good (pbufCoalesce layer mem c) := by
  rw [pbufCoalesce.eq_def]
  split
  next => exact absurd rfl hc.nonempty
  next => exact ⟨rfl, hc⟩
  next =>
    cases h : pbufClone layer mem c with
    | none => exact ⟨rfl, hc⟩
    | some d => exact pbufClone_spec hc h

/-! ## The split cannot be seen -/

/-- What a caller has to know of the lengths: the packet is not freed as a whole, and a
    packet that is joined is a good one, with data, and the two fit 16 bits. -/
def Fits (c : List Pbuf) : Op → Prop
  | .freeHeader size => size < (contents c).length
  | .cat t => Good t ∧ contents t ≠ [] ∧ (contents c).length + (contents t).length < 65536
  | _ => True

theorem step_refines : Simulates step Bytes.step (fun c bs => Good c ∧ contents c = bs) Fits := by
  rintro c _ op ⟨hc, rfl⟩ hfits
  -- a write keeps the shape and so the chain good
  have hwrites : ∀ {c' : List Pbuf} {o : Out}, (contents c', o) = Bytes.step (contents c) op ∧ shape c' = shape c →
      o = (Bytes.step (contents c) op).2 ∧ Good c' ∧ contents c' = (Bytes.step (contents c) op).1 := by
    rintro c' o ⟨heq, hshape⟩
    rw [← heq]
    exact ⟨rfl, good_of_shape hshape hc, rfl⟩
  cases op with
  | tryGetAt offset => exact ⟨congrArg Out.byte (pbufTryGetAt_eq c offset), hc, rfl⟩
  | putAt offset data =>
    obtain ⟨hcontents, hshape⟩ := pbufPutAt_spec c offset data
    exact ⟨rfl, good_of_shape hshape hc, hcontents⟩
  | take data => exact hwrites (pbufTake_spec hc.consistent hc.nonempty data)
  | takeAt data offset => exact hwrites (pbufTakeAt_spec hc.consistent data offset)
  | copyPartial len offset => exact ⟨congrArg Out.bytes (pbufCopyPartial_eq c len offset), hc, rfl⟩
  | memcmp offset s2 => exact ⟨congrArg Out.offset (pbufMemcmp_eq hc.nonempty hc.consistent offset s2), hc, rfl⟩
  | memfind mem startOffset => exact ⟨congrArg Out.offset (pbufMemfind_eq hc.nonempty hc.consistent mem startOffset), hc, rfl⟩
  | realloc newLen =>
    obtain ⟨hcontents, hgood⟩ := pbufRealloc_spec hc newLen
    exact ⟨rfl, hgood, hcontents⟩
  | freeHeader size =>
    obtain ⟨hcontents, hgood⟩ := pbufFreeHeader_spec hc hfits
    exact ⟨rfl, hgood, hcontents⟩
  | cat t =>
    obtain ⟨hcontents, hgood⟩ := pbufCat_spec hc hfits.1 hfits.2.1 hfits.2.2
    exact ⟨rfl, hgood, hcontents⟩
  | coalesce layer mem =>
    obtain ⟨hcontents, hgood⟩ := pbufCoalesce_spec hc layer mem
    exact ⟨rfl, hgood, hcontents⟩

/-- Over any operations, a chain answers as its bytes in one piece do; at the end it holds
    the bytes they have become, with its `tot_len` fields right. -/
theorem chain_refines_bytes {c : List Pbuf} (hc : Good c) {ops : List Op} (hops : Along (next step) Fits c ops) :
    outputs step c ops = outputs Bytes.step (contents c) ops ∧
      contents (run (next step) c ops) = run (next Bytes.step) (contents c) ops ∧
      Good (run (next step) c ops) := by
  have hend := related_run step_refines ⟨hc, rfl⟩ hops
  exact ⟨outputs_eq step_refines ⟨hc, rfl⟩ hops, hend.2, hend.1⟩

/-- Six bytes in three pbufs, the second one empty. -/
def threePbufs : List Pbuf := [⟨[1, 2, 3, 4], 6⟩, ⟨[], 2⟩, ⟨[5, 6], 2⟩]

/-- A search that runs over the pbufs, a write across them, and a cut. -/
def someOps : List Op := [.memfind [4, 5] 0, .takeAt [7, 8] 3, .cat [⟨[9], 1⟩], .freeHeader 3, .realloc 3]

theorem threePbufs_answers :
    outputs step threePbufs someOps = [.offset 3, .err .ok, .none, .none, .none] ∧
      contents (run (next step) threePbufs someOps) = [7, 8, 6] := by
  have hgood : Good threePbufs := ⟨by decide, ⟨rfl, rfl, rfl, trivial⟩, Or.inr ⟨by decide, by decide, by decide, trivial⟩⟩
  have hfits : Along (next step) Fits threePbufs someOps :=
    ⟨trivial, trivial, ⟨⟨by decide, ⟨rfl, trivial⟩, Or.inr ⟨by decide, trivial⟩⟩, by decide, by decide⟩,
      show 3 < List.length _ by decide, trivial, trivial⟩
  obtain ⟨hout, hcontents, -⟩ := chain_refines_bytes hgood hfits
  rw [hout, hcontents]
  decide

end Nanotube.Lwip.Pbufs
