/-
  Nanotube.Lwip.Packets — is a packet that is linked, cut, summed and sent one packet?

  A packet lies in memory as linked pbufs (`Linked`, over the cells of `PbufRefs`), each with
  the address of its payload. The other modules see parts of that: `Transmit` the addresses
  and lengths (`spans`), `Pbuf` the bytes and lengths (`pieces`), `Checksum` the bytes and
  whether an address is odd (`summed`).

  Proved: the bytes are the same for all of them (`contents_pieces`, `contents_summed`). Where
  a function is modelled both on cells, for its references, and on lists, for its bytes, the
  cells it leaves are the list it returns: `pbuf_cat` (`pbufCat_pieces`), `pbuf_realloc`
  (`pbufRealloc_pieces`), `pbuf_free_header` (`pbufFreeHeader_pieces`) and `pbuf_alloc` from
  the pool (`poolLoop_spans`). So what holds of the bytes holds of what is sent
  (`pbufCat_contents`), and the checksum of a packet in memory depends on its bytes only
  (`inetChksumPbuf_memory`).
-/

import Nanotube.Lwip.PbufRefs
import Nanotube.Lwip.Pbuf
import Nanotube.Lwip.Checksum.Sums

namespace Nanotube.Lwip.Packets

open Nanotube.Lib.RefCounts (Heap Reaches put edges edges_of_use)
open Nanotube.Lwip.PbufRefs (links)
open Nanotube.Device.Transmit (Memory load load_add length_load)

variable {n : Nat}

abbrev Cell (n : Nat) := PbufRefs.Pbuf n

/-- A pbuf of a chain: the cell it is in, and its lengths. -/
structure Link (n : Nat) where
  cell : Fin n
  len : UInt16
  totLen : UInt16
  deriving DecidableEq, Repr

/-- The chain from a pbuf on, along `next` up to NULL. -/
inductive Linked (heap : Heap n (Cell n)) : Option (Fin n) → List (Link n) → Prop
  | nil : Linked heap none []
  | cons {p : Fin n} {c : Cell n} {ls : List (Link n)} (cell : heap p = some c) (rest : Linked heap c.next ls) :
      Linked heap (some p) (⟨p, c.len, c.totLen⟩ :: ls)

abbrev cells (ls : List (Link n)) : List (Fin n) := ls.map Link.cell

/-! ## Views -/

section Views

/- Where the payloads are, and what is there. -/
variable (payload : Fin n → Nat) (mem : Memory)

def spans (ls : List (Link n)) : List Device.Transmit.Pbuf := ls.map fun l => ⟨payload l.cell, l.len.toNat⟩

def pieces (ls : List (Link n)) : List Pbufs.Pbuf := ls.map fun l => ⟨load mem (payload l.cell) l.len.toNat, l.totLen⟩

def summed (qs : List Device.Transmit.Pbuf) : List Checksum.Pbuf :=
  qs.map fun q => ⟨q.payload % 2 = 1, load mem q.payload q.len⟩

theorem contents_pieces (ls : List (Link n)) :
    Pbufs.contents (pieces payload mem ls) = Device.Transmit.contents mem (spans payload ls) := by
  induction ls with
  | nil => rfl
  | cons l ls ih => exact congrArg (load mem (payload l.cell) l.len.toNat ++ ·) ih

theorem contents_summed (qs : List Device.Transmit.Pbuf) :
    Checksum.contents (summed mem qs) = Device.Transmit.contents mem qs := by
  induction qs with
  | nil => rfl
  | cons q qs ih => exact congrArg (load mem q.payload q.len ++ ·) ih

end Views

/-! ## Linked cells -/

variable {heap heap' : Heap n (Cell n)} {o : Option (Fin n)} {ls : List (Link n)}

theorem put_self (heap : Heap n (Cell n)) (p : Fin n) (c : Cell n) : put heap p c p = some c := Function.update_self ..

theorem put_ne (heap : Heap n (Cell n)) {p x : Fin n} (c : Cell n) (h : x ≠ p) : put heap p c x = heap x :=
  Function.update_of_ne h _ _

theorem Linked.unique {ls' : List (Link n)} (h : Linked heap o ls) (h' : Linked heap o ls') : ls = ls' := by
  induction h generalizing ls' with
  | nil =>
    cases h'
    rfl
  | cons hc _ ih =>
    cases h' with
    | cons hc' rest' =>
      rw [hc] at hc'
      cases hc'
      rw [ih rest']

/-- What is linked from a pbuf of the chain is its end. -/
theorem Linked.suffix (h : Linked heap o ls) {x : Fin n} (hx : x ∈ cells ls) :
    ∃ ls', Linked heap (some x) ls' ∧ ls' <:+ ls := by
  induction h with
  | nil => cases hx
  | @cons p c ls hc rest ih =>
    rcases List.mem_cons.mp hx with rfl | hx
    · exact ⟨_, .cons hc rest, List.suffix_rfl⟩
    · obtain ⟨ls', hls', hsuffix⟩ := ih hx
      exact ⟨ls', hls', hsuffix.trans (List.suffix_cons _ _)⟩

/-- A chain that ends at NULL has no pbuf twice. -/
theorem Linked.head_not_mem {p : Fin n} {c : Cell n} (hc : heap p = some c) (rest : Linked heap c.next ls) :
    p ∉ cells ls := by
  intro hp
  obtain ⟨ls', hls', hsuffix⟩ := rest.suffix hp
  have hlen := hsuffix.length_le
  rw [hls'.unique (.cons hc rest), List.length_cons] at hlen
  omega

theorem Linked.first_not_mem {l : Link n} (h : Linked heap o (l :: ls)) : l.cell ∉ cells ls := by
  cases h with
  | cons hc rest => exact Linked.head_not_mem hc rest

theorem Linked.frame (h : Linked heap o ls) (hsame : ∀ x ∈ cells ls, heap' x = heap x) : Linked heap' o ls := by
  induction h with
  | nil => exact .nil
  | @cons p c ls hc _ ih =>
    refine .cons ?_ (ih fun x hx => hsame x (List.mem_cons_of_mem _ hx))
    rw [hsame p List.mem_cons_self, hc]

theorem Linked.update (h : Linked heap o ls) {x : Fin n} (hx : x ∉ cells ls) (v : Option (Cell n)) :
    Linked (Function.update heap x v) o ls := by
  refine h.frame fun y hy => Function.update_of_ne ?_ _ _
  intro heq
  subst heq
  exact hx hy

theorem Linked.reaches {p x : Fin n} (h : Linked heap (some p) ls) (hx : x ∈ cells ls) : Reaches (links heap) p x := by
  induction ls generalizing p with
  | nil => cases hx
  | cons l ls ih =>
    cases h with
    | @cons _ c _ hc rest =>
      rcases List.mem_cons.mp hx with rfl | hx
      · exact .refl
      · cases hnext : c.next with
        | none =>
          rw [hnext] at rest
          cases rest
          cases hx
        | some q =>
          rw [hnext] at rest
          exact .head (by rw [links, edges_of_use hc, hnext]) (ih rest hx)

theorem ne_of_not_mem {x : Fin n} {l : Link n} (hx : x ∉ cells (l :: ls)) : x ≠ l.cell := by
  intro heq
  subst heq
  exact hx List.mem_cons_self

/-! ## pbuf_cat -/

def Link.grow (k : UInt16) (l : Link n) : Link n := { l with totLen := l.totLen + k }

/-- The loop links the chains, and changes the first only. -/
theorem catLoop_linked {fuel : Nat} {p t : Fin n} {d : Cell n} {ts : List (Link n)} (hp : Linked heap (some p) ls)
    (ht : Linked heap (some t) ts) (hd : heap t = some d) (hapart : ∀ x ∈ cells ls, x ∉ cells ts)
    (hrun : PbufRefs.catLoop fuel heap p t = some heap') :
    Linked heap' (some p) (ls.map (Link.grow d.totLen) ++ ts) ∧ ∀ x, x ∉ cells ls → heap' x = heap x := by
  induction fuel generalizing heap p ls with
  | zero => cases hrun
  | succ fuel ih =>
    cases hp with
    | @cons _ c ls hc rest =>
      have hnot := Linked.head_not_mem hc rest
      have hpt : p ∉ cells ts := hapart p List.mem_cons_self
      have hne : t ≠ p := by
        intro heq
        subst heq
        cases ht with
        | cons => exact hpt List.mem_cons_self
      simp only [PbufRefs.catLoop, hc, hd] at hrun
      cases hnext : c.next with
      | none =>
        rw [hnext] at hrun rest
        cases rest
        cases hrun
        refine ⟨?_, fun x hx => Function.update_of_ne (ne_of_not_mem hx) _ _⟩
        have htail : Linked (put heap p { c.grow d.totLen with next := some t }) (some t) ts := ht.update hpt _
        exact .cons (c := { c.grow d.totLen with next := some t }) (Function.update_self ..) htail
      | some q =>
        rw [hnext] at hrun rest
        obtain ⟨hlinked, hframe⟩ := ih (rest.update hnot _) (ht.update hpt _)
          (by rw [Function.update_of_ne hne, hd]) (fun x hx => hapart x (List.mem_cons_of_mem _ hx)) hrun
        refine ⟨?_, fun x hx => ?_⟩
        · have hself : heap' p = some (c.grow d.totLen) := by rw [hframe p hnot, Function.update_self]
          refine .cons (c := c.grow d.totLen) hself ?_
          rw [show (c.grow d.totLen).next = some q from hnext]
          exact hlinked
        · rw [hframe x fun hxs => hx (List.mem_cons_of_mem _ hxs), Function.update_of_ne (ne_of_not_mem hx)]

/-- `pbuf_cat` on cells is `pbuf_cat` on the bytes. -/
theorem pbufCat_pieces {h t : Fin n} {hs ts : List (Link n)} (hh : Linked heap (some h) hs) (ht : Linked heap (some t) ts)
    (hapart : PbufRefs.Apart heap h t) (hrun : PbufRefs.pbufCat heap h t = some heap') :
    ∃ ls, Linked heap' (some h) ls ∧
      ∀ payload mem, pieces payload mem ls = Pbufs.pbufCat (pieces payload mem hs) (pieces payload mem ts) := by
  have hdisjoint : ∀ x ∈ cells hs, x ∉ cells ts := fun x hx hxt => hapart x (hh.reaches hx) (ht.reaches hxt)
  cases hh with
  | @cons _ c hs hc hrest =>
    cases ht with
    | @cons _ d ts hd trest =>
      refine ⟨_, (catLoop_linked (.cons hc hrest) (.cons hd trest) hd hdisjoint hrun).1, fun payload mem => ?_⟩
      simp [pieces, Pbufs.pbufCat, Pbufs.Pbuf.grow, Link.grow]

/-- A packet put behind a header is sent behind it. -/
theorem pbufCat_contents {h t : Fin n} {hs ts : List (Link n)} {payload : Fin n → Nat} {mem : Memory}
    (hh : Linked heap (some h) hs) (ht : Linked heap (some t) ts) (hapart : PbufRefs.Apart heap h t)
    (hhs : Pbufs.Good (pieces payload mem hs)) (hts : Pbufs.Good (pieces payload mem ts))
    (hdata : Device.Transmit.contents mem (spans payload ts) ≠ [])
    (hlen : (Device.Transmit.contents mem (spans payload hs) ++ Device.Transmit.contents mem (spans payload ts)).length < 65536)
    (hrun : PbufRefs.pbufCat heap h t = some heap') :
    ∃ ls, Linked heap' (some h) ls ∧ Pbufs.Good (pieces payload mem ls) ∧
      Device.Transmit.contents mem (spans payload ls) =
        Device.Transmit.contents mem (spans payload hs) ++ Device.Transmit.contents mem (spans payload ts) := by
  obtain ⟨ls, hls, hpieces⟩ := pbufCat_pieces hh ht hapart hrun
  rw [← contents_pieces] at hdata
  rw [← contents_pieces, ← contents_pieces] at hlen ⊢
  rw [List.length_append] at hlen
  obtain ⟨hcontents, hgood⟩ := Pbufs.pbufCat_spec hhs hts hdata hlen
  refine ⟨ls, hls, ?_, ?_⟩
  · rw [hpieces]
    exact hgood
  · rw [← contents_pieces, hpieces, hcontents]

/-! ## pbuf_realloc -/

/-- `pbuf_free` changes the chain it is given only. -/
theorem freeLoop_frame {fuel : Nat} {r : Heap n (Cell n) × UInt8} (h : Linked heap o ls)
    (hrun : PbufRefs.freeLoop fuel heap o = some r) : ∀ x, x ∉ cells ls → r.1 x = heap x := by
  induction fuel generalizing heap o ls r with
  | zero =>
    cases h with
    | nil =>
      cases hrun
      exact fun _ _ => rfl
    | cons => cases hrun
  | succ fuel ih =>
    cases h with
    | nil =>
      cases hrun
      exact fun _ _ => rfl
    | @cons p c ls hc rest =>
      simp only [PbufRefs.freeLoop, hc] at hrun
      intro x hx
      have hxp := ne_of_not_mem hx
      split at hrun
      · obtain ⟨r', hr', rfl⟩ := Option.map_eq_some_iff.mp hrun
        have hrest := rest.update (Linked.head_not_mem hc rest) none
        rw [ih hrest hr' x fun hxs => hx (List.mem_cons_of_mem _ hxs), Function.update_of_ne hxp]
      · cases hrun
        exact Function.update_of_ne hxp _ _

/-- A load cut short. -/
theorem load_take (mem : Memory) (a : Nat) {k len : Nat} (h : k ≤ len) : (load mem a len).take k = load mem a k := by
  rw [load, load, ← List.map_take, List.take_range, Nat.min_eq_left h]

theorem unlink_linked {q : Fin n} {c : Cell n} (hq : heap q = some c) (hrun : PbufRefs.unlink heap q = some heap') :
    Linked heap' (some q) [⟨q, c.len, c.totLen⟩] ∧ ∀ x, x ≠ q → heap' x = heap x := by
  simp only [PbufRefs.unlink, hq] at hrun
  cases hrun
  exact ⟨.cons (c := { c with next := none }) (Function.update_self ..) .nil, fun x hx => Function.update_of_ne hx _ _⟩

/-- What is behind `q` is freed. -/
theorem cut_linked {q : Fin n} {c : Cell n}
    (hrun : (match o with
      | none => PbufRefs.unlink heap q
      | some t => (PbufRefs.pbufFree heap t).bind fun r => PbufRefs.unlink r.1 q) = some heap')
    (hq : heap q = some c) (rest : Linked heap o ls) (hnot : q ∉ cells ls) :
    Linked heap' (some q) [⟨q, c.len, c.totLen⟩] ∧ ∀ x, x ≠ q → x ∉ cells ls → heap' x = heap x := by
  cases o with
  | none =>
    obtain ⟨hlinked, hframe⟩ := unlink_linked hq hrun
    exact ⟨hlinked, fun x hx _ => hframe x hx⟩
  | some t =>
    obtain ⟨r, hfree, hunlink⟩ := Option.bind_eq_some_iff.mp hrun
    have hfreed := freeLoop_frame rest hfree
    obtain ⟨hlinked, hframe⟩ := unlink_linked (c := c) (by rw [hfreed q hnot, hq]) hunlink
    exact ⟨hlinked, fun x hx hxs => by rw [hframe x hx, hfreed x hxs]⟩

section Pieces

variable {payload : Fin n → Nat} {mem : Memory} {l : Link n} {shrink remLen : UInt16}

theorem reallocLoop_pieces_of_lt (h : l.len < remLen) :
    Pbufs.reallocLoop shrink (pieces payload mem (l :: ls)) remLen.toNat =
      ⟨load mem (payload l.cell) l.len.toNat, l.totLen - shrink⟩ ::
        Pbufs.reallocLoop shrink (pieces payload mem ls) (remLen - l.len).toNat := by
  have hlt : l.len.toNat < remLen.toNat := h
  rw [UInt16.toNat_sub_of_le _ _ (Nat.le_of_lt hlt)]
  simp only [pieces, List.map_cons, Pbufs.reallocLoop, Pbufs.Pbuf.len, length_load, gt_iff_lt, hlt, if_true]

theorem reallocLoop_pieces_of_le (h : remLen ≤ l.len) :
    Pbufs.reallocLoop shrink (pieces payload mem (l :: ls)) remLen.toNat =
      pieces payload mem [⟨l.cell, remLen, remLen⟩] := by
  have hle : remLen.toNat ≤ l.len.toNat := h
  simp [pieces, Pbufs.reallocLoop, Pbufs.Pbuf.len, length_load, Nat.not_lt.mpr hle, load_take mem _ hle]

end Pieces

theorem reallocLoop_linked {fuel : Nat} {shrink remLen : UInt16} {q : Fin n} (h : Linked heap (some q) ls)
    (hrun : PbufRefs.reallocLoop fuel heap shrink remLen q = some heap') :
    (∃ ls', Linked heap' (some q) ls' ∧ ∀ payload mem,
      pieces payload mem ls' = Pbufs.reallocLoop shrink (pieces payload mem ls) remLen.toNat) ∧
    ∀ x, x ∉ cells ls → heap' x = heap x := by
  induction fuel generalizing heap remLen q ls with
  | zero => cases hrun
  | succ fuel ih =>
    cases h with
    | @cons _ c ls hc rest =>
      have hnot := Linked.head_not_mem hc rest
      simp only [PbufRefs.reallocLoop, hc] at hrun
      by_cases hmore : remLen > c.len
      · -- this pbuf stays as it is, but for its tot_len
        rw [if_pos hmore] at hrun
        cases hnext : c.next with
        | none =>
          rw [hnext] at hrun
          cases hrun
        | some q' =>
          rw [hnext] at hrun rest
          obtain ⟨⟨ls', hlinked, hpieces⟩, hframe⟩ := ih (rest.update hnot _) hrun
          refine ⟨⟨⟨q, c.len, c.totLen - shrink⟩ :: ls', ?_, fun payload mem => ?_⟩, fun x hx => ?_⟩
          · have hself : heap' q = some (c.shrink shrink) := by rw [hframe q hnot, Function.update_self]
            refine .cons (c := c.shrink shrink) hself ?_
            rw [show (c.shrink shrink).next = some q' from hnext]
            exact hlinked
          · rw [reallocLoop_pieces_of_lt hmore, ← hpieces]
            rfl
          · rw [hframe x fun hxs => hx (List.mem_cons_of_mem _ hxs), Function.update_of_ne (ne_of_not_mem hx)]
      · -- this pbuf is the last one from now on
        rw [if_neg hmore] at hrun
        obtain ⟨hlinked, hframe⟩ :=
          cut_linked (c := c.trim remLen) hrun (Function.update_self ..) (rest.update hnot _) hnot
        refine ⟨⟨_, hlinked, fun payload mem => ?_⟩, fun x hx => ?_⟩
        · rw [reallocLoop_pieces_of_le (UInt16.not_lt.mp hmore)]
          rfl
        · have hne : x ≠ q := ne_of_not_mem hx
          rw [hframe x hne fun hxs => hx (List.mem_cons_of_mem _ hxs), put_ne _ _ hne]

/-- `pbuf_realloc` on cells is `pbuf_realloc` on the bytes. -/
theorem pbufRealloc_pieces {p : Fin n} {newLen : UInt16} (h : Linked heap (some p) ls)
    (hrun : PbufRefs.pbufRealloc heap p newLen = some heap') :
    ∃ ls', Linked heap' (some p) ls' ∧
      ∀ payload mem, pieces payload mem ls' = Pbufs.pbufRealloc (pieces payload mem ls) newLen := by
  cases h with
  | @cons _ c ls hc rest =>
    simp only [PbufRefs.pbufRealloc, hc] at hrun
    by_cases hge : newLen ≥ c.totLen
    · rw [if_pos hge] at hrun
      cases hrun
      exact ⟨_, .cons hc rest, fun payload mem => by simp [pieces, Pbufs.pbufRealloc, hge]⟩
    · rw [if_neg hge] at hrun
      obtain ⟨⟨ls', hlinked, hpieces⟩, -⟩ := reallocLoop_linked (.cons hc rest) hrun
      refine ⟨ls', hlinked, fun payload mem => ?_⟩
      rw [hpieces]
      simp [pieces, Pbufs.pbufRealloc, hge]

/-! ## pbuf_free_header -/

/-- `pbuf_remove_header`: the payload of the first pbuf starts `k` bytes further on. -/
def moved (payload : Fin n → Nat) (o : Option (Fin n)) (k : Nat) : Fin n → Nat :=
  match o with
  | none => payload
  | some p => Function.update payload p (payload p + k)

theorem moved_zero (payload : Fin n → Nat) (o : Option (Fin n)) : moved payload o 0 = payload := by
  cases o with
  | none => rfl
  | some p => exact Function.update_eq_self p payload

theorem load_drop (mem : Memory) (a : Nat) {k len : Nat} (h : k ≤ len) :
    (load mem a len).drop k = load mem (a + k) (len - k) := by
  obtain ⟨rest, rfl⟩ := Nat.exists_eq_add_of_le h
  rw [load_add, List.drop_left' (length_load mem a k), Nat.add_sub_cancel_left]

theorem pieces_congr {payload payload' : Fin n → Nat} (mem : Memory) (h : ∀ x ∈ cells ls, payload' x = payload x) :
    pieces payload' mem ls = pieces payload mem ls :=
  List.map_congr_left fun l hl => by rw [h l.cell (List.mem_map_of_mem hl)]

/-- The rest of a chain stays when its first pbuf is freed by itself. -/
theorem rest_linked {p : Fin n} {c : Cell n} {r : Heap n (Cell n) × UInt8} (hc : heap p = some c)
    (rest : Linked heap c.next ls) (hfree : PbufRefs.pbufFree (put heap p { c with next := none }) p = some r) :
    Linked r.1 c.next ls := by
  have hcut : Linked (put heap p { c with next := none }) (some p) [⟨p, c.len, c.totLen⟩] :=
    .cons (c := { c with next := none }) (put_self ..) .nil
  refine rest.frame fun x hx => ?_
  have hne : x ≠ p := by
    intro heq
    subst heq
    exact Linked.head_not_mem hc rest hx
  rw [freeLoop_frame hcut hfree x (by simpa using hne)]
  exact put_ne _ _ hne

section Pieces

variable {payload : Fin n → Nat} {mem : Memory} {l : Link n} {freeLeft : UInt16}

theorem freeHeader_pieces_of_le (hpos : freeLeft ≠ 0) (h : l.len ≤ freeLeft) :
    Pbufs.pbufFreeHeader (pieces payload mem (l :: ls)) freeLeft.toNat =
      Pbufs.pbufFreeHeader (pieces payload mem ls) (freeLeft - l.len).toNat := by
  have hpos : freeLeft.toNat ≠ 0 := fun h0 => hpos (UInt16.toNat_inj.mp h0)
  have hle : l.len.toNat ≤ freeLeft.toNat := h
  rw [UInt16.toNat_sub_of_le _ _ h]
  simp [pieces, Pbufs.pbufFreeHeader, Pbufs.Pbuf.len, length_load, hpos, hle]

theorem freeHeader_pieces_of_lt (hpos : freeLeft ≠ 0) (h : freeLeft < l.len) (hnot : l.cell ∉ cells ls) :
    Pbufs.pbufFreeHeader (pieces payload mem (l :: ls)) freeLeft.toNat =
      pieces (moved payload (some l.cell) freeLeft.toNat) mem (⟨l.cell, l.len - freeLeft, l.totLen - freeLeft⟩ :: ls) := by
  have hpos : freeLeft.toNat ≠ 0 := fun h0 => hpos (UInt16.toNat_inj.mp h0)
  have hlt : freeLeft.toNat < l.len.toNat := h
  have hlen : (l.len - freeLeft).toNat = l.len.toNat - freeLeft.toNat := UInt16.toNat_sub_of_le _ _ (Nat.le_of_lt hlt)
  have hself : moved payload (some l.cell) freeLeft.toNat l.cell = payload l.cell + freeLeft.toNat := Function.update_self ..
  have hbehind : pieces (moved payload (some l.cell) freeLeft.toNat) mem ls = pieces payload mem ls := by
    refine pieces_congr mem fun x hx => Function.update_of_ne ?_ _ _
    intro heq
    subst heq
    exact hnot hx
  rw [pieces, pieces, List.map_cons, List.map_cons, ← pieces, ← pieces, hbehind, hlen, hself]
  simp [Pbufs.pbufFreeHeader, Pbufs.Pbuf.len, length_load, hpos, Nat.not_le.mpr hlt, Pbufs.pbufRemoveHeader,
    load_drop mem _ (Nat.le_of_lt hlt)]

end Pieces

/-- `pbuf_free_header` on cells is `pbuf_free_header` on the bytes. -/
theorem freeHeaderLoop_pieces {fuel : Nat} {freeLeft : UInt16} {r : Heap n (Cell n) × Option (Fin n)} (h : Linked heap o ls)
    (hrun : PbufRefs.freeHeaderLoop fuel heap o freeLeft = some r) :
    ∃ ls' k, Linked r.1 r.2 ls' ∧ ∀ payload mem,
      pieces (moved payload r.2 k) mem ls' = Pbufs.pbufFreeHeader (pieces payload mem ls) freeLeft.toNat := by
  induction fuel generalizing heap o ls freeLeft with
  | zero =>
    cases h with
    | nil =>
      cases hrun
      exact ⟨[], 0, .nil, fun _ _ => rfl⟩
    | cons => cases hrun
  | succ fuel ih =>
    cases h with
    | nil =>
      cases hrun
      exact ⟨[], 0, .nil, fun _ _ => rfl⟩
    | @cons p c ls hc rest =>
      simp only [PbufRefs.freeHeaderLoop] at hrun
      by_cases hzero : freeLeft = 0
      · rw [if_pos hzero] at hrun
        cases hrun
        refine ⟨_, 0, .cons hc rest, fun payload mem => ?_⟩
        rw [moved_zero]
        simp [pieces, Pbufs.pbufFreeHeader, hzero]
      · rw [if_neg hzero] at hrun
        simp only [hc] at hrun
        by_cases hge : freeLeft ≥ c.len
        · rw [if_pos hge] at hrun
          obtain ⟨r', hfree, hloop⟩ := Option.bind_eq_some_iff.mp hrun
          obtain ⟨ls', k, hlinked, hpieces⟩ := ih (rest_linked hc rest hfree) hloop
          refine ⟨ls', k, hlinked, fun payload mem => ?_⟩
          rw [hpieces, freeHeader_pieces_of_le hzero hge]
        · rw [if_neg hge] at hrun
          cases hrun
          have hnot := Linked.head_not_mem hc rest
          refine ⟨⟨p, c.len - freeLeft, c.totLen - freeLeft⟩ :: ls, freeLeft.toNat, ?_, fun payload mem => ?_⟩
          · exact .cons (c := { c with len := c.len - freeLeft, totLen := c.totLen - freeLeft }) (put_self ..)
              (rest.update hnot _)
          · rw [freeHeader_pieces_of_lt hzero (UInt16.not_le.mp hge) hnot]

theorem pbufFreeHeader_pieces {q : Fin n} {size : UInt16} {r : Heap n (Cell n) × Option (Fin n)} (h : Linked heap (some q) ls)
    (hrun : PbufRefs.pbufFreeHeader heap q size = some r) :
    ∃ ls' k, Linked r.1 r.2 ls' ∧ ∀ payload mem,
      pieces (moved payload r.2 k) mem ls' = Pbufs.pbufFreeHeader (pieces payload mem ls) size.toNat :=
  freeHeaderLoop_pieces h hrun

/-! ## pbuf_alloc -/

section Pool

/- Where the elements of the pool are, and SIZEOF_STRUCT_PBUF. -/
variable (addr : Fin n → Nat) (header : Nat)

/-- The pbuf `q` is linked behind the last one. -/
theorem Linked.snoc {l : Link n} {c d : Cell n} {q : Fin n} (h : Linked heap o (ls ++ [l])) (hl : heap l.cell = some c)
    (hq : q ∉ cells (ls ++ [l])) (hd : d.next = none) :
    Linked (put (put heap q d) l.cell { c with next := some q }) o (ls ++ [l, ⟨q, d.len, d.totLen⟩]) := by
  have hne : q ≠ l.cell := by
    intro heq
    subst heq
    simp at hq
  have hself : put (put heap q d) l.cell { c with next := some q } q = some d := by
    rw [put_ne _ _ hne, put_self]
  have hend : Linked (put (put heap q d) l.cell { c with next := some q }) (some q) [⟨q, d.len, d.totLen⟩] := by
    refine .cons hself ?_
    rw [hd]
    exact .nil
  induction ls generalizing o with
  | nil =>
    cases h with
    | cons hc rest =>
      rw [hc] at hl
      cases hl
      exact .cons (c := { c with next := some q }) (Function.update_self ..) hend
  | cons k ls ih =>
    cases h with
    | @cons p b _ hc rest =>
      have hpl : p ≠ l.cell := by
        intro heq
        subst heq
        exact Linked.head_not_mem hc rest (by simp)
      have hpq : p ≠ q := by
        intro heq
        subst heq
        exact hq (by simp)
      refine .cons ?_ (ih rest fun hmem => hq (List.mem_cons_of_mem _ hmem))
      rw [put_ne _ _ hpl, put_ne _ _ hpq, hc]

open Nanotube.Device.Transmit (pbufAllocPool PBUF_POOL_BUFSIZE)

/-- `LWIP_MIN(rem_len, PBUF_POOL_BUFSIZE_ALIGNED - offset)` -/
def qlenOf (offset remLen : UInt16) : UInt16 :=
  if remLen ≤ PbufRefs.PBUF_POOL_BUFSIZE - offset then remLen else PbufRefs.PBUF_POOL_BUFSIZE - offset

theorem toNat_qlenOf {offset : UInt16} (ho : offset.toNat ≤ PBUF_POOL_BUFSIZE) (remLen : UInt16) :
    (qlenOf offset remLen).toNat = min remLen.toNat (PBUF_POOL_BUFSIZE - offset.toNat) := by
  have hsub : (PbufRefs.PBUF_POOL_BUFSIZE - offset).toNat = PBUF_POOL_BUFSIZE - offset.toNat :=
    UInt16.toNat_sub_of_le _ _ ho
  rw [← hsub, Nat.min_def, qlenOf]
  by_cases hle : remLen ≤ PbufRefs.PBUF_POOL_BUFSIZE - offset
  · rw [if_pos hle, if_pos (UInt16.le_iff_toNat_le.mp hle)]
  · rw [if_neg hle, if_neg fun h => hle (UInt16.le_iff_toNat_le.mpr h)]

theorem poolLoop_cons (q : Fin n) (pool : List (Fin n)) (heap : Heap n (Cell n)) (p last : Option (Fin n))
    (offset remLen : UInt16) :
    PbufRefs.poolLoop (q :: pool) heap p last offset remLen =
      (PbufRefs.append (put heap q ⟨none, remLen, qlenOf offset remLen, 1⟩) last q).bind fun heap =>
        if remLen - qlenOf offset remLen > 0 then
          PbufRefs.poolLoop pool heap (some (p.getD q)) (some q) 0 (remLen - qlenOf offset remLen)
        else some (heap, some (p.getD q)) := rfl

/-- What is left to allocate, and the lists behind one more pbuf. -/
theorem pbufAllocPool_cons (q : Fin n) (pool : List (Fin n)) (offset : UInt16) (ho : offset.toNat ≤ PBUF_POOL_BUFSIZE)
    (remLen : UInt16) :
    pbufAllocPool header ((q :: pool).map addr) offset.toNat remLen.toNat =
      if remLen - qlenOf offset remLen > 0 then
        (pbufAllocPool header (pool.map addr) 0 (remLen - qlenOf offset remLen).toNat).map
          (⟨addr q + header + offset.toNat, (qlenOf offset remLen).toNat⟩ :: ·)
      else some [⟨addr q + header + offset.toNat, (qlenOf offset remLen).toNat⟩] := by
  have hqlen := toNat_qlenOf ho remLen
  have hle : qlenOf offset remLen ≤ remLen := by
    rw [UInt16.le_iff_toNat_le, hqlen]
    exact Nat.min_le_left _ _
  have hleft := UInt16.toNat_sub_of_le _ _ hle
  have hmore : remLen - qlenOf offset remLen > 0 ↔ 0 < remLen.toNat - (qlenOf offset remLen).toNat := by
    rw [gt_iff_lt, UInt16.lt_iff_toNat_lt, hleft]
    rfl
  simp only [List.map_cons, pbufAllocPool, ← hqlen, hleft, hmore]

theorem Linked.last_cell {l : Link n} (h : Linked heap o (ls ++ [l])) : ∃ c, heap l.cell = some c := by
  induction ls generalizing o with
  | nil =>
    cases h with
    | cons hc _ => exact ⟨_, hc⟩
  | cons k ls ih =>
    cases h with
    | cons _ rest => exact ih rest

/-- The loop goes on behind the pbufs it has. -/
theorem poolLoop_linked {pool : List (Fin n)} {p p' : Fin n} {l : Link n} {remLen : UInt16}
    (h : Linked heap (some p) (ls ++ [l])) (hpool : pool.Nodup) (hfree : ∀ q ∈ pool, q ∉ cells (ls ++ [l]))
    (hrun : PbufRefs.poolLoop pool heap (some p) (some l.cell) 0 remLen = some (heap', some p')) :
    p' = p ∧ ∃ new, Linked heap' (some p) (ls ++ l :: new) ∧
      pbufAllocPool header (pool.map addr) 0 remLen.toNat = some (spans (fun q => addr q + header) new) := by
  induction pool generalizing heap ls l remLen with
  | nil =>
    obtain ⟨r, -, hr⟩ := Option.map_eq_some_iff.mp hrun
    cases hr
  | cons q pool ih =>
    obtain ⟨hnot, hpool⟩ := List.nodup_cons.mp hpool
    have hq := hfree q List.mem_cons_self
    have hne : l.cell ≠ q := fun heq => hq (by simp [← heq])
    obtain ⟨c, hc⟩ := h.last_cell
    rw [poolLoop_cons] at hrun
    simp only [PbufRefs.append, put_ne _ _ hne, hc, Option.bind_some, Option.getD_some] at hrun
    have hlinked := h.snoc (d := ⟨none, remLen, qlenOf 0 remLen, 1⟩) hc hq rfl
    have hsteps : pbufAllocPool header ((q :: pool).map addr) 0 remLen.toNat = _ :=
      pbufAllocPool_cons addr header q pool 0 (Nat.zero_le _) remLen
    rw [hsteps]
    split at hrun
    · next hmore =>
      rw [List.append_cons] at hlinked
      have hapart : ∀ x ∈ pool, x ∉ cells (ls ++ [l] ++ [⟨q, qlenOf 0 remLen, remLen⟩]) := by
        intro x hx hmem
        rw [cells, List.map_append, List.mem_append] at hmem
        rcases hmem with hin | hin
        · exact hfree x (List.mem_cons_of_mem _ hx) hin
        · rw [List.mem_singleton.mp hin] at hx
          exact hnot hx
      obtain ⟨rfl, new, hnew, halloc⟩ := ih (l := ⟨q, qlenOf 0 remLen, remLen⟩) hlinked hpool hapart hrun
      refine ⟨rfl, ⟨q, qlenOf 0 remLen, remLen⟩ :: new, by simpa using hnew, ?_⟩
      rw [if_pos hmore, halloc]
      rfl
    · next hdone =>
      cases hrun
      exact ⟨rfl, [⟨q, qlenOf 0 remLen, remLen⟩], hlinked, by rw [if_neg hdone]; rfl⟩

/-- The loop of `pbuf_alloc` for the pool leaves the chain that `Transmit` computes. -/
theorem poolLoop_spans {pool : List (Fin n)} {p : Fin n} {offset length : UInt16} (hpool : pool.Nodup)
    (ho : offset.toNat ≤ PBUF_POOL_BUFSIZE) (hrun : PbufRefs.poolLoop pool heap none none offset length = some (heap', some p)) :
    ∃ ls, Linked heap' (some p) ls ∧ pbufAllocPool header (pool.map addr) offset.toNat length.toNat =
      some (spans (moved (fun q => addr q + header) (some p) offset.toNat) ls) := by
  cases pool with
  | nil => cases hrun
  | cons q pool =>
    obtain ⟨hnot, hpool⟩ := List.nodup_cons.mp hpool
    rw [poolLoop_cons] at hrun
    simp only [PbufRefs.append, Option.bind_some, Option.getD_none] at hrun
    have hfirst : Linked (put heap q ⟨none, length, qlenOf offset length, 1⟩) (some q) [⟨q, qlenOf offset length, length⟩] :=
      .cons (c := ⟨none, length, qlenOf offset length, 1⟩) (put_self ..) .nil
    rw [pbufAllocPool_cons addr header q pool offset ho]
    split at hrun
    · next hmore =>
      have hapart : ∀ x ∈ pool, x ∉ cells ([] ++ [⟨q, qlenOf offset length, length⟩]) := by
        intro x hx hmem
        rw [List.mem_singleton.mp hmem] at hx
        exact hnot hx
      obtain ⟨rfl, new, hnew, halloc⟩ :=
        poolLoop_linked addr header (l := ⟨q, qlenOf offset length, length⟩) hfirst hpool hapart hrun
      have hbehind : spans (moved (fun q => addr q + header) (some p) offset.toNat) new =
          spans (fun q => addr q + header) new := by
        refine List.map_congr_left fun l hl => ?_
        have hne : l.cell ≠ p := by
          intro heq
          have hmem : l.cell ∈ cells new := List.mem_map_of_mem hl
          rw [heq] at hmem
          exact hnew.first_not_mem hmem
        rw [moved, Function.update_of_ne hne]
      have hself : moved (fun q => addr q + header) (some p) offset.toNat p = addr p + header + offset.toNat := by
        rw [moved, Function.update_self]
      refine ⟨_, hnew, ?_⟩
      rw [if_pos hmore, halloc, Option.map_some, List.nil_append, ← hbehind, ← hself]
      rfl
    · next hdone =>
      cases hrun
      refine ⟨_, hfirst, ?_⟩
      rw [if_neg hdone]
      simp [spans, moved]

end Pool

/-! ## The checksum -/

/-- Two packets in memory with the same bytes have the same checksum. -/
theorem inetChksumPbuf_memory {mem mem' : Memory} {qs qs' : List Device.Transmit.Pbuf}
    (h : Device.Transmit.contents mem qs = Device.Transmit.contents mem' qs')
    (hlen : (Device.Transmit.contents mem qs).length < 65536) :
    Checksum.inetChksumPbuf (summed mem qs) = Checksum.inetChksumPbuf (summed mem' qs') := by
  obtain ⟨sum, hsum, halike⟩ := Checksum.inetChksumPbuf_alike (p := summed mem qs) (by rwa [contents_summed])
  obtain ⟨sum', hsum', halike'⟩ := Checksum.inetChksumPbuf_alike (p := summed mem' qs') (by rwa [contents_summed, ← h])
  rw [contents_summed, h, ← contents_summed] at halike
  rw [hsum, hsum', Checksum.eq_of_alike (halike.trans halike'.symm)]

end Nanotube.Lwip.Packets
