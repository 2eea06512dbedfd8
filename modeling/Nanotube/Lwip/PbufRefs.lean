/-
  Nanotube.Lwip.PbufRefs — is a pbuf freed while it is in use, or never? (src/lwIP/core/pbuf.c:
  `pbuf_alloc`, `pbuf_alloc_reference`, `pbuf_ref`, `pbuf_free`, `pbuf_cat`, `pbuf_chain`,
  `pbuf_dechain`, `pbuf_realloc`, `pbuf_free_header`)

  Memory is `n` cells. A pbuf holds a count of the references to it, in a byte, and each
  function that unlinks or frees walks the chain as it finds it in memory. A function has no
  result where it would use a pbuf that is not there or would not come to an end.

  `held` are the references that callers hold, as the functions hand them out: an allocated
  pbuf and a `pbuf_ref` are one more, `pbuf_free` and the tail given to `pbuf_cat` one less.
  `Allowed` is what a caller has to see to.

  Proved: callers that do may call in any order, and no call uses a pbuf that was freed or
  goes round in circles; the count of a pbuf is the number of references and of links to it;
  and a pbuf is in memory exactly when a caller can still get to it (`freed_when_unreachable`).
  When the last reference is given back nothing is left.
-/

import Nanotube.Lib.RefCounts
import Mathlib.Data.List.Nodup

namespace Nanotube.Lwip.PbufRefs

open Nanotube.Lib.Slots Nanotube.Lib.RefCounts

def PBUF_POOL_BUFSIZE : UInt16 := 590

structure Pbuf (n : Nat) where
  next : Option (Fin n)
  totLen : UInt16
  len : UInt16
  ref : UInt8
  deriving DecidableEq, Repr

variable {n : Nat}

/-! ## The code -/

/-- `tot_len` is more by `k`. -/
def Pbuf.grow (c : Pbuf n) (k : UInt16) : Pbuf n := { c with totLen := c.totLen + k }

/-- `tot_len` is less by `k`. -/
def Pbuf.shrink (c : Pbuf n) (k : UInt16) : Pbuf n := { c with totLen := c.totLen - k }

/-- The last pbuf of a chain, with `k` bytes. -/
def Pbuf.trim (c : Pbuf n) (k : UInt16) : Pbuf n := { c with len := k, totLen := k }

/-- `pbuf_init_alloced_pbuf` -/
def pbufInitAllocedPbuf (totLen len : UInt16) : Pbuf n := ⟨none, totLen, len, 1⟩

def pbufRef (heap : Heap n (Pbuf n)) (p : Fin n) : Option (Heap n (Pbuf n)) :=
  match heap p with
  | none => none
  | some c => some (put heap p { c with ref := c.ref + 1 })

/-- The loop of `pbuf_free`; `count` is a byte. -/
def freeLoop : Nat → Heap n (Pbuf n) → Option (Fin n) → Option (Heap n (Pbuf n) × UInt8)
  | _, heap, none => some (heap, 0)
  | 0, _, some _ => none
  | fuel + 1, heap, some p =>
    match heap p with
    | none => none
    | some c =>
      if c.ref - 1 = 0 then (freeLoop fuel (Function.update heap p none) c.next).map fun r => (r.1, r.2 + 1)
      else some (put heap p { c with ref := c.ref - 1 }, 0)

def pbufFree (heap : Heap n (Pbuf n)) (p : Fin n) : Option (Heap n (Pbuf n) × UInt8) := freeLoop n heap (some p)

/-- The loop of `pbuf_cat`, and what it does at the last pbuf. -/
def catLoop : Nat → Heap n (Pbuf n) → Fin n → Fin n → Option (Heap n (Pbuf n))
  | 0, _, _, _ => none
  | fuel + 1, heap, p, t =>
    match heap p, heap t with
    | some c, some d =>
      match c.next with
      | some q => catLoop fuel (put heap p (c.grow d.totLen)) q t
      | none => some (put heap p { c.grow d.totLen with next := some t })
    | _, _ => none

def pbufCat (heap : Heap n (Pbuf n)) (h t : Fin n) : Option (Heap n (Pbuf n)) := catLoop n heap h t

def pbufChain (heap : Heap n (Pbuf n)) (h t : Fin n) : Option (Heap n (Pbuf n)) :=
  (pbufCat heap h t).bind fun heap => pbufRef heap t

/-- The tail too, if it is still there. -/
def pbufDechain (heap : Heap n (Pbuf n)) (p : Fin n) : Option (Heap n (Pbuf n) × Option (Fin n)) :=
  match heap p with
  | none => none
  | some c =>
    match c.next with
    | none => some (heap, none)
    | some q =>
      match heap q with
      | none => none
      | some d =>
        let heap := put heap q { d with totLen := c.totLen - c.len }
        let heap := put heap p { c with next := none, totLen := c.len }
        (pbufFree heap q).map fun r => (r.1, if r.2 > 0 then none else some q)

/-- `q->next = NULL` -/
def unlink (heap : Heap n (Pbuf n)) (q : Fin n) : Option (Heap n (Pbuf n)) :=
  match heap q with
  | none => none
  | some c => some (put heap q { c with next := none })

/-- The loop of `pbuf_realloc`, and what it does at the pbuf that is the last from then on. -/
def reallocLoop : Nat → Heap n (Pbuf n) → UInt16 → UInt16 → Fin n → Option (Heap n (Pbuf n))
  | 0, _, _, _, _ => none
  | fuel + 1, heap, shrink, remLen, q =>
    match heap q with
    | none => none
    | some c =>
      if remLen > c.len then
        match c.next with
        | none => none
        | some q' => reallocLoop fuel (put heap q (c.shrink shrink)) shrink (remLen - c.len) q'
      else
        let heap := put heap q (c.trim remLen)
        match c.next with
        | none => unlink heap q
        | some t => (pbufFree heap t).bind fun r => unlink r.1 q

def pbufRealloc (heap : Heap n (Pbuf n)) (p : Fin n) (newLen : UInt16) : Option (Heap n (Pbuf n)) :=
  match heap p with
  | none => none
  | some c => if newLen ≥ c.totLen then some heap else reallocLoop n heap (c.totLen - newLen) newLen p

/-- The loop of `pbuf_free_header`. -/
def freeHeaderLoop : Nat → Heap n (Pbuf n) → Option (Fin n) → UInt16 → Option (Heap n (Pbuf n) × Option (Fin n))
  | _, heap, none, _ => some (heap, none)
  | 0, _, some _, _ => none
  | fuel + 1, heap, some p, freeLeft =>
    if freeLeft = 0 then some (heap, some p)
    else
      match heap p with
      | none => none
      | some c =>
        if freeLeft ≥ c.len then
          (pbufFree (put heap p { c with next := none }) p).bind fun r => freeHeaderLoop fuel r.1 c.next (freeLeft - c.len)
        else some (put heap p { c with len := c.len - freeLeft, totLen := c.totLen - freeLeft }, some p)

def pbufFreeHeader (heap : Heap n (Pbuf n)) (q : Fin n) (size : UInt16) : Option (Heap n (Pbuf n) × Option (Fin n)) :=
  freeHeaderLoop n heap (some q) size

/-- `last->next = q` -/
def append (heap : Heap n (Pbuf n)) (last : Option (Fin n)) (q : Fin n) : Option (Heap n (Pbuf n)) :=
  match last with
  | none => some heap
  | some l =>
    match heap l with
    | none => none
    | some c => some (put heap l { c with next := some q })

/-- The loop of `pbuf_alloc` for PBUF_POOL. `mem` are the cells that `memp_malloc` returns,
    one after the other, and then NULL. -/
def poolLoop : List (Fin n) → Heap n (Pbuf n) → Option (Fin n) → Option (Fin n) → UInt16 → UInt16 →
    Option (Heap n (Pbuf n) × Option (Fin n))
  | [], heap, none, _, _, _ => some (heap, none)
  | [], heap, some p, _, _, _ => (pbufFree heap p).map fun r => (r.1, none)
  | q :: mem, heap, p, last, offset, remLen =>
    let qlen := min remLen (PBUF_POOL_BUFSIZE - offset)
    (append (put heap q (pbufInitAllocedPbuf remLen qlen)) last q).bind fun heap =>
      if remLen - qlen > 0 then poolLoop mem heap (some (p.getD q)) (some q) 0 (remLen - qlen)
      else some (heap, some (p.getD q))

structure State (n : Nat) where
  heap : Heap n (Pbuf n)
  held : Fin n → Nat

inductive Op (n : Nat) where
  /-- PBUF_RAM, PBUF_REF and PBUF_ROM -/
  | alloc (q : Fin n) (length : UInt16)
  | allocPool (mem : List (Fin n)) (offset length : UInt16)
  | ref (p : Fin n)
  | free (p : Fin n)
  | cat (h t : Fin n)
  | chain (h t : Fin n)
  | dechain (p : Fin n)
  | realloc (p : Fin n) (newLen : UInt16)
  | freeHeader (q : Fin n) (size : UInt16)

/-- One reference less. -/
def lose (held : Fin n → Nat) (a : Fin n) : Fin n → Nat := Function.update held a (held a - 1)

def step (s : State n) : Op n → Option (State n)
  | .alloc q length => some ⟨put s.heap q (pbufInitAllocedPbuf length length), gain s.held q⟩
  | .allocPool mem offset length =>
    (poolLoop mem s.heap none none offset length).map fun r => ⟨r.1, gains s.held r.2⟩
  | .ref p => (pbufRef s.heap p).map fun heap => ⟨heap, gain s.held p⟩
  | .free p => (pbufFree s.heap p).map fun r => ⟨r.1, lose s.held p⟩
  | .cat h t => (pbufCat s.heap h t).map fun heap => ⟨heap, lose s.held t⟩
  | .chain h t => (pbufChain s.heap h t).map fun heap => ⟨heap, s.held⟩
  | .dechain p => (pbufDechain s.heap p).map fun r => ⟨r.1, s.held⟩
  | .realloc p newLen => (pbufRealloc s.heap p newLen).map fun heap => ⟨heap, s.held⟩
  | .freeHeader q size => (pbufFreeHeader s.heap q size).map fun r => ⟨r.1, gains (lose s.held q) r.2⟩

/-! ## What callers see to -/

abbrev links (heap : Heap n (Pbuf n)) : Fin n → Option (Fin n) := edges Pbuf.next heap

/-- The count has room for one more. -/
def Room (heap : Heap n (Pbuf n)) (p : Fin n) : Prop := ∃ c, heap p = some c ∧ c.ref ≠ 255

/-- The chains have no pbuf in common. -/
def Apart (heap : Heap n (Pbuf n)) (h t : Fin n) : Prop := ∀ p, Reaches (links heap) h p → ¬ Reaches (links heap) t p

/-- The chain is at least that long. -/
inductive HasBytes (heap : Heap n (Pbuf n)) : Fin n → UInt16 → Prop
  | here {p : Fin n} {c : Pbuf n} {k : UInt16} (cell : heap p = some c) (enough : k ≤ c.len) : HasBytes heap p k
  | further {p q : Fin n} {c : Pbuf n} {k : UInt16} (cell : heap p = some c) (link : c.next = some q)
      (rest : HasBytes heap q (k - c.len)) : HasBytes heap p k

def Allowed (s : State n) : Op n → Prop
  | .alloc q _ => s.heap q = none
  | .allocPool mem _ _ => mem.Nodup ∧ ∀ q ∈ mem, s.heap q = none
  | .ref p => Room s.heap p
  | .free p => 0 < s.held p
  | .cat h t => s.heap h ≠ none ∧ 0 < s.held t ∧ Apart s.heap h t
  | .chain h t => s.heap h ≠ none ∧ Room s.heap t ∧ Apart s.heap h t
  | .dechain p => s.heap p ≠ none
  | .realloc p newLen => HasBytes s.heap p newLen
  | .freeHeader q _ => 0 < s.held q

def Disciplined : State n → List (Op n) → Prop
  | _, [] => True
  | s, op :: ops => Allowed s op ∧ ∀ s', step s op = some s' → Disciplined s' ops

/-! ## The functions as moves -/

abbrev refs (c : Pbuf n) : Nat := c.ref.toNat

abbrev Good (heap : Heap n (Pbuf n)) (held : Fin n → Nat) : Prop := Sound Pbuf.next refs heap held

abbrev Does (heap : Heap n (Pbuf n)) (held : Fin n → Nat) (heap' : Heap n (Pbuf n)) (held' : Fin n → Nat) : Prop :=
  Moves Pbuf.next refs heap held heap' held'

variable {heap : Heap n (Pbuf n)} {held : Fin n → Nat}

theorem gain_lose {a : Fin n} (h : 0 < held a) : gain (lose held a) a = held := by
  funext b
  rw [gain_apply, lose]
  by_cases hb : b = a
  · rw [hb, Function.update_self, if_pos rfl]
    omega
  · rw [Function.update_of_ne hb, if_neg hb, Nat.add_zero]

theorem toNat_sub_one {r : UInt8} (h : 0 < r.toNat) : (r - 1).toNat + 1 = r.toNat := by
  have : (1 : UInt8) ≤ r := by
    rw [UInt8.le_iff_toNat_le]
    exact h
  rw [UInt8.toNat_sub_of_le _ _ this]
  show r.toNat - 1 + 1 = r.toNat
  omega

/-- The loop gives back the reference to `p`, and takes away links only. -/
theorem freeLoop_spec {depth : Fin n → Nat} {fuel : Nat} {p : Fin n} (h : Good heap (gain held p)) (hfuel : depth p ≤ fuel)
    (hdepth : ∀ a, 0 < depth a) (hlink : ∀ a b, links heap a = some b → depth b < depth a) :
    ∃ r, freeLoop fuel heap (some p) = some r ∧ Does heap (gain held p) r.1 held ∧
      ∀ a b, links r.1 a = some b → links heap a = some b := by
  induction fuel generalizing heap p with
  | zero =>
    have := hdepth p
    omega
  | succ fuel ih =>
    have hheld : 0 < gain held p p := by
      rw [gain_apply, if_pos rfl]
      exact Nat.succ_pos _
    obtain ⟨c, hc⟩ := h.in_use_of_held hheld
    have hpos := h.pos p c hc
    have hcount := toNat_sub_one hpos
    simp only [freeLoop, hc]
    split
    · next hlast =>
      rw [hlast] at hcount
      have hfree : Move Pbuf.next refs heap (gain held p) (Function.update heap p none) (gains held c.next) :=
        Move.free hc hcount.symm
      have hsub : ∀ a b, links (Function.update heap p none) a = some b → links heap a = some b :=
        fun a b => edges_unlink_sub rfl
      cases hnext : c.next with
      | none =>
        rw [hnext] at hfree
        refine ⟨_, by cases fuel <;> rfl, (Moves.refl _ _).tail hfree, hsub⟩
      | some q =>
        rw [hnext] at hfree
        have hlt := hlink p q (by rw [links, edges_of_use hc, hnext])
        obtain ⟨r, hr, hmoves, hlinks⟩ := ih (hfree.sound h) (by omega) fun a b hab => hlink a b (hsub a b hab)
        refine ⟨(r.1, r.2 + 1), by rw [hr]; rfl, ((Moves.refl _ _).tail hfree).trans hmoves,
          fun a b hab => hsub a b (hlinks a b hab)⟩
    · next hmore =>
      have hrest : 0 < (c.ref - 1).toNat := by
        refine Nat.pos_of_ne_zero fun h0 => hmore ?_
        exact UInt8.toNat_inj.mp h0
      refine ⟨_, rfl, (Moves.refl _ _).tail (Move.drop hc rfl hcount.symm hrest), fun a b => edges_update_sub fun d hd => ?_⟩
      rw [edges_of_use hc]
      exact hd

theorem pbufFree_spec {p : Fin n} (h : Good heap (gain held p)) :
    ∃ r, pbufFree heap p = some r ∧ Does heap (gain held p) r.1 held ∧ ∀ a b, links r.1 a = some b → links heap a = some b := by
  obtain ⟨depth, hdepth, hlink⟩ := h.acyclic.depth
  exact freeLoop_spec h (hdepth p).2 (fun a => (hdepth a).1) hlink

theorem pbufRef_spec (held : Fin n → Nat) {p : Fin n} (h : Room heap p) : ∃ heap', pbufRef heap p = some heap' ∧ Does heap held heap' (gain held p) := by
  obtain ⟨c, hc, hroom⟩ := h
  refine ⟨put heap p { c with ref := c.ref + 1 }, by rw [pbufRef, hc], (Moves.refl _ _).tail (Move.share hc rfl ?_)⟩
  have hlt : c.ref.toNat ≠ 255 := fun h0 => hroom (UInt8.toNat_inj.mp h0)
  have hbyte := c.ref.toNat_lt
  show (c.ref + 1).toNat = c.ref.toNat + 1
  rw [UInt8.toNat_add]
  show (c.ref.toNat + 1) % 256 = c.ref.toNat + 1
  omega

/-- Lengths are written to a pbuf; the links stay. -/
theorem links_write {p : Fin n} {c c' : Pbuf n} (hc : heap p = some c) (hnext : c'.next = c.next) :
    links (put heap p c') = links heap := by
  have hp : links heap p = c.next := edges_of_use hc
  rw [links, edges_update, Option.bind_some, hnext, ← hp, Function.update_eq_self]

theorem Apart.along {p q t : Fin n} {c : Pbuf n} (h : Apart heap p t) (hc : heap p = some c) (hq : c.next = some q)
    (c' : Pbuf n) (hnext : c'.next = c.next) : Apart (put heap p c') q t := by
  rw [Apart, links_write hc hnext]
  exact fun x hx => h x (Relation.ReflTransGen.head (by rw [links, edges_of_use hc, hq]) hx)

theorem Apart.ne {p t : Fin n} (h : Apart heap p t) : p ≠ t := by
  rintro rfl
  exact h p Relation.ReflTransGen.refl Relation.ReflTransGen.refl

theorem catLoop_spec {depth : Fin n → Nat} {fuel : Nat} {p t : Fin n} {d : Pbuf n} (h : Good heap (gain held t))
    (ht : heap t = some d) (hp : heap p ≠ none) (hapart : Apart heap p t) (hfuel : depth p ≤ fuel)
    (hdepth : ∀ a, 0 < depth a) (hlink : ∀ a b, links heap a = some b → depth b < depth a) :
    ∃ heap', catLoop fuel heap p t = some heap' ∧ Does heap (gain held t) heap' held := by
  induction fuel generalizing heap p with
  | zero =>
    have := hdepth p
    omega
  | succ fuel ih =>
    obtain ⟨c, hc⟩ := Option.ne_none_iff_exists'.mp hp
    have htp : ¬ Reaches (links heap) t p := hapart p Relation.ReflTransGen.refl
    simp only [catLoop, hc, ht]
    cases hnext : c.next with
    | none => exact ⟨_, rfl, (Moves.refl _ _).tail (Move.tie hc hnext rfl rfl htp)⟩
    | some q =>
      have hpq : links heap p = some q := by rw [links, edges_of_use hc, hnext]
      have hne := hapart.ne.symm
      have hwrite : Move Pbuf.next refs heap (gain held t) (put heap p (c.grow d.totLen)) (gain held t) :=
        Move.write hc rfl rfl
      have hsame : links (put heap p (c.grow d.totLen)) = links heap := links_write hc rfl
      obtain ⟨e, he⟩ := (hwrite.sound h).in_use_of_link (a := p) (b := q) (by rw [← hpq]; exact congrFun hsame p)
      have hrest : Apart (put heap p (c.grow d.totLen)) q t := hapart.along hc hnext _ rfl
      obtain ⟨heap', hcat, hmoves⟩ := ih (hwrite.sound h) ((Function.update_of_ne hne ..).trans ht)
        (by rw [he]; exact Option.some_ne_none e) hrest (by have := hlink p q hpq; omega) (by rw [hsame]; exact hlink)
      exact ⟨heap', hcat, ((Moves.refl _ _).tail hwrite).trans hmoves⟩

theorem pbufCat_spec {p t : Fin n} (h : Good heap (gain held t)) (hp : heap p ≠ none) (hapart : Apart heap p t) :
    ∃ heap', pbufCat heap p t = some heap' ∧ Does heap (gain held t) heap' held := by
  obtain ⟨depth, hdepth, hlink⟩ := h.acyclic.depth
  obtain ⟨d, hd⟩ := h.in_use_of_held (a := t) (by rw [gain_apply, if_pos rfl]; exact Nat.succ_pos _)
  exact catLoop_spec h hd hp hapart (hdepth p).2 (fun a => (hdepth a).1) hlink

/-- The loop reads no more of the tail than its length. -/
theorem catLoop_put {fuel : Nat} {p t : Fin n} {d : Pbuf n} (d' : Pbuf n) (ht : heap t = some d) (hlen : d'.totLen = d.totLen)
    (hapart : Apart heap p t) :
    catLoop fuel (put heap t d') p t = (catLoop fuel heap p t).map fun heap' => put heap' t d' := by
  induction fuel generalizing heap p with
  | zero => rfl
  | succ fuel ih =>
    have hne := hapart.ne
    have hp : put heap t d' p = heap p := Function.update_of_ne hne ..
    have ht' : put heap t d' t = some d' := Function.update_self ..
    simp only [catLoop, hp, ht, ht']
    cases hc : heap p with
    | none => rfl
    | some c =>
      dsimp only
      cases hq : c.next with
      | none =>
        rw [hlen]
        simp only [Option.map_some, put]
        rw [Function.update_comm hne]
      | some q =>
        have hcat := ih (p := q) ((Function.update_of_ne hne.symm ..).trans ht) (hapart.along hc hq (c.grow d.totLen) rfl)
        dsimp only
        rw [← hcat, hlen, put, put, Function.update_comm hne.symm]

theorem catLoop_tail {fuel : Nat} {p t : Fin n} {heap' : Heap n (Pbuf n)} (hapart : Apart heap p t)
    (h : catLoop fuel heap p t = some heap') : heap' t = heap t := by
  induction fuel generalizing heap p with
  | zero => cases h
  | succ fuel ih =>
    have hne := hapart.ne.symm
    simp only [catLoop] at h
    split at h
    · next c d hc hd =>
      split at h
      · next q hq =>
        rw [ih (hapart.along hc hq (c.grow d.totLen) rfl) h, put, Function.update_of_ne hne]
      · rw [← Option.some.inj h, put, Function.update_of_ne hne]
    · cases h

theorem pbufChain_spec {p t : Fin n} (h : Good heap held) (hp : heap p ≠ none) (hroom : Room heap t) (hapart : Apart heap p t) :
    ∃ heap', pbufChain heap p t = some heap' ∧ Does heap held heap' held := by
  obtain ⟨d, hd, hfull⟩ := hroom
  obtain ⟨heap1, href, hshare⟩ := pbufRef_spec held ⟨d, hd, hfull⟩
  have hheap1 : heap1 = put heap t { d with ref := d.ref + 1 } := by
    rw [pbufRef, hd] at href
    exact (Option.some.inj href).symm
  -- the reference may as well be taken first
  have horder : pbufChain heap p t = pbufCat heap1 p t := by
    rw [pbufCat, hheap1, catLoop_put { d with ref := d.ref + 1 } hd rfl hapart, pbufChain, pbufCat]
    cases hcat : catLoop n heap p t with
    | none => rfl
    | some heap' =>
      have hsame := catLoop_tail hapart hcat
      rw [Option.bind_some, Option.map_some, pbufRef, hsame, hd]
  have hlinks : links heap1 = links heap := by
    rw [hheap1]
    exact links_write hd rfl
  have hp1 : heap1 p ≠ none := by
    rw [hheap1, put, Function.update_of_ne hapart.ne]
    exact hp
  have hapart1 : Apart heap1 p t := by
    rw [Apart, hlinks]
    exact hapart
  obtain ⟨heap', hcat, hmoves⟩ := pbufCat_spec (hshare.sound h) hp1 hapart1
  exact ⟨heap', horder.trans hcat, hshare.trans hmoves⟩

theorem pbufDechain_spec {p : Fin n} (h : Good heap held) (hp : heap p ≠ none) :
    ∃ r, pbufDechain heap p = some r ∧ Does heap held r.1 held := by
  obtain ⟨c, hc⟩ := Option.ne_none_iff_exists'.mp hp
  simp only [pbufDechain, hc]
  cases hnext : c.next with
  | none => exact ⟨_, rfl, Moves.refl _ _⟩
  | some q =>
    have hpq : links heap p = some q := by rw [links, edges_of_use hc, hnext]
    obtain ⟨d, hd⟩ := h.in_use_of_link hpq
    have hne : p ≠ q := fun h0 => h.acyclic.not_back hpq (by rw [h0])
    simp only [hd]
    have hwrite : Move Pbuf.next refs heap held (put heap q { d with totLen := c.totLen - c.len }) held := Move.write hd rfl rfl
    have hcut : Move Pbuf.next refs (put heap q { d with totLen := c.totLen - c.len }) held
        (put (put heap q { d with totLen := c.totLen - c.len }) p { c with next := none, totLen := c.len }) (gains held c.next) :=
      Move.cut ((Function.update_of_ne hne ..).trans hc) rfl rfl
    rw [hnext] at hcut
    have hfirst := ((Moves.refl heap held).tail hwrite).tail hcut
    obtain ⟨r, hr, hmoves, _⟩ := pbufFree_spec (hfirst.sound h)
    exact ⟨(r.1, if r.2 > 0 then none else some q), by rw [hr]; rfl, hfirst.trans hmoves⟩

/-- What `pbuf_free` cannot reach it neither reads nor writes. -/
theorem freeLoop_frame (fuel : Nat) {p q : Fin n} (hreach : ¬ Reaches (links heap) p q) (x : Option (Pbuf n)) :
    freeLoop fuel (Function.update heap q x) (some p) =
        (freeLoop fuel heap (some p)).map (fun r => (Function.update r.1 q x, r.2)) ∧
      ∀ r, freeLoop fuel heap (some p) = some r → r.1 q = heap q := by
  induction fuel generalizing heap p with
  | zero => exact ⟨rfl, nofun⟩
  | succ fuel ih =>
    have hne : p ≠ q := by
      rintro rfl
      exact hreach Relation.ReflTransGen.refl
    have hp : Function.update heap q x p = heap p := Function.update_of_ne hne ..
    simp only [freeLoop, hp]
    cases hc : heap p with
    | none => exact ⟨rfl, nofun⟩
    | some c =>
      dsimp only
      split
      · rw [Function.update_comm hne.symm]
        cases hnext : c.next with
        | none =>
          cases fuel with
          | zero => exact ⟨rfl, fun r hr => by rw [← Option.some.inj hr]; exact Function.update_of_ne hne.symm ..⟩
          | succ => exact ⟨rfl, fun r hr => by rw [← Option.some.inj hr]; exact Function.update_of_ne hne.symm ..⟩
        | some t =>
          have hsub : ∀ a b, links (Function.update heap p none) a = some b → links heap a = some b :=
            fun _ _ => edges_unlink_sub rfl
          have hrest : ¬ Reaches (links (Function.update heap p none)) t q := by
            intro h0
            have hpt : links heap p = some t := by rw [links, edges_of_use hc, hnext]
            exact hreach (Relation.ReflTransGen.head hpt (Relation.ReflTransGen.mono hsub _ _ h0))
          obtain ⟨hmap, hkeep⟩ := ih hrest
          refine ⟨?_, fun r hr => ?_⟩
          · rw [hmap, Option.map_map, Option.map_map]
            rfl
          · obtain ⟨r', hr', rfl⟩ := Option.map_eq_some_iff.mp hr
            rw [hkeep r' hr', Function.update_of_ne hne.symm]
      · refine ⟨?_, fun r hr => ?_⟩
        · rw [Option.map_some, put, Function.update_comm hne.symm]
        · rw [← Option.some.inj hr]
          exact Function.update_of_ne hne.symm ..

theorem HasBytes.write {p q : Fin n} {k : UInt16} {c c' : Pbuf n} (h : HasBytes heap p k) (hc : heap q = some c)
    (hnext : c'.next = c.next) (hlen : c'.len = c.len) : HasBytes (put heap q c') p k := by
  induction h with
  | @here p d k cell enough =>
    by_cases hpq : p = q
    · subst hpq
      obtain rfl := Option.some.inj (cell.symm.trans hc)
      exact HasBytes.here (Function.update_self ..) (by rw [hlen]; exact enough)
    · exact HasBytes.here ((Function.update_of_ne hpq ..).trans cell) enough
  | @further p t d k cell link rest ih =>
    by_cases hpq : p = q
    · subst hpq
      obtain rfl := Option.some.inj (cell.symm.trans hc)
      refine HasBytes.further (Function.update_self ..) (hnext.trans link) ?_
      rw [hlen]
      exact ih
    · exact HasBytes.further ((Function.update_of_ne hpq ..).trans cell) link ih

/-- The end of `pbuf_realloc`: the pbufs behind `q` are freed first and unlinked then, but it
    comes to the same. -/
theorem unlink_after_free {q t : Fin n} {c : Pbuf n} (h : Good heap held) (hc : heap q = some c) (hnext : c.next = some t) :
    ∃ heap', ((pbufFree heap t).bind fun r => unlink r.1 q) = some heap' ∧ Does heap held heap' held := by
  have hqt : links heap q = some t := by rw [links, edges_of_use hc, hnext]
  have hcut : Move Pbuf.next refs heap held (put heap q { c with next := none }) (gains held c.next) := Move.cut hc rfl rfl
  rw [hnext] at hcut
  obtain ⟨r, hr, hmoves, _⟩ := pbufFree_spec (hcut.sound h)
  have hunreached : ¬ Reaches (links (put heap q { c with next := none })) t q := by
    have hsub : ∀ a b, links (put heap q { c with next := none }) a = some b → links heap a = some b :=
      fun a b => edges_unlink_sub rfl
    exact fun h0 => h.acyclic.not_back hqt (Relation.ReflTransGen.mono hsub _ _ h0)
  obtain ⟨hmap, hkeep⟩ := freeLoop_frame n hunreached (some c)
  have hback : Function.update (put heap q { c with next := none }) q (some c) = heap := by
    rw [put, Function.update_idem, ← hc, Function.update_eq_self]
  rw [hback, ← pbufFree, ← pbufFree, hr] at hmap
  refine ⟨r.1, ?_, ((Moves.refl _ _).tail hcut).trans hmoves⟩
  rw [hmap]
  have hcell : r.1 q = some { c with next := none } := (hkeep r hr).trans (Function.update_self ..)
  simp only [Option.map_some, Option.bind_some, unlink, Function.update_self, put, Function.update_idem]
  rw [← hcell, Function.update_eq_self]

theorem reallocLoop_spec {depth : Fin n → Nat} {fuel : Nat} {q : Fin n} {remLen : UInt16} (shrink : UInt16) (h : Good heap held)
    (hbytes : HasBytes heap q remLen) (hfuel : depth q ≤ fuel) (hdepth : ∀ a, 0 < depth a)
    (hlink : ∀ a b, links heap a = some b → depth b < depth a) :
    ∃ heap', reallocLoop fuel heap shrink remLen q = some heap' ∧ Does heap held heap' held := by
  induction fuel generalizing heap q remLen with
  | zero =>
    have := hdepth q
    omega
  | succ fuel ih =>
    obtain ⟨c, hc⟩ : ∃ c, heap q = some c := by
      cases hbytes with
      | here cell => exact ⟨_, cell⟩
      | further cell => exact ⟨_, cell⟩
    simp only [reallocLoop, hc]
    split
    · next hmore =>
      obtain ⟨t, hnext, hrest⟩ : ∃ t, c.next = some t ∧ HasBytes heap t (remLen - c.len) := by
        cases hbytes with
        | here cell enough =>
          obtain rfl := Option.some.inj (cell.symm.trans hc)
          exact absurd hmore (UInt16.not_lt.mpr enough)
        | further cell link rest =>
          obtain rfl := Option.some.inj (cell.symm.trans hc)
          exact ⟨_, link, rest⟩
      have hqt : links heap q = some t := by rw [links, edges_of_use hc, hnext]
      have hwrite : Move Pbuf.next refs heap held (put heap q (c.shrink shrink)) held := Move.write hc rfl rfl
      have hsame : links (put heap q (c.shrink shrink)) = links heap := links_write hc rfl
      obtain ⟨heap', hrealloc, hmoves⟩ := ih (hwrite.sound h) (hrest.write hc rfl rfl) (by have := hlink q t hqt; omega)
        (by rw [hsame]; exact hlink)
      exact ⟨heap', by rw [hnext]; exact hrealloc, ((Moves.refl _ _).tail hwrite).trans hmoves⟩
    · have htrim : Move Pbuf.next refs heap held (put heap q (c.trim remLen)) held := Move.write hc rfl rfl
      have hcell : put heap q (c.trim remLen) q = some (c.trim remLen) := Function.update_self ..
      cases hnext : c.next with
      | none =>
        have hwrite : Move Pbuf.next refs (put heap q (c.trim remLen)) held
            (put (put heap q (c.trim remLen)) q { c.trim remLen with next := none }) held := Move.write hcell hnext.symm rfl
        exact ⟨_, by simp only [unlink, hcell], ((Moves.refl _ _).tail htrim).tail hwrite⟩
      | some t =>
        obtain ⟨heap', hend, hmoves⟩ := unlink_after_free (htrim.sound h) hcell hnext
        exact ⟨heap', hend, ((Moves.refl _ _).tail htrim).trans hmoves⟩

theorem pbufRealloc_spec {p : Fin n} {newLen : UInt16} (h : Good heap held) (hbytes : HasBytes heap p newLen) :
    ∃ heap', pbufRealloc heap p newLen = some heap' ∧ Does heap held heap' held := by
  obtain ⟨c, hc⟩ : ∃ c, heap p = some c := by
    cases hbytes with
    | here cell => exact ⟨_, cell⟩
    | further cell => exact ⟨_, cell⟩
  obtain ⟨depth, hdepth, hlink⟩ := h.acyclic.depth
  simp only [pbufRealloc, hc]
  split
  · exact ⟨heap, rfl, Moves.refl _ _⟩
  · exact reallocLoop_spec _ h hbytes (hdepth p).2 (fun a => (hdepth a).1) hlink

theorem freeHeaderLoop_spec {depth : Fin n → Nat} {fuel : Nat} {p : Fin n} (freeLeft : UInt16) (h : Good heap (gain held p))
    (hfuel : depth p ≤ fuel) (hdepth : ∀ a, 0 < depth a) (hlink : ∀ a b, links heap a = some b → depth b < depth a) :
    ∃ r, freeHeaderLoop fuel heap (some p) freeLeft = some r ∧ Does heap (gain held p) r.1 (gains held r.2) := by
  induction fuel generalizing heap p freeLeft with
  | zero =>
    have := hdepth p
    omega
  | succ fuel ih =>
    obtain ⟨c, hc⟩ := h.in_use_of_held (a := p) (by rw [gain_apply, if_pos rfl]; exact Nat.succ_pos _)
    simp only [freeHeaderLoop, hc]
    split
    · exact ⟨_, rfl, Moves.refl _ _⟩
    split
    · have hcut : Move Pbuf.next refs heap (gain held p) (put heap p { c with next := none }) (gains (gain held p) c.next) :=
        Move.cut hc rfl rfl
      rw [gains_gain] at hcut
      obtain ⟨r, hr, hmoves, hlinks⟩ := pbufFree_spec (hcut.sound h)
      have hfirst : Does heap (gain held p) r.1 (gains held c.next) := ((Moves.refl _ _).tail hcut).trans hmoves
      have hsub : ∀ a b, links r.1 a = some b → links heap a = some b :=
        fun a b hab => edges_unlink_sub rfl (hlinks a b hab)
      rw [hr, Option.bind_some]
      cases hnext : c.next with
      | none =>
        rw [hnext] at hfirst
        refine ⟨(r.1, none), by cases fuel <;> rfl, hfirst⟩
      | some q =>
        rw [hnext] at hfirst
        have hlt := hlink p q (by rw [links, edges_of_use hc, hnext])
        obtain ⟨r', hr', hrest⟩ := ih (freeLeft - c.len) (hfirst.sound h) (by omega) fun a b hab => hlink a b (hsub a b hab)
        exact ⟨r', hr', hfirst.trans hrest⟩
    · exact ⟨_, rfl, (Moves.refl _ _).tail (Move.write hc rfl rfl)⟩

theorem pbufFreeHeader_spec {q : Fin n} (size : UInt16) (h : Good heap (gain held q)) :
    ∃ r, pbufFreeHeader heap q size = some r ∧ Does heap (gain held q) r.1 (gains held r.2) := by
  obtain ⟨depth, hdepth, hlink⟩ := h.acyclic.depth
  exact freeHeaderLoop_spec size h (hdepth q).2 (fun a => (hdepth a).1) hlink

/-- The chain that the loop of `pbuf_alloc` has built: `p` is its first pbuf and `last` its last. -/
def Built (heap : Heap n (Pbuf n)) : Option (Fin n) → Option (Fin n) → Prop
  | none, none => True
  | some _, some l => ∃ c, heap l = some c ∧ c.next = none
  | _, _ => False

/-- A new pbuf is the first of the chain, or is linked to the last one. -/
theorem append_spec {p last : Option (Fin n)} {q : Fin n} {d : Pbuf n} (held : Fin n → Nat) (hbuilt : Built heap p last)
    (hq : heap q = none) (hnext : d.next = none) (href : d.ref = 1) :
    ∃ heap', append (put heap q d) last q = some heap' ∧ Does heap (gains held p) heap' (gains held (some (p.getD q))) ∧
      heap' q = some d ∧ ∀ a, a ≠ q → heap a = none → heap' a = none := by
  have htake : Move Pbuf.next refs heap (gains held p) (put heap q d) (gain (gains held p) q) :=
    Move.take hq hnext (by rw [refs, href]; rfl)
  cases p with
  | none =>
    cases last with
    | some l => exact absurd hbuilt id
    | none =>
      exact ⟨_, rfl, (Moves.refl _ _).tail htake, Function.update_self ..,
        fun a hne ha => (Function.update_of_ne hne ..).trans ha⟩
  | some p =>
    cases last with
    | none => exact absurd hbuilt id
    | some l =>
      obtain ⟨c, hc, hend⟩ := hbuilt
      have hused : ∀ a, heap a = none → a ≠ l := by
        intro a ha hal
        rw [hal, hc] at ha
        cases ha
      have hql := hused q hq
      have hl : put heap q d l = some c := (Function.update_of_ne hql.symm ..).trans hc
      have hunreached : ¬ Reaches (links (put heap q d)) q l := by
        intro h0
        rcases Relation.ReflTransGen.cases_head h0 with heq | ⟨b, hb, _⟩
        · exact hql heq
        · rw [links, edges_of_use (Function.update_self ..), hnext] at hb
          cases hb
      have htie : Move Pbuf.next refs (put heap q d) (gain (gains held (some p)) q)
          (put (put heap q d) l { c with next := some q }) (gains held (some p)) := Move.tie hl hend rfl rfl hunreached
      refine ⟨_, by simp only [append, hl], ((Moves.refl _ _).tail htake).tail htie, ?_, fun a hne ha => ?_⟩
      · rw [put, Function.update_of_ne hql, put, Function.update_self]
      · rw [put, Function.update_of_ne (hused a ha), put, Function.update_of_ne hne]
        exact ha

theorem poolLoop_spec {mem : List (Fin n)} {p last : Option (Fin n)} (offset remLen : UInt16) (h : Good heap (gains held p))
    (hbuilt : Built heap p last) (hnodup : mem.Nodup) (hfree : ∀ q ∈ mem, heap q = none) :
    ∃ r, poolLoop mem heap p last offset remLen = some r ∧ Does heap (gains held p) r.1 (gains held r.2) := by
  induction mem generalizing heap p last offset remLen with
  | nil =>
    cases p with
    | none => exact ⟨_, rfl, Moves.refl _ _⟩
    | some p =>
      obtain ⟨r, hr, hmoves, _⟩ := pbufFree_spec h
      exact ⟨(r.1, none), by rw [poolLoop, hr]; rfl, hmoves⟩
  | cons q mem ih =>
    obtain ⟨hq, hnodup⟩ := List.nodup_cons.mp hnodup
    rw [poolLoop]
    generalize min remLen (PBUF_POOL_BUFSIZE - offset) = qlen
    obtain ⟨heap', happend, hmoves, hcell, hothers⟩ :=
      append_spec (d := pbufInitAllocedPbuf remLen qlen) held hbuilt (hfree q List.mem_cons_self) rfl rfl
    simp only [happend, Option.bind_some]
    split
    · have hbuilt' : Built heap' (some (p.getD q)) (some q) := ⟨_, hcell, rfl⟩
      have hfree' : ∀ a ∈ mem, heap' a = none :=
        fun a ha => hothers a (fun h0 => hq (h0 ▸ ha)) (hfree a (List.mem_cons_of_mem q ha))
      obtain ⟨r, hr, hloop⟩ := ih 0 (remLen - qlen) (hmoves.sound h) hbuilt' hnodup hfree'
      exact ⟨r, hr, hmoves.trans hloop⟩
    · exact ⟨_, rfl, hmoves⟩

/-! ## Over a run -/

theorem step_good {s : State n} (h : Good s.heap s.held) {op : Op n} (hallowed : Allowed s op) :
    ∃ s', step s op = some s' ∧ Good s'.heap s'.held := by
  cases op with
  | alloc q length =>
    have htake : Move Pbuf.next refs s.heap s.held (put s.heap q (pbufInitAllocedPbuf length length)) (gain s.held q) :=
      Move.take hallowed rfl rfl
    exact ⟨_, rfl, htake.sound h⟩
  | allocPool mem offset length =>
    have hbuilt : Built s.heap none none := trivial
    obtain ⟨r, hr, hmoves⟩ := poolLoop_spec offset length h hbuilt hallowed.1 hallowed.2
    exact ⟨_, by rw [step, hr]; rfl, hmoves.sound h⟩
  | ref p =>
    obtain ⟨heap, hr, hmoves⟩ := pbufRef_spec s.held hallowed
    exact ⟨_, by rw [step, hr]; rfl, hmoves.sound h⟩
  | free p =>
    have hheld := gain_lose hallowed
    rw [← hheld] at h
    obtain ⟨r, hr, hmoves, _⟩ := pbufFree_spec h
    exact ⟨_, by rw [step, hr]; rfl, hmoves.sound h⟩
  | cat p t =>
    obtain ⟨hp, ht, hapart⟩ := hallowed
    rw [← gain_lose ht] at h
    obtain ⟨heap, hr, hmoves⟩ := pbufCat_spec h hp hapart
    exact ⟨_, by rw [step, hr]; rfl, hmoves.sound h⟩
  | chain p t =>
    obtain ⟨hp, hroom, hapart⟩ := hallowed
    obtain ⟨heap, hr, hmoves⟩ := pbufChain_spec h hp hroom hapart
    exact ⟨_, by rw [step, hr]; rfl, hmoves.sound h⟩
  | dechain p =>
    obtain ⟨r, hr, hmoves⟩ := pbufDechain_spec h hallowed
    exact ⟨_, by rw [step, hr]; rfl, hmoves.sound h⟩
  | realloc p newLen =>
    obtain ⟨heap, hr, hmoves⟩ := pbufRealloc_spec h hallowed
    exact ⟨_, by rw [step, hr]; rfl, hmoves.sound h⟩
  | freeHeader q size =>
    rw [← gain_lose hallowed] at h
    obtain ⟨r, hr, hmoves⟩ := pbufFreeHeader_spec size h
    exact ⟨_, by rw [step, hr]; rfl, hmoves.sound h⟩

/-- Nothing is allocated. -/
def unused (n : Nat) : State n := ⟨fun _ => none, fun _ => 0⟩

theorem unused_good (n : Nat) : Good (unused n).heap (unused n).held := by
  refine ⟨fun a => ?_, nofun, fun _ => 0, nofun⟩
  have hnone : a ∉ slots (links (unused n).heap) := fun ha => by
    obtain ⟨b, hb⟩ := mem_slots.mp ha
    cases hb
  rw [List.count_eq_zero.mpr hnone]
  rfl

theorem foldlM_good {s : State n} (h : Good s.heap s.held) {ops : List (Op n)} (hops : Disciplined s ops) :
    ∃ s', ops.foldlM step s = some s' ∧ Good s'.heap s'.held := by
  induction ops generalizing s with
  | nil => exact ⟨s, rfl, h⟩
  | cons op ops ih =>
    obtain ⟨s1, hstep, hgood⟩ := step_good h hops.1
    obtain ⟨s', hrun, hend⟩ := ih hgood (hops.2 s1 hstep)
    exact ⟨s', by rw [List.foldlM_cons, hstep]; exact hrun, hend⟩

theorem freed_when_unreachable {ops : List (Op n)} (hops : Disciplined (unused n) ops) :
    ∃ s, ops.foldlM step (unused n) = some s ∧
      (∀ p c, s.heap p = some c → c.ref.toNat = s.held p + (slots (links s.heap)).count p) ∧
      ∀ p, s.heap p ≠ none ↔ ∃ h, 0 < s.held h ∧ Reaches (links s.heap) h p := by
  obtain ⟨s, hrun, hgood⟩ := foldlM_good (unused_good n) hops
  refine ⟨s, hrun, fun p c hc => ?_, hgood.in_use_iff⟩
  have hcount := hgood.count p
  rwa [hc, Option.elim_some] at hcount

theorem Disciplined.cons {s s' : State n} {op : Op n} {ops : List (Op n)} (hallowed : Allowed s op) (hstep : step s op = some s')
    (hrest : Disciplined s' ops) : Disciplined s (op :: ops) :=
  ⟨hallowed, fun _ hs => Option.some.inj (hstep.symm.trans hs) ▸ hrest⟩

def header : Fin 2 := ⟨0, by decide⟩
def body : Fin 2 := ⟨1, by decide⟩

/-- A body that is kept for later is sent behind a header. -/
def sendOps : List (Op 2) := [.alloc header 20, .alloc body 100, .ref body, .cat header body, .free header]

theorem sendOps_disciplined : Disciplined (unused 2) sendOps := by
  refine Disciplined.cons rfl rfl (Disciplined.cons rfl rfl (Disciplined.cons ⟨_, rfl, by decide⟩ rfl
    (Disciplined.cons ⟨nofun, by decide, ?_⟩ rfl (Disciplined.cons ?_ rfl trivial))))
  · intro p hp hp'
    rcases Relation.ReflTransGen.cases_head hp with rfl | ⟨b, hb, _⟩
    · rcases Relation.ReflTransGen.cases_head hp' with h | ⟨b, hb, _⟩
      · cases h
      · cases hb
    · cases hb
  · exact Nat.one_pos

theorem sendOps_leave_body : ∃ s, sendOps.foldlM step (unused 2) = some s ∧
    (s.heap body ≠ none ↔ ∃ h, 0 < s.held h ∧ Reaches (links s.heap) h body) := by
  obtain ⟨s, hrun, _, hin_use⟩ := freed_when_unreachable sendOps_disciplined
  exact ⟨s, hrun, hin_use body⟩

end Nanotube.Lwip.PbufRefs
