/-
  Nanotube.Lib.RefCounts — linked cells with reference counts.

  A heap has a fixed number of cells; a cell that is in use has a count and at most one
  link. `held` is how many references to each cell are held from outside. `Sound` is what
  the counts are for: each is the number of references from outside and of links to the
  cell, it is not 0, and no links form a cycle.

  A `Move` is one of the ways to change a heap: take, count, drop, cut, tie. Moves keep it
  sound (`Moves.sound`); in a sound heap a cell is in use exactly when it can be reached from
  a reference that is held (`Sound.in_use_iff`), and no chain of links is longer than the
  heap (`Acyclic.depth`).
-/

import Nanotube.Lib.Slots
import Mathlib.Logic.Relation

namespace Nanotube.Lib.RefCounts

open Nanotube.Lib.Slots

variable {n : Nat} {α : Type}

abbrev Heap (n : Nat) (α : Type) := Fin n → Option α

/-- `b` can be reached from `a`. -/
abbrev Reaches (e : Fin n → Option (Fin n)) : Fin n → Fin n → Prop := Relation.ReflTransGen fun a b => e a = some b

def Acyclic (e : Fin n → Option (Fin n)) : Prop := ∃ rank : Fin n → Nat, ∀ a b, e a = some b → rank b < rank a

/-- One more reference. -/
def gain (held : Fin n → Nat) (a : Fin n) : Fin n → Nat := Function.update held a (held a + 1)

/-- One more reference, unless it is to nothing. -/
def gains (held : Fin n → Nat) : Option (Fin n) → Fin n → Nat
  | none => held
  | some a => gain held a

theorem gain_apply (held : Fin n → Nat) (a b : Fin n) : gain held a b = held b + if b = a then 1 else 0 := by
  by_cases h : b = a
  · rw [h, gain, Function.update_self, if_pos rfl]
  · rw [gain, Function.update_of_ne h, if_neg h, Nat.add_zero]

theorem gain_comm (held : Fin n → Nat) (a b : Fin n) : gain (gain held a) b = gain (gain held b) a := by
  funext c
  simp only [gain_apply]
  omega

theorem gains_gain (held : Fin n → Nat) (o : Option (Fin n)) (a : Fin n) : gains (gain held a) o = gain (gains held o) a := by
  cases o with
  | none => rfl
  | some b => exact gain_comm held a b

theorem gains_apply (held : Fin n → Nat) (o : Option (Fin n)) (b : Fin n) :
    gains held o b = held b + o.toList.count b := by
  cases o with
  | none => rfl
  | some a =>
    rw [gains, gain_apply, count_toList]
    by_cases h : b = a
    · simp [h]
    · simp [h, Ne.symm h]

section Edges

variable {e e' : Fin n → Option (Fin n)}

theorem Acyclic.mono (h : Acyclic e) (hsub : ∀ a b, e' a = some b → e a = some b) : Acyclic e' := by
  obtain ⟨rank, hrank⟩ := h
  exact ⟨rank, fun a b hab => hrank a b (hsub a b hab)⟩

/-- A cell that cannot be reached from `b` gets a link to `b`. -/
theorem Acyclic.tie (h : Acyclic e) {a b : Fin n} (hreach : ¬ Reaches e b a) :
    Acyclic (Function.update e a (some b)) := by
  classical
  obtain ⟨rank, hrank⟩ := h
  -- what reaches `a` is raised above `b`
  refine ⟨fun c => rank c + if Reaches e c a then rank b + 1 else 0, fun c d hcd => ?_⟩
  by_cases hca : c = a
  · rw [hca, Function.update_self] at hcd
    obtain rfl : b = d := Option.some.inj hcd
    have hself : Reaches e c a := by rw [hca]
    simp only [if_pos hself, if_neg hreach]
    omega
  · rw [Function.update_of_ne hca] at hcd
    have hlt := hrank c d hcd
    by_cases hd : Reaches e d a
    · have hc : Reaches e c a := Relation.ReflTransGen.head hcd hd
      simp only [if_pos hc, if_pos hd]
      omega
    · simp only [if_neg hd]
      omega

theorem Acyclic.not_back (h : Acyclic e) {a b : Fin n} (hab : e a = some b) : ¬ Reaches e b a := by
  obtain ⟨rank, hrank⟩ := h
  intro hback
  have hle : rank a ≤ rank b := by
    clear hab
    induction hback with
    | refl => exact Nat.le_refl _
    | tail _ hcd ih => exact (Nat.le_of_lt (hrank _ _ hcd)).trans ih
  exact absurd (hrank a b hab) (by omega)

/-- No chain of links is longer than the heap. -/
theorem Acyclic.depth (h : Acyclic e) :
    ∃ depth : Fin n → Nat, (∀ a, 0 < depth a ∧ depth a ≤ n) ∧ ∀ a b, e a = some b → depth b < depth a := by
  obtain ⟨rank, hrank⟩ := h
  refine ⟨fun a => (List.finRange n).countP fun c => rank c ≤ rank a, fun a => ⟨?_, ?_⟩, fun a b hab => ?_⟩
  · exact List.countP_pos_iff.mpr ⟨a, List.mem_finRange a, by simp⟩
  · exact List.countP_le_length.trans (Nat.le_of_eq (List.length_finRange ..))
  · have hlt := hrank a b hab
    have hsplit : (List.finRange n).countP (fun c => rank c ≤ rank b) + 1 ≤
        (List.finRange n).countP fun c => decide (rank c ≤ rank b) || decide (c = a) := by
      have hsame : ∀ c, c ≠ a → (decide (rank c ≤ rank b) || decide (c = a)) = decide (rank c ≤ rank b) :=
        fun c hc => by simp [hc]
      have hslot := countP_slot (List.nodup_finRange n) (List.mem_finRange a) hsame
      have hnot : ¬ rank a ≤ rank b := by omega
      simp only [hnot, decide_false, Bool.toNat_false, decide_true, Bool.or_true, Bool.toNat_true] at hslot
      omega
    refine Nat.lt_of_lt_of_le (Nat.lt_of_succ_le hsplit) (List.countP_mono_left fun c _ hc => ?_)
    simp only [Bool.or_eq_true, decide_eq_true_eq] at hc ⊢
    rcases hc with hc | rfl
    · omega
    · exact Nat.le_refl _

end Edges

variable (next : α → Option (Fin n)) (ref : α → Nat)

def edges (heap : Heap n α) : Fin n → Option (Fin n) := fun a => (heap a).bind next

structure Sound (heap : Heap n α) (held : Fin n → Nat) : Prop where
  count : ∀ a, (heap a).elim 0 ref = held a + (slots (edges next heap)).count a
  pos : ∀ a c, heap a = some c → 0 < ref c
  acyclic : Acyclic (edges next heap)

variable {next ref} {heap : Heap n α} {held : Fin n → Nat}

theorem edges_update (a : Fin n) (x : Option α) :
    edges next (Function.update heap a x) = Function.update (edges next heap) a (x.bind next) := by
  funext b
  by_cases h : b = a
  · rw [h, edges, Function.update_self, Function.update_self]
  · rw [edges, Function.update_of_ne h, Function.update_of_ne h, edges]

theorem Sound.in_use_of_held (h : Sound next ref heap held) {a : Fin n} (ha : 0 < held a) : ∃ c, heap a = some c := by
  have hcount := h.count a
  cases hc : heap a with
  | none =>
    rw [hc, Option.elim_none] at hcount
    omega
  | some c => exact ⟨c, rfl⟩

theorem Sound.in_use_of_link (h : Sound next ref heap held) {a b : Fin n} (hab : edges next heap a = some b) :
    ∃ c, heap b = some c := by
  have hcount := h.count b
  have hmem : 0 < (slots (edges next heap)).count b := List.count_pos_iff.mpr (mem_slots.mpr ⟨a, hab⟩)
  cases hc : heap b with
  | none =>
    rw [hc, Option.elim_none] at hcount
    omega
  | some c => exact ⟨c, rfl⟩

/-- What is in use is what can be reached. -/
theorem Sound.in_use_iff (h : Sound next ref heap held) (a : Fin n) :
    heap a ≠ none ↔ ∃ p, 0 < held p ∧ Reaches (edges next heap) p a := by
  constructor
  · -- back along the links, until a cell that is held; the depth goes up
    obtain ⟨depth, hdepth, hlink⟩ := h.acyclic.depth
    generalize hm : n - depth a = m
    intro ha
    induction m using Nat.strong_induction_on generalizing a with
    | _ m ih =>
      subst hm
      obtain ⟨c, hc⟩ := Option.ne_none_iff_exists'.mp ha
      have hcount := h.count a
      have hpos := h.pos a c hc
      rw [hc, Option.elim_some] at hcount
      by_cases hheld : 0 < held a
      · exact ⟨a, hheld, Relation.ReflTransGen.refl⟩
      · have hmem : a ∈ slots (edges next heap) := List.count_pos_iff.mp (by omega)
        obtain ⟨b, hb⟩ := mem_slots.mp hmem
        have hlt := hlink b a hb
        have hle := (hdepth b).2
        have hbuse : heap b ≠ none := by
          intro hb0
          rw [edges, hb0] at hb
          cases hb
        obtain ⟨p, hp, hreach⟩ := ih _ (by omega) b rfl hbuse
        exact ⟨p, hp, hreach.tail hb⟩
  · rintro ⟨p, hp, hreach⟩
    rcases Relation.ReflTransGen.cases_tail hreach with rfl | ⟨b, _, hb⟩
    · obtain ⟨c, hc⟩ := h.in_use_of_held hp
      rw [hc]
      exact Option.some_ne_none c
    · obtain ⟨c, hc⟩ := h.in_use_of_link hb
      rw [hc]
      exact Option.some_ne_none c

/-! ## Moves -/

variable (next ref)

/-- `c'` is put into the cell `a`. -/
abbrev put (heap : Heap n α) (a : Fin n) (c' : α) : Heap n α := Function.update heap a (some c')

inductive Move : Heap n α → (Fin n → Nat) → Heap n α → (Fin n → Nat) → Prop
  | write {heap held a c c'} (use : heap a = some c) (link : next c' = next c) (count : ref c' = ref c) :
      Move heap held (put heap a c') held
  | take {heap held a c'} (free : heap a = none) (link : next c' = none) (count : ref c' = 1) :
      Move heap held (put heap a c') (gain held a)
  | share {heap held a c c'} (use : heap a = some c) (link : next c' = next c) (count : ref c' = ref c + 1) :
      Move heap held (put heap a c') (gain held a)
  | drop {heap held a c c'} (use : heap a = some c) (link : next c' = next c) (count : ref c = ref c' + 1)
      (pos : 0 < ref c') : Move heap (gain held a) (put heap a c') held
  /-- the last reference; that of the cell itself is then held -/
  | free {heap held a c} (use : heap a = some c) (count : ref c = 1) :
      Move heap (gain held a) (Function.update heap a none) (gains held (next c))
  | cut {heap held a c c'} (use : heap a = some c) (link : next c' = none) (count : ref c' = ref c) :
      Move heap held (put heap a c') (gains held (next c))
  | tie {heap held a b c c'} (use : heap a = some c) (end_ : next c = none) (link : next c' = some b) (count : ref c' = ref c)
      (apart : ¬ Reaches (edges next heap) b a) : Move heap (gain held b) (put heap a c') held

inductive Moves : Heap n α → (Fin n → Nat) → Heap n α → (Fin n → Nat) → Prop
  | refl (heap : Heap n α) (held : Fin n → Nat) : Moves heap held heap held
  | tail {heap heap' heap'' : Heap n α} {held held' held'' : Fin n → Nat} (first : Moves heap held heap' held')
      (last : Move next ref heap' held' heap'' held'') : Moves heap held heap'' held''

variable {next ref}

/-- One cell changes: what the references lose or gain, its count does. -/
theorem Sound.update (h : Sound next ref heap held) {a : Fin n} {x : Option α} {held' : Fin n → Nat}
    (hacyclic : Acyclic (edges next (Function.update heap a x))) (hpos : ∀ c, x = some c → 0 < ref c)
    (hbalance : ∀ b, held' b + (x.bind next).toList.count b + (if b = a then (heap a).elim 0 ref else 0) =
      held b + ((heap a).bind next).toList.count b + if b = a then x.elim 0 ref else 0) :
    Sound next ref (Function.update heap a x) held' := by
  refine ⟨fun b => ?_, fun b c hb => ?_, hacyclic⟩
  · have hslot := count_slots_update (edges next heap) a (x.bind next) b
    have hcount := h.count b
    have hb := hbalance b
    rw [edges_update]
    rw [edges] at hslot
    by_cases hba : b = a
    · subst hba
      rw [Function.update_self]
      simp only [if_true] at hb
      omega
    · rw [Function.update_of_ne hba]
      simp only [if_neg hba] at hb
      omega
  · by_cases hba : b = a
    · rw [hba, Function.update_self] at hb
      exact hpos c hb
    · rw [Function.update_of_ne hba] at hb
      exact h.pos b c hb

theorem edges_of_use {a : Fin n} {c : α} (h : heap a = some c) : edges next heap a = next c := by rw [edges, h, Option.bind_some]

/-- A link that is there after one was taken away was there before. -/
theorem edges_update_sub {a : Fin n} {x : Option α} (hx : ∀ b, x.bind next = some b → edges next heap a = some b) {b c : Fin n}
    (h : edges next (Function.update heap a x) b = some c) : edges next heap b = some c := by
  rw [edges_update] at h
  by_cases hba : b = a
  · rw [hba, Function.update_self] at h
    rw [hba]
    exact hx c h
  · rwa [Function.update_of_ne hba] at h

/-- A cell without a link takes links away only. -/
theorem edges_unlink_sub {a b c : Fin n} {x : Option α} (hx : x.bind next = none)
    (h : edges next (Function.update heap a x) b = some c) : edges next heap b = some c := by
  refine edges_update_sub (fun d hd => ?_) h
  rw [hx] at hd
  cases hd

/-- The count of a cell changes; its link stays. -/
theorem Sound.recount (h : Sound next ref heap held) {a : Fin n} {c c' : α} {held' : Fin n → Nat} (use : heap a = some c)
    (link : next c' = next c) (pos : 0 < ref c')
    (hbalance : ∀ b, held' b + (if b = a then ref c else 0) = held b + if b = a then ref c' else 0) :
    Sound next ref (put heap a c') held' := by
  refine h.update (h.acyclic.mono fun b d => edges_update_sub fun d hd => ?_) ?_ fun b => ?_
  · rw [edges_of_use use, ← link]
    exact hd
  · intro d hd
    rw [← Option.some.inj hd]
    exact pos
  · have hb := hbalance b
    simp only [use, Option.bind_some, Option.elim_some, link]
    omega

theorem Move.sound {heap' : Heap n α} {held' : Fin n → Nat} (hm : Move next ref heap held heap' held')
    (h : Sound next ref heap held) : Sound next ref heap' held' := by
  cases hm with
  | write use link count =>
    refine h.recount use link ?_ fun b => by rw [count]
    rw [count]
    exact h.pos _ _ use
  | take free link count =>
    refine h.update (h.acyclic.mono fun b c => edges_unlink_sub link) ?_ fun b => ?_
    · intro c hc
      rw [← Option.some.inj hc, count]
      decide
    · simp only [free, Option.bind_some, Option.bind_none, Option.elim_some, Option.elim_none, link, count, gain_apply,
        Option.toList_none, List.count_nil, ite_self]
      omega
  | share use link count =>
    refine h.recount use link (by omega) fun b => ?_
    rw [count, gain_apply]
    split <;> omega
  | drop use link count pos =>
    refine h.recount use link pos fun b => ?_
    rw [count, gain_apply]
    split <;> omega
  | free use count =>
    refine h.update (h.acyclic.mono fun b c => edges_unlink_sub rfl) nofun fun b => ?_
    simp only [use, Option.bind_some, Option.bind_none, Option.elim_some, Option.elim_none, count, gain_apply, gains_apply,
      Option.toList_none, List.count_nil]
    split <;> omega
  | cut use link count =>
    refine h.update (h.acyclic.mono fun b c => edges_unlink_sub link) ?_ fun b => ?_
    · intro c hc
      rw [← Option.some.inj hc, count]
      exact h.pos _ _ use
    · simp only [use, Option.bind_some, Option.elim_some, link, count, gains_apply, Option.toList_none, List.count_nil]
      omega
  | tie use end_ link count apart =>
    refine h.update ?_ ?_ fun b => ?_
    · rw [edges_update, Option.bind_some, link]
      exact h.acyclic.tie apart
    · intro c hc
      rw [← Option.some.inj hc, count]
      exact h.pos _ _ use
    · simp only [use, Option.bind_some, Option.elim_some, link, end_, count, ← gains_apply, Option.toList_none, List.count_nil,
        gains]
      omega

theorem Moves.sound {heap' : Heap n α} {held' : Fin n → Nat} (hm : Moves next ref heap held heap' held')
    (h : Sound next ref heap held) : Sound next ref heap' held' := by
  induction hm with
  | refl => exact h
  | tail _ last ih => exact last.sound (ih h)

theorem Moves.trans {heap' heap'' : Heap n α} {held' held'' : Fin n → Nat} (h : Moves next ref heap held heap' held')
    (h' : Moves next ref heap' held' heap'' held'') : Moves next ref heap held heap'' held'' := by
  induction h' with
  | refl => exact h
  | tail _ last ih => exact (ih h).tail last

end Nanotube.Lib.RefCounts
