/-
  Nanotube.Lib.Timers — one-shot timers kept in a list, run off a clock.

  The list is ordered by due time: `insert` puts an entry in front of the first that is
  due later, and `expire` takes entries off the front up to the first that is not due. On
  an ordered list that is all the entries that are due (`expire_sorted`).

  A `History` is what was asked of such a timer service and what it did: the timers set,
  each with the time and the delay, and the checks, each with its time, the number of
  timers set before it and the timers it ran. It is `Punctual` for a clock when every
  timer runs at the first check after it was set that finds the clock at or past its due
  time, and at no other. A service that reads a clock which never runs ahead of the time
  (`Slow`) is punctual for the time itself exactly when at each check that is the first at
  or after the due time the clock has got there too (`punctual_iff`).
-/

import Mathlib.Data.List.Basic

namespace Nanotube.Lib.Timers

/-! ## Ordered lists -/

section Ordered

variable {α : Type} (key : α → Nat)

def insert (before : α → α → Bool) (x : α) : List α → List α
  | [] => [x]
  | y :: l => if before x y then x :: y :: l else y :: insert before x l

def expire (early : α → Bool) : List α → List α × List α
  | [] => ([], [])
  | x :: l => if early x then ([], x :: l) else (x :: (expire early l).1, (expire early l).2)

def Sorted (l : List α) : Prop := l.Pairwise fun x y => key x ≤ key y

theorem insert_perm (before : α → α → Bool) (x : α) (l : List α) : (insert before x l).Perm (x :: l) := by
  induction l with
  | nil => exact List.Perm.refl _
  | cons y l ih =>
    unfold insert
    split
    · exact List.Perm.refl _
    · exact (ih.cons y).trans (List.Perm.swap x y l)

theorem insert_sorted {before : α → α → Bool} {x : α} {l : List α}
    (hb : ∀ y ∈ l, before x y = true ↔ key x < key y) (h : Sorted key l) : Sorted key (insert before x l) := by
  induction l with
  | nil => exact List.pairwise_singleton _ _
  | cons y l ih =>
    obtain ⟨hy, hl⟩ := List.pairwise_cons.mp h
    have hby := hb y List.mem_cons_self
    unfold insert
    split
    next hx =>
      have hlt := hby.mp hx
      refine List.pairwise_cons.mpr ⟨?_, h⟩
      intro z hz
      rcases List.mem_cons.mp hz with rfl | hz
      · exact Nat.le_of_lt hlt
      · exact Nat.le_trans (Nat.le_of_lt hlt) (hy z hz)
    next hx =>
      refine List.pairwise_cons.mpr ⟨?_, ih (fun z hz => hb z (List.mem_cons_of_mem _ hz)) hl⟩
      intro z hz
      rcases List.mem_cons.mp ((insert_perm before x l).mem_iff.mp hz) with rfl | hz
      · exact Nat.le_of_not_lt fun hlt => hx (hby.mpr hlt)
      · exact hy z hz

/-- All the entries that are due are taken, and no other. -/
theorem expire_sorted {early : α → Bool} {now : Nat} {l : List α} (he : ∀ y ∈ l, early y = true ↔ now < key y)
    (h : Sorted key l) : expire early l = (l.filter (key · ≤ now), l.filter (now < key ·)) := by
  induction l with
  | nil => rfl
  | cons x l ih =>
    obtain ⟨hx, hl⟩ := List.pairwise_cons.mp h
    have hex := he x List.mem_cons_self
    unfold expire
    split
    next hlate =>
      -- the first entry is not due, so none is
      have hlt : ∀ y ∈ x :: l, now < key y := by
        intro y hy
        rcases List.mem_cons.mp hy with rfl | hy
        · exact hex.mp hlate
        · exact Nat.lt_of_lt_of_le (hex.mp hlate) (hx y hy)
      rw [List.filter_eq_nil_iff.mpr fun y hy => by simpa using hlt y hy,
        List.filter_eq_self.mpr fun y hy => by simpa using hlt y hy]
    next hdue =>
      have hle : key x ≤ now := Nat.le_of_not_lt fun hlt => hdue (hex.mpr hlt)
      rw [ih (fun y hy => he y (List.mem_cons_of_mem _ hy)) hl, List.filter_cons_of_pos (by simpa using hle),
        List.filter_cons_of_neg (by simpa using hle)]

end Ordered

/-! ## Histories -/

/-- A check: when, how many timers had been set, and which of them ran. -/
structure Check where
  n : Nat
  asked : Nat
  ran : List Nat
  deriving DecidableEq, Repr

/-- The timers set, by number, as time and delay, and the checks made. -/
structure History where
  sets : List (Nat × Nat)
  checks : List Check
  deriving DecidableEq, Repr

namespace History

def set (h : History) (t d : Nat) : History := { h with sets := h.sets ++ [(t, d)] }

def check (h : History) (n : Nat) (ran : List Nat) : History :=
  { h with checks := h.checks ++ [⟨n, h.sets.length, ran⟩] }

end History

variable (clock : Nat → Nat)

/-- No check after the timer `i` was set, among `checks`, found the clock at its due time. -/
def Waits (checks : List Check) (i t d : Nat) : Prop :=
  ∀ c ∈ checks, i < c.asked → clock c.n < clock t + d

def Punctual (h : History) : Prop :=
  ∀ pre c post, h.checks = pre ++ c :: post → ∀ i t d, h.sets[i]? = some (t, d) →
    (i ∈ c.ran ↔ i < c.asked ∧ clock t + d ≤ clock c.n ∧ Waits clock pre i t d)

/-- A history as it comes about: time does not go back, and only timers that were set run,
    each at most once in a check. -/
structure Ordered (h : History) : Prop where
  asked : ∀ c ∈ h.checks, c.asked ≤ h.sets.length
  ran : ∀ c ∈ h.checks, ∀ i ∈ c.ran, i < c.asked
  once : ∀ c ∈ h.checks, c.ran.Nodup
  after : ∀ c ∈ h.checks, ∀ i t d, h.sets[i]? = some (t, d) → i < c.asked → t ≤ c.n

theorem lt_of_sets {h : History} {i t d : Nat} (hs : h.sets[i]? = some (t, d)) : i < h.sets.length := by
  obtain ⟨hlt, -⟩ := List.getElem?_eq_some_iff.mp hs
  exact hlt

/-- The timers of a history after one more is set: the old ones and the new one. -/
theorem sets_set {h : History} {t d i t' d' : Nat} (hs : (h.set t d).sets[i]? = some (t', d')) :
    h.sets[i]? = some (t', d') ∨ (i = h.sets.length ∧ t' = t ∧ d' = d) := by
  simp only [History.set] at hs
  by_cases hlt : i < h.sets.length
  · rw [List.getElem?_append_left hlt] at hs
    exact Or.inl hs
  · rw [List.getElem?_append_right (Nat.le_of_not_lt hlt), List.getElem?_singleton] at hs
    split at hs
    next heq =>
      cases hs
      exact Or.inr ⟨by omega, rfl, rfl⟩
    next => cases hs

theorem ordered_set {h : History} (ho : Ordered h) (t d : Nat) : Ordered (h.set t d) := by
  refine ⟨?_, ho.ran, ho.once, ?_⟩
  · intro c hc
    have := ho.asked c hc
    simp only [History.set, List.length_append, List.length_singleton]
    omega
  · intro c hc i t' d' hs hid
    rcases sets_set hs with hs | ⟨rfl, -, -⟩
    · exact ho.after c hc i t' d' hs hid
    · exact absurd (ho.asked c hc) (by omega)

theorem punctual_set {h : History} (ho : Ordered h) (hp : Punctual clock h) (t d : Nat) :
    Punctual clock (h.set t d) := by
  intro pre c post hsplit i t' d' hs
  rcases sets_set hs with hs | ⟨rfl, -, -⟩
  · exact hp pre c post hsplit i t' d' hs
  · -- the new timer has no check yet
    have hc : c ∈ h.checks := by
      rw [show h.checks = pre ++ c :: post from hsplit]
      simp
    have hle := ho.asked c hc
    constructor
    · intro hr
      exact absurd (ho.ran c hc _ hr) (by omega)
    · intro hr
      exact absurd hr.1 (by omega)

theorem ordered_check {h : History} (ho : Ordered h) {n : Nat} {ran : List Nat} (hn : ∀ x ∈ h.sets, x.1 ≤ n)
    (hran : ∀ i ∈ ran, i < h.sets.length) (honce : ran.Nodup) : Ordered (h.check n ran) := by
  have hlast : ∀ {p : Check → Prop}, (∀ c ∈ h.checks, p c) → p ⟨n, h.sets.length, ran⟩ →
      ∀ c ∈ (h.check n ran).checks, p c := by
    intro p hold hnew c hc
    rcases List.mem_append.mp hc with hc | hc
    · exact hold c hc
    · rw [List.mem_singleton] at hc
      exact hc ▸ hnew
  refine ⟨hlast ho.asked (Nat.le_refl _), hlast ho.ran hran, hlast ho.once honce, hlast ho.after ?_⟩
  intro i t d hs _
  exact hn _ (List.mem_of_getElem? hs)

theorem punctual_check {h : History} (hp : Punctual clock h) {n : Nat} {ran : List Nat}
    (hran : ∀ i t d, h.sets[i]? = some (t, d) →
      (i ∈ ran ↔ clock t + d ≤ clock n ∧ Waits clock h.checks i t d)) :
    Punctual clock (h.check n ran) := by
  intro pre c post hsplit i t d hs
  rcases List.eq_nil_or_concat post with rfl | ⟨post', x, rfl⟩
  · obtain ⟨rfl, hc⟩ := List.append_inj' hsplit rfl
    obtain rfl : ⟨n, h.sets.length, ran⟩ = c := by simpa using hc
    rw [hran i t d hs]
    exact ⟨fun hr => ⟨lt_of_sets hs, hr⟩, fun hr => hr.2⟩
  · have hold : h.checks = pre ++ c :: post' := by
      have h' : h.checks ++ [⟨n, h.sets.length, ran⟩] = (pre ++ c :: post') ++ [x] := by
        rw [show h.checks ++ _ = _ from hsplit]
        simp
      exact (List.append_inj' h' rfl).1
    exact hp pre c post' hold i t d hs

/-! ## Two clocks -/

/-- A clock that never runs ahead: between two times it gains at most what passes. -/
def Slow : Prop := ∀ a b, a ≤ b → clock b ≤ clock a + (b - a)

/-- The time itself. -/
def time (n : Nat) : Nat := n

/-- At each check that is the first at or after the due time of a timer, the clock has
    reached the due time by the clock. -/
def Reaches (h : History) : Prop :=
  ∀ pre c post, h.checks = pre ++ c :: post → ∀ i t d, h.sets[i]? = some (t, d) → i < c.asked →
    t + d ≤ c.n → Waits time pre i t d → clock t + d ≤ clock c.n

theorem exists_first {α : Type} {p : α → Prop} [DecidablePred p] {l : List α} (h : ∃ x ∈ l, p x) :
    ∃ a x b, l = a ++ x :: b ∧ p x ∧ ∀ y ∈ a, ¬ p y := by
  induction l with
  | nil => simp at h
  | cons y l ih =>
    by_cases hy : p y
    · exact ⟨[], y, l, rfl, hy, by simp⟩
    · have h' : ∃ x ∈ l, p x := by
        obtain ⟨x, hx, hpx⟩ := h
        rcases List.mem_cons.mp hx with rfl | hx
        · exact absurd hpx hy
        · exact ⟨x, hx, hpx⟩
      obtain ⟨a, x, b, rfl, hpx, ha⟩ := ih h'
      refine ⟨y :: a, x, b, rfl, hpx, ?_⟩
      intro z hz
      rcases List.mem_cons.mp hz with rfl | hz
      · exact hy
      · exact ha z hz

/-- A timer that is not due by the time is not due by a slow clock. -/
theorem waits_of_time (hslow : Slow clock) {h : History} (ho : Ordered h) {checks : List Check}
    (hsub : ∀ c ∈ checks, c ∈ h.checks) {i t d : Nat} (hs : h.sets[i]? = some (t, d))
    (hw : Waits time checks i t d) : Waits clock checks i t d := by
  intro c hc hi
  have hlt : c.n < t + d := hw c hc hi
  have hle := ho.after c (hsub c hc) i t d hs hi
  have hgain := hslow t c.n hle
  omega

theorem punctual_iff (hslow : Slow clock) {h : History} (ho : Ordered h) (hp : Punctual clock h) :
    Punctual time h ↔ Reaches clock h := by
  have hsub : ∀ {pre : List Check} {c : Check} {post : List Check}, h.checks = pre ++ c :: post →
      ∀ x ∈ pre ++ [c], x ∈ h.checks := by
    intro pre c post hsplit x hx
    rw [hsplit]
    rcases List.mem_append.mp hx with hx | hx
    · exact List.mem_append_left _ hx
    · rw [List.mem_singleton] at hx
      exact hx ▸ List.mem_append_right _ List.mem_cons_self
  constructor
  · intro htime pre c post hsplit i t d hs hi hdue hw
    have hr := (htime pre c post hsplit i t d hs).mpr ⟨hi, hdue, hw⟩
    exact ((hp pre c post hsplit i t d hs).mp hr).2.1
  · intro hreach pre c post hsplit i t d hs
    rw [hp pre c post hsplit i t d hs]
    constructor
    · rintro ⟨hi, hdue, hw⟩
      refine ⟨hi, ?_, ?_⟩
      · have hgain := hslow t c.n (ho.after c (hsub hsplit c (by simp)) i t d hs hi)
        show t + d ≤ c.n
        have hle := ho.after c (hsub hsplit c (by simp)) i t d hs hi
        omega
      · -- the first earlier check at or after the due time would have run it
        by_contra hnot
        have hex : ∃ x ∈ pre, i < x.asked ∧ t + d ≤ x.n := by
          simpa [Waits, time] using hnot
        obtain ⟨a, x, b, rfl, ⟨hix, hxdue⟩, ha⟩ := exists_first hex
        have hwa : Waits time a i t d := by
          intro y hy hiy
          exact Nat.lt_of_not_le fun hle => ha y hy ⟨hiy, hle⟩
        have hsplit' : h.checks = a ++ x :: (b ++ c :: post) := by simpa using hsplit
        have hclock := hreach a x _ hsplit' i t d hs hix hxdue hwa
        exact absurd (hw x (by simp) hix) (by omega)
    · rintro ⟨hi, hdue, hw⟩
      refine ⟨hi, hreach pre c post hsplit i t d hs hi hdue hw, ?_⟩
      exact waits_of_time clock hslow ho (fun x hx => hsub hsplit x (List.mem_append_left _ hx)) hs hw

end Nanotube.Lib.Timers
