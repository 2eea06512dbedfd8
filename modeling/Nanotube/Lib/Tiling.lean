/-
  Nanotube.Lib.Tiling — records laid out one behind the other in a memory.

  A record has bytes; `Tiles p rs` says that the memory holds the records `rs` from `p` up
  to `stop`, and so what a reader that goes from record to record sees there. `place` is
  where such a reader finds the first record it is looking for.
-/

import Mathlib.Data.List.Basic

namespace Nanotube.Lib.Tiling

variable {β ρ : Type} (bytes : ρ → List β) (m : Nat → β) (stop : Nat)

/-- The memory holds `l` from `p` on. -/
def Begins (p : Nat) (l : List β) : Prop := ∀ k, k < l.length → l[k]? = some (m (p + k))

def Tiles : Nat → List ρ → Prop
  | p, [] => p = stop
  | p, r :: rs => Begins m p (bytes r) ∧ Tiles (p + (bytes r).length) rs

variable {bytes m stop}

theorem begins_append {p : Nat} {a b : List β} (h : Begins m p (a ++ b)) :
    Begins m p a ∧ Begins m (p + a.length) b := by
  refine ⟨?_, ?_⟩
  · intro k hk
    have := h k (by rw [List.length_append]; omega)
    rwa [List.getElem?_append_left hk] at this
  · intro k hk
    have := h (a.length + k) (by rw [List.length_append]; omega)
    rwa [List.getElem?_append_right (by omega), Nat.add_sub_cancel_left, ← Nat.add_assoc] at this

/-- A memory that holds the concatenation is tiled by the records. -/
theorem tiles_of_begins {p : Nat} {rs : List ρ} (h : Begins m p (rs.flatMap bytes)) :
    Tiles bytes m (p + (rs.flatMap bytes).length) p rs := by
  induction rs generalizing p with
  | nil => rfl
  | cons r rs ih =>
    rw [List.flatMap_cons] at h ⊢
    obtain ⟨hr, hrs⟩ := begins_append h
    refine ⟨hr, ?_⟩
    rw [List.length_append, ← Nat.add_assoc]
    exact ih hrs

theorem tiles_le {p : Nat} {rs : List ρ} (h : Tiles bytes m stop p rs) : p ≤ stop := by
  induction rs generalizing p with
  | nil => exact Nat.le_of_eq h
  | cons r rs ih =>
    have := ih h.2
    omega

/-- The records from a boundary on. -/
theorem tiles_append {p : Nat} {as bs : List ρ} (h : Tiles bytes m stop p (as ++ bs)) :
    Tiles bytes m stop (p + (as.flatMap bytes).length) bs := by
  induction as generalizing p with
  | nil => exact h
  | cons a as ih =>
    rw [List.flatMap_cons, List.length_append, ← Nat.add_assoc]
    exact ih h.2

/-- Where the first record that `f` picks stands, when the records start at `p`. -/
def place (bytes : ρ → List β) (f : ρ → Bool) : Nat → List ρ → Option Nat
  | _, [] => none
  | p, r :: rs => if f r then some p else place bytes f (p + (bytes r).length) rs

theorem place_cons_of_pos {f : ρ → Bool} {r : ρ} (h : f r) (p : Nat) (rs : List ρ) :
    place bytes f p (r :: rs) = some p := if_pos h

theorem place_cons_of_neg {f : ρ → Bool} {r : ρ} (h : ¬ f r) (p : Nat) (rs : List ρ) :
    place bytes f p (r :: rs) = place bytes f (p + (bytes r).length) rs := if_neg h

end Nanotube.Lib.Tiling
