/-
  Nanotube.Lib.Slots — what a table of a fixed number of slots holds, as a list.

  When one slot changes, the list gains what the slot holds now and loses what it held
  (`count_slots_update`).
-/

import Mathlib.Data.List.FinRange
import Mathlib.Logic.Function.Basic

namespace Nanotube.Lib.Slots

variable {α : Type} {n : Nat}

def slots (f : Fin n → Option α) : List α := (List.finRange n).filterMap f

theorem mem_slots {f : Fin n → Option α} {a : α} : a ∈ slots f ↔ ∃ i, f i = some a := by
  simp only [slots, List.mem_filterMap, List.mem_finRange, true_and]

variable [DecidableEq α]

theorem count_slots (f : Fin n → Option α) (a : α) : (slots f).count a = (List.finRange n).countP fun i => f i = some a := by
  rw [slots, List.count_filterMap]
  exact List.countP_congr fun i _ => by simp

theorem count_toList (x : Option α) (a : α) : x.toList.count a = (decide (x = some a)).toNat := by
  cases x with
  | none => simp
  | some b => by_cases h : b = a <;> simp [h]

/-- A predicate that changes at one place. -/
theorem countP_slot {β : Type} {l : List β} (hl : l.Nodup) {b : β} (hb : b ∈ l) {p p' : β → Bool}
    (hne : ∀ c, c ≠ b → p' c = p c) : l.countP p' + (p b).toNat = l.countP p + (p' b).toNat := by
  induction l with
  | nil => cases hb
  | cons c l ih =>
    obtain ⟨hc, hl⟩ := List.nodup_cons.mp hl
    rw [List.countP_cons, List.countP_cons]
    rcases List.mem_cons.mp hb with rfl | hb
    · have hrest : l.countP p' = l.countP p := by
        refine List.countP_congr fun c hmem => ?_
        rw [hne c (by rintro rfl; exact hc hmem)]
      rw [hrest]
      cases p b <;> cases p' b <;> simp
    · have hcb : c ≠ b := by
        rintro rfl
        exact hc hb
      have := ih hl hb
      rw [hne c hcb]
      omega

theorem count_slots_update (f : Fin n → Option α) (i : Fin n) (x : Option α) (a : α) :
    (slots (Function.update f i x)).count a + (f i).toList.count a = (slots f).count a + x.toList.count a := by
  have hsame : ∀ k, k ≠ i → decide (Function.update f i x k = some a) = decide (f k = some a) := by
    intro k hk
    rw [Function.update_of_ne hk]
  have hslot := countP_slot (List.nodup_finRange n) (List.mem_finRange i) hsame
  rw [count_slots, count_slots, count_toList, count_toList]
  rwa [Function.update_self] at hslot

end Nanotube.Lib.Slots
