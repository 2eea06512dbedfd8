/-
  Nanotube.Lib.Scripts — programs that ask, and what they can be made to do.

  A program asks yes-or-no questions, and a script answers them by their number. It is
  `Local` when its run depends on the script only at the questions asked during the run.
  Then scripts for two programs can be put together to one for both in a row
  (`Local.glue`), so that a run can be steered one part at a time.
-/

import Mathlib.Logic.Basic

namespace Nanotube.Lib.Scripts

variable {σ α β : Type}

abbrev Script := Nat → Bool

/-- A program: from a state, the value and the next state under a script. -/
abbrev Asking (σ α : Type) := Script → σ → α × σ

/-- `asked` counts the questions: it does not fall, and answers to other questions do not
    matter. -/
structure Local (asked : σ → Nat) (p : Asking σ α) : Prop where
  grows : ∀ S s, asked s ≤ asked (p S s).2
  depends : ∀ S S' s, (∀ i, asked s ≤ i → i < asked (p S s).2 → S' i = S i) → p S' s = p S s

variable {asked : σ → Nat}

/-- A program that asks nothing. -/
theorem Local.const {f : σ → α × σ} (h : ∀ s, asked s ≤ asked (f s).2) : Local asked fun _ => f :=
  ⟨fun _ => h, fun _ _ _ _ => rfl⟩

def andThen (p : Asking σ α) (q : α → Asking σ β) : Asking σ β := fun S s => q (p S s).1 S (p S s).2

theorem Local.andThen {p : Asking σ α} {q : α → Asking σ β} (hp : Local asked p) (hq : ∀ a, Local asked (q a)) :
    Local asked (andThen p q) := by
  refine ⟨fun S s => Nat.le_trans (hp.grows S s) ((hq _).grows S _), ?_⟩
  intro S S' s h
  have hgrows := (hq (p S s).1).grows S (p S s).2
  have hfirst : p S' s = p S s := hp.depends S S' s fun i hlo hhi => h i hlo (Nat.lt_of_lt_of_le hhi hgrows)
  show q (p S' s).1 S' (p S' s).2 = q (p S s).1 S (p S s).2
  rw [hfirst]
  exact (hq _).depends S S' _ fun i hlo hhi => h i (Nat.le_trans (hp.grows S s) hlo) hhi

/-- One script answers two programs in a row as two scripts answer each of them. -/
theorem Local.glue {p : Asking σ α} {q : Asking σ β} (hp : Local asked p) (hq : Local asked q) (S₁ S₂ : Script)
    (s : σ) : ∃ S, p S s = p S₁ s ∧ q S (p S₁ s).2 = q S₂ (p S₁ s).2 := by
  refine ⟨fun i => if i < asked (p S₁ s).2 then S₁ i else S₂ i, hp.depends _ _ s ?_, hq.depends _ _ _ ?_⟩
  · intro i _ hhi
    exact if_pos hhi
  · intro i hlo _
    exact if_neg (Nat.not_lt.mpr hlo)

/-- Under some script the program has this outcome. -/
def Can (p : Asking σ α) (s : σ) (r : α × σ) : Prop := ∃ S, p S s = r

theorem Can.andThen {p : Asking σ α} {q : α → Asking σ β} (hp : Local asked p) (hq : ∀ a, Local asked (q a)) {s : σ}
    {r : α × σ} {r' : β × σ} (h : Can p s r) (h' : Can (q r.1) r.2 r') : Can (andThen p q) s r' := by
  obtain ⟨S₁, rfl⟩ := h
  obtain ⟨S₂, rfl⟩ := h'
  obtain ⟨S, hfirst, hsecond⟩ := hp.glue (hq (p S₁ s).1) S₁ S₂ s
  refine ⟨S, ?_⟩
  show q (p S s).1 S (p S s).2 = q (p S₁ s).1 S₂ (p S₁ s).2
  rw [hfirst, hsecond]

end Nanotube.Lib.Scripts
