/-
  Nanotube.Lib.Simulation — machines with outputs, and one simulating another.

  A machine answers each event with an output, `step : σ → ε → σ × ο`; `outputs` is what a
  run of it answers. A relation between the states of two machines that holds after every
  step with equal outputs makes their runs answer alike (`outputs_eq`), and it holds at
  their ends (`related_run`).
-/

import Nanotube.Lib.Runs

namespace Nanotube.Lib.Simulation

open Nanotube.Lib.Runs

variable {σ τ ε ο : Type}

/-- The state part of the step. -/
def next (step : σ → ε → σ × ο) (s : σ) (e : ε) : σ := (step s e).1

def outputs (step : σ → ε → σ × ο) : σ → List ε → List ο
  | _, [] => []
  | s, e :: es => (step s e).2 :: outputs step (step s e).1 es

/-- `R` is kept by the steps that meet `C`, and they answer alike. -/
def Simulates (stepC : σ → ε → σ × ο) (stepA : τ → ε → τ × ο) (R : σ → τ → Prop) (C : σ → ε → Prop) : Prop :=
  ∀ s t e, R s t → C s e → (stepC s e).2 = (stepA t e).2 ∧ R (stepC s e).1 (stepA t e).1

variable {stepC : σ → ε → σ × ο} {stepA : τ → ε → τ × ο} {R : σ → τ → Prop} {C : σ → ε → Prop}

theorem outputs_eq (h : Simulates stepC stepA R C) {s : σ} {t : τ} (hst : R s t) {es : List ε}
    (hes : Along (next stepC) C s es) : outputs stepC s es = outputs stepA t es := by
  induction es generalizing s t with
  | nil => rfl
  | cons e es ih =>
    obtain ⟨hout, hst'⟩ := h s t e hst hes.1
    rw [outputs, outputs, hout, ih hst' hes.2]

theorem related_run (h : Simulates stepC stepA R C) {s : σ} {t : τ} (hst : R s t) {es : List ε}
    (hes : Along (next stepC) C s es) : R (run (next stepC) s es) (run (next stepA) t es) := by
  induction es generalizing s t with
  | nil => exact hst
  | cons e es ih => exact ih (h s t e hst hes.1).2 hes.2

end Nanotube.Lib.Simulation
