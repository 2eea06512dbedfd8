/-
  Nanotube.Lib.Runs — runs of a step function, and what holds along them.

  A machine is a total step function `step : σ → ε → σ`; an event that cannot happen in
  a state leaves it unchanged. A run is a list of events and ends in `run step s es`.
  - `Along C s es`: every step of the run is taken with `C` true of the state before it
    and the event.
  - `Always Q s es`: `Q` holds in the start state and after every step of the run; that
    is `Q` at the end of every prefix of the run (`always_iff_runs`).

  The rules: a step that keeps an invariant keeps it over the run (`run_inv`); when the
  invariant is kept by the steps that meet `C`, it holds all along a run of such steps
  (`always_of_along`); when a step can only keep `Q` by meeting `C`, a run along which
  `Q` holds meets `C` at every step (`along_of_always`).
-/

import Mathlib.Data.List.Basic

namespace Nanotube.Lib.Runs

variable {σ ε : Type} (step : σ → ε → σ)

def run (s : σ) (es : List ε) : σ := es.foldl step s

@[simp] theorem run_nil (s : σ) : run step s [] = s := rfl

@[simp] theorem run_cons (s : σ) (e : ε) (es : List ε) : run step s (e :: es) = run step (step s e) es := rfl

theorem run_append (s : σ) (es es' : List ε) : run step s (es ++ es') = run step (run step s es) es' :=
  List.foldl_append

theorem run_snoc (s : σ) (es : List ε) (e : ε) : run step s (es ++ [e]) = step (run step s es) e :=
  run_append step s es [e]

/-- Every step meets `C`. -/
def Along (C : σ → ε → Prop) : σ → List ε → Prop
  | _, [] => True
  | s, e :: es => C s e ∧ Along C (step s e) es

/-- `Q` holds at the start and after every step. -/
def Always (Q : σ → Prop) : σ → List ε → Prop
  | s, [] => Q s
  | s, e :: es => Q s ∧ Always Q (step s e) es

/-! ## Rules -/

theorem run_inv {I : σ → Prop} (hstep : ∀ s e, I s → I (step s e)) {s : σ} (hs : I s) (es : List ε) :
    I (run step s es) := by
  induction es generalizing s with
  | nil => exact hs
  | cons e es ih => exact ih (hstep s e hs)

/-- The same when the invariant is kept by the events that meet `C`. -/
theorem run_inv_of_forall {I : σ → Prop} {C : ε → Prop} (hstep : ∀ s e, I s → C e → I (step s e)) {s : σ} (hs : I s)
    {es : List ε} (h : ∀ e ∈ es, C e) : I (run step s es) := by
  induction es generalizing s with
  | nil => exact hs
  | cons e es ih =>
    exact ih (hstep s e hs (h e List.mem_cons_self)) fun e' he' => h e' (List.mem_cons_of_mem _ he')

theorem always_start {Q : σ → Prop} {s : σ} {es : List ε} (h : Always step Q s es) : Q s := by
  cases es with
  | nil => exact h
  | cons e es => exact h.1

theorem always_iff_runs {Q : σ → Prop} {s : σ} {es : List ε} :
    Always step Q s es ↔ ∀ p, p <+: es → Q (run step s p) := by
  induction es generalizing s with
  | nil => simp [Always]
  | cons e es ih =>
    simp only [Always, ih]
    constructor
    · rintro ⟨hs, h⟩ p hp
      cases p with
      | nil => exact hs
      | cons e' p =>
        obtain ⟨rfl, hp'⟩ := List.cons_prefix_cons.mp hp
        exact h p hp'
    · intro h
      exact ⟨h [] List.nil_prefix, fun p hp => h (e :: p) (List.cons_prefix_cons.mpr ⟨rfl, hp⟩)⟩

theorem always_mono {Q Q' : σ → Prop} (h : ∀ s, Q s → Q' s) {s : σ} {es : List ε} (ha : Always step Q s es) :
    Always step Q' s es := by
  rw [always_iff_runs] at ha ⊢
  exact fun p hp => h _ (ha p hp)

theorem always_of_along {I : σ → Prop} {C : σ → ε → Prop} (hstep : ∀ s e, I s → C s e → I (step s e)) {s : σ}
    (hs : I s) {es : List ε} (h : Along step C s es) : Always step I s es := by
  induction es generalizing s with
  | nil => exact hs
  | cons e es ih => exact ⟨hs, ih (hstep s e hs h.1) h.2⟩

/-- When `Q`, with an invariant every step keeps, survives a step only if the step meets
    `C`, then a run along which `Q` holds meets `C` throughout. -/
theorem along_of_always {I Q : σ → Prop} {C : σ → ε → Prop} (hinv : ∀ s e, I s → Q s → C s e → I (step s e))
    (hC : ∀ s e, I s → Q s → Q (step s e) → C s e) {s : σ} (hs : I s) {es : List ε} (h : Always step Q s es) :
    Along step C s es := by
  induction es generalizing s with
  | nil => trivial
  | cons e es ih =>
    have hc : C s e := hC s e hs h.1 (always_start step h.2)
    exact ⟨hc, ih (hinv s e hs h.1 hc) h.2⟩

end Nanotube.Lib.Runs
