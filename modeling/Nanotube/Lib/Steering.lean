/-
  Nanotube.Lib.Steering — what a looping program that asks can be made to do.

  A steered program has fuel for its loops and a script for its questions. With enough
  fuel and from every state, `CanReturn P a` says that some script makes it return `a`,
  and `CanShow E P` that some script brings about `E`, be it still running or not. Both
  have a rule for two programs in a row and one for loops, turn by turn: the scripts for
  the parts are put together, since each part is `Local`.
-/

import Nanotube.Lib.Loops
import Nanotube.Lib.Scripts

namespace Nanotube.Lib.Steering

open Nanotube.Lib.Loops
open Nanotube.Lib.Scripts

variable {σ α β : Type} {asked : σ → Nat} {R : σ → σ → Prop}

/-! ## Programs that ask -/

theorem local_bind {p : Script → Prog σ α} {q : α → Script → Prog σ β} (hp : Local asked p)
    (hq : ∀ a, Local asked (q a)) : Local asked fun S => p S >>= fun a => q a S := by
  let rest : Option α → Asking σ (Option β)
    | some a => q a
    | none => fun _ s => (none, s)
  have heq : (fun S => p S >>= fun a => q a S) = andThen p rest := by
    funext S s
    simp only [bind, andThen]
    rcases p S s with ⟨_ | a, s'⟩
    · rfl
    · rfl
  rw [heq]
  refine hp.andThen fun r => ?_
  cases r with
  | none => exact .const fun _ => Nat.le_refl _
  | some a => exact hq a

theorem local_loop {body : α → Script → Prog σ (Turn α β)} (hbody : ∀ a, Local asked (body a)) (fuel : Nat) (a : α) :
    Local asked fun S => loop (fun a => body a S) fuel a := by
  induction fuel generalizing a with
  | zero => exact .const fun _ => Nat.le_refl _
  | succ fuel ih =>
    refine local_bind (hbody a) fun t => ?_
    cases t with
    | again a' => exact ih a'
    | leave b => exact .const fun _ => Nat.le_refl _

/-- A program with fuel and a script. -/
abbrev Steered (σ α : Type) := Nat → Script → Prog σ α

/-- With any fuel, answers to other questions do not matter, and runs move along `R`. -/
structure Steerable (asked : σ → Nat) (R : σ → σ → Prop) (P : Steered σ α) : Prop where
  asks : ∀ fuel, Local asked (P fuel)
  moves : ∀ fuel S, Moves R (P fuel S)

/-- The program `P`, and then `Q` with what `P` returns. -/
def inRow (P : Steered σ α) (Q : α → Steered σ β) : Steered σ β := fun fuel S => P fuel S >>= fun a => Q a fuel S

def looping (B : α → Steered σ (Turn α β)) (a : α) : Steered σ β := fun fuel S => loop (fun a => B a fuel S) fuel a

/-- A program that asks nothing. -/
theorem steerable_of_moves {p : Nat → Prog σ α} (hR : ∀ s s', R s s' → asked s ≤ asked s')
    (h : ∀ fuel, Moves R (p fuel)) : Steerable asked R fun fuel _ => p fuel :=
  ⟨fun fuel => .const fun s => hR _ _ (h fuel s), fun fuel _ => h fuel⟩

theorem Steerable.ite {c : Prop} [Decidable c] {P Q : Steered σ α} (hP : Steerable asked R P)
    (hQ : Steerable asked R Q) : Steerable asked R fun fuel S => if c then P fuel S else Q fuel S := by
  by_cases hc : c
  · simpa only [hc, if_true] using hP
  · simpa only [hc, if_false] using hQ

section Steerable

variable [IsPreorder σ R]

theorem steerable_pure (a : α) : Steerable asked R fun _ _ => pure a :=
  ⟨fun _ => .const fun _ => Nat.le_refl _, fun _ _ => moves_pure a⟩

theorem Steerable.inRow {P : Steered σ α} {Q : α → Steered σ β} (hP : Steerable asked R P)
    (hQ : ∀ a, Steerable asked R (Q a)) : Steerable asked R (inRow P Q) :=
  ⟨fun fuel => local_bind (hP.asks fuel) fun a => (hQ a).asks fuel,
    fun fuel S => moves_bind (hP.moves fuel S) fun a => (hQ a).moves fuel S⟩

theorem steerable_looping {B : α → Steered σ (Turn α β)} (hB : ∀ a, Steerable asked R (B a)) (a : α) :
    Steerable asked R (looping B a) :=
  ⟨fun fuel => local_loop (fun a => (hB a).asks fuel) fuel a, fun fuel S => moves_loop (fun a => (hB a).moves fuel S) fuel a⟩

end Steerable

/-! ## What it can return -/

def CanReturn (P : Steered σ α) (a : α) : Prop := ∃ N, ∀ fuel, N ≤ fuel → ∀ s, ∃ S s', P fuel S s = (some a, s')

/-- A program that returns `a` under a script, with any fuel. -/
theorem canReturn_of_wp {P : Steered σ α} {a : α} (S : Script)
    (h : ∀ fuel s, wp (P fuel S) (fun r _ => r = a) (fun _ => False) s) : CanReturn P a := by
  refine ⟨0, fun fuel _ s => ⟨S, ?_⟩⟩
  obtain ⟨r, s', hrun, rfl⟩ := wp_total (h fuel s)
  exact ⟨s', hrun⟩

theorem canReturn_pure (a : α) : CanReturn (fun _ _ => pure a : Steered σ α) a :=
  canReturn_of_wp (fun _ => false) fun _ _ => rfl

theorem CanReturn.inRow {P : Steered σ α} {Q : α → Steered σ β} (hP : Steerable asked R P)
    (hQ : ∀ a, Steerable asked R (Q a)) {a : α} {b : β} (h : CanReturn P a) (h' : CanReturn (Q a) b) :
    CanReturn (inRow P Q) b := by
  obtain ⟨N, hN⟩ := h
  obtain ⟨N', hN'⟩ := h'
  refine ⟨max N N', fun fuel hfuel s => ?_⟩
  obtain ⟨S₁, s₁, h₁⟩ := hN fuel (Nat.le_trans (Nat.le_max_left ..) hfuel) s
  obtain ⟨S₂, s₂, h₂⟩ := hN' fuel (Nat.le_trans (Nat.le_max_right ..) hfuel) s₁
  obtain ⟨S, hfirst, hsecond⟩ := (hP.asks fuel).glue ((hQ a).asks fuel) S₁ S₂ s
  rw [h₁] at hfirst hsecond
  refine ⟨S, s₂, ?_⟩
  simp only [Steering.inRow, bind, hfirst]
  exact hsecond.trans h₂

theorem CanReturn.map {P : Steered σ α} {a : α} (h : CanReturn P a) (g : α → β) :
    CanReturn (Steering.inRow P fun a _ _ => pure (g a)) (g a) := by
  obtain ⟨N, hN⟩ := h
  refine ⟨N, fun fuel hfuel s => ?_⟩
  obtain ⟨S, s', hrun⟩ := hN fuel hfuel s
  refine ⟨S, s', ?_⟩
  simp only [Steering.inRow, bind, hrun]
  rfl

/-- One turn can lead from `a` to `a'`. -/
def Turns (B : α → Steered σ (Turn α β)) (a a' : α) : Prop := CanReturn (B a) (.again a')

/-- Turn after turn. -/
abbrev Reaches (B : α → Steered σ (Turn α β)) : α → α → Prop := Relation.ReflTransGen (Turns B)

/-- A loop whose turns can be those of the function `f`. -/
theorem Comes.reaches {B : α → Steered σ (Turn α β)} {f : α → Turn α β} (hf : ∀ a, CanReturn (B a) (f a)) {a a' : α}
    (h : Comes f a a') : Reaches B a a' := by
  refine Relation.ReflTransGen.mono (fun c c' hturn => ?_) _ _ h
  have hcan := hf c
  rw [show f c = .again c' from hturn] at hcan
  exact hcan

section Loop

variable {B : α → Steered σ (Turn α β)} (hB : ∀ a, Steerable asked R (B a))

include hB

/-- What the rest of a loop can do, the loop can do from a turn before it. `Q` says of a run
    what it is to show. -/
theorem loop_after {Q : Option β × σ → Prop} {a a' : α} (h : Turns B a a')
    (h' : ∃ N, ∀ fuel k, N ≤ fuel → N ≤ k → ∀ s, ∃ S, Q (loop (fun a => B a fuel S) k a' s)) :
    ∃ N, ∀ fuel k, N ≤ fuel → N ≤ k → ∀ s, ∃ S, Q (loop (fun a => B a fuel S) k a s) := by
  obtain ⟨N, hN⟩ := h
  obtain ⟨N', hN'⟩ := h'
  refine ⟨max N (N' + 1), fun fuel k hfuel hk s => ?_⟩
  obtain ⟨k, rfl⟩ : ∃ k', k = k' + 1 := ⟨k - 1, by omega⟩
  obtain ⟨S₁, s₁, h₁⟩ := hN fuel (by omega) s
  obtain ⟨S₂, h₂⟩ := hN' fuel k (by omega) (by omega) s₁
  obtain ⟨S, hfirst, hsecond⟩ := ((hB a).asks fuel).glue (local_loop (fun a => (hB a).asks fuel) k a') S₁ S₂ s
  rw [h₁] at hfirst hsecond
  refine ⟨S, ?_⟩
  simp only [loop, bind, hfirst]
  exact hsecond ▸ h₂

theorem CanReturn.loop {a a' : α} {b : β} (h : Reaches B a a') (h' : CanReturn (B a') (.leave b)) :
    CanReturn (looping B a) b := by
  have hrun : ∃ N, ∀ fuel k, N ≤ fuel → N ≤ k → ∀ s, ∃ S, (Loops.loop (fun a => B a fuel S) k a s).1 = some b := by
    induction h using Relation.ReflTransGen.head_induction_on with
    | refl =>
      obtain ⟨N, hN⟩ := h'
      refine ⟨N + 1, fun fuel k hfuel hk s => ?_⟩
      obtain ⟨k, rfl⟩ : ∃ k', k = k' + 1 := ⟨k - 1, by omega⟩
      obtain ⟨S, s', hrun⟩ := hN fuel (by omega) s
      refine ⟨S, ?_⟩
      simp only [Loops.loop, bind, hrun]
      rfl
    | head hturn _ ih => exact loop_after hB (Q := fun r => r.1 = some b) hturn ih
  obtain ⟨N, hN⟩ := hrun
  refine ⟨N, fun fuel hfuel s => ?_⟩
  obtain ⟨S, hS⟩ := hN fuel fuel hfuel hfuel s
  exact ⟨S, _, Prod.ext hS rfl⟩

theorem CanReturn.leads {f : α → Turn α β} (hf : ∀ a, CanReturn (B a) (f a)) {a : α} {b : β} (h : Leads f a b) :
    CanReturn (looping B a) b := by
  obtain ⟨a', hcomes, hleave⟩ := h.comes
  exact CanReturn.loop hB (Comes.reaches hf hcomes) (hleave ▸ hf a')

end Loop

/-! ## What it can show -/

def CanShow (E : σ → Prop) (P : Steered σ α) : Prop := ∃ N, ∀ fuel, N ≤ fuel → ∀ s, ∃ S, E (P fuel S s).2

section Show

variable {E : σ → Prop}

/-- A program that shows `E` under a script, with any fuel. -/
theorem canShow_of_wp {P : Steered σ α} (S : Script)
    (h : ∀ fuel s, wp (P fuel S) (fun _ s' => E s') (fun _ => False) s) : CanShow E P := by
  refine ⟨0, fun fuel _ s => ⟨S, ?_⟩⟩
  obtain ⟨a, s', hrun, hshown⟩ := wp_total (h fuel s)
  rw [hrun]
  exact hshown

theorem CanShow.map {P : Steered σ α} (h : CanShow E P) (g : α → β) : CanShow E (inRow P fun a _ _ => pure (g a)) := by
  obtain ⟨N, hN⟩ := h
  refine ⟨N, fun fuel hfuel s => ?_⟩
  obtain ⟨S, hS⟩ := hN fuel hfuel s
  refine ⟨S, ?_⟩
  simp only [inRow, bind]
  rcases hrun : P fuel S s with ⟨_ | a, s'⟩ <;> rw [hrun] at hS <;> exact hS

theorem CanShow.second {P : Steered σ α} {Q : α → Steered σ β} (hP : Steerable asked R P)
    (hQ : ∀ a, Steerable asked R (Q a)) {a : α} (h : CanReturn P a) (h' : CanShow E (Q a)) : CanShow E (inRow P Q) := by
  obtain ⟨N, hN⟩ := h
  obtain ⟨N', hN'⟩ := h'
  refine ⟨max N N', fun fuel hfuel s => ?_⟩
  obtain ⟨S₁, s₁, h₁⟩ := hN fuel (by omega) s
  obtain ⟨S₂, h₂⟩ := hN' fuel (by omega) s₁
  obtain ⟨S, hfirst, hsecond⟩ := (hP.asks fuel).glue ((hQ a).asks fuel) S₁ S₂ s
  rw [h₁] at hfirst hsecond
  refine ⟨S, ?_⟩
  simp only [inRow, bind, hfirst]
  exact hsecond ▸ h₂

/- What is shown once stays. -/
variable (hE : ∀ s s', R s s' → E s → E s')

include hE

theorem CanShow.first {P : Steered σ α} {Q : α → Steered σ β} (hQ : ∀ a, Steerable asked R (Q a)) (h : CanShow E P) :
    CanShow E (inRow P Q) := by
  obtain ⟨N, hN⟩ := h
  refine ⟨N, fun fuel hfuel s => ?_⟩
  obtain ⟨S, hS⟩ := hN fuel hfuel s
  refine ⟨S, ?_⟩
  simp only [inRow, bind]
  rcases hrun : P fuel S s with ⟨_ | a, s'⟩
  · rw [hrun] at hS
    exact hS
  · rw [hrun] at hS
    exact hE _ _ ((hQ a).moves fuel S s') hS

theorem CanShow.loop [IsPreorder σ R] {B : α → Steered σ (Turn α β)} (hB : ∀ a, Steerable asked R (B a)) {a a' : α}
    (h : Reaches B a a') (h' : CanShow E (B a')) : CanShow E (looping B a) := by
  have hrun : ∃ N, ∀ fuel k, N ≤ fuel → N ≤ k → ∀ s, ∃ S, E (Loops.loop (fun a => B a fuel S) k a s).2 := by
    induction h using Relation.ReflTransGen.head_induction_on with
    | refl =>
      obtain ⟨N, hN⟩ := h'
      refine ⟨N + 1, fun fuel k hfuel hk s => ?_⟩
      obtain ⟨k, rfl⟩ : ∃ k', k = k' + 1 := ⟨k - 1, by omega⟩
      obtain ⟨S, hS⟩ := hN fuel (by omega) s
      refine ⟨S, ?_⟩
      simp only [Loops.loop, bind]
      rcases hrun : B a' fuel S s with ⟨_ | t, s'⟩
      · rw [hrun] at hS
        exact hS
      · rw [hrun] at hS
        cases t with
        | again a₁ => exact hE _ _ (moves_loop (fun a => (hB a).moves fuel S) k a₁ s') hS
        | leave b => exact hS
    | head hturn _ ih => exact loop_after hB (Q := fun r => E r.2) hturn ih
  obtain ⟨N, hN⟩ := hrun
  exact ⟨N, fun fuel hfuel s => hN fuel fuel hfuel hfuel s⟩

end Show

end Nanotube.Lib.Steering
