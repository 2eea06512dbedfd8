/-
  Nanotube.Lib.Loops — programs over a state whose loops need not end.

  A program takes a state to the value it returns and the state it leaves; with `none` it
  was still running when its fuel was used up, and the state is how far it had got. So
  what a program that never returns does on the way can be stated too.

  Rules:
  - `wp`: what holds when it returns, and when it is still running (`wp_bind`, `wp_loop`,
    `wp_loop_variant`, `wp_loop_decides`);
  - `Moves`: every run moves the state along a preorder (`moves_bind`, `moves_loop`);
  - `Stays`: a property of the state holds all the way (`stays_bind`, `stays_loop`);
  - `Approx`: more fuel gives the same run, or goes on from where it stopped (`approx_loop`).
-/

import Mathlib.Logic.Relation
import Mathlib.Order.Defs.Unbundled

namespace Nanotube.Lib.Loops

variable {σ α β γ : Type}

def Prog (σ α : Type) : Type := σ → Option α × σ

instance : Monad (Prog σ) where
  pure a := fun s => (some a, s)
  bind p f := fun s =>
    match p s with
    | (some a, s') => f a s'
    | (none, s') => (none, s')

def peek : Prog σ σ := fun s => (some s, s)

def update (f : σ → σ) : Prog σ Unit := fun s => (some (), f s)

/-- One turn of a loop: another turn follows, or the loop is left. -/
inductive Turn (α β : Type) where
  | again (a : α)
  | leave (b : β)

def loop (body : α → Prog σ (Turn α β)) : Nat → α → Prog σ β
  | 0, _ => fun s => (none, s)
  | fuel + 1, a => do
    match ← body a with
    | .again a => loop body fuel a
    | .leave b => pure b

/-! ## What holds at the end -/

/-- From `s`, `p` returns with `Q` or is still running with `R`. -/
def wp (p : Prog σ α) (Q : α → σ → Prop) (R : σ → Prop) (s : σ) : Prop :=
  match p s with
  | (some a, s') => Q a s'
  | (none, s') => R s'

@[simp] theorem wp_pure (a : α) (Q : α → σ → Prop) (R : σ → Prop) (s : σ) : wp (pure a) Q R s ↔ Q a s := Iff.rfl

@[simp] theorem wp_peek (Q : σ → σ → Prop) (R : σ → Prop) (s : σ) : wp peek Q R s ↔ Q s s := Iff.rfl

@[simp] theorem wp_update (f : σ → σ) (Q : Unit → σ → Prop) (R : σ → Prop) (s : σ) :
    wp (update f) Q R s ↔ Q () (f s) := Iff.rfl

@[simp] theorem wp_bind (p : Prog σ α) (f : α → Prog σ β) (Q : β → σ → Prop) (R : σ → Prop) (s : σ) :
    wp (p >>= f) Q R s ↔ wp p (fun a s' => wp (f a) Q R s') R s := by
  unfold wp
  simp only [bind]
  rcases p s with ⟨_ | a, s'⟩
  · exact Iff.rfl
  · exact Iff.rfl

@[simp] theorem wp_ite (c : Prop) [Decidable c] (p q : Prog σ α) (Q : α → σ → Prop) (R : σ → Prop) (s : σ) :
    wp (if c then p else q) Q R s ↔ if c then wp p Q R s else wp q Q R s := by
  split <;> exact Iff.rfl

theorem wp_mono {p : Prog σ α} {Q Q' : α → σ → Prop} {R R' : σ → Prop} {s : σ} (h : wp p Q R s)
    (hQ : ∀ a s', Q a s' → Q' a s') (hR : ∀ s', R s' → R' s') : wp p Q' R' s := by
  unfold wp at h ⊢
  rcases hp : p s with ⟨_ | a, s'⟩
  · rw [hp] at h
    exact hR s' h
  · rw [hp] at h
    exact hQ a s' h

theorem wp_and {p : Prog σ α} {Q Q' : α → σ → Prop} {R R' : σ → Prop} {s : σ} (h : wp p Q R s) (h' : wp p Q' R' s) :
    wp p (fun a s' => Q a s' ∧ Q' a s') (fun s' => R s' ∧ R' s') s := by
  unfold wp at h h' ⊢
  rcases hp : p s with ⟨_ | a, s'⟩ <;> rw [hp] at h h' <;> exact ⟨h, h'⟩

/-- A run is the run it is. -/
theorem wp_self (p : Prog σ α) (s : σ) : wp p (fun a s' => p s = (some a, s')) (fun s' => p s = (none, s')) s := by
  unfold wp
  rcases p s with ⟨_ | a, s'⟩ <;> rfl

theorem wp_returned {p : Prog σ α} {Q : α → σ → Prop} {R : σ → Prop} {s : σ} (h : wp p Q R s) (hs : (p s).1.isSome) :
    ∃ a, (p s).1 = some a ∧ Q a (p s).2 := by
  unfold wp at h
  rcases hp : p s with ⟨_ | a, s'⟩ <;> rw [hp] at h hs
  · cases hs
  · exact ⟨a, rfl, h⟩

/-- A program that cannot run out returns. -/
theorem wp_total {p : Prog σ α} {Q : α → σ → Prop} {s : σ} (h : wp p Q (fun _ => False) s) :
    ∃ a s', p s = (some a, s') ∧ Q a s' := by
  unfold wp at h
  rcases hp : p s with ⟨_ | a, s'⟩ <;> rw [hp] at h
  · exact h.elim
  · exact ⟨a, s', rfl, h⟩

theorem wp_running {p : Prog σ α} {Q : α → σ → Prop} {R : σ → Prop} {s : σ} (h : wp p Q R s) (hs : ¬ (p s).1.isSome) :
    R (p s).2 := by
  unfold wp at h
  rcases hp : p s with ⟨_ | a, s'⟩ <;> rw [hp] at h hs
  · exact h
  · exact absurd rfl hs

/-- What one turn must give: the invariant again, or the postcondition. -/
def turn (I : α → σ → Prop) (Q : β → σ → Prop) : Turn α β → σ → Prop
  | .again a, s => I a s
  | .leave b, s => Q b s

@[simp] theorem turn_again (I : α → σ → Prop) (Q : β → σ → Prop) (a : α) (s : σ) : turn I Q (.again a) s ↔ I a s :=
  Iff.rfl

@[simp] theorem turn_leave (I : α → σ → Prop) (Q : β → σ → Prop) (b : β) (s : σ) : turn I Q (.leave b) s ↔ Q b s :=
  Iff.rfl

variable {body : α → Prog σ (Turn α β)} {I : α → σ → Prop} {Q : β → σ → Prop} {R : σ → Prop}

/-- An invariant of the turns holds when the loop is left, and when it is still running. -/
theorem wp_loop (hbody : ∀ a s, I a s → wp (body a) (turn I Q) R s) (hout : ∀ a s, I a s → R s) (fuel : Nat) {a : α}
    {s : σ} (h : I a s) : wp (loop body fuel a) Q R s := by
  induction fuel generalizing a s with
  | zero => exact hout a s h
  | succ fuel ih =>
    simp only [loop, wp_bind]
    refine wp_mono (hbody a s h) ?_ (fun _ hr => hr)
    intro t s' ht
    cases t with
    | again a' => exact ih ht
    | leave b => exact ht

/-- A loop whose turns lower `m` is left within `m` turns. -/
theorem wp_loop_variant (m : α → Nat)
    (hbody : ∀ a s, I a s → wp (body a) (turn (fun a' s' => I a' s' ∧ m a' < m a) Q) R s) {fuel : Nat} {a : α} {s : σ}
    (hfuel : m a < fuel) (h : I a s) : wp (loop body fuel a) Q R s := by
  induction fuel generalizing a s with
  | zero => omega
  | succ fuel ih =>
    simp only [loop, wp_bind]
    refine wp_mono (hbody a s h) ?_ (fun _ hr => hr)
    intro t s' ht
    cases t with
    | again a' => exact ih (by have := ht.2; omega) ht.1
    | leave b => exact ht

/-- A loop whose turns lower `m`, or trap it in states from which it is never left. -/
theorem wp_loop_decides (m : α → Nat) {J : α → σ → Prop}
    (hgood : ∀ a s, I a s → wp (body a) (turn (fun a' s' => I a' s' ∧ m a' < m a ∨ J a' s') Q) R s)
    (htrap : ∀ a s, J a s → wp (body a) (turn J fun _ _ => False) R s) (hJ : ∀ a s, J a s → R s) {fuel : Nat} {a : α}
    {s : σ} (hfuel : m a < fuel) (h : I a s) : wp (loop body fuel a) Q R s := by
  induction fuel generalizing a s with
  | zero => omega
  | succ fuel ih =>
    simp only [loop, wp_bind]
    refine wp_mono (hgood a s h) ?_ (fun _ hr => hr)
    intro t s' ht
    cases t with
    | leave b => exact ht
    | again a' =>
      rcases ht with ⟨hi, hlt⟩ | hj
      · exact ih (by omega) hi
      · have hforever : wp (loop body fuel a') (fun _ _ => False) R s' := wp_loop htrap hJ fuel hj
        exact wp_mono hforever (fun _ _ hf => hf.elim) (fun _ hr => hr)

/-- The value that a loop whose turns are the function `f` is left with. -/
inductive Leads (f : α → Turn α β) : α → β → Prop
  | leave {a : α} {b : β} : f a = .leave b → Leads f a b
  | again {a a' : α} {b : β} : f a = .again a' → Leads f a' b → Leads f a b

/-- A loop whose turns are the function `f` comes from `a` to `a'`. -/
abbrev Comes (f : α → Turn α β) : α → α → Prop := Relation.ReflTransGen fun a a' => f a = .again a'

theorem Comes.leads {f : α → Turn α β} {a a' : α} {b : β} (h : Comes f a a') (hb : Leads f a' b) : Leads f a b := by
  induction h using Relation.ReflTransGen.head_induction_on with
  | refl => exact hb
  | head ha _ ih => exact .again ha ih

theorem Leads.comes {f : α → Turn α β} {a : α} {b : β} (h : Leads f a b) : ∃ a', Comes f a a' ∧ f a' = .leave b := by
  induction h with
  | leave hl => exact ⟨_, .refl, hl⟩
  | again ha _ ih =>
    obtain ⟨a', hcomes, hl⟩ := ih
    exact ⟨a', .head ha hcomes, hl⟩

theorem Leads.of_leave {f : α → Turn α β} {a : α} {b r : β} (h : Leads f a r) (ha : f a = .leave b) : r = b := by
  cases h with
  | leave hl =>
    rw [ha] at hl
    exact (Turn.leave.inj hl).symm
  | again hl _ =>
    rw [ha] at hl
    cases hl

theorem Leads.of_again {f : α → Turn α β} {a a' : α} {r : β} (h : Leads f a r) (ha : f a = .again a') :
    Leads f a' r := by
  cases h with
  | leave hl =>
    rw [ha] at hl
    cases hl
  | again hl hr =>
    rw [ha] at hl
    exact Turn.again.inj hl ▸ hr

theorem wp_loop_leads {f : α → Turn α β} (hbody : ∀ a s, wp (body a) (fun t _ => t = f a) (fun _ => False) s)
    (fuel : Nat) (a : α) (s : σ) : wp (loop body fuel a) (fun b _ => Leads f a b) (fun _ => True) s := by
  induction fuel generalizing a s with
  | zero => trivial
  | succ fuel ih =>
    simp only [loop, wp_bind]
    refine wp_mono (hbody a s) ?_ (fun _ h => h.elim)
    intro t s' ht
    cases t with
    | again a' => exact wp_mono (ih a' s') (fun _ _ h => .again ht.symm h) (fun _ h => h)
    | leave b => exact .leave ht.symm

/-! ## Where the state can go -/

/-- Every run of `p`, also one that is still running, moves the state along `S`. -/
def Moves (S : σ → σ → Prop) (p : Prog σ α) : Prop := ∀ s, S s (p s).2

section Moves

variable {S : σ → σ → Prop}

theorem Moves.wp {p : Prog σ α} (h : Moves S p) (s : σ) : wp p (fun _ s' => S s s') (fun s' => S s s') s := by
  have hs := h s
  unfold Loops.wp
  rcases hp : p s with ⟨_ | a, s'⟩ <;> rw [hp] at hs <;> exact hs

theorem moves_of_wp {p : Prog σ α} (h : ∀ s, wp p (fun _ s' => S s s') (fun s' => S s s') s) : Moves S p := by
  intro s
  have hs := h s
  unfold Loops.wp at hs
  rcases hp : p s with ⟨_ | a, s'⟩ <;> rw [hp] at hs <;> exact hs

theorem moves_update {f : σ → σ} (h : ∀ s, S s (f s)) : Moves S (update f) := h

theorem moves_ite {c : Prop} [Decidable c] {p q : Prog σ α} (hp : Moves S p) (hq : Moves S q) :
    Moves S (if c then p else q) := by
  split
  · exact hp
  · exact hq

variable [IsPreorder σ S]

theorem moves_pure (a : α) : Moves S (pure a : Prog σ α) := fun s => refl_of S s

theorem moves_peek : Moves S (peek : Prog σ σ) := fun s => refl_of S s

theorem moves_bind {p : Prog σ α} {f : α → Prog σ γ} (hp : Moves S p) (hf : ∀ a, Moves S (f a)) :
    Moves S (p >>= f) := by
  intro s
  have hs := hp s
  simp only [bind]
  rcases hps : p s with ⟨_ | a, s'⟩ <;> rw [hps] at hs
  · exact hs
  · exact trans_of S hs (hf a s')

/-- What the first program returns is known to the second. -/
theorem moves_bind_of {p : Prog σ α} {f : α → Prog σ γ} {P : α → Prop} (hp : Moves S p)
    (hP : ∀ s, wp p (fun a _ => P a) (fun _ => True) s) (hf : ∀ a, P a → Moves S (f a)) : Moves S (p >>= f) := by
  intro s
  have hs := hp s
  have ha := hP s
  unfold wp at ha
  simp only [bind]
  rcases hps : p s with ⟨_ | a, s'⟩ <;> rw [hps] at hs ha
  · exact hs
  · exact trans_of S hs (hf a ha s')

theorem moves_loop {body : α → Prog σ (Turn α β)} (hbody : ∀ a, Moves S (body a)) (fuel : Nat) (a : α) :
    Moves S (loop body fuel a) := by
  induction fuel generalizing a with
  | zero => exact fun s => refl_of S s
  | succ fuel ih =>
    apply moves_bind (hbody a)
    intro t
    cases t with
    | again a' => exact ih a'
    | leave b => exact moves_pure b

end Moves

/-! ## Safety -/

/-- From a state with `P`, `P` holds all the way, and what is returned meets `Q`. -/
def Stays (P : σ → Prop) (p : Prog σ α) (Q : α → Prop) : Prop := ∀ s, P s → wp p (fun a s' => Q a ∧ P s') P s

section Stays

variable {P : σ → Prop} {Q : α → Prop}

theorem Stays.after {p : Prog σ α} (h : Stays P p Q) {s : σ} (hs : P s) : P (p s).2 := by
  have hwp := h s hs
  unfold wp at hwp
  rcases hp : p s with ⟨_ | a, s'⟩ <;> rw [hp] at hwp
  · exact hwp
  · exact hwp.2

theorem stays_pure {a : α} (h : Q a) : Stays P (pure a : Prog σ α) Q := fun _ hs => ⟨h, hs⟩

theorem stays_peek : Stays P (peek : Prog σ σ) fun _ => True := fun _ hs => ⟨trivial, hs⟩

theorem stays_update {f : σ → σ} (h : ∀ s, P s → P (f s)) : Stays P (update f) fun _ => True :=
  fun s hs => ⟨trivial, h s hs⟩

theorem stays_bind {p : Prog σ α} {f : α → Prog σ γ} {Q' : γ → Prop} (hp : Stays P p Q)
    (hf : ∀ a, Q a → Stays P (f a) Q') :
    Stays P (p >>= f) Q' := by
  intro s hs
  rw [wp_bind]
  exact wp_mono (hp s hs) (fun a s' h => hf a h.1 s' h.2) (fun _ h => h)

theorem stays_ite {c : Prop} [Decidable c] {p q : Prog σ α} (hp : c → Stays P p Q) (hq : ¬ c → Stays P q Q) :
    Stays P (if c then p else q) Q := by
  split
  · exact hp ‹_›
  · exact hq ‹_›

theorem stays_mono {p : Prog σ α} {Q' : α → Prop} (hp : Stays P p Q) (h : ∀ a, Q a → Q' a) : Stays P p Q' :=
  fun s hs => wp_mono (hp s hs) (fun a _ ha => ⟨h a ha.1, ha.2⟩) (fun _ hr => hr)

/-- A turn that goes on with `I` or leaves with `Q`. -/
def Turn.Meets (I : α → Prop) (Q : β → Prop) : Turn α β → Prop
  | .again a => I a
  | .leave b => Q b

theorem stays_loop {body : α → Prog σ (Turn α β)} {I : α → Prop} {Q : β → Prop}
    (hbody : ∀ a, I a → Stays P (body a) (Turn.Meets I Q)) (fuel : Nat) {a : α} (ha : I a) :
    Stays P (loop body fuel a) Q := by
  intro s hs
  refine wp_loop (I := fun a s => I a ∧ P s) ?_ (fun _ _ h => h.2) fuel ⟨ha, hs⟩
  intro a s h
  refine wp_mono (hbody a h.1 s h.2) ?_ (fun _ hr => hr)
  intro t s' ht
  cases t <;> exact ht

end Stays

/-! ## More fuel -/

/-- `q` runs as `p` does, or goes on from where `p` ran out. -/
structure Approx (S : σ → σ → Prop) (p q : Prog σ α) : Prop where
  runs : ∀ s, p s = q s ∨ (p s).1 = none ∧ S (p s).2 (q s).2
  moves : Moves S q

section Approx

variable {S : σ → σ → Prop}

theorem Moves.approx {p : Prog σ α} (h : Moves S p) : Approx S p p := ⟨fun _ => Or.inl rfl, h⟩

/-- What `q` never does, `p` has not done either. -/
theorem Approx.back {p q : Prog σ α} (h : Approx S p q) {P : σ → Prop} (hP : ∀ s s', S s s' → P s' → P s) {s : σ}
    (hq : P (q s).2) : P (p s).2 := by
  rcases h.runs s with heq | ⟨_, hs⟩
  · rw [heq]
    exact hq
  · exact hP _ _ hs hq

theorem Approx.returns {p q : Prog σ α} (h : Approx S p q) {s : σ} (hp : (p s).1.isSome) : (q s).1.isSome := by
  rcases h.runs s with heq | ⟨hnone, _⟩
  · rw [← heq]
    exact hp
  · rw [hnone] at hp
    cases hp

theorem approx_ite {c : Prop} [Decidable c] {p p' q q' : Prog σ α} (hp : Approx S p p') (hq : Approx S q q') :
    Approx S (if c then p else q) (if c then p' else q') := by
  split
  · exact hp
  · exact hq

variable [IsPreorder σ S]

theorem approx_pure (a : α) : Approx S (pure a : Prog σ α) (pure a) := (moves_pure a).approx

theorem approx_bind {p q : Prog σ α} {f g : α → Prog σ γ} (hp : Approx S p q) (hf : ∀ a, Approx S (f a) (g a)) :
    Approx S (p >>= f) (q >>= g) := by
  refine ⟨?_, moves_bind hp.moves fun a => (hf a).moves⟩
  intro s
  simp only [bind]
  rcases hp.runs s with heq | ⟨hnone, hs⟩
  · rw [heq]
    rcases q s with ⟨_ | a, s'⟩
    · exact Or.inl rfl
    · exact (hf a).runs s'
  · right
    rcases hps : p s with ⟨_ | a, s₁⟩
    · refine ⟨rfl, ?_⟩
      rw [hps] at hs
      rcases hqs : q s with ⟨_ | b, s₂⟩ <;> rw [hqs] at hs
      · exact hs
      · exact trans_of S hs ((hf b).moves s₂)
    · rw [hps] at hnone
      cases hnone

theorem approx_loop {body body' : α → Prog σ (Turn α β)} (hbody : ∀ a, Approx S (body a) (body' a)) {n n' : Nat}
    (hn : n ≤ n') (a : α) : Approx S (loop body n a) (loop body' n' a) := by
  induction n generalizing n' a with
  | zero => exact ⟨fun s => Or.inr ⟨rfl, moves_loop (fun a => (hbody a).moves) n' a s⟩,
      moves_loop (fun a => (hbody a).moves) n' a⟩
  | succ n ih =>
    obtain ⟨n', rfl⟩ : ∃ k, n' = k + 1 := ⟨n' - 1, by omega⟩
    apply approx_bind (hbody a)
    intro t
    cases t with
    | again a' => exact ih (by omega) a'
    | leave b => exact approx_pure b

end Approx

end Nanotube.Lib.Loops
