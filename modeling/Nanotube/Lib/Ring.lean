/-
  Nanotube.Lib.Ring — circular windows: the `len` cells of `f : Nat → α` that start at
  cell `start` and wrap at `cap`, as a list, oldest first.

  Writing the cell after the window appends to it while it is not full
  (`window_push`), and moving the start by one drops its head (`window_pop`), so a ring
  buffer whose indices follow these two moves is a `Fifo` of capacity `cap`: a list of
  at most `cap` items, oldest first, which refuses a push when it is full.
-/

import Mathlib.Logic.Function.Basic
import Mathlib.Data.Nat.ModEq

namespace Nanotube.Lib.Ring

variable {α : Type}

def window (f : Nat → α) (cap start len : Nat) : List α := (List.range len).map fun i => f ((start + i) % cap)

@[simp] theorem window_zero (f : Nat → α) (cap start : Nat) : window f cap start 0 = [] := rfl

@[simp] theorem length_window (f : Nat → α) (cap start len : Nat) : (window f cap start len).length = len := by
  simp [window]

theorem window_succ (f : Nat → α) (cap start len : Nat) :
    window f cap start (len + 1) = window f cap start len ++ [f ((start + len) % cap)] := by
  simp [window, List.range_succ]

/-- Within less than one turn, two cells at different distances are different cells. -/
theorem cell_ne {cap start i len : Nat} (hi : i < len) (hl : len < cap) : (start + i) % cap ≠ (start + len) % cap := by
  intro he
  have hmod : i ≡ len [MOD cap] := Nat.ModEq.add_left_cancel' start he
  exact absurd (hmod.eq_of_lt_of_lt (by omega) hl) (by omega)

theorem window_push (f : Nat → α) {cap start len : Nat} (hl : len < cap) (x : α) :
    window (Function.update f ((start + len) % cap) x) cap start (len + 1) = window f cap start len ++ [x] := by
  rw [window_succ, Function.update_self]
  congr 1
  apply List.map_congr_left
  intro i hi
  exact Function.update_of_ne (cell_ne (List.mem_range.mp hi) hl) _ _

theorem window_pop (f : Nat → α) (cap start len : Nat) :
    window f cap start (len + 1) = f (start % cap) :: window f cap ((start + 1) % cap) len := by
  simp only [window, List.range_succ_eq_map, List.map_cons, List.map_map, Nat.add_zero, List.cons.injEq, true_and]
  apply List.map_congr_left
  intro i _
  simp only [Function.comp, Nat.succ_eq_add_one, Nat.mod_add_mod]
  congr 2
  omega

/-! ## The bounded FIFO -/

structure Fifo (α : Type) (cap : Nat) where
  items : List α
  bound : items.length ≤ cap

namespace Fifo

variable {cap : Nat}

def empty : Fifo α cap := ⟨[], Nat.zero_le _⟩

def push (q : Fifo α cap) (x : α) : Bool × Fifo α cap :=
  if h : q.items.length < cap then (true, ⟨q.items ++ [x], by rw [List.length_append]; exact h⟩) else (false, q)

def pop (q : Fifo α cap) : Option α × Fifo α cap :=
  (q.items.head?, ⟨q.items.tail, by have := q.bound; simp; omega⟩)

end Fifo

end Nanotube.Lib.Ring
