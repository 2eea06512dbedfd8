/-
  Nanotube.Lib.OnesComplement — one's complement sums of digits.

  Words are two digits in base `β`. Sums of words are folded, the carry added back in at the
  bottom; so `β * β` counts as 1, and only the sum of nothing but zeros is 0. `Same` is when
  two numbers count as one. A number and the number it folds to are the same
  (`Same.fold`), to swap the digits of a word is to multiply by `β` (`Same.swap`), and two
  words that are the same are equal (`Same.eq_of_word`).
-/

import Mathlib.Data.Nat.Digits.Defs
import Mathlib.Data.Nat.ModEq
import Mathlib.Tactic.Ring

namespace Nanotube.Lib.OnesComplement

variable {β x y z x' y' : Nat}

structure Same (β x y : Nat) : Prop where
  mod : x ≡ y [MOD β * β - 1]
  zero : x = 0 ↔ y = 0

@[refl] theorem Same.refl (x : Nat) : Same β x x := ⟨Nat.ModEq.refl x, Iff.rfl⟩

theorem Same.of_eq (h : x = y) : Same β x y := h ▸ Same.refl x

theorem Same.symm (h : Same β x y) : Same β y x := ⟨h.mod.symm, h.zero.symm⟩

theorem Same.trans (h : Same β x y) (h' : Same β y z) : Same β x z := ⟨h.mod.trans h'.mod, h.zero.trans h'.zero⟩

theorem Same.add (h : Same β x x') (h' : Same β y y') : Same β (x + y) (x' + y') := by
  refine ⟨h.mod.add h'.mod, ?_⟩
  rw [Nat.add_eq_zero_iff, Nat.add_eq_zero_iff, h.zero, h'.zero]

theorem Same.mul_left (k : Nat) (h : Same β x y) : Same β (k * x) (k * y) := by
  refine ⟨h.mod.mul_left k, ?_⟩
  simp only [Nat.mul_eq_zero, h.zero]

/-- `β * β` counts as 1. -/
theorem Same.square (hβ : 0 < β) (x : Nat) : Same β (β * β * x) x := by
  have hpos : 0 < β * β := Nat.mul_pos hβ hβ
  refine ⟨?_, ?_⟩
  · have hsplit : β * β * x = (β * β - 1) * x + x := by
      rw [← Nat.succ_mul, Nat.succ_eq_add_one, Nat.sub_add_cancel hpos]
    rw [hsplit]
    exact (Nat.modEq_zero_iff_dvd.mpr (Nat.dvd_mul_right _ _)).add_right x |>.trans (by rw [Nat.zero_add])
  · simp only [Nat.mul_eq_zero, hβ.ne', false_or]

theorem Same.pow_even (hβ : 0 < β) (k x : Nat) : Same β (β ^ (2 * k) * x) x := by
  induction k with
  | zero => rw [Nat.mul_zero, Nat.pow_zero, Nat.one_mul]
  | succ k ih =>
    have hstep : β ^ (2 * (k + 1)) * x = β * β * (β ^ (2 * k) * x) := by ring
    rw [hstep]
    exact (Same.square hβ _).trans ih

theorem Same.pow (hβ : 0 < β) (k x : Nat) : Same β (β ^ k * x) (if k % 2 = 0 then x else β * x) := by
  have hsplit := Nat.div_add_mod k 2
  split
  · next heven =>
    rw [← hsplit, heven, Nat.add_zero]
    exact Same.pow_even hβ _ _
  · next hodd =>
    have hk : β ^ k * x = β ^ (2 * (k / 2)) * (β * x) := by
      rw [← Nat.mul_assoc, ← Nat.pow_succ]
      congr 2
      omega
    rw [hk]
    exact Same.pow_even hβ _ _

theorem Same.fold (hβ : 0 < β) (x : Nat) : Same β (x / (β * β) + x % (β * β)) x := by
  have hsum := Nat.div_add_mod x (β * β)
  have hfold : Same β (β * β * (x / (β * β)) + x % (β * β)) (x / (β * β) + x % (β * β)) :=
    (Same.square hβ _).add (Same.refl _)
  rw [hsum] at hfold
  exact hfold.symm

theorem Same.swap (hβ : 0 < β) (x : Nat) : Same β (x % β * β + x / β) (β * x) := by
  have hswap : β * x = β * β * (x / β) + x % β * β := by
    conv_lhs => rw [← Nat.div_add_mod x β]
    ring
  rw [hswap, Nat.add_comm]
  exact (Same.square hβ _).symm.add (Same.refl _)

theorem Same.eq_of_word (h : Same β x y) (hx : x < β * β) (hy : y < β * β) : x = y := by
  obtain ⟨hmod, hzero⟩ := h
  rw [Nat.ModEq] at hmod
  -- below `β * β - 1` the remainder is the number; that word itself is not 0
  rcases Nat.lt_or_ge x (β * β - 1) with hx' | hx'
  · rcases Nat.lt_or_ge y (β * β - 1) with hy' | hy'
    · rwa [Nat.mod_eq_of_lt hx', Nat.mod_eq_of_lt hy'] at hmod
    · have hy' : y = β * β - 1 := by omega
      rw [Nat.mod_eq_of_lt hx', hy', Nat.mod_self] at hmod
      omega
  · have hx' : x = β * β - 1 := by omega
    rcases Nat.lt_or_ge y (β * β - 1) with hy' | hy'
    · rw [Nat.mod_eq_of_lt hy', hx', Nat.mod_self] at hmod
      omega
    · omega

/-- A sum and the word that is missing to the highest one. -/
theorem Same.complement {s : Nat} (h : Same β x s) (hs : s < β * β) : Same β (x + (β * β - 1 - s)) (β * β - 1) := by
  have hsum := h.add (Same.refl (β * β - 1 - s))
  rwa [show s + (β * β - 1 - s) = β * β - 1 by omega] at hsum

/-! ## Sums of words -/

/-- The digits as words, the lower digit first. -/
def wordSum (β : Nat) : List Nat → Nat
  | [] => 0
  | [d] => d
  | d :: d' :: ds => d + β * d' + wordSum β ds

/-- The sum of the words is the number that the digits are. -/
theorem wordSum_same (hβ : 0 < β) (ds : List Nat) : Same β (wordSum β ds) (Nat.ofDigits β ds) := by
  induction ds using wordSum.induct with
  | case1 => exact Same.refl 0
  | case2 d =>
    rw [wordSum, Nat.ofDigits_singleton]
  | case3 d d' ds ih =>
    have hvalue : Nat.ofDigits β (d :: d' :: ds) = d + β * d' + β * β * Nat.ofDigits β ds := by
      rw [Nat.ofDigits_cons, Nat.ofDigits_cons]
      ring
    rw [wordSum, hvalue]
    exact (Same.refl _).add (ih.trans (Same.square hβ _).symm)

theorem wordSum_le {ds : List Nat} (hds : ∀ d ∈ ds, d < β) : wordSum β ds ≤ β * β * ds.length := by
  induction ds using wordSum.induct with
  | case1 => exact Nat.zero_le _
  | case2 d =>
    have hd := hds d List.mem_cons_self
    have hle : d ≤ β * β := Nat.le_trans (Nat.le_of_lt hd) (Nat.le_mul_self β)
    rw [wordSum, List.length_singleton, Nat.mul_one]
    exact hle
  | case3 d d' ds ih =>
    have hd := hds d List.mem_cons_self
    have hd' := hds d' (List.mem_cons_of_mem _ List.mem_cons_self)
    have hword : d + β * d' ≤ β * β := by
      have hle : β * (d' + 1) ≤ β * β := Nat.mul_le_mul_left β hd'
      rw [Nat.mul_succ] at hle
      omega
    have hrest := ih fun e he => hds e (List.mem_cons_of_mem _ (List.mem_cons_of_mem _ he))
    have hlength : β * β * (d :: d' :: ds).length = β * β + β * β + β * β * ds.length := by
      rw [List.length_cons, List.length_cons]
      ring
    rw [wordSum, hlength]
    omega

end Nanotube.Lib.OnesComplement
