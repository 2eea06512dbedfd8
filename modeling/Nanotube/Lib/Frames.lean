/-
  Nanotube.Lib.Frames — cutting a stream at a two-symbol delimiter `c d` (`c ≠ d`).

  `split s` is the list of frames that end with the delimiter, without it, and the
  unfinished rest; the frames with their delimiters and the rest make up the stream again
  (`join_split`). A search for the first delimiter (`find`) peels off the first frame
  (`split_of_find`). A stream is `Whole` when nothing is left over, which is when it is
  empty or ends with the delimiter (`whole_iff`); a whole stream can be cut off in front
  of anything (`frames_append`). The delimiters found in pieces of a stream cover it only
  when each piece is whole (`whole_of_frames`).
-/

import Mathlib.Data.List.Basic

namespace Nanotube.Lib.Frames

variable {α : Type} [DecidableEq α] (c d : α)

/-- A symbol in front of a split stream belongs to its first frame, or to the rest. -/
def prepend (x : α) : List (List α) × List α → List (List α) × List α
  | (f :: fs, rest) => ((x :: f) :: fs, rest)
  | ([], rest) => ([], x :: rest)

def split : List α → List (List α) × List α
  | [] => ([], [])
  | [x] => ([], [x])
  | x :: y :: s => if x = c ∧ y = d then ([] :: (split s).1, (split s).2) else prepend x (split (y :: s))

def frames (s : List α) : List (List α) := (split c d s).1

def rest (s : List α) : List α := (split c d s).2

def Whole (s : List α) : Prop := rest c d s = []

/-- The frames with their delimiters, then the rest. -/
def join (r : List (List α) × List α) : List α := (r.1.map (· ++ [c, d])).flatten ++ r.2

omit [DecidableEq α] in
theorem join_prepend (x : α) (r : List (List α) × List α) : join c d (prepend x r) = x :: join c d r := by
  rcases r with ⟨_ | ⟨f, fs⟩, rest⟩ <;> simp [join, prepend]

theorem join_split (s : List α) : join c d (split c d s) = s := by
  induction s using split.induct c d with
  | case1 => rfl
  | case2 x => rfl
  | case3 x y s h ih =>
    obtain ⟨rfl, rfl⟩ := h
    simpa [split, join] using ih
  | case4 x y s h ih =>
    rw [split, if_neg h, join_prepend, ih]

/-- The place of the first delimiter. -/
def find : List α → Option Nat
  | [] => none
  | [_] => none
  | x :: y :: s => if x = c ∧ y = d then some 0 else (find (y :: s)).map (· + 1)

theorem split_of_find_none {s : List α} (h : find c d s = none) : split c d s = ([], s) := by
  induction s using split.induct c d with
  | case1 => rfl
  | case2 x => rfl
  | case3 x y s hxy ih => simp [find, hxy] at h
  | case4 x y s hxy ih =>
    have hf : find c d (y :: s) = none := by simpa [find, hxy] using h
    rw [split, if_neg hxy, ih hf]
    rfl

/-- A search that succeeds is at the delimiter, or has passed an element that does not start
    one. -/
@[elab_as_elim]
theorem find_induction {motive : List α → Nat → Prop} (here : ∀ s, motive (c :: d :: s) 0)
    (later : ∀ x y s j, ¬ (x = c ∧ y = d) → motive (y :: s) j → motive (x :: y :: s) (j + 1))
    {s : List α} {i : Nat} (h : find c d s = some i) : motive s i := by
  induction s using split.induct c d generalizing i with
  | case1 => cases h
  | case2 x => cases h
  | case3 x y s hxy ih =>
    obtain ⟨rfl, rfl⟩ := hxy
    simp only [find, and_self, if_true, Option.some.injEq] at h
    subst h
    exact here s
  | case4 x y s hxy ih =>
    simp only [find, if_neg hxy, Option.map_eq_some_iff] at h
    obtain ⟨j, hj, rfl⟩ := h
    exact later x y s j hxy (ih hj)

theorem split_of_find {s : List α} {i : Nat} (h : find c d s = some i) :
    split c d s = (s.take i :: frames c d (s.drop (i + 2)), rest c d (s.drop (i + 2))) := by
  refine find_induction c d (fun s => ?_) (fun x y s j hxy ih => ?_) h
  · simp [split, frames, rest]
  · rw [split, if_neg hxy, ih]
    simp [prepend]

theorem find_lt {s : List α} {i : Nat} (h : find c d s = some i) : i + 2 ≤ s.length := by
  refine find_induction c d (fun s => ?_) (fun x y s j hxy ih => ?_) h
  · simp
  · simp only [List.length_cons] at ih ⊢
    omega

/-- A search fails when the delimiter is nowhere in the stream. -/
theorem find_eq_none_iff (s : List α) : find c d s = none ↔ ¬ [c, d] <:+: s := by
  induction s using split.induct c d with
  | case1 => simp [find]
  | case2 x => simp [find, List.infix_cons_iff]
  | case3 x y s hxy ih =>
    obtain ⟨rfl, rfl⟩ := hxy
    simp [find, List.infix_cons_iff]
  | case4 x y s hxy ih =>
    have hhead : ¬ [c, d] <+: x :: y :: s := by
      rw [List.cons_prefix_cons, List.cons_prefix_cons]
      rintro ⟨rfl, rfl, -⟩
      exact hxy ⟨rfl, rfl⟩
    have hinfix : [c, d] <:+: x :: y :: s ↔ [c, d] <:+: y :: s :=
      List.infix_cons_iff.trans ⟨fun h => h.resolve_left hhead, Or.inr⟩
    rw [find, if_neg hxy, Option.map_eq_none_iff, ih, hinfix]

/-- The first frame holds no delimiter. -/
theorem find_take {s : List α} {i : Nat} (h : find c d s = some i) : find c d (s.take i) = none := by
  refine find_induction c d (fun s => ?_) (fun x y s j hxy ih => ?_) h
  · rfl
  · cases j with
    | zero => rfl
    | succ j => rw [List.take_succ_cons, List.take_succ_cons, find, if_neg hxy, ← List.take_succ_cons, ih]; rfl

/-- Bytes covered by frames and their delimiters. -/
def covered : List (List α) → Nat
  | [] => 0
  | f :: fs => f.length + 2 + covered fs

omit [DecidableEq α] in
theorem covered_append (fs gs : List (List α)) : covered (fs ++ gs) = covered fs + covered gs := by
  induction fs with
  | nil => exact (Nat.zero_add _).symm
  | cons f fs ih =>
    simp only [List.cons_append, covered, ih]
    omega

omit [DecidableEq α] in
theorem length_delimited (fs : List (List α)) : (fs.map (· ++ [c, d])).flatten.length = covered fs := by
  induction fs with
  | nil => rfl
  | cons f fs ih =>
    simp only [List.map_cons, List.flatten_cons, List.length_append, List.length_cons, List.length_nil, covered, ih]

theorem covered_frames (s : List α) : covered (frames c d s) + (rest c d s).length = s.length := by
  have h := congrArg List.length (join_split c d s)
  simp only [join, List.length_append, length_delimited] at h
  exact h

theorem covered_le (s : List α) : covered (frames c d s) ≤ s.length := by
  have := covered_frames c d s
  omega

theorem whole_iff_covered (s : List α) : Whole c d s ↔ covered (frames c d s) = s.length := by
  have := covered_frames c d s
  unfold Whole
  rw [← List.length_eq_zero_iff]
  omega

/-! ## Cutting off a whole stream -/

theorem split_append {s : List α} (h : Whole c d s) (t : List α) :
    split c d (s ++ t) = (frames c d s ++ frames c d t, rest c d t) := by
  unfold Whole at h
  induction s using split.induct c d with
  | case1 => rfl
  | case2 x => simp [rest, split] at h
  | case3 x y s hxy ih =>
    have hs : rest c d s = [] := by simpa [rest, split, hxy] using h
    have := ih hs
    simp only [List.cons_append, split, hxy, and_self, if_true, this, frames]
  | case4 x y s hxy ih =>
    have hsplit : split c d (x :: y :: s) = prepend x (split c d (y :: s)) := by rw [split, if_neg hxy]
    -- the rest is empty, so `x` went to a first frame
    rcases hys : split c d (y :: s) with ⟨_ | ⟨f, fs⟩, r⟩
    · simp [rest, hsplit, hys, prepend] at h
    · have hr : r = [] := by simpa [rest, hsplit, hys, prepend] using h
      subst hr
      have hy : rest c d (y :: s) = [] := by simp [rest, hys]
      have := ih hy
      simp only [List.cons_append] at this ⊢
      rw [split, if_neg hxy, this]
      simp [frames, hsplit, hys, prepend]

theorem frames_append {s : List α} (h : Whole c d s) (t : List α) :
    frames c d (s ++ t) = frames c d s ++ frames c d t := by
  unfold frames
  rw [split_append c d h t]
  rfl

theorem whole_nil : Whole c d ([] : List α) := rfl

theorem whole_delimiter : Whole c d [c, d] := by simp [Whole, rest, split]

/-- The last delimiter of a stream that ends in one is found: no delimiter overlaps it. -/
theorem whole_snoc (hcd : c ≠ d) (s : List α) : Whole c d (s ++ [c, d]) := by
  induction s using split.induct c d with
  | case1 => exact whole_delimiter c d
  | case2 x =>
    have hx : ¬ (x = c ∧ c = d) := fun h => hcd h.2
    simp [Whole, rest, split, hx, prepend]
  | case3 x y s h ih =>
    obtain ⟨rfl, rfl⟩ := h
    simpa [Whole, rest, split] using ih
  | case4 x y s h ih =>
    simp only [Whole, rest, List.cons_append, split, if_neg h] at ih ⊢
    rcases hr : split c d (y :: (s ++ [c, d])) with ⟨_ | ⟨f, fs⟩, r⟩
    · -- no frame at all, but a delimiter is in there
      rw [hr] at ih
      have hj := join_split c d (y :: (s ++ [c, d]))
      rw [hr] at hj
      simp only at ih
      subst ih
      simp [join] at hj
    · rw [hr] at ih
      simpa [prepend] using ih

theorem whole_iff (hcd : c ≠ d) (s : List α) : Whole c d s ↔ s = [] ∨ [c, d] <:+ s := by
  constructor
  · intro h
    have hj := join_split c d s
    unfold Whole rest at h
    simp only [join, h, List.append_nil] at hj
    rcases List.eq_nil_or_concat (split c d s).1 with hn | ⟨fs, f, hf⟩
    · left
      rw [hn] at hj
      simpa using hj.symm
    · right
      refine ⟨(fs.map (· ++ [c, d])).flatten ++ f, ?_⟩
      rw [← hj, hf]
      simp
  · intro h
    rcases h with rfl | ⟨t, rfl⟩
    · exact whole_nil c d
    · exact whole_snoc c d hcd t

/-! ## Pieces of a stream -/

/-- The frames of whole pieces are the frames of the stream. -/
theorem frames_flatten {ps : List (List α)} (h : ∀ p ∈ ps, Whole c d p) :
    frames c d ps.flatten = (ps.map (frames c d)).flatten := by
  induction ps with
  | nil => rfl
  | cons p ps ih =>
    have hp : Whole c d p := h p List.mem_cons_self
    have hps : ∀ q ∈ ps, Whole c d q := fun q hq => h q (List.mem_cons_of_mem _ hq)
    simp only [List.flatten_cons, List.map_cons, frames_append c d hp, ih hps]

/-- When the frames found in the pieces `f p` are those of the whole stream of the pieces
    `g p`, and no `f p` is longer than its `g p`, then every `f p` is whole and as long as
    `g p`. -/
theorem whole_of_frames {β : Type} (f g : β → List α) (ps : List β) (hle : ∀ p ∈ ps, (f p).length ≤ (g p).length)
    (hw : Whole c d (ps.flatMap g)) (h : ps.flatMap (fun p => frames c d (f p)) = frames c d (ps.flatMap g)) :
    ∀ p ∈ ps, Whole c d (f p) ∧ (f p).length = (g p).length := by
  have htotal : covered (ps.flatMap fun p => frames c d (f p)) = (ps.flatMap g).length := by
    rw [h]
    exact (whole_iff_covered c d _).mp hw
  clear h hw
  -- the frames cover no more than the pieces, so equality holds piece by piece
  have hcov : ∀ qs : List β, (∀ p ∈ qs, (f p).length ≤ (g p).length) →
      covered (qs.flatMap fun p => frames c d (f p)) ≤ (qs.flatMap g).length := by
    intro qs hqs
    induction qs with
    | nil => simp [covered]
    | cons p qs ih =>
      have h1 := ih fun q hq => hqs q (List.mem_cons_of_mem _ hq)
      have h2 := hqs p List.mem_cons_self
      have h3 := covered_le c d (f p)
      simp only [List.flatMap_cons, covered_append, List.length_append]
      omega
  induction ps with
  | nil => intro p hp; cases hp
  | cons p ps ih =>
    have hps : ∀ q ∈ ps, (f q).length ≤ (g q).length := fun q hq => hle q (List.mem_cons_of_mem _ hq)
    have h1 := hcov ps hps
    have h2 := hle p List.mem_cons_self
    have h3 := covered_le c d (f p)
    simp only [List.flatMap_cons, covered_append, List.length_append] at htotal
    intro q hq
    rcases List.mem_cons.mp hq with rfl | hq
    · exact ⟨(whole_iff_covered c d _).mpr (by omega), by omega⟩
    · exact ih hps (by omega) q hq

end Nanotube.Lib.Frames
