/-
  Nanotube.Device.Queue — the packet queue (src/queue.c), a ring of `QUEUE_NUM_ELEMS`
  pointers between the USB read callback and the main loop.

  `first` and `last` are the indices of the oldest and the newest element; the empty
  queue is `last == -1` (`queue_empty`), and `queue_get` goes back to it when it takes
  the only element. A pointer is an `Option`, `none` being NULL.

  Proved: `Holds q f` relates a queue to the bounded FIFO of capacity 16 it stands for,
  and `queue_init`, `queue_add` and `queue_get` follow `Fifo.empty`, `Fifo.push` and
  `Fifo.pop` (`init_holds`, `add_refines`, `get_refines`), with both indices in range. So a
  run of any length gives the results of a list with at most 16 elements (`queue_is_fifo`).
-/

import Nanotube.Lib.Ring
import Nanotube.Lib.Runs

namespace Nanotube.Device.Queue

open Nanotube.Lib.Ring
open Nanotube.Lib.Runs

def QUEUE_NUM_ELEMS : Nat := 16

/-- `queue_t`. The `int8_t` indices stay between -1 and 16, so they are plain integers. -/
structure QueueT (α : Type) where
  first : Int
  last : Int
  elems : Nat → Option α

variable {α : Type}

def queueEmpty (q : QueueT α) : Bool := q.last == -1

def queueInit (q : QueueT α) : QueueT α := { q with first := 0, last := -1 }

def queueAdd (q : QueueT α) (elem : Option α) : Bool × QueueT α :=
  if (q.first = q.last + 1 ∧ queueEmpty q = false) ∨ (q.first = 0 ∧ q.last = (QUEUE_NUM_ELEMS : Int) - 1) then
    (false, q)
  else
    let last := (q.last + 1).tmod QUEUE_NUM_ELEMS
    (true, { q with last := last, elems := Function.update q.elems last.toNat elem })

def queueGet (q : QueueT α) : Option α × QueueT α :=
  if queueEmpty q then (none, q)
  else
    let ret := q.elems q.first.toNat
    if q.first = q.last then (ret, queueInit q)
    else (ret, { q with first := (q.first + 1).tmod QUEUE_NUM_ELEMS })

/-! ## The queue is a bounded FIFO -/

/-- The elements held, oldest first: none in the state `queue_init` makes, else the
    window of `elems` from `first` to `last`. -/
def Holds (q : QueueT α) (f : Fifo α QUEUE_NUM_ELEMS) : Prop :=
  (f.items = [] ∧ q.first = 0 ∧ q.last = -1) ∨
    ∃ start : Nat, start < 16 ∧ f.items ≠ [] ∧ q.first = start ∧
      q.last = ((start + (f.items.length - 1)) % 16 : Nat) ∧
      window q.elems 16 start f.items.length = f.items.map some

theorem holds_items {q : QueueT α} {f g : Fifo α QUEUE_NUM_ELEMS} (h : Holds q f) (he : f.items = g.items) :
    Holds q g := by
  unfold Holds at h ⊢
  rwa [← he]

/-- The elements held, read off the queue. -/
def items (q : QueueT α) : List α :=
  if queueEmpty q then []
  else (window q.elems QUEUE_NUM_ELEMS q.first.toNat (((q.last - q.first) % 16).toNat + 1)).filterMap id

theorem init_holds (q : QueueT α) : Holds (queueInit q) .empty := Or.inl ⟨rfl, rfl, rfl⟩

/-- Both indices are in range, or the queue is in its initial state. -/
theorem holds_range {q : QueueT α} {f : Fifo α QUEUE_NUM_ELEMS} (h : Holds q f) :
    (q.first = 0 ∧ q.last = -1) ∨ (0 ≤ q.first ∧ q.first < 16 ∧ 0 ≤ q.last ∧ q.last < 16) := by
  rcases h with ⟨_, h1, h2⟩ | ⟨start, hs, _, h1, h2, _⟩
  · exact Or.inl ⟨h1, h2⟩
  · right; omega

theorem empty_iff {q : QueueT α} {f : Fifo α QUEUE_NUM_ELEMS} (h : Holds q f) : queueEmpty q = true ↔ f.items = [] := by
  rcases h with ⟨h0, _, h2⟩ | ⟨start, hs, hne, h1, h2, _⟩
  · simp [queueEmpty, h0, h2]
  · simp only [queueEmpty, beq_iff_eq, hne, iff_false]
    omega

theorem items_eq {q : QueueT α} {f : Fifo α QUEUE_NUM_ELEMS} (h : Holds q f) : items q = f.items := by
  have he := empty_iff h
  have hb := f.bound
  simp only [QUEUE_NUM_ELEMS] at hb
  rcases h with ⟨h0, _, _⟩ | ⟨start, hs, hne, h1, h2, hw⟩
  · simp only [items, he.mpr h0, if_true, h0]
  · have hpos : 0 < f.items.length := List.length_pos_iff.mpr hne
    have hlen : ((q.last - q.first) % 16).toNat + 1 = f.items.length := by omega
    have hstart : q.first.toNat = start := by omega
    simp only [items, he, hne, if_false, hlen, hstart, QUEUE_NUM_ELEMS, hw]
    simp [List.filterMap_map]

/-- The test `queue_add` makes is true exactly when 16 elements are held. -/
theorem full_iff {q : QueueT α} {f : Fifo α QUEUE_NUM_ELEMS} (h : Holds q f) :
    ((q.first = q.last + 1 ∧ queueEmpty q = false) ∨ (q.first = 0 ∧ q.last = (QUEUE_NUM_ELEMS : Int) - 1)) ↔
      f.items.length = 16 := by
  have hb := f.bound
  simp only [QUEUE_NUM_ELEMS] at hb ⊢
  rcases h with ⟨h0, h1, h2⟩ | ⟨start, hs, hne, h1, h2, _⟩
  · simp [h0, h1, h2, queueEmpty]
  · have hpos : 0 < f.items.length := List.length_pos_iff.mpr hne
    simp only [queueEmpty, h1, h2]
    constructor
    · rintro (⟨h, _⟩ | ⟨h, h'⟩) <;> omega
    · intro h
      by_cases e : start = 0
      · right; omega
      · left; refine ⟨by omega, ?_⟩
        simp only [beq_eq_false_iff_ne, ne_eq]; omega

/-- `queue_add` of a non-NULL element is a FIFO push. -/
theorem add_refines {q : QueueT α} {f : Fifo α QUEUE_NUM_ELEMS} (h : Holds q f) (x : α) :
    (queueAdd q (some x)).1 = (f.push x).1 ∧ Holds (queueAdd q (some x)).2 (f.push x).2 := by
  have hb := f.bound
  by_cases hfull : f.items.length = 16
  · have hn : ¬ f.items.length < QUEUE_NUM_ELEMS := by simp [QUEUE_NUM_ELEMS, hfull]
    simp only [queueAdd, if_pos ((full_iff h).mpr hfull), Fifo.push, dif_neg hn]
    exact ⟨trivial, h⟩
  · have hlt : f.items.length < QUEUE_NUM_ELEMS := by simp only [QUEUE_NUM_ELEMS] at hb ⊢; omega
    simp only [queueAdd, if_neg (fun c => hfull ((full_iff h).mp c)), Fifo.push, dif_pos hlt, true_and]
    right
    -- the new element goes in the cell after the window, which is cell 0 when it was empty
    rcases h with ⟨h0, h1, h2⟩ | ⟨start, hs, hne, h1, h2, hw⟩
    · refine ⟨0, by omega, by simp, h1, by simp [h0, h2, QUEUE_NUM_ELEMS], ?_⟩
      simp [h0, h2, window, QUEUE_NUM_ELEMS]
    · have hpos : 0 < f.items.length := List.length_pos_iff.mpr hne
      have hlast : (q.last + 1).tmod QUEUE_NUM_ELEMS = ((start + f.items.length) % 16 : Nat) := by
        rw [Int.tmod_eq_emod_of_nonneg (by omega), h2]
        simp only [QUEUE_NUM_ELEMS]
        omega
      refine ⟨start, hs, by simp, h1, ?_, ?_⟩
      · simp [hlast]
      · simp only [List.length_append, List.length_singleton, List.map_append, List.map_cons, List.map_nil, hlast,
          Int.toNat_natCast]
        rw [window_push _ (show f.items.length < 16 from hlt), hw]

/-- `queue_get` is a FIFO pop: the oldest element, or NULL from an empty queue. -/
theorem get_refines {q : QueueT α} {f : Fifo α QUEUE_NUM_ELEMS} (h : Holds q f) :
    (queueGet q).1 = f.pop.1 ∧ Holds (queueGet q).2 f.pop.2 := by
  rcases hf : f.items with _ | ⟨x, xs⟩
  · have he : queueEmpty q = true := (empty_iff h).mpr hf
    simp only [queueGet, he, if_true, Fifo.pop, hf]
    exact ⟨rfl, holds_items h (by simp [hf])⟩
  · have he : queueEmpty q = false := by
      cases hq : queueEmpty q with
      | false => rfl
      | true => rw [(empty_iff h).mp hq] at hf; cases hf
    have hb := f.bound
    rcases h with ⟨h0, _, _⟩ | ⟨start, hs, hne, h1, h2, hw⟩
    · rw [h0] at hf; cases hf
    rw [hf] at h2 hw hb
    simp only [List.length_cons, Nat.add_sub_cancel, window_pop, List.map_cons, List.cons.injEq, QUEUE_NUM_ELEMS,
      Nat.mod_eq_of_lt hs] at h2 hw hb
    have hret : q.elems q.first.toNat = some x := by rw [h1, Int.toNat_natCast]; exact hw.1
    simp only [queueGet, he, Bool.false_eq_true, if_false, hret, Fifo.pop, hf]
    -- the only element was taken iff the indices met
    by_cases heq : q.first = q.last
    · have hxs : xs = [] := List.eq_nil_of_length_eq_zero (by omega)
      rw [if_pos heq]
      exact ⟨rfl, Or.inl ⟨by simp [hxs], rfl, rfl⟩⟩
    · have hxs : xs ≠ [] := by
        rintro rfl
        exact heq (by rw [h1, h2]; simp; omega)
      have hpos : 0 < xs.length := List.length_pos_iff.mpr hxs
      rw [if_neg heq]
      refine ⟨rfl, Or.inr ⟨(start + 1) % 16, Nat.mod_lt _ (by omega), hxs, ?_, ?_, hw.2⟩⟩
      · rw [Int.tmod_eq_emod_of_nonneg (by omega), h1]
        simp only [QUEUE_NUM_ELEMS]
        omega
      · simp only [h2, List.tail_cons]; omega

/-! ## The queue through its items -/

/-- The queue stands for some FIFO: a state that `queue_init`, `queue_add` and `queue_get`
    reach. -/
def Wf (q : QueueT α) : Prop := ∃ f, Holds q f

theorem init_wf (q : QueueT α) : Wf (queueInit q) := ⟨_, init_holds q⟩

theorem items_init (q : QueueT α) : items (queueInit q) = [] := items_eq (init_holds q)

theorem items_le {q : QueueT α} (h : Wf q) : (items q).length ≤ 16 := by
  obtain ⟨f, hf⟩ := h
  rw [items_eq hf]
  exact f.bound

theorem add_of_lt {q : QueueT α} (h : Wf q) (x : α) (hl : (items q).length < 16) :
    (queueAdd q (some x)).1 = true ∧ items (queueAdd q (some x)).2 = items q ++ [x] ∧
      Wf (queueAdd q (some x)).2 := by
  obtain ⟨f, hf⟩ := h
  rw [items_eq hf] at hl ⊢
  obtain ⟨h1, h2⟩ := add_refines hf x
  have hlt : f.items.length < QUEUE_NUM_ELEMS := hl
  simp only [Fifo.push, dif_pos hlt] at h1 h2
  exact ⟨h1, items_eq h2, _, h2⟩

theorem add_of_full {q : QueueT α} (h : Wf q) (x : α) (hl : ¬ (items q).length < 16) :
    queueAdd q (some x) = (false, q) := by
  obtain ⟨f, hf⟩ := h
  rw [items_eq hf] at hl
  have hb := f.bound
  simp only [QUEUE_NUM_ELEMS] at hb
  simp only [queueAdd, if_pos ((full_iff hf).mpr (show f.items.length = 16 by omega))]

theorem get_spec {q : QueueT α} (h : Wf q) :
    (queueGet q).1 = (items q).head? ∧ items (queueGet q).2 = (items q).tail ∧ Wf (queueGet q).2 := by
  obtain ⟨f, hf⟩ := h
  obtain ⟨h1, h2⟩ := get_refines hf
  rw [items_eq hf]
  exact ⟨h1, items_eq h2, _, h2⟩

/-! ## Runs -/

/-- A call of one of the three functions; the elements added are not NULL. -/
inductive Op (α : Type) where
  | init
  | add (x : α)
  | get

/-- What a call returns. -/
inductive Result (α : Type) where
  | done
  | added (ok : Bool)
  | got (x : Option α)
  deriving DecidableEq

def queueOp (q : QueueT α) : Op α → Result α × QueueT α
  | .init => (.done, queueInit q)
  | .add x => (.added (queueAdd q (some x)).1, (queueAdd q (some x)).2)
  | .get => (.got (queueGet q).1, (queueGet q).2)

/-- The same calls on a list that holds at most 16 elements, oldest first. -/
def listOp (l : List α) : Op α → Result α × List α
  | .init => (.done, [])
  | .add x => if l.length < 16 then (.added true, l ++ [x]) else (.added false, l)
  | .get => (.got l.head?, l.tail)

/-- A machine that also collects the results of its calls. -/
def collect {σ : Type} (op : σ → Op α → Result α × σ) (s : σ × List (Result α)) (o : Op α) : σ × List (Result α) :=
  ((op s.1 o).2, s.2 ++ [(op s.1 o).1])

/-- One call, on a queue that holds the elements of the list. -/
theorem op_refines {q : QueueT α} (h : Wf q) (o : Op α) :
    (queueOp q o).1 = (listOp (items q) o).1 ∧ items (queueOp q o).2 = (listOp (items q) o).2 ∧
      Wf (queueOp q o).2 := by
  cases o with
  | init => exact ⟨rfl, items_init q, init_wf q⟩
  | add x =>
    by_cases hl : (items q).length < 16
    · obtain ⟨hadd, hitems, hwf⟩ := add_of_lt h x hl
      simp only [queueOp, listOp, if_pos hl, hadd]
      exact ⟨trivial, hitems, hwf⟩
    · simp only [queueOp, listOp, if_neg hl, add_of_full h x hl]
      exact ⟨trivial, trivial, h⟩
  | get =>
    obtain ⟨hget, hitems, hwf⟩ := get_spec h
    simp only [queueOp, listOp, hget]
    exact ⟨trivial, hitems, hwf⟩

theorem run_refines {q : QueueT α} (h : Wf q) (rs : List (Result α)) (ops : List (Op α)) :
    (run (collect queueOp) (q, rs) ops).2 = (run (collect listOp) (items q, rs) ops).2 ∧
      items (run (collect queueOp) (q, rs) ops).1 = (run (collect listOp) (items q, rs) ops).1 ∧
      Wf (run (collect queueOp) (q, rs) ops).1 := by
  induction ops generalizing q rs with
  | nil => exact ⟨rfl, rfl, h⟩
  | cons o ops ih =>
    obtain ⟨hres, hitems, hwf⟩ := op_refines h o
    have hrest := ih hwf (rs ++ [(queueOp q o).1])
    rw [hitems, hres] at hrest
    simp only [run_cons, collect, hres]
    exact hrest

/-- Whatever the queue holds at first, from `queue_init` on every result is that of the
    list; in every state the queue holds the elements of the list, a full one is left as it
    is by `queue_add`, and the indices are those of the empty queue or in range. -/
theorem queue_is_fifo (q : QueueT α) (ops : List (Op α)) :
    let s := run (collect queueOp) (q, []) (.init :: ops)
    let t := run (collect listOp) ([], []) (.init :: ops)
    s.2 = t.2 ∧ items s.1 = t.1 ∧ t.1.length ≤ 16 ∧
      (t.1.length = 16 → ∀ x, queueAdd s.1 (some x) = (false, s.1)) ∧
      ((s.1.first = 0 ∧ s.1.last = -1) ∨ (0 ≤ s.1.first ∧ s.1.first < 16 ∧ 0 ≤ s.1.last ∧ s.1.last < 16)) := by
  have hinit : items (queueInit q) = [] := items_init q
  have hrun := run_refines (init_wf q) [.done] ops
  rw [hinit] at hrun
  obtain ⟨hres, hitems, hwf⟩ := hrun
  obtain ⟨f, hf⟩ := hwf
  refine ⟨hres, hitems, ?_, ?_, holds_range hf⟩
  · exact hitems ▸ items_le ⟨f, hf⟩
  · intro hfull x
    refine add_of_full ⟨f, hf⟩ x ?_
    rw [hitems]
    exact fun hlt => absurd (hfull ▸ hlt) (Nat.lt_irrefl 16)

end Nanotube.Device.Queue
