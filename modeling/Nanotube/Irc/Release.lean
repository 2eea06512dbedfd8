/-
  Nanotube.Irc.Release — are received buffers given back? (src/irc.c `recv_func`;
  src/lwIP/core/tcp.c `tcp_recv`, tcp_in.c `tcp_input`)

  lwIP hands a buffer to `recv_func` and takes ERR_OK to mean that the callback has freed
  it; any other result and lwIP keeps it. The window the data took up comes back with
  `tcp_recved`. `recv_func` returns ERR_OK at each of its three exits, calls `tcp_recved`
  at one of them, and `pbuf_free` at none.

  Proved: a run releases what it received only if it received nothing (`release_iff`):
  every buffer ever delivered is still held. The window is returned in full, each buffer's
  bytes once and in order, exactly if no buffer came with an error code.
-/

import Nanotube.Irc.Effects
import Nanotube.Lib.Runs

namespace Nanotube.Irc

open Nanotube.Lib.Runs
open Nanotube.Device.Ecm (ErrT ERR_OK)

variable (lwip : Nat → ErrT)

/-- A call of `recv_func`; no buffer when the peer has closed the connection. -/
structure Delivery where
  tpcb : Nat
  p : Option Segment
  err : ErrT
  deriving DecidableEq, Repr

/-- The IRC layer with the buffers it was given. They are numbered as they come. -/
structure Rx where
  st : St
  /-- `tot_len` of each buffer that is the layer's, lwIP having been told ERR_OK. -/
  taken : List Nat
  /-- The buffers it has called `pbuf_free` on. -/
  freed : List Nat

/-- The buffers `recv_func` calls `pbuf_free` on, exit by exit, when its own is number `p`. -/
def recvFuncFrees (p : Option Nat) (err : ErrT) : List Nat :=
  match p with
  -- "IRC connection closed"
  | none => []
  | some _ =>
    -- "Error %u on IRC data receive", or the end behind `tcp_recved`
    if err ≠ ERR_OK then [] else []

def deliver (x : Rx) (d : Delivery) : Rx :=
  let r := recvFunc lwip d.tpcb d.p d.err x.st
  { st := r.2
    taken := if r.1 = ERR_OK then x.taken ++ (d.p.map (·.bytes.length)).toList else x.taken
    freed := x.freed ++ recvFuncFrees (d.p.map fun _ => x.taken.length) d.err }

/-- The lengths `tcp_recved` was called with. -/
def recveds (s : St) : List Nat :=
  s.calls.filterMap fun c =>
    match c.fn with
    | .recved len => some len
    | _ => none

/-- From `s` on, every buffer taken has been freed once, and its bytes credited once. -/
structure Released (s : St) (x : Rx) : Prop where
  freed : ∀ i < x.taken.length, x.freed.count i = 1
  credited : recveds x.st = recveds s ++ x.taken

/-! ## One call -/

theorem recveds_effect : Effect fun s s' => recveds s' = recveds s where
  refl := fun _ => rfl
  trans := fun h h' => h'.trans h
  act := fun _ _ => rfl
  write := fun s bytes => by simp [recveds, St.call]
  output := fun s => by simp [recveds, St.call]
  identified := fun _ => rfl

/-- The bytes a call credits. -/
def Delivery.credit (d : Delivery) : Option Nat :=
  if d.err = ERR_OK then d.p.map (·.bytes.length) else none

theorem recveds_recvFunc (d : Delivery) (s : St) :
    recveds (recvFunc lwip d.tpcb d.p d.err s).2 = recveds s ++ d.credit.toList := by
  cases hp : d.p with
  | none => simp [recvFunc, Delivery.credit, hp]
  | some p =>
    by_cases herr : d.err = ERR_OK
    · have hloop := recveds_effect.recvLoop lwip p.mem.length p.mem 0 s
      simp only [recvFunc, herr, ne_eq, not_true_eq_false, if_false, Delivery.credit, if_true, hp, Option.map_some,
        Option.toList_some]
      rw [← hloop]
      simp [recveds, St.call]
    · simp [recvFunc, Delivery.credit, herr]

theorem recvFunc_ok (tpcb : Nat) (p : Option Segment) (err : ErrT) (s : St) :
    (recvFunc lwip tpcb p err s).1 = ERR_OK := by
  cases p with
  | none => rfl
  | some p =>
    simp only [recvFunc]
    split <;> rfl

theorem recvFuncFrees_nil (p : Option Nat) (err : ErrT) : recvFuncFrees p err = [] := by
  cases p with
  | none => rfl
  | some i =>
    simp only [recvFuncFrees]
    split <;> rfl

/-! ## Runs -/

theorem run_deliver (ds : List Delivery) (x : Rx) :
    (run (deliver lwip) x ds).freed = x.freed ∧
      (run (deliver lwip) x ds).taken = x.taken ++ ds.filterMap (fun d => d.p.map (·.bytes.length)) ∧
      recveds (run (deliver lwip) x ds).st = recveds x.st ++ ds.filterMap Delivery.credit := by
  induction ds generalizing x with
  | nil => simp
  | cons d ds ih =>
    obtain ⟨hfreed, htaken, hcredit⟩ := ih (deliver lwip x d)
    rw [run_cons]
    refine ⟨?_, ?_, ?_⟩
    · rw [hfreed]
      simp only [deliver, recvFuncFrees_nil, List.append_nil]
    · rw [htaken]
      simp only [deliver, recvFunc_ok, if_true, List.append_assoc, List.filterMap_cons]
      cases d.p <;> simp
    · rw [hcredit]
      simp only [deliver, recveds_recvFunc, List.append_assoc, List.filterMap_cons]
      cases d.credit <;> simp

theorem credits_length_le (ds : List Delivery) :
    (ds.filterMap Delivery.credit).length ≤ (ds.filterMap (fun d => d.p.map (·.bytes.length))).length := by
  induction ds with
  | nil => simp
  | cons d ds ih =>
    simp only [List.filterMap_cons, Delivery.credit]
    by_cases herr : d.err = ERR_OK
    · rw [if_pos herr]
      cases d.p <;> simp <;> exact ih
    · rw [if_neg herr]
      cases d.p with
      | none => exact ih
      | some p => exact Nat.le_succ_of_le ih

/-- The credits are the lengths of the buffers, one for one, unless a buffer came with an
    error. -/
theorem credits_eq_iff (ds : List Delivery) :
    ds.filterMap Delivery.credit = ds.filterMap (fun d => d.p.map (·.bytes.length)) ↔
      ∀ d ∈ ds, d.p ≠ none → d.err = ERR_OK := by
  induction ds with
  | nil => simp
  | cons d ds ih =>
    simp only [List.filterMap_cons, List.forall_mem_cons, Delivery.credit]
    cases hp : d.p with
    | none => simpa using ih
    | some p =>
      by_cases herr : d.err = ERR_OK
      · simpa [herr] using ih
      · simp only [herr, if_false, Option.map_some, ne_eq, reduceCtorEq, not_false_eq_true, forall_const, false_and,
          iff_false]
        intro he
        -- the buffer that was not credited makes the other list longer
        have hle := credits_length_le ds
        rw [show ds.filterMap Delivery.credit = _ from he, List.length_cons] at hle
        omega

/-- A run of `recv_func` calls from any state releases all it received if and only if it
    received no buffer. Every buffer is still held; the window is returned exactly if no
    buffer came with an error. -/
theorem release_iff (s : St) (ds : List Delivery) :
    (Released s (run (deliver lwip) ⟨s, [], []⟩ ds) ↔ ∀ d ∈ ds, d.p = none) ∧
      (run (deliver lwip) ⟨s, [], []⟩ ds).freed = [] ∧
      (recveds (run (deliver lwip) ⟨s, [], []⟩ ds).st = recveds s ++ (run (deliver lwip) ⟨s, [], []⟩ ds).taken ↔
        ∀ d ∈ ds, d.p ≠ none → d.err = ERR_OK) := by
  obtain ⟨hfreed, htaken, hcredit⟩ := run_deliver lwip ds ⟨s, [], []⟩
  have hwindow : recveds (run (deliver lwip) ⟨s, [], []⟩ ds).st =
      recveds s ++ (run (deliver lwip) ⟨s, [], []⟩ ds).taken ↔ ∀ d ∈ ds, d.p ≠ none → d.err = ERR_OK := by
    rw [hcredit, htaken, List.nil_append, List.append_cancel_left_eq]
    exact credits_eq_iff ds
  refine ⟨⟨?_, ?_⟩, hfreed, hwindow⟩
  · intro h d hd
    by_contra hp
    obtain ⟨p, hp⟩ := Option.ne_none_iff_exists'.mp hp
    have hpos : 0 < (run (deliver lwip) ⟨s, [], []⟩ ds).taken.length := by
      rw [htaken, List.nil_append]
      exact List.length_pos_of_mem (List.mem_filterMap.mpr ⟨d, hd, by rw [hp]; rfl⟩)
    have hone := h.freed 0 hpos
    rw [hfreed] at hone
    simp at hone
  · intro h
    have hnone : ds.filterMap (fun d => d.p.map (·.bytes.length)) = [] := by
      rw [List.filterMap_eq_nil_iff]
      intro d hd
      rw [h d hd]
      rfl
    refine ⟨?_, hwindow.mpr fun d hd hp => absurd (h d hd) hp⟩
    intro i hi
    rw [htaken, hnone] at hi
    simp at hi

/-- One line in one buffer. -/
def onePing : List Delivery := [⟨0, some ⟨['P', 'I', 'N', 'G'].map byte ++ [CR, LF], [], [0]⟩, ERR_OK⟩]

/-- Its bytes are credited, and the buffer is never freed. -/
theorem a_received_buffer_is_kept :
    ¬ Released idle (run (deliver fun _ => ERR_OK) ⟨idle, [], []⟩ onePing) ∧
      (run (deliver fun _ => ERR_OK) ⟨idle, [], []⟩ onePing).taken = [6] ∧
      (run (deliver fun _ => ERR_OK) ⟨idle, [], []⟩ onePing).freed = [] ∧
      recveds (run (deliver fun _ => ERR_OK) ⟨idle, [], []⟩ onePing).st = [6] := by
  refine ⟨?_, by decide, by decide, by decide⟩
  intro h
  have hone := h.freed 0 (by decide)
  exact absurd hone (by decide)

end Nanotube.Irc
