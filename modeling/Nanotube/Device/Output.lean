/-
  Nanotube.Device.Output — the references the driver takes on outgoing pbufs
  (`ecm_netif_output`, `ecm_write_callback`).

  `ecm_netif_output` takes a reference on the pbuf and schedules an OUT transfer of it;
  the transfer's callback drops the reference. The result of `usb_ScheduleTransfer` is
  not looked at: a refused transfer gets no callback, so its reference is never dropped,
  and the packet counts as sent.

  `Tx` has each pbuf's `ref` (a `u8_t`), the OUT transfers usbdrvce has accepted and not
  completed, and the driver's calls. The stack's own references come and go as it likes
  (`hold`, `drop`).

  Proved: over every run the references taken are those dropped, plus the transfers
  pending, plus the transfers refused (`references`); so the books balance, and `ERR_OK`
  means scheduled, exactly in the runs without a refusal (`balanced_iff`). The count of a
  pbuf with no transfer pending is made of the stack's references and the refused
  transfers (`idle_ref`): lwIP's `tcp_output_segment_busy` sees those too.

  Which bytes a transfer carries is the subject of `Nanotube.Device.Transmit`. The last part
  has both in one: the transfers accepted over a run are those of the pbufs it holds or held
  a reference to, and all of them are the packets if and only if no chain has a gap
  (`transfers_carry_iff`).
-/

import Nanotube.Device.Ecm
import Nanotube.Device.Transmit

namespace Nanotube.Device.Output

open Nanotube.Device.Ecm (UsbError ErrT ERR_OK)
open Nanotube.Lib.Runs

structure Tx where
  /-- `p->ref` of each pbuf. -/
  ref : Nat → Nat
  /-- The pbufs of the OUT transfers pending. -/
  pending : List Nat
  /-- The pbufs `ecm_netif_output` took a reference on, and those `ecm_write_callback`
      dropped one of. -/
  refs : List Nat
  frees : List Nat
  /-- For each `ecm_netif_output`, what it returned and what `usb_ScheduleTransfer` did. -/
  results : List (ErrT × UsbError)

/-- `ref` is a `u8_t`. -/
def pbufRef (p : Nat) (s : Tx) : Tx := { s with ref := Function.update s.ref p ((s.ref p + 1) % 256) }

/-- `--(p->ref)`; what `pbuf_free` does with the chain once it is 0 is lwIP's. -/
def pbufFree (p : Nat) (s : Tx) : Tx := { s with ref := Function.update s.ref p ((s.ref p + 255) % 256) }

def ecmNetifOutput (p : Nat) (schedule : UsbError) (s : Tx) : ErrT × Tx :=
  let s := pbufRef p { s with refs := s.refs ++ [p] }
  let s := if schedule = .success then { s with pending := s.pending ++ [p] } else s
  (ERR_OK, s)

/-- A length that differs from `tot_len` is only logged. -/
def ecmWriteCallback (p : Nat) (s : Tx) : UsbError × Tx :=
  (.success, pbufFree p { s with frees := s.frees ++ [p] })

inductive Ev where
  | output (p : Nat) (schedule : UsbError)
  /-- Some pending OUT transfer finishes. -/
  | complete (i : Nat)
  /-- The stack takes or drops a reference of its own. -/
  | hold (p : Nat)
  | drop (p : Nat)

def step (s : Tx) : Ev → Tx
  | .output p schedule =>
    let r := ecmNetifOutput p schedule s
    { r.2 with results := r.2.results ++ [(r.1, schedule)] }
  | .complete i =>
    match s.pending[i]? with
    | some p => (ecmWriteCallback p { s with pending := s.pending.eraseIdx i }).2
    | none => s
  | .hold p => pbufRef p s
  | .drop p => pbufFree p s

/-- Nothing sent yet; the stack has the references it has. -/
def init (ref : Nat → Nat) : Tx := ⟨ref, [], [], [], []⟩

/-- The transfers of `p` that usbdrvce refused in the run. -/
def refusals (p : Nat) (es : List Ev) : Nat :=
  es.countP fun
    | .output q schedule => q == p && schedule != .success
    | _ => false

/-! ## Where the references are -/

theorem count_eraseIdx {l : List Nat} {i x : Nat} (h : l[i]? = some x) (p : Nat) :
    (l.eraseIdx i).count p + (if x = p then 1 else 0) = l.count p := by
  induction l generalizing i with
  | nil => simp at h
  | cons y l ih =>
    cases i with
    | zero =>
      simp only [List.getElem?_cons_zero, Option.some.injEq] at h
      subst h
      simp only [List.eraseIdx_zero, List.tail_cons, List.count_cons, beq_iff_eq]
    | succ i =>
      simp only [List.getElem?_cons_succ] at h
      have := ih h
      simp only [List.eraseIdx_cons_succ, List.count_cons]
      omega

theorem count_snoc (l : List Nat) (x p : Nat) : (l ++ [x]).count p = l.count p + if x = p then 1 else 0 := by
  simp [List.count_append, List.count_singleton]

/-- One step moves a reference only from pending to dropped, or takes one for a transfer
    that is pending or refused. -/
theorem step_references (s : Tx) (e : Ev) (p : Nat) :
    (step s e).refs.count p + s.frees.count p + s.pending.count p =
      s.refs.count p + (step s e).frees.count p + (step s e).pending.count p + refusals p [e] := by
  cases e with
  | output q schedule =>
    simp only [step, ecmNetifOutput, refusals, List.countP_singleton]
    by_cases hs : schedule = .success
    · simp only [hs, if_true, pbufRef, count_snoc, bne_self_eq_false, Bool.and_false, Bool.false_eq_true, if_false]
      omega
    · have hne : (schedule != .success) = true := by simpa using hs
      simp only [hs, if_false, pbufRef, count_snoc, hne, Bool.and_true, beq_iff_eq]
      omega
  | complete i =>
    simp only [step, refusals, List.countP_singleton]
    split
    · rename_i x hx
      have := count_eraseIdx hx p
      simp only [ecmWriteCallback, pbufFree, count_snoc, Bool.false_eq_true, if_false]
      omega
    · simp
  | hold q => simp [step, pbufRef, refusals]
  | drop q => simp [step, pbufFree, refusals]

theorem refusals_cons (p : Nat) (e : Ev) (es : List Ev) : refusals p (e :: es) = refusals p es + refusals p [e] := by
  simp [refusals, List.countP_cons]

/-- The references taken are those dropped, those of pending transfers, and those of
    refused ones. -/
theorem references (s : Tx) (es : List Ev) (p : Nat) :
    (run step s es).refs.count p + s.frees.count p + s.pending.count p =
      s.refs.count p + (run step s es).frees.count p + (run step s es).pending.count p + refusals p es := by
  induction es generalizing s with
  | nil => simp [refusals]
  | cons e es ih =>
    have h1 := step_references s e p
    have h2 := ih (step s e)
    rw [run_cons, refusals_cons]
    omega

/-! ## The books balance unless a transfer is refused -/

/-- For every pbuf the references taken minus those dropped are the transfers pending,
    and every `ERR_OK` returned was for a transfer that was scheduled. -/
def Balanced (s : Tx) : Prop :=
  (∀ p, (s.refs.count p : Int) - s.frees.count p = s.pending.count p) ∧
    ∀ r ∈ s.results, r.1 = ERR_OK → r.2 = .success

def NotRefused (_ : Tx) : Ev → Prop
  | .output _ schedule => schedule = .success
  | _ => True

theorem refusals_eq_zero {s : Tx} {e : Ev} (h : NotRefused s e) (p : Nat) : refusals p [e] = 0 := by
  cases e with
  | output q schedule =>
    have hs : schedule = .success := h
    simp [refusals, hs]
  | complete i => rfl
  | hold q => rfl
  | drop q => rfl

theorem step_results (s : Tx) (e : Ev) :
    (step s e).results = s.results ++ match e with
      | .output _ schedule => [(ERR_OK, schedule)]
      | _ => [] := by
  cases e with
  | output q schedule =>
    simp only [step, ecmNetifOutput]
    split <;> rfl
  | complete i =>
    simp only [step]
    split <;> simp [ecmWriteCallback, pbufFree]
  | hold q => simp [step, pbufRef]
  | drop q => simp [step, pbufFree]

theorem step_balanced {s : Tx} (hs : Balanced s) (e : Ev) : Balanced (step s e) ↔ NotRefused s e := by
  constructor
  · intro h
    cases e with
    | output q schedule =>
      refine h.2 (ERR_OK, schedule) ?_ rfl
      rw [step_results]
      simp
    | complete i => trivial
    | hold q => trivial
    | drop q => trivial
  · intro h
    refine ⟨?_, ?_⟩
    · intro p
      have hp := hs.1 p
      have hr := step_references s e p
      rw [refusals_eq_zero h] at hr
      omega
    · intro r hr hok
      rw [step_results] at hr
      rcases List.mem_append.mp hr with hr | hr
      · exact hs.2 r hr hok
      · cases e with
        | output q schedule =>
          simp only [List.mem_singleton] at hr
          subst hr
          exact h
        | complete i => cases hr
        | hold q => cases hr
        | drop q => cases hr

theorem init_balanced (ref : Nat → Nat) : Balanced (init ref) := by
  refine ⟨?_, ?_⟩
  · intro p; rfl
  · intro r hr; cases hr

theorem along_notRefused {s : Tx} {es : List Ev} :
    Along step NotRefused s es ↔ ∀ p schedule, Ev.output p schedule ∈ es → schedule = .success := by
  induction es generalizing s with
  | nil => simp [Along]
  | cons e es ih =>
    simp only [Along, ih]
    constructor
    · intro h p schedule hm
      rcases List.mem_cons.mp hm with rfl | hm
      · exact h.1
      · exact h.2 p schedule hm
    · intro h
      refine ⟨?_, fun p schedule hm => h p schedule (List.mem_cons_of_mem _ hm)⟩
      cases e with
      | output q schedule => exact h q schedule List.mem_cons_self
      | complete i => trivial
      | hold q => trivial
      | drop q => trivial

/-- In every state of a run the driver's references balance, and `ERR_OK` was returned only
    for scheduled transfers, exactly when usbdrvce refused no transfer of the run. -/
theorem balanced_iff (ref : Nat → Nat) (es : List Ev) :
    Always step Balanced (init ref) es ↔ ∀ p schedule, Ev.output p schedule ∈ es → schedule = .success := by
  rw [← along_notRefused (s := init ref)]
  constructor
  · intro h
    refine along_of_always step (I := fun _ => True) (fun _ _ _ _ _ => trivial) ?_ trivial h
    intro s e _ hs hs'
    exact (step_balanced hs e).mp hs'
  · intro h
    refine always_of_along step ?_ (init_balanced ref) h
    intro s e hs he
    exact (step_balanced hs e).mpr he

/-- A refused packet: the reference stays, nothing is pending, and the stack was told the
    packet is on its way. -/
theorem a_refused_packet_keeps_its_reference :
    ¬ Always step Balanced (init fun _ => 1) [.output 0 .noMemory] := by
  intro h
  have hb : Balanced (step (init fun _ => 1) (.output 0 .noMemory)) := h.2
  exact absurd (hb.1 0) (by decide)

/-! ## What lwIP sees -/

/-- References of its own the stack took minus those it dropped, in the run. -/
def stackRefs (p : Nat) : List Ev → Int
  | [] => 0
  | .hold q :: es => (if q = p then 1 else 0) + stackRefs p es
  | .drop q :: es => (if q = p then -1 else 0) + stackRefs p es
  | _ :: es => stackRefs p es

theorem stackRefs_cons (p : Nat) (e : Ev) (es : List Ev) :
    stackRefs p (e :: es) = stackRefs p [e] + stackRefs p es := by
  cases e <;> simp [stackRefs]

/-- What one step adds to the count of `p`, the stack's references and the driver's. -/
def refGain (s : Tx) (e : Ev) (p : Nat) : Int :=
  stackRefs p [e] + ((step s e).refs.count p - s.refs.count p) - ((step s e).frees.count p - s.frees.count p)

/-- `pbuf_ref` adds one to its pbuf and `pbuf_free` takes one off, modulo 256. -/
theorem pbufRef_ref (q : Nat) (s : Tx) (p : Nat) :
    ((pbufRef q s).ref p : Int) % 256 = (s.ref p + if q = p then 1 else 0) % 256 := by
  simp only [pbufRef]
  by_cases e : q = p
  · subst e
    simp only [Function.update_self, if_true]
    omega
  · simp only [Function.update_of_ne (Ne.symm e), e, if_false, Int.add_zero]

theorem pbufFree_ref (q : Nat) (s : Tx) (p : Nat) :
    ((pbufFree q s).ref p : Int) % 256 = (s.ref p - if q = p then 1 else 0) % 256 := by
  simp only [pbufFree]
  by_cases e : q = p
  · subst e
    simp only [Function.update_self, if_true]
    omega
  · simp only [Function.update_of_ne (Ne.symm e), e, if_false, Int.sub_zero]

theorem step_ref (s : Tx) (e : Ev) (p : Nat) : ((step s e).ref p : Int) % 256 = (s.ref p + refGain s e p) % 256 := by
  cases e with
  | output q schedule =>
    have hr : (step s (.output q schedule)).ref = (pbufRef q s).ref := by
      simp only [step, ecmNetifOutput]; split <;> rfl
    have hc : (step s (.output q schedule)).refs = s.refs ++ [q] := by
      simp only [step, ecmNetifOutput]; split <;> rfl
    have hf : (step s (.output q schedule)).frees = s.frees := by
      simp only [step, ecmNetifOutput]; split <;> rfl
    rw [hr, pbufRef_ref]
    simp only [refGain, hc, hf, count_snoc, stackRefs]
    congr 1
    split <;> omega
  | complete i =>
    simp only [refGain, step, stackRefs]
    split
    next x hx =>
      have hgain : ((ecmWriteCallback x { s with pending := s.pending.eraseIdx i }).2.frees.count p : Int) =
          s.frees.count p + if x = p then 1 else 0 := by
        simp only [ecmWriteCallback, pbufFree, count_snoc]
        split <;> omega
      have hrefs : (ecmWriteCallback x { s with pending := s.pending.eraseIdx i }).2.refs = s.refs := rfl
      have hfree : ((ecmWriteCallback x { s with pending := s.pending.eraseIdx i }).2.ref p : Int) % 256 =
          (s.ref p - if x = p then 1 else 0) % 256 := pbufFree_ref x s p
      rw [hfree, hgain, hrefs]
      congr 1
      omega
    next => congr 1; omega
  | hold q =>
    have hgain : refGain s (.hold q) p = if q = p then 1 else 0 := by
      simp [refGain, step, pbufRef, stackRefs]
    rw [hgain]
    exact pbufRef_ref q s p
  | drop q =>
    have hgain : refGain s (.drop q) p = -if q = p then 1 else 0 := by
      simp only [refGain, step, pbufFree, stackRefs]
      split <;> omega
    rw [hgain]
    exact pbufFree_ref q s p

/-- The `u8_t` counts the stack's references and the driver's. -/
theorem run_ref (s : Tx) (es : List Ev) (p : Nat) :
    ((run step s es).ref p : Int) % 256 =
      (s.ref p + (stackRefs p es + ((run step s es).refs.count p - s.refs.count p) -
        ((run step s es).frees.count p - s.frees.count p))) % 256 := by
  induction es generalizing s with
  | nil => simp [stackRefs]
  | cons e es ih =>
    have h1 := step_ref s e p
    have h2 := ih (step s e)
    unfold refGain at h1
    rw [run_cons, stackRefs_cons]
    omega

/-- Once no transfer of `p` is pending, its count is the stack's own plus one for every
    refused transfer: a refusal makes `tcp_output_segment_busy` true of a segment the stack
    alone holds, for good. -/
theorem idle_ref (ref : Nat → Nat) (es : List Ev) (p : Nat) (hidle : (run step (init ref) es).pending.count p = 0) :
    ((run step (init ref) es).ref p : Int) % 256 = (ref p + stackRefs p es + refusals p es) % 256 := by
  have h := run_ref (init ref) es p
  have hr := references (init ref) es p
  rw [hidle] at hr
  rw [h]
  simp only [init, List.count_nil] at hr ⊢
  omega

/-! ## What the transfers carry -/

section Carried

open Nanotube.Device.Transmit (Chain Transfer totLen contents Adjoining adjoining_of_load load_of_adjoining)

/- The chain that each pbuf starts. -/
variable (heap : Nat → Chain)

/-- The references, and the transfers usbdrvce has accepted, in this order. -/
structure Out where
  tx : Tx
  transfers : List Transfer

/-- Both effects of `ecm_netif_output`. -/
def netifOutput (p : Nat) (schedule : UsbError) (s : Out) : ErrT × Out :=
  let tx := pbufRef p { s.tx with refs := s.tx.refs ++ [p] }
  let transfer : Transfer := ⟨(heap p).first.payload, totLen (heap p).pbufs⟩
  if schedule = .success then (ERR_OK, ⟨{ tx with pending := tx.pending ++ [p] }, s.transfers ++ [transfer]⟩)
  else (ERR_OK, ⟨tx, s.transfers⟩)

def outStep (s : Out) : Ev → Out
  | .output p schedule =>
    let r := netifOutput heap p schedule s
    { r.2 with tx := { r.2.tx with results := r.2.tx.results ++ [(r.1, schedule)] } }
  | e => { s with tx := step s.tx e }

/-- The pbufs whose transfers were accepted. -/
def accepted (es : List Ev) : List Nat :=
  es.filterMap fun
    | .output p schedule => if schedule = .success then some p else none
    | _ => none

/-- The references are those of `ecmNetifOutput` here, and the transfers those of the one in
    `Transmit`. -/
theorem outStep_eq (s : Out) (e : Ev) :
    outStep heap s e =
      ⟨step s.tx e, s.transfers ++ (accepted [e]).map fun p => Transmit.ecmNetifOutput (heap p)⟩ := by
  cases e with
  | output p schedule =>
    by_cases hs : schedule = .success
    · simp [outStep, netifOutput, step, ecmNetifOutput, accepted, hs, pbufRef, Transmit.ecmNetifOutput]
    · simp [outStep, netifOutput, step, ecmNetifOutput, accepted, hs]
  | complete i => simp [outStep, accepted]
  | hold p => simp [outStep, accepted]
  | drop p => simp [outStep, accepted]

theorem accepted_cons (e : Ev) (es : List Ev) : accepted (e :: es) = accepted [e] ++ accepted es :=
  List.filterMap_append (l := [e])

theorem run_outStep (s : Out) (es : List Ev) :
    run (outStep heap) s es =
      ⟨run step s.tx es, s.transfers ++ (accepted es).map fun p => Transmit.ecmNetifOutput (heap p)⟩ := by
  induction es generalizing s with
  | nil => simp [accepted]
  | cons e es ih => rw [run_cons, ih, outStep_eq, run_cons, accepted_cons e es, List.map_append, List.append_assoc]

theorem step_accepted (s : Tx) (e : Ev) (p : Nat) :
    (step s e).frees.count p + (step s e).pending.count p = s.frees.count p + s.pending.count p + (accepted [e]).count p := by
  cases e with
  | output q schedule =>
    by_cases hs : schedule = .success
    · simp only [step, ecmNetifOutput, accepted, hs, if_true, pbufRef, count_snoc, List.filterMap_cons, List.filterMap_nil,
        List.count_singleton, beq_iff_eq]
      omega
    · simp [step, ecmNetifOutput, accepted, hs, pbufRef]
  | complete i =>
    simp only [step, accepted, List.filterMap_cons, List.filterMap_nil, List.count_nil]
    split
    · rename_i x hx
      have := count_eraseIdx hx p
      simp only [ecmWriteCallback, pbufFree, count_snoc]
      omega
    · rfl
  | hold q => simp [step, pbufRef, accepted]
  | drop q => simp [step, pbufFree, accepted]

/-- Every accepted transfer has a reference, which is held while it is pending and then
    dropped. -/
theorem run_accepted (s : Tx) (es : List Ev) (p : Nat) :
    (run step s es).frees.count p + (run step s es).pending.count p =
      s.frees.count p + s.pending.count p + (accepted es).count p := by
  induction es generalizing s with
  | nil => simp [accepted]
  | cons e es ih =>
    have hstep := step_accepted s e p
    rw [run_cons, ih, accepted_cons e es, List.count_append]
    omega

theorem sent_iff_adjoining (p : Chain) :
    (∀ mem, (Transmit.ecmNetifOutput p).sent mem = contents mem p.pbufs) ↔
      Adjoining (p.first.payload + p.first.len) p.rest := by
  constructor
  · intro h
    have hall : Adjoining p.first.payload p.pbufs := adjoining_of_load h
    exact hall.2
  · intro h mem
    have hall : Adjoining p.first.payload p.pbufs := ⟨Or.inr rfl, h⟩
    exact load_of_adjoining mem hall

/-- Over a run: the references are as in `step`, the accepted transfers are those whose
    reference is held or was dropped, and they carry the packets, in this order, if and only
    if the payloads of each accepted chain adjoin. -/
theorem transfers_carry_iff (ref : Nat → Nat) (es : List Ev) :
    (run (outStep heap) ⟨init ref, []⟩ es).tx = run step (init ref) es ∧
      (∀ p, (accepted es).count p = (run step (init ref) es).frees.count p + (run step (init ref) es).pending.count p) ∧
      ((∀ mem, (run (outStep heap) ⟨init ref, []⟩ es).transfers.map (Transfer.sent mem) =
          (accepted es).map fun p => contents mem (heap p).pbufs) ↔
        ∀ p ∈ accepted es, Adjoining ((heap p).first.payload + (heap p).first.len) (heap p).rest) := by
  rw [run_outStep]
  refine ⟨rfl, fun p => ?_, ?_⟩
  · have h := run_accepted (init ref) es p
    simp only [init, List.count_nil, Nat.zero_add] at h
    exact h.symm
  · simp only [List.nil_append, List.map_map, List.map_inj_left, Function.comp_apply]
    constructor
    · intro h p hp
      exact (sent_iff_adjoining (heap p)).mp fun mem => h mem p hp
    · intro h mem p hp
      exact (sent_iff_adjoining (heap p)).mpr (h p hp) mem

end Carried

end Nanotube.Device.Output
