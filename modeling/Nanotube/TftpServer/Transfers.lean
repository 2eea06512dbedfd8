/-
  Nanotube.TftpServer.Transfers — a transfer against everyone else, and against silence
  (src/lwIP/apps/tftp/tftp_server.c `recv`, `tftp_tmr`).

  The server has one `tftp_state` for all that comes to its port, and answers whoever sends.
  Proved, from any state with a transfer to a peer whose address and port are not 0:
  - packets of anyone else change nothing of the transfer and of what the peer is sent: it
    is as if they had not come (`strangers_unseen`);
  - when the peer falls silent the transfer ends: there is a tick to come as long as there
    was memory for the timeouts, and at the latest the 16th one closes the transfer, after
    at most five packets sent again, whatever anyone else sends meanwhile
    (`silent_transfer_ends`).
  Address 0 and port 0 are the server's signs for "no peer": a peer with the source port 0
  shares its transfer with every port of its host.

  The functions read the transfer and the environment, never what was done before: `shift`
  adds to that, and every function commutes with it.
-/

import Nanotube.TftpServer.Files

namespace Nanotube.TftpServer

open Nanotube.Lib.Runs

variable {φ H : Type}

/-! ## What was done before is not looked at -/

/-- What the server has done. -/
structure Ledger (H : Type) where
  sent : List Datagram
  pbufs : List PbufOp
  opens : List (Opening H)
  closes : List H
  timeoutsLost : Nat

/-- The state, had all this been done before. -/
def shift (l : Ledger H) (s : State φ H) : State φ H :=
  { s with
    sent := l.sent ++ s.sent
    pbufs := l.pbufs ++ s.pbufs
    opens := l.opens ++ s.opens
    closes := l.closes ++ s.closes
    timeoutsLost := l.timeoutsLost + s.timeoutsLost }

variable (ctx : Context φ H) (l : Ledger H) (s : State φ H)

@[simp] theorem shift_toTransfer : (shift l s).toTransfer = s.toTransfer := rfl
@[simp] theorem shift_sent : (shift l s).sent = l.sent ++ s.sent := rfl
@[simp] theorem shift_timeoutMem : (shift l s).timeoutMem = s.timeoutMem := rfl
@[simp] theorem lastpkt_shift : lastpkt (shift l s) = lastpkt s := rfl
@[simp] theorem pbufOp_shift (op : PbufOp) : pbufOp op (shift l s) = shift l (pbufOp op s) := by
  simp only [pbufOp, shift, List.append_assoc]
@[simp] theorem pbufFree_shift (which : Held) : pbufFree which (shift l s) = shift l (pbufFree which s) :=
  pbufOp_shift l s (.free which)
@[simp] theorem setFiles_shift (files : φ) : setFiles files (shift l s) = shift l (setFiles files s) := rfl
@[simp] theorem keep_shift (d : List UInt8) : keep d (shift l s) = shift l (keep d s) :=
  pbufOp_shift l { s with lastData := some d } .keep
@[simp] theorem noteOpen_shift (o : Opening H) : noteOpen o (shift l s) = shift l (noteOpen o s) := by
  simp only [noteOpen, shift, List.append_assoc]
@[simp] theorem noteAcked_shift (data : List UInt8) : noteAcked data (shift l s) = shift l (noteAcked data s) := rfl
@[simp] theorem notOpened_shift (files : φ) : notOpened files (shift l s) = shift l (notOpened files s) := rfl
@[simp] theorem grant_shift (e : Packet) (write : Bool) (h : H) (files : φ) :
    grant e write h files (shift l s) = shift l (grant e write h files s) := rfl
@[simp] theorem nextBlock_shift : nextBlock (shift l s) = shift l (nextBlock s) := rfl
@[simp] theorem touch_shift : touch (shift l s) = shift l (touch s) := rfl
@[simp] theorem fire_shift : fire (shift l s) = shift l (fire s) := rfl
@[simp] theorem within_shift (env : Env) : within env (shift l s) = shift l (within env s) := rfl

@[simp] theorem pbufAlloc_shift : pbufAlloc (shift l s) = ((pbufAlloc s).1, shift l (pbufAlloc s).2) := by
  obtain ⟨t, sent, pbufs, opens, closes, lost, mem, tm⟩ := s
  match mem with
  | [] => simp [pbufAlloc, pbufOp, shift]
  | true :: mem => simp [pbufAlloc, pbufOp, shift]
  | false :: mem => rfl

@[simp] theorem sendBytes_shift (addr : Nat) (port : UInt16) (payload : List UInt8) :
    sendBytes addr port payload (shift l s) = shift l (sendBytes addr port payload s) := by
  unfold sendBytes
  rw [pbufAlloc_shift]
  split
  next h => simp only [pbufFree, pbufOp, udpSendto, shift, List.append_assoc]
  next h => rfl

@[simp] theorem sendError_shift (addr : Nat) (port : UInt16) (code : TftpError) (str : String) :
    sendError addr port code str (shift l s) = shift l (sendError addr port code str s) := sendBytes_shift l s _ _ _

@[simp] theorem sendAck_shift (blknum : UInt16) : sendAck blknum (shift l s) = shift l (sendAck blknum s) :=
  sendBytes_shift l s _ _ _

@[simp] theorem resendData_shift : resendData (shift l s) = shift l (resendData s) := by
  unfold resendData
  rw [shift_toTransfer]
  split
  · rfl
  · exact sendBytes_shift l s _ _ _

@[simp] theorem sysTimeout_shift : sysTimeout (shift l s) = shift l (sysTimeout s) := by
  unfold sysTimeout
  rw [shift_timeoutMem]
  split
  · rfl
  · rfl

@[simp] theorem freeLastData_shift : freeLastData (shift l s) = shift l (freeLastData s) := by
  simp only [freeLastData, shift, List.append_assoc]

@[simp] theorem closeHandle_shift : closeHandle ctx (shift l s) = shift l (closeHandle ctx s) := by
  simp only [closeHandle, freeLastData, shift, List.append_assoc]

@[simp] theorem sendData_shift (h : H) : sendData ctx h (shift l s) = shift l (sendData ctx h s) := by
  simp only [sendData, freeLastData_shift, pbufAlloc_shift, shift_toTransfer]
  split
  next =>
    split
    next => simp only [setFiles_shift, keep_shift, sendError_shift, closeHandle_shift]
    next => simp only [setFiles_shift, keep_shift, resendData_shift]
  next => rfl

@[simp] theorem recvRequest_shift (write : Bool) (e : Packet) :
    recvRequest ctx write e (shift l s) = shift l (recvRequest ctx write e s) := by
  simp only [recvRequest, shift_toTransfer, sysTimeout_shift, sendError_shift]
  split
  next => rfl
  next =>
    split
    next => rfl
    next =>
      simp only [noteOpen_shift, notOpened_shift, grant_shift, sendError_shift, sendAck_shift, sendData_shift]
      split
      next => rfl
      next => simp only [apply_ite (shift l)]

@[simp] theorem takeBlock_shift (h : H) (e : Packet) :
    takeBlock ctx h e (shift l s) = shift l (takeBlock ctx h e s) := by
  simp only [takeBlock, shift_toTransfer, setFiles_shift, noteAcked_shift, sendError_shift, sendAck_shift, closeHandle_shift]
  split
  next =>
    split
    next => simp only [closeHandle_shift]
    next => simp only [closeHandle_shift]
  next =>
    split
    next => rfl
    next => rfl

@[simp] theorem recvData_shift (e : Packet) : recvData ctx e (shift l s) = shift l (recvData ctx e s) := by
  simp only [recvData, shift_toTransfer, sendError_shift, sendAck_shift, takeBlock_shift]
  split
  next => rfl
  next => simp only [apply_ite (shift l)]

@[simp] theorem recvAck_shift (e : Packet) : recvAck ctx e (shift l s) = shift l (recvAck ctx e s) := by
  simp only [recvAck, shift_toTransfer, lastpkt_shift, sendError_shift, nextBlock_shift, closeHandle_shift,
    sendData_shift]
  split
  next => rfl
  next => simp only [apply_ite (shift l)]

@[simp] theorem dispatch_shift (e : Packet) : dispatch ctx e (shift l s) = shift l (dispatch ctx e s) := by
  simp only [dispatch, recvRequest_shift, recvData_shift, recvAck_shift, sendError_shift, apply_ite (shift l)]

@[simp] theorem recv_shift (e : Packet) : recv ctx (shift l s) e = shift l (recv ctx s e) := by
  simp only [recv, pbufOp_shift, shift_toTransfer, touch_shift, sendError_shift, dispatch_shift, pbufFree_shift,
    apply_ite (shift l)]

@[simp] theorem retry_shift : retry (shift l s) = shift l (retry s) := by
  simp only [retry, resendData_shift]
  rfl

@[simp] theorem tftpTmr_shift : tftpTmr ctx (shift l s) = shift l (tftpTmr ctx s) := by
  simp only [tftpTmr, fire_shift, shift_toTransfer, sysTimeout_shift, retry_shift, closeHandle_shift,
    apply_ite (shift l)]

@[simp] theorem step_shift (ev : Ev) : step ctx (shift l s) ev = shift l (step ctx s ev) := by
  cases ev with
  | packet e env => exact recv_shift ctx l (within env s) e
  | tick env => simp only [step, shift_toTransfer, within_shift, tftpTmr_shift, apply_ite (shift l)]

def ledger : Ledger H := ⟨s.sent, s.pbufs, s.opens, s.closes, s.timeoutsLost⟩

/-- The transfer, with nothing done yet. -/
def bare (t : Transfer φ H) : State φ H := ⟨t, [], [], [], [], 0, [], true⟩

theorem within_eq_shift (env : Env) : within env s = shift (ledger s) (within env (bare s.toTransfer)) := by
  simp [within, shift, ledger, bare]

/-- A step on a transfer does the same whatever was done before. -/
theorem step_spec (ev : Ev) :
    (step ctx s ev).toTransfer = (step ctx (bare s.toTransfer) ev).toTransfer ∧
      (step ctx s ev).sent = s.sent ++ (step ctx (bare s.toTransfer) ev).sent := by
  cases ev with
  | packet e env =>
    rw [step, within_eq_shift, recv_shift]
    exact ⟨rfl, rfl⟩
  | tick env =>
    simp only [step]
    by_cases h : s.pending = 0
    · rw [if_pos h, if_pos (show (bare s.toTransfer).pending = 0 from h)]
      exact ⟨rfl, (List.append_nil _).symm⟩
    · rw [if_neg h, if_neg (show ¬ (bare s.toTransfer).pending = 0 from h), within_eq_shift, tftpTmr_shift]
      exact ⟨rfl, rfl⟩

/-! ## Strangers -/

variable {s}

/-- There is a transfer, to this peer. -/
def OpenTo (addr : Nat) (port : UInt16) (s : State φ H) : Prop := s.handle.isSome ∧ s.addr = addr ∧ s.port = port

/-- A tick, or a packet of this peer. -/
def own (addr : Nat) (port : UInt16) : Ev → Bool
  | .packet e _ => e.addr = addr ∧ e.port = port
  | .tick _ => true

/-- A datagram to this peer. -/
def sentTo (addr : Nat) (port : UInt16) (d : Datagram) : Bool := d.addr = addr ∧ d.port = port

variable {addr : Nat} {port : UInt16}

/-- While there is a transfer, a stranger gets an error, and that is all that happens. -/
theorem step_stranger (haddr : addr ≠ 0) (hport : port ≠ 0) (hs : OpenTo addr port s) {ev : Ev} (hev : own addr port ev = false) :
    (step ctx s ev).toTransfer = s.toTransfer ∧ (step ctx s ev).timeoutsLost = s.timeoutsLost ∧
      (step ctx s ev).sent.filter (sentTo addr port) = s.sent.filter (sentTo addr port) := by
  cases ev with
  | tick env => cases hev
  | packet e env =>
    simp only [own, decide_eq_false_iff_not] at hev
    have hforeign : Foreign (within env s).toTransfer e := by
      by_cases hp : e.port = port
      · refine Or.inr ⟨?_, fun ha => hev ⟨?_, hp⟩⟩
        · exact fun h0 => haddr (hs.2.1.symm.trans h0)
        · exact ha.symm.trans hs.2.1
      · refine Or.inl ⟨fun h0 => hport (hs.2.2.symm.trans h0), fun h0 => hp (h0.trans hs.2.2)⟩
    simp only [step, recv]
    rw [if_pos (show Foreign (pbufOp .got (within env s)).toTransfer e from hforeign)]
    obtain ⟨ht, ⟨ds, hds, hall⟩, -, -, hlost⟩ := sends_bytes e.addr e.port
      (errorBytes .accessViolation "Only one connection at a time is supported") (pbufOp .got (within env s))
    refine ⟨ht, hlost.1, ?_⟩
    have hnone : ds.filter (sentTo addr port) = [] := by
      rw [List.filter_eq_nil_iff]
      intro d hd
      rw [hall d hd]
      simpa [sentTo] using hev
    rw [show (pbufFree .packet (sendError e.addr e.port .accessViolation "Only one connection at a time is supported"
      (pbufOp .got (within env s)))).sent = s.sent ++ ds from hds, List.filter_append, hnone, List.append_nil]

/-- As long as the peer's own packets and the ticks keep the transfer open, the transfer and
    what the peer is sent are the same as without the packets of anyone else. -/
theorem strangers_unseen (haddr : addr ≠ 0) (hport : port ≠ 0) {es : List Ev}
    (hopen : Always (step ctx) (OpenTo addr port) s (es.filter (own addr port))) :
    (run (step ctx) s es).toTransfer = (run (step ctx) s (es.filter (own addr port))).toTransfer ∧
      (run (step ctx) s es).sent.filter (sentTo addr port) =
        (run (step ctx) s (es.filter (own addr port))).sent.filter (sentTo addr port) := by
  -- the two runs agree on the transfer and on what the peer was sent so far
  suffices h : ∀ (s' : State φ H), s'.toTransfer = s.toTransfer →
      s'.sent.filter (sentTo addr port) = s.sent.filter (sentTo addr port) →
      (run (step ctx) s' es).toTransfer = (run (step ctx) s (es.filter (own addr port))).toTransfer ∧
        (run (step ctx) s' es).sent.filter (sentTo addr port) =
          (run (step ctx) s (es.filter (own addr port))).sent.filter (sentTo addr port) from h s rfl rfl
  induction es generalizing s with
  | nil => exact fun s' ht hsent => ⟨ht, hsent⟩
  | cons ev es ih =>
    intro s' ht hsent
    have hnow : OpenTo addr port s := always_start _ hopen
    by_cases hev : own addr port ev = true
    · rw [List.filter_cons_of_pos hev] at hopen ⊢
      obtain ⟨ht1, hs1⟩ := step_spec ctx s ev
      obtain ⟨ht2, hs2⟩ := step_spec ctx s' ev
      refine ih hopen.2 _ ?_ ?_
      · rw [ht1, ht2, ht]
      · rw [hs1, hs2, ht, List.filter_append, List.filter_append, hsent]
    · rw [List.filter_cons_of_neg hev] at hopen ⊢
      have hopen' : OpenTo addr port s' := by
        unfold OpenTo
        rw [ht]
        exact hnow
      obtain ⟨ht1, -, hs1⟩ := step_stranger ctx haddr hport hopen' (Bool.not_eq_true _ ▸ hev)
      exact ih hopen _ (ht1.trans ht) (hs1.trans hsent)

/-- The state after the client's request. -/
def asked : State Ram UInt8 := step (tftpContext ram) (tftpInit (threeBytes 0)) (.packet askForA ⟨[], true⟩)

/-- Someone else asks for the file while it is sent to the client. -/
theorem asked_unseen :
    let stranger : Ev := .packet { askForA with addr := 8 } ⟨[], true⟩
    (run (step (tftpContext ram)) asked [stranger, .tick ⟨[], true⟩, stranger]).lastData = some [0, 3, 0, 1, 1, 2, 3] := by
  intro stranger
  have hopen : Always (step (tftpContext ram)) (OpenTo 7 1069) asked
      ([stranger, .tick ⟨[], true⟩, stranger].filter (own 7 1069)) :=
    ⟨⟨by decide +kernel, by decide +kernel, by decide +kernel⟩, by decide +kernel, by decide +kernel, by decide +kernel⟩
  have h := (strangers_unseen (tftpContext ram) (by decide) (by decide) hopen).1
  rw [h]
  decide +kernel

/-! ## Silence -/

def isTick : Ev → Bool
  | .packet _ _ => false
  | .tick _ => true

def retriesLeft (s : State φ H) : Nat := if s.lastData.isSome then TFTP_MAX_RETRIES.toNat - s.retries.toNat else 0

/-- The ticks a silent transfer lives on for, the one that closes it included. -/
def ticksLeft (s : State φ H) : Nat := 10 - (s.timer - s.lastPkt).toNat + retriesLeft s + 1

/-- The packets sent to the peer so far. -/
def sentCount (addr : Nat) (port : UInt16) (s : State φ H) : Nat := s.sent.countP (sentTo addr port)

theorem sentCount_resendData (addr : Nat) (port : UInt16) (s : State φ H) : sentCount addr port (resendData s) ≤ sentCount addr port s + 1 := by
  unfold resendData
  split
  next => omega
  next d _ =>
    unfold sendBytes
    rcases pbufAlloc_cases s with ⟨hok, mem, h⟩ | ⟨hfail, mem, -, h⟩
    · rw [hok, if_pos rfl, h]
      simp only [sentCount, pbufFree, pbufOp, udpSendto, List.countP_append, List.countP_singleton]
      split <;> omega
    · rw [hfail, if_neg (by decide), h]
      exact Nat.le_succ _

/-- The state in which `tftp_tmr` looks at the time, with `pending` timeouts set. -/
def ticked (pending lost : Nat) (s : State φ H) : State φ H :=
  { fire s with pending := pending, timeoutsLost := lost }

/-- What a tick does to a transfer: nothing, a retry, or its end. -/
theorem tftpTmr_cases (hopen : s.handle.isSome) : ∃ pending lost, (s.timeoutMem = true → lost = s.timeoutsLost) ∧
    (((s.timer + 1 - s.lastPkt).toInt ≤ TFTP_TIMEOUT_TICKS ∧ tftpTmr ctx s = ticked pending lost s) ∨
      ((s.timer + 1 - s.lastPkt).toInt > TFTP_TIMEOUT_TICKS ∧ s.lastData.isSome ∧ s.retries < TFTP_MAX_RETRIES ∧
        tftpTmr ctx s = retry (ticked pending lost s)) ∨
      ((s.timer + 1 - s.lastPkt).toInt > TFTP_TIMEOUT_TICKS ∧ tftpTmr ctx s = closeHandle ctx (ticked pending lost s))) := by
  obtain ⟨pending, lost, hlost, hset⟩ : ∃ pending lost, (s.timeoutMem = true → lost = s.timeoutsLost) ∧
      sysTimeout (fire s) = ticked pending lost s := by
    unfold sysTimeout
    split
    next => exact ⟨_, s.timeoutsLost, fun _ => rfl, rfl⟩
    next h => exact ⟨_, _, fun h0 => absurd h0 h, rfl⟩
  have hsome : (fire s).handle.isNone = false := Option.isNone_eq_false_iff.mpr hopen
  refine ⟨pending, lost, hlost, ?_⟩
  simp only [tftpTmr, hsome, Bool.false_eq_true, if_false, hset]
  split
  next hlate =>
    split
    next hretry => exact Or.inr (Or.inl ⟨hlate, hretry.1, hretry.2, rfl⟩)
    next => exact Or.inr (Or.inr ⟨hlate, rfl⟩)
  next hearly => exact Or.inl ⟨Int.not_lt.mp hearly, rfl⟩

/-- A tick closes the transfer, or it takes one from the ticks left; and a packet it sends
    is one retry. -/
theorem step_tick (hs : Sound false s) (hlost : s.timeoutsLost = 0) (hopen : OpenTo addr port s) {env : Env}
    (henv : env.timeoutMem = true) {s' : State φ H} (hs' : s' = step ctx s (.tick env)) :
    s'.timeoutsLost = 0 ∧
      ((s'.handle = none ∧ sentCount addr port s' = sentCount addr port s) ∨
        (OpenTo addr port s' ∧ ticksLeft s' + 1 ≤ ticksLeft s ∧
          sentCount addr port s' + s.retries.toNat ≤ sentCount addr port s + s'.retries.toNat)) := by
  have hpending : s.pending ≠ 0 := Nat.ne_of_gt (hs.ticking hlost hopen.1)
  obtain ⟨hticks, hint⟩ := (hs.quiet hopen.1).tick
  rw [step, if_neg hpending] at hs'
  obtain ⟨pending, lost, hl, hcases⟩ := tftpTmr_cases ctx (s := within env s) hopen.1
  have hzero : lost = 0 := (hl henv).trans hlost
  rcases hcases with ⟨hearly, h⟩ | ⟨hlate, hlast, hretries, h⟩ | ⟨hlate, h⟩
  · rw [hs', h]
    refine ⟨hzero, Or.inr ⟨hopen, ?_, Nat.le_refl _⟩⟩
    have hsame : retriesLeft (ticked pending lost (within env s)) = retriesLeft s := rfl
    have hleft : ticksLeft (ticked pending lost (within env s)) =
        10 - (s.timer + 1 - s.lastPkt).toNat + retriesLeft (ticked pending lost (within env s)) + 1 := rfl
    rw [show (within env s).timer + 1 - (within env s).lastPkt = s.timer + 1 - s.lastPkt from rfl, hint,
      TFTP_TIMEOUT_TICKS] at hearly
    rw [hleft, hsame, ticksLeft]
    omega
  · have hsends := sends_resendData (ticked pending lost (within env s))
    have hcount := sentCount_resendData addr port (ticked pending lost (within env s))
    have hlt : s.retries.toNat < 5 := UInt8.lt_iff_toNat_lt.mp hretries
    have hlast' : s.lastData.isSome = true := hlast
    have ht : s'.toTransfer = { (ticked pending lost (within env s)).toTransfer with retries := s.retries + 1 } := by
      rw [hs', h, ← hsends.transfer]
      rfl
    have hadd : s'.retries.toNat = s.retries.toNat + 1 := by
      rw [ht]
      exact (UInt8.toNat_add _ _).trans (Nat.mod_eq_of_lt (Nat.lt_of_le_of_lt (Nat.succ_le_of_lt hlt) (by decide)))
    have hsent : sentCount addr port s' ≤ sentCount addr port s + 1 := by
      rw [hs', h]
      exact hcount
    refine ⟨?_, Or.inr ⟨?_, ?_, by omega⟩⟩
    · rw [hs', h]
      exact hsends.timeouts.1.trans hzero
    · unfold OpenTo
      rw [ht]
      exact hopen
    · have htime : s'.timer - s'.lastPkt = s.timer + 1 - s.lastPkt := by rw [ht]; rfl
      have hleft : retriesLeft s' = 5 - s'.retries.toNat := by
        rw [retriesLeft, ht]
        exact if_pos hlast'
      have hleft' : retriesLeft s = 5 - s.retries.toNat := if_pos hlast'
      rw [ticksLeft, ticksLeft, htime, hleft, hleft']
      omega
  · rw [hs', h]
    exact ⟨hzero, Or.inl ⟨rfl, rfl⟩⟩

/-- While only ticks and strangers come, a run with enough ticks closes the transfer, and
    until then sends the peer no more packets than there are retries left. -/
theorem silent_run (haddr : addr ≠ 0) (hport : port ≠ 0) (hs : Sound false s) (hlost : s.timeoutsLost = 0) (hopen : OpenTo addr port s) {es : List Ev}
    (hsilent : ∀ ev ∈ es, (isTick ev = true ∨ own addr port ev = false) ∧ ev.env.timeoutMem = true)
    (hticks : ticksLeft s ≤ es.countP isTick) :
    ∃ p, p <+: es ∧ (run (step ctx) s p).handle = none ∧
      sentCount addr port (run (step ctx) s p) + s.retries.toNat ≤ sentCount addr port s + TFTP_MAX_RETRIES.toNat := by
  have hmax : s.retries.toNat ≤ TFTP_MAX_RETRIES.toNat := UInt8.le_iff_toNat_le.mp (hs.quiet hopen.1).retries
  induction es generalizing s with
  | nil => exact absurd hticks (by simp [ticksLeft])
  | cons ev es ih =>
    obtain ⟨hev, henv⟩ := hsilent ev List.mem_cons_self
    have hrest : ∀ ev' ∈ es, (isTick ev' = true ∨ own addr port ev' = false) ∧ ev'.env.timeoutMem = true :=
      fun ev' h' => hsilent ev' (List.mem_cons_of_mem _ h')
    have hs1 : Sound false (step ctx s ev) := step_sound ctx ev hs
    cases ev with
    | tick env =>
      have henv' : env.timeoutMem = true := henv
      obtain ⟨hl, hcases⟩ := step_tick ctx hs hlost hopen henv' rfl
      rw [List.countP_cons_of_pos rfl] at hticks
      rcases hcases with ⟨hnone, hcount⟩ | ⟨hopen', hleft, hcount⟩
      · exact ⟨[.tick env], List.cons_prefix_cons.mpr ⟨rfl, List.nil_prefix⟩, hnone, by rw [run_cons, run_nil]; omega⟩
      · have hmax' : (step ctx s (.tick env)).retries.toNat ≤ TFTP_MAX_RETRIES.toNat :=
          UInt8.le_iff_toNat_le.mp (hs1.quiet hopen'.1).retries
        obtain ⟨p, hp, hnone, hsent⟩ := ih hs1 hl hopen' hrest (by omega) hmax'
        exact ⟨.tick env :: p, List.cons_prefix_cons.mpr ⟨rfl, hp⟩, hnone, by rw [run_cons]; omega⟩
    | packet e env =>
      have hforeign : own addr port (.packet e env) = false := hev.resolve_left (by simp [isTick])
      obtain ⟨ht, hl, hsent⟩ := step_stranger ctx haddr hport hopen hforeign
      rw [List.countP_cons_of_neg (by simp [isTick])] at hticks
      have hopen' : OpenTo addr port (step ctx s (.packet e env)) := by
        unfold OpenTo
        rw [ht]
        exact hopen
      have hleft : ticksLeft (step ctx s (.packet e env)) = ticksLeft s := by
        rw [ticksLeft, retriesLeft, ht]
        rfl
      have hcount : sentCount addr port (step ctx s (.packet e env)) = sentCount addr port s := by
        rw [sentCount, sentCount, List.countP_eq_length_filter, List.countP_eq_length_filter, hsent]
      have hretries : (step ctx s (.packet e env)).retries = s.retries := by rw [ht]
      obtain ⟨p, hp, hnone, hsent'⟩ := ih hs1 (hl.trans hlost) hopen' hrest (by omega) (hretries ▸ hmax)
      refine ⟨.packet e env :: p, List.cons_prefix_cons.mpr ⟨rfl, hp⟩, hnone, ?_⟩
      rw [run_cons]
      rw [hcount, hretries] at hsent'
      exact hsent'

/-- From any point of any run in which no timeout was lost for want of memory: if a transfer is
    open a tick is pending; and if nothing more comes from its peer, then whatever anyone else
    sends it is closed by the 16th tick, and until then the peer is sent at most five packets. -/
theorem silent_transfer_ends (haddr : addr ≠ 0) (hport : port ≠ 0) (files : φ) {es₀ es : List Ev}
    (hlost : (run (step ctx) (tftpInit files) es₀).timeoutsLost = 0)
    (hopen : OpenTo addr port (run (step ctx) (tftpInit files) es₀))
    (hsilent : ∀ ev ∈ es, (isTick ev = true ∨ own addr port ev = false) ∧ ev.env.timeoutMem = true)
    (hticks : 16 ≤ es.countP isTick) :
    0 < (run (step ctx) (tftpInit files) es₀).pending ∧
      ∃ p, p <+: es ∧ (run (step ctx) (tftpInit files) (es₀ ++ p)).handle = none ∧
        sentCount addr port (run (step ctx) (tftpInit files) (es₀ ++ p)) ≤
          sentCount addr port (run (step ctx) (tftpInit files) es₀) + 5 := by
  have hs := run_sound ctx files es₀
  have hleft : ticksLeft (run (step ctx) (tftpInit files) es₀) ≤ 16 := by
    have hretries : retriesLeft (run (step ctx) (tftpInit files) es₀) ≤ 5 := by
      unfold retriesLeft
      split
      · exact Nat.sub_le _ _
      · exact Nat.zero_le _
    rw [ticksLeft]
    omega
  obtain ⟨p, hp, hnone, hsent⟩ := silent_run ctx haddr hport hs hlost hopen hsilent (Nat.le_trans hleft hticks)
  refine ⟨hs.ticking hlost hopen.1, p, hp, ?_, ?_⟩
  · rw [run_append]
    exact hnone
  · rw [run_append]
    have hmax : TFTP_MAX_RETRIES.toNat = 5 := rfl
    omega

theorem asked_ends :
    ∃ p, p <+: List.replicate 16 (Ev.tick ⟨[], true⟩) ∧
      (run (step (tftpContext ram)) (tftpInit (threeBytes 0)) ([.packet askForA ⟨[], true⟩] ++ p)).handle = none := by
  have hopen : OpenTo 7 1069 (run (step (tftpContext ram)) (tftpInit (threeBytes 0)) [.packet askForA ⟨[], true⟩]) :=
    ⟨by decide +kernel, by decide +kernel, by decide +kernel⟩
  have hsilent : ∀ ev ∈ List.replicate 16 (Ev.tick ⟨[], true⟩),
      (isTick ev = true ∨ own 7 1069 ev = false) ∧ ev.env.timeoutMem = true := by
    intro ev hev
    rw [(List.mem_replicate.mp hev).2]
    exact ⟨Or.inl rfl, rfl⟩
  obtain ⟨-, p, hp, hnone, -⟩ := silent_transfer_ends (tftpContext ram) (by decide) (by decide) (threeBytes 0)
    (by decide +kernel) hopen hsilent (by decide)
  exact ⟨p, hp, hnone⟩

end Nanotube.TftpServer
