/-
  Nanotube.Lwip.CyclicTimers.Model — are lwIP's own timers set? (src/lwIP/core/timeouts.c
  sys_timeouts_init, lwip_cyclic_timer, tcpip_tcp_timer, tcp_timer_needed, sys_timeout_abs,
  sys_untimeout, sys_check_timeouts; src/nanotube.c nt_init)

  The resolver, the ARP cache and the reassembly are driven by cyclic timers: a handler
  that sets itself again when it returns. `sys_check_timeouts` is taken apart here into its
  turns, because a handler runs inside one: time passes there, and other timeouts are set,
  before the timer is set again.

  `nt_init` sets the timers before `timer_init` puts the counter back to 0, so their first
  due times are counted from what the counter showed before (`ntInit`).

  `memp_malloc` may fail where a timeout is set; assertions are off, so the timeout is then
  just not set. The handlers this happened to are noted in `lost`.

  Proved: a cyclic timer is always set exactly once, and the TCP timer exactly while its
  flag says so, or it was lost; this also holds if a connection is registered from inside
  `tcp_tmr` (`set_once`). What is needed of the due times is in the invariant (`Timely`):
  each call moves the due time on by an interval at least, and it is never more than an
  interval ahead.
-/

import Nanotube.Lwip.Timeouts

namespace Nanotube.Lwip.CyclicTimers

open Nanotube.Lib.Runs
open Nanotube.Lib.Timers (Sorted insert_perm insert_sorted)
open Nanotube.Lwip.Timeouts (SysTimeo sysNow timeLessThan LAP MAX_DELAY sysNow_toNat timeLessThan_iff)

/-- The intervals in `lwip_cyclic_timers`: `tcp_tmr`, `ip_reass_tmr`, `etharp_tmr`,
    `dns_tmr`. -/
def lwipCyclicTimers : List UInt32 := [250, 1000, 1000, 1000]

def intervalMs (i : Nat) : UInt32 := lwipCyclicTimers.getD i 0

/-- Handlers are numbered by their places in `lwip_cyclic_timers`, all others from its
    length on. The first is started on demand. -/
def TCP_TIMER : Nat := 0

def Cyclic (i : Nat) : Prop := 0 < i ∧ i < lwipCyclicTimers.length

instance (i : Nat) : Decidable (Cyclic i) := inferInstanceAs (Decidable (_ ∧ _))

def other (k : Nat) : Nat := lwipCyclicTimers.length + k

/-- Where `sys_check_timeouts` is: not running, in its loop, or in a handler. -/
inductive Phase where
  | idle
  | looping (now : UInt32)
  | inside (now : UInt32) (tmptimeout : SysTimeo)
  deriving DecidableEq, Repr

structure St where
  ticks : Nat
  nextTimeout : List SysTimeo
  tcpipTcpTimerActive : Bool
  phase : Phase
  /-- The handlers called so far. -/
  called : List Nat
  /-- The handlers there was no memory for. -/
  lost : List Nat
  deriving DecidableEq, Repr

/-- The units of 32 ticks that have gone by. -/
def St.n (s : St) : Nat := s.ticks / 32

def St.calls (s : St) (i : Nat) : Nat := s.called.count i

/-- `sys_untimeout`. -/
def sysUntimeout (handler : Nat) (nextTimeout : List SysTimeo) : List SysTimeo :=
  nextTimeout.eraseP (·.handler == handler)

/-- `sys_timeout_abs`; `mem` is what `memp_malloc` answers. -/
def sysTimeoutAbs (mem : Bool) (timeout : SysTimeo) (s : St) : St :=
  if mem then { s with nextTimeout := Timeouts.sysTimeoutAbs timeout s.nextTimeout }
  else { s with lost := timeout.handler :: s.lost }

def sysTimeout (mem : Bool) (msecs : UInt32) (handler : Nat) (s : St) : St :=
  sysTimeoutAbs mem ⟨sysNow s.ticks + msecs, handler⟩ s

/-- `lwip_cyclic_timer` behind the call of its handler; the time of `t` is
    `current_timeout_due_time`. -/
def lwipCyclicTimer (mem : Bool) (t : SysTimeo) (s : St) : St :=
  let now := sysNow s.ticks
  let nextTimeoutTime := t.time + intervalMs t.handler
  if timeLessThan nextTimeoutTime now then sysTimeoutAbs mem ⟨now + intervalMs t.handler, t.handler⟩ s
  else sysTimeoutAbs mem ⟨nextTimeoutTime, t.handler⟩ s

/-- `tcpip_tcp_timer` behind the call of `tcp_tmr`. -/
def tcpipTcpTimer (mem pcbs : Bool) (s : St) : St :=
  if pcbs then sysTimeout mem (intervalMs TCP_TIMER) TCP_TIMER s else { s with tcpipTcpTimerActive := false }

/-- `pcbs`: whether there are active connections, or such in TIME_WAIT. -/
def tcpTimerNeeded (mem pcbs : Bool) (s : St) : St :=
  if !s.tcpipTcpTimerActive && pcbs then
    sysTimeout mem (intervalMs TCP_TIMER) TCP_TIMER { s with tcpipTcpTimerActive := true }
  else s

/-- One turn of the loop in `sys_check_timeouts`, up to the call. -/
def turn (now : UInt32) (s : St) : St :=
  match s.nextTimeout with
  | [] => { s with phase := .idle }
  | tmptimeout :: next =>
    if timeLessThan now tmptimeout.time then { s with phase := .idle }
    else
      { s with nextTimeout := next, phase := .inside now tmptimeout, called := tmptimeout.handler :: s.called }

/-- What the handler does last. -/
def finish (t : SysTimeo) (mem pcbs : Bool) (s : St) : St :=
  if t.handler = TCP_TIMER then tcpipTcpTimer mem pcbs s
  else if Cyclic t.handler then lwipCyclicTimer mem t s
  else s

inductive Ev where
  | pass (ticks : Nat)
  /-- `sys_timeout` and `sys_untimeout` from outside of timeouts.c. -/
  | timeout (mem : Bool) (k : Nat) (msecs : UInt32)
  | untimeout (k : Nat)
  | tcpTimerNeeded (mem pcbs : Bool)
  /-- `sys_check_timeouts` is called; it goes round its loop; the handler returns. -/
  | check
  | turn
  | returned (mem pcbs : Bool)
  deriving DecidableEq, Repr

def step (s : St) : Ev → St
  | .pass ticks => { s with ticks := s.ticks + ticks }
  | .timeout mem k msecs => sysTimeout mem msecs (other k) s
  | .untimeout k => { s with nextTimeout := sysUntimeout (other k) s.nextTimeout }
  | .tcpTimerNeeded mem pcbs => tcpTimerNeeded mem pcbs s
  | .check =>
    match s.phase with
    | .idle => { s with phase := .looping (sysNow s.ticks) }
    | _ => s
  | .turn =>
    match s.phase with
    | .looping now => turn now s
    | _ => s
  | .returned mem pcbs =>
    match s.phase with
    | .inside now t => { finish t mem pcbs s with phase := .looping now }
    | _ => s

def Ev.Allowed : Ev → Prop
  | .timeout _ _ msecs => msecs.toNat ≤ MAX_DELAY
  | _ => True

instance (e : Ev) : Decidable e.Allowed :=
  match e with
  | .timeout _ _ msecs => inferInstanceAs (Decidable (msecs.toNat ≤ MAX_DELAY))
  | .pass _ | .untimeout _ | .tcpTimerNeeded _ _ | .check | .turn | .returned _ _ => .isTrue trivial

/-- `sys_timeouts_init`: all but the TCP timer are set. -/
def sysTimeoutsInit (mem : Nat → Bool) (s : St) : St :=
  (List.range' 1 (lwipCyclicTimers.length - 1)).foldl (fun s i => sysTimeout (mem i) (intervalMs i) i s) s

/-- `nt_init`, with the counter at `before`: `lwip_init` comes before `timer_init`. Each
    `sys_timeout` reads the counter for itself; here the three read one value, as if it
    stood still while `sys_timeouts_init` runs. -/
def ntInit (before : Nat) (mem : Nat → Bool) : St :=
  { sysTimeoutsInit mem ⟨before, [], false, .idle, [], []⟩ with ticks := 0 }

/-! ## One entry more -/

theorem intervalMs_le (i : Nat) : (intervalMs i).toNat ≤ 1000 := by
  rcases i with _ | _ | _ | _ | i <;> simp [intervalMs, lwipCyclicTimers]

theorem intervalMs_of_cyclic {i : Nat} (h : Cyclic i) : (intervalMs i).toNat = 1000 := by
  obtain ⟨hpos, hlt⟩ := h
  have hlt : i < 4 := hlt
  obtain rfl | rfl | rfl : i = 1 ∨ i = 2 ∨ i = 3 := by omega
  all_goals rfl

theorem sysNow_lt (ticks : Nat) : (sysNow ticks).toNat < LAP := by
  rw [sysNow_toNat]
  exact Nat.mod_lt _ (by decide)

theorem sysNow_le (ticks : Nat) : (sysNow ticks).toNat ≤ ticks / 32 := by
  rw [sysNow_toNat]
  exact Nat.mod_le _ _

/-- Due times are below 2^31. -/
def Short (x : SysTimeo) : Prop := x.time.toNat < LAP + MAX_DELAY

theorem Short.lt {x : SysTimeo} (h : Short x) : x.time.toNat < 0x80000000 := by
  unfold Short LAP MAX_DELAY at h
  omega

theorem toNat_add_of_lt {a b : UInt32} (ha : a.toNat < LAP) (hb : b.toNat ≤ MAX_DELAY) :
    (a + b).toNat = a.toNat + b.toNat := by
  unfold LAP at ha
  unfold MAX_DELAY at hb
  rw [UInt32.toNat_add]
  omega

theorem short_add {a b : UInt32} (ha : a.toNat < LAP) (hb : b.toNat ≤ MAX_DELAY) (i : Nat) : Short ⟨a + b, i⟩ := by
  unfold Short
  rw [toNat_add_of_lt ha hb]
  omega

/-- The list is in order. -/
def Good (l : List SysTimeo) : Prop := (∀ x ∈ l, Short x) ∧ Sorted (·.time.toNat) l

theorem Good.sublist {l l' : List SysTimeo} (h : Good l) (hsub : l'.Sublist l) : Good l' :=
  ⟨fun x hx => h.1 x (hsub.subset hx), h.2.sublist hsub⟩

theorem insertion_perm (x : SysTimeo) (l : List SysTimeo) : (Timeouts.sysTimeoutAbs x l).Perm (x :: l) := insert_perm _ x l

theorem mem_insertion {x y : SysTimeo} {l : List SysTimeo} (h : x ∈ Timeouts.sysTimeoutAbs y l) : x = y ∨ x ∈ l :=
  List.mem_cons.mp ((insertion_perm y l).mem_iff.mp h)

theorem good_insertion {x : SysTimeo} {l : List SysTimeo} (hx : Short x) (h : Good l) : Good (Timeouts.sysTimeoutAbs x l) := by
  obtain ⟨hshort, hsorted⟩ := h
  constructor
  · intro y hy
    rcases mem_insertion hy with rfl | hy
    · exact hx
    · exact hshort y hy
  · exact insert_sorted (fun t : SysTimeo => t.time.toNat) (fun y hy => timeLessThan_iff hx.lt (hshort y hy).lt) hsorted

/-- How often a handler is set. -/
def times (l : List SysTimeo) (i : Nat) : Nat := (l.map (·.handler)).count i

theorem times_cons (x : SysTimeo) (l : List SysTimeo) (i : Nat) :
    times (x :: l) i = times l i + if x.handler = i then 1 else 0 := by
  rw [times, List.map_cons, List.count_cons]
  simp only [beq_iff_eq, times]

theorem times_insertion (x : SysTimeo) (l : List SysTimeo) (i : Nat) :
    times (Timeouts.sysTimeoutAbs x l) i = times l i + if x.handler = i then 1 else 0 := by
  rw [times, ((insertion_perm x l).map _).count_eq, ← times, times_cons]

theorem times_append (l l' : List SysTimeo) (i : Nat) : times (l ++ l') i = times l i + times l' i := by
  rw [times, List.map_append, List.count_append, times, times]

theorem times_sysUntimeout {h i : Nat} (hne : h ≠ i) (l : List SysTimeo) : times (sysUntimeout h l) i = times l i := by
  induction l with
  | nil => rfl
  | cons x l ih =>
    by_cases hx : x.handler = h
    · rw [sysUntimeout, List.eraseP_cons_of_pos (by simpa using hx), times_cons, if_neg (by rw [hx]; exact hne), Nat.add_zero]
    · rw [sysUntimeout, List.eraseP_cons_of_neg (by simpa using hx), times_cons, times_cons, ← sysUntimeout, ih]

theorem times_pos {l : List SysTimeo} {x : SysTimeo} (h : x ∈ l) : 0 < times l x.handler :=
  List.count_pos_iff.mpr (List.mem_map_of_mem h)

theorem exists_of_times_pos {l : List SysTimeo} {i : Nat} (h : 0 < times l i) : ∃ x ∈ l, x.handler = i :=
  List.mem_map.mp (List.count_pos_iff.mp h)

/-! ## The invariant -/

def Phase.Ok (n : Nat) : Phase → Prop
  | .idle => True
  | .looping now => now.toNat < LAP ∧ now.toNat ≤ n
  | .inside now t => (now.toNat < LAP ∧ now.toNat ≤ n) ∧ t.time.toNat ≤ now.toNat

/-- The timeout that is off the list while its handler runs. -/
def Phase.running : Phase → List SysTimeo
  | .inside _ t => [t]
  | _ => []

def St.entries (s : St) : List SysTimeo := s.phase.running ++ s.nextTimeout

/-- How often a handler is set or was lost. -/
def St.kept (s : St) (i : Nat) : Nat := times s.entries i + s.lost.count i

/-- The `k`th call of a timer, counted from 1, is due `k` intervals after `b` or later, and
    never more than an interval from now. -/
structure Timely (b : Nat) (s : St) : Prop where
  good : Good s.nextTimeout
  phase : s.phase.Ok s.n
  spaced : ∀ x ∈ s.nextTimeout, Cyclic x.handler →
    b + (s.calls x.handler + 1) * (intervalMs x.handler).toNat ≤ x.time.toNat
  ran : ∀ x ∈ s.phase.running, Cyclic x.handler → b + s.calls x.handler * (intervalMs x.handler).toNat ≤ x.time.toNat
  spent : ∀ i, Cyclic i → s.calls i = 0 ∨
    b + s.calls i * (intervalMs i).toNat < LAP ∧ b + s.calls i * (intervalMs i).toNat ≤ s.n
  soon : ∀ x ∈ s.nextTimeout, Cyclic x.handler → x.time.toNat ≤ max b s.n + (intervalMs x.handler).toNat

structure Inv (b : Nat) (s : St) : Prop extends Timely b s where
  cyclic : ∀ i, Cyclic i → s.kept i = 1
  tcp : s.kept TCP_TIMER = if s.tcpipTcpTimerActive then 1 else 0

variable {b : Nat} {s : St}

theorem kept_sysTimeoutAbs (mem : Bool) (x : SysTimeo) (s : St) (i : Nat) :
    (sysTimeoutAbs mem x s).kept i = s.kept i + if x.handler = i then 1 else 0 := by
  cases mem with
  | true =>
    have htimes := times_insertion x s.nextTimeout i
    show times (s.phase.running ++ Timeouts.sysTimeoutAbs x s.nextTimeout) i + s.lost.count i = _
    rw [St.kept, St.entries, times_append, times_append, htimes]
    omega
  | false =>
    show times s.entries i + (x.handler :: s.lost).count i = _
    rw [St.kept, List.count_cons]
    simp only [beq_iff_eq]
    omega

theorem timely_sysTimeoutAbs (h : Timely b s) (mem : Bool) {x : SysTimeo} (hx : Short x)
    (hspaced : Cyclic x.handler → b + (s.calls x.handler + 1) * (intervalMs x.handler).toNat ≤ x.time.toNat)
    (hsoon : Cyclic x.handler → x.time.toNat ≤ max b s.n + (intervalMs x.handler).toNat) :
    Timely b (sysTimeoutAbs mem x s) := by
  cases mem with
  | false => exact ⟨h.good, h.phase, h.spaced, h.ran, h.spent, h.soon⟩
  | true =>
    refine ⟨good_insertion hx h.good, h.phase, fun y hy => ?_, h.ran, h.spent, fun y hy => ?_⟩
    · rcases mem_insertion hy with rfl | hy
      · exact hspaced
      · exact h.spaced y hy
    · rcases mem_insertion hy with rfl | hy
      · exact hsoon
      · exact h.soon y hy

theorem not_cyclic_other (k : Nat) : ¬ Cyclic (other k) := by
  intro h
  have hlt := h.2
  unfold other at hlt
  omega

theorem not_cyclic_tcp : ¬ Cyclic TCP_TIMER := by decide

theorem other_ne_tcp (k : Nat) : other k ≠ TCP_TIMER := by
  show 4 + k ≠ 0
  omega

/-- A timeout that is not a cyclic one. -/
theorem timely_sysTimeout (h : Timely b s) (mem : Bool) {msecs : UInt32} (hd : msecs.toNat ≤ MAX_DELAY) {handler : Nat}
    (hc : ¬ Cyclic handler) : Timely b (sysTimeout mem msecs handler s) :=
  timely_sysTimeoutAbs h mem (short_add (sysNow_lt s.ticks) hd handler) (fun h0 => absurd h0 hc) fun h0 => absurd h0 hc

theorem active_sysTimeoutAbs (mem : Bool) (x : SysTimeo) (s : St) :
    (sysTimeoutAbs mem x s).tcpipTcpTimerActive = s.tcpipTcpTimerActive := by
  cases mem <;> rfl

/-! ## What each event keeps -/

theorem pass_inv (h : Inv b s) (ticks : Nat) : Inv b (step s (.pass ticks)) := by
  have hn : s.n ≤ (step s (.pass ticks)).n := Nat.div_le_div_right (Nat.le_add_right ..)
  refine ⟨⟨h.good, ?_, h.spaced, h.ran, fun i hi => ?_, fun x hx hc => ?_⟩, h.cyclic, h.tcp⟩
  · have hphase := h.phase
    show s.phase.Ok _
    revert hphase
    cases s.phase with
    | idle => exact id
    | looping now => exact fun h0 => ⟨h0.1, Nat.le_trans h0.2 hn⟩
    | inside now t => exact fun h0 => ⟨⟨h0.1.1, Nat.le_trans h0.1.2 hn⟩, h0.2⟩
  · exact (h.spent i hi).imp_right fun h0 => ⟨h0.1, Nat.le_trans h0.2 hn⟩
  · have hsoon := h.soon x hx hc
    omega

theorem timeout_inv (h : Inv b s) (mem : Bool) (k : Nat) {msecs : UInt32} (hd : msecs.toNat ≤ MAX_DELAY) :
    Inv b (step s (.timeout mem k msecs)) := by
  refine ⟨timely_sysTimeout h.toTimely mem hd (not_cyclic_other k), fun i hi => ?_, ?_⟩
  · have hne : other k ≠ i := fun h0 => not_cyclic_other k (h0 ▸ hi)
    rw [step, sysTimeout, kept_sysTimeoutAbs, if_neg hne]
    exact h.cyclic i hi
  · rw [step, sysTimeout, kept_sysTimeoutAbs, active_sysTimeoutAbs, if_neg (other_ne_tcp k)]
    exact h.tcp

theorem untimeout_inv (h : Inv b s) (k : Nat) : Inv b (step s (.untimeout k)) := by
  have hsub : (sysUntimeout (other k) s.nextTimeout).Sublist s.nextTimeout := List.eraseP_sublist
  have hkept : ∀ i, other k ≠ i → (step s (.untimeout k)).kept i = s.kept i := by
    intro i hne
    show times (s.phase.running ++ sysUntimeout (other k) s.nextTimeout) i + s.lost.count i = _
    rw [times_append, times_sysUntimeout hne, ← times_append]
    rfl
  refine ⟨⟨h.good.sublist hsub, h.phase, fun x hx => h.spaced x (hsub.subset hx), h.ran, h.spent,
    fun x hx => h.soon x (hsub.subset hx)⟩, fun i hi => ?_, ?_⟩
  · rw [hkept i fun h0 => not_cyclic_other k (h0 ▸ hi)]
    exact h.cyclic i hi
  · rw [hkept TCP_TIMER (other_ne_tcp k)]
    exact h.tcp

theorem tcpTimerNeeded_inv (h : Inv b s) (mem pcbs : Bool) : Inv b (step s (.tcpTimerNeeded mem pcbs)) := by
  rw [step, tcpTimerNeeded]
  split
  · next hoff =>
    have hactive : s.tcpipTcpTimerActive = false := by
      simp only [Bool.and_eq_true, Bool.not_eq_true'] at hoff
      exact hoff.1
    have htcp := h.tcp
    rw [hactive] at htcp
    have hon : Timely b { s with tcpipTcpTimerActive := true } := ⟨h.good, h.phase, h.spaced, h.ran, h.spent, h.soon⟩
    refine ⟨timely_sysTimeout hon mem (by decide) not_cyclic_tcp, fun i hi => ?_, ?_⟩
    · have hne : TCP_TIMER ≠ i := fun h0 => not_cyclic_tcp (h0 ▸ hi)
      rw [sysTimeout, kept_sysTimeoutAbs, if_neg hne]
      exact h.cyclic i hi
    · rw [sysTimeout, kept_sysTimeoutAbs, active_sysTimeoutAbs, if_pos rfl, if_pos rfl]
      exact congrArg (· + 1) htcp
  · exact h

theorem check_inv (h : Inv b s) : Inv b (step s .check) := by
  rw [step]
  split
  · next hidle =>
    have hkept : St.kept { s with phase := .looping (sysNow s.ticks) } = s.kept := by
      funext i
      rw [St.kept, St.kept, St.entries, St.entries, hidle]
      rfl
    refine ⟨⟨h.good, ⟨sysNow_lt s.ticks, sysNow_le s.ticks⟩, h.spaced, nofun, h.spent, h.soon⟩, ?_, ?_⟩
    · rw [hkept]
      exact h.cyclic
    · rw [hkept]
      exact h.tcp
  · exact h

/-- The loop ends. -/
theorem idle_inv (h : Inv b s) {now : UInt32} (hphase : s.phase = .looping now) : Inv b { s with phase := .idle } := by
  have hkept : St.kept { s with phase := .idle } = s.kept := by
    funext i
    rw [St.kept, St.kept, St.entries, St.entries, hphase]
    rfl
  refine ⟨⟨h.good, trivial, h.spaced, nofun, h.spent, h.soon⟩, ?_, ?_⟩
  · rw [hkept]
    exact h.cyclic
  · rw [hkept]
    exact h.tcp

/-- The loop calls the handler of the first entry. -/
def call (s : St) (now : UInt32) (t : SysTimeo) (next : List SysTimeo) : St :=
  { s with nextTimeout := next, phase := .inside now t, called := t.handler :: s.called }

theorem calls_call (s : St) (now : UInt32) (t : SysTimeo) (next : List SysTimeo) (i : Nat) :
    (call s now t next).calls i = s.calls i + if t.handler = i then 1 else 0 := by
  rw [St.calls, call, List.count_cons, St.calls]
  simp only [beq_iff_eq]

theorem Inv.now_ok (h : Inv b s) {now : UInt32} (hphase : s.phase = .looping now) : now.toNat < LAP ∧ now.toNat ≤ s.n := by
  have hok := h.phase
  rw [hphase] at hok
  exact hok

theorem call_inv (h : Inv b s) {now : UInt32} (hphase : s.phase = .looping now) {t : SysTimeo} {next : List SysTimeo}
    (hlist : s.nextTimeout = t :: next) (hdue : t.time.toNat ≤ now.toNat) : Inv b (call s now t next) := by
  have hnow := h.now_ok hphase
  have hentries : s.entries = t :: next := by rw [St.entries, hphase, hlist]; rfl
  have hkept : (call s now t next).kept = s.kept := by
    funext i
    rw [St.kept, St.kept, hentries]
    rfl
  have ht : t ∈ s.nextTimeout := by
    rw [hlist]
    exact List.mem_cons_self
  have hsub : next.Sublist s.nextTimeout := by
    rw [hlist]
    exact List.sublist_cons_self t next
  -- the entry of a cyclic timer is its only one
  have hother : ∀ x ∈ next, Cyclic x.handler → t.handler ≠ x.handler := by
    intro x hx hc heq
    have hone := h.cyclic x.handler hc
    rw [St.kept, hentries, times_cons, if_pos heq] at hone
    have := times_pos hx
    omega
  refine ⟨⟨h.good.sublist hsub, ⟨hnow, hdue⟩, fun x hx hc => ?_, fun x hx hc => ?_, fun i hi => ?_,
    fun x hx => h.soon x (hsub.subset hx)⟩, ?_, ?_⟩
  · rw [calls_call, if_neg (hother x hx hc)]
    exact h.spaced x (hsub.subset hx) hc
  · obtain rfl : x = t := List.mem_singleton.mp hx
    rw [calls_call, if_pos rfl]
    exact h.spaced x ht hc
  · rw [calls_call]
    split
    · next heq =>
      subst heq
      have hspaced := h.spaced t ht hi
      right
      show _ ∧ _ ≤ s.n
      omega
    · exact h.spent i hi
  · rw [hkept]
    exact h.cyclic
  · rw [hkept]
    exact h.tcp

/-- What a turn does: it ends the loop, as nothing is due, or it calls a handler. -/
theorem turn_cases (h : Inv b s) {now : UInt32} (hphase : s.phase = .looping now) :
    (step s .turn = { s with phase := .idle } ∧ ∀ x ∈ s.nextTimeout, now.toNat < x.time.toNat) ∨
      ∃ t next, s.nextTimeout = t :: next ∧ t.time.toNat ≤ now.toNat ∧ step s .turn = call s now t next := by
  have hnow : now.toNat < 0x80000000 := by
    have hlt := (h.now_ok hphase).1
    unfold LAP at hlt
    omega
  have hstep : step s .turn = turn now s := by rw [step, hphase]
  rw [hstep, turn]
  cases hlist : s.nextTimeout with
  | nil => exact Or.inl ⟨rfl, nofun⟩
  | cons t next =>
    obtain ⟨hshort, hsorted⟩ := h.good
    rw [hlist] at hshort hsorted
    have hiff := timeLessThan_iff hnow (hshort t List.mem_cons_self).lt
    dsimp only
    split
    · next hearly =>
      refine Or.inl ⟨rfl, fun x hx => ?_⟩
      have hlt := hiff.mp hearly
      rcases List.mem_cons.mp hx with rfl | hx
      · exact hlt
      · exact Nat.lt_of_lt_of_le hlt ((List.pairwise_cons.mp hsorted).1 x hx)
    · next hlate => exact Or.inr ⟨t, next, rfl, Nat.le_of_not_lt fun hlt => hlate (hiff.mpr hlt), rfl⟩

theorem turn_outside (h : ∀ now, s.phase ≠ .looping now) : step s .turn = s := by
  rw [step]
  split
  · next now hphase => exact absurd hphase (h now)
  · rfl

theorem turn_inv (h : Inv b s) : Inv b (step s .turn) := by
  cases hphase : s.phase with
  | looping now =>
    rcases turn_cases h hphase with ⟨heq, _⟩ | ⟨t, next, hlist, hdue, heq⟩
    · rw [heq]
      exact idle_inv h hphase
    · rw [heq]
      exact call_inv h hphase hlist hdue
  | idle | inside =>
    rw [turn_outside (by rw [hphase]; nofun)]
    exact h

/-- The due time `lwip_cyclic_timer` takes: an interval later, or an interval from now if
    that is over already. -/
theorem lwipCyclicTimer_eq {t : SysTimeo} (ht : t.time.toNat < LAP) (mem : Bool) (s : St) :
    ∃ x, lwipCyclicTimer mem t s = sysTimeoutAbs mem x s ∧ x.handler = t.handler ∧ Short x ∧
      t.time.toNat + (intervalMs t.handler).toNat ≤ x.time.toNat ∧ (sysNow s.ticks).toNat ≤ x.time.toNat ∧
      x.time.toNat ≤ max t.time.toNat s.n + (intervalMs t.handler).toNat := by
  have hint : (intervalMs t.handler).toNat ≤ MAX_DELAY := Nat.le_trans (intervalMs_le _) (by decide)
  have hnow := sysNow_lt s.ticks
  have hle : (sysNow s.ticks).toNat ≤ s.n := sysNow_le s.ticks
  have hnext := toNat_add_of_lt ht hint
  have hfrom := toNat_add_of_lt hnow hint
  have hiff : timeLessThan (t.time + intervalMs t.handler) (sysNow s.ticks) = true ↔ _ :=
    timeLessThan_iff (short_add ht hint t.handler).lt (by unfold LAP at hnow; omega)
  rw [lwipCyclicTimer]
  split
  · next hover =>
    have hlt := hiff.mp hover
    refine ⟨_, rfl, rfl, short_add hnow hint _, ?_⟩
    dsimp only
    omega
  · next hahead =>
    have hge := Nat.le_of_not_lt fun hlt => hahead (hiff.mpr hlt)
    refine ⟨_, rfl, rfl, short_add ht hint _, ?_⟩
    dsimp only
    omega

/-- The state behind the call, before the timer is set again. -/
def back (s : St) (now : UInt32) : St := { s with phase := .looping now }

theorem returned_eq {now : UInt32} {t : SysTimeo} (hphase : s.phase = .inside now t) (mem pcbs : Bool) :
    step s (.returned mem pcbs) = finish t mem pcbs (back s now) := by
  rw [step, hphase]
  dsimp only
  rw [finish, finish]
  split
  · cases pcbs <;> cases mem <;> rfl
  · split
    · rw [lwipCyclicTimer, lwipCyclicTimer]
      show _ = if timeLessThan (t.time + intervalMs t.handler) (sysNow s.ticks) then _ else _
      split <;> cases mem <;> rfl
    · rfl

theorem returned_outside (h : ∀ now t, s.phase ≠ .inside now t) (mem pcbs : Bool) : step s (.returned mem pcbs) = s := by
  rw [step]
  split
  · next now t hphase => exact absurd hphase (h now t)
  · rfl

theorem tcpipTcpTimer_inv (hback : Timely b s) (hcyclic : ∀ i, Cyclic i → s.kept i = 1)
    (htcp : s.kept TCP_TIMER + 1 = if s.tcpipTcpTimerActive then 1 else 0) (mem pcbs : Bool) :
    Inv b (tcpipTcpTimer mem pcbs s) := by
  -- the timer ran, so it was on
  have hactive : s.tcpipTcpTimerActive = true := by
    by_contra hoff
    rw [if_neg hoff] at htcp
    omega
  rw [hactive, if_pos rfl] at htcp
  cases pcbs with
  | true =>
    rw [tcpipTcpTimer, if_pos rfl]
    refine ⟨timely_sysTimeout hback mem (by decide) not_cyclic_tcp, fun i hi => ?_, ?_⟩
    · have hne : TCP_TIMER ≠ i := fun h0 => not_cyclic_tcp (h0 ▸ hi)
      rw [sysTimeout, kept_sysTimeoutAbs, if_neg hne]
      exact hcyclic i hi
    · rw [sysTimeout, kept_sysTimeoutAbs, active_sysTimeoutAbs, hactive, if_pos rfl, if_pos rfl]
      exact htcp
  | false =>
    refine ⟨⟨hback.good, hback.phase, hback.spaced, hback.ran, hback.spent, hback.soon⟩, hcyclic, ?_⟩
    show s.kept TCP_TIMER = 0
    omega

theorem returned_inv (h : Inv b s) (mem pcbs : Bool) : Inv b (step s (.returned mem pcbs)) := by
  cases hphase : s.phase with
  | idle | looping =>
    rw [returned_outside (by rw [hphase]; nofun)]
    exact h
  | inside now t =>
    have hok := h.phase
    have hran := h.ran t
    have hkept : ∀ i, s.kept i = (back s now).kept i + if t.handler = i then 1 else 0 := by
      intro i
      have htimes := times_cons t s.nextTimeout i
      rw [St.kept, St.entries, hphase]
      show times (t :: s.nextTimeout) i + s.lost.count i = times s.nextTimeout i + s.lost.count i + _
      omega
    rw [hphase] at hok hran
    obtain ⟨hnow, hdue⟩ := hok
    have hback : Timely b (back s now) := ⟨h.good, hnow, h.spaced, nofun, h.spent, h.soon⟩
    have hcyclic : ∀ i, Cyclic i → (back s now).kept i + (if t.handler = i then 1 else 0) = 1 :=
      fun i hi => (hkept i).symm.trans (h.cyclic i hi)
    have hothers : ¬ Cyclic t.handler → ∀ i, Cyclic i → (back s now).kept i = 1 := by
      intro hc i hi
      have hone := hcyclic i hi
      have hne : t.handler ≠ i := fun h0 => hc (h0 ▸ hi)
      rwa [if_neg hne] at hone
    have htcp := (hkept TCP_TIMER).symm.trans h.tcp
    rw [returned_eq hphase, finish]
    split
    · next hh =>
      rw [if_pos hh] at htcp
      exact tcpipTcpTimer_inv hback (hothers (hh ▸ not_cyclic_tcp)) htcp mem pcbs
    · next hne =>
      rw [if_neg hne] at htcp
      split
      · next hc =>
        obtain ⟨x, heq, hx, hshort, hlow, _, hhigh⟩ :=
          lwipCyclicTimer_eq (Nat.lt_of_le_of_lt hdue hnow.1) mem (back s now)
        have hran := hran (List.mem_singleton_self t) hc
        have hn : (back s now).n = s.n := rfl
        rw [heq]
        refine ⟨timely_sysTimeoutAbs hback mem hshort (fun _ => ?_) fun _ => ?_, fun i hi => ?_, ?_⟩
        · rw [hx, Nat.add_one_mul]
          show b + (s.calls t.handler * _ + _) ≤ _
          omega
        · rw [hx]
          omega
        · rw [kept_sysTimeoutAbs, hx]
          exact hcyclic i hi
        · rw [kept_sysTimeoutAbs, active_sysTimeoutAbs, hx, if_neg hne]
          exact htcp
      · next hc => exact ⟨hback, hothers hc, htcp⟩

theorem step_inv (h : Inv b s) (e : Ev) (he : e.Allowed) : Inv b (step s e) := by
  cases e with
  | pass ticks => exact pass_inv h ticks
  | timeout mem k msecs => exact timeout_inv h mem k he
  | untimeout k => exact untimeout_inv h k
  | tcpTimerNeeded mem pcbs => exact tcpTimerNeeded_inv h mem pcbs
  | check => exact check_inv h
  | turn => exact turn_inv h
  | returned mem pcbs => exact returned_inv h mem pcbs

/-- The timers are set one by one, by what the counter showed before it was put to 0. -/
theorem ntInit_eq (before : Nat) (mem : Nat → Bool) : ntInit before mem =
    sysTimeoutAbs (mem 3) ⟨sysNow before + 1000, 3⟩ (sysTimeoutAbs (mem 2) ⟨sysNow before + 1000, 2⟩
      (sysTimeoutAbs (mem 1) ⟨sysNow before + 1000, 1⟩ ⟨0, [], false, .idle, [], []⟩)) := by
  have hrange : List.range' 1 (lwipCyclicTimers.length - 1) = [1, 2, 3] := rfl
  have hint : intervalMs 1 = 1000 ∧ intervalMs 2 = 1000 ∧ intervalMs 3 = 1000 := ⟨rfl, rfl, rfl⟩
  rw [ntInit, sysTimeoutsInit, hrange]
  simp only [List.foldl_cons, List.foldl_nil, sysTimeout, hint]
  cases mem 1 <;> cases mem 2 <;> cases mem 3 <;> simp [sysTimeoutAbs]

theorem ntInit_inv (before : Nat) (mem : Nat → Bool) : Inv (sysNow before).toNat (ntInit before mem) := by
  have hnow := sysNow_lt before
  have hdue := toNat_add_of_lt hnow (show (1000 : UInt32).toNat ≤ MAX_DELAY by decide)
  rw [ntInit_eq]
  -- nothing was called so far
  have hset : ∀ {s : St} (i : Nat), Timely (sysNow before).toNat s ∧ s.called = [] →
      Timely (sysNow before).toNat (sysTimeoutAbs (mem i) ⟨sysNow before + 1000, i⟩ s) ∧
        (sysTimeoutAbs (mem i) ⟨sysNow before + 1000, i⟩ s).called = [] := by
    intro s i hs
    refine ⟨timely_sysTimeoutAbs hs.1 (mem i) (short_add hnow (by decide) i) (fun hc => ?_) fun hc => ?_, ?_⟩
    · rw [St.calls, hs.2, List.count_nil, intervalMs_of_cyclic hc, hdue]
      exact Nat.le_of_eq rfl
    · rw [intervalMs_of_cyclic hc, hdue]
      exact Nat.add_le_add_right (Nat.le_max_left ..) 1000
    · cases mem i <;> exact hs.2
  have hnone : Timely (sysNow before).toNat ⟨0, [], false, .idle, [], []⟩ :=
    ⟨⟨nofun, List.Pairwise.nil⟩, trivial, nofun, nofun, fun _ _ => Or.inl rfl, nofun⟩
  refine ⟨(hset 3 (hset 2 (hset 1 ⟨hnone, rfl⟩))).1, fun i hi => ?_, ?_⟩
  · obtain ⟨hpos, hlt⟩ := hi
    have hlt : i < 4 := hlt
    simp only [kept_sysTimeoutAbs]
    obtain rfl | rfl | rfl : i = 1 ∨ i = 2 ∨ i = 3 := by omega
    all_goals rfl
  · simp only [kept_sysTimeoutAbs, active_sysTimeoutAbs]
    rfl

theorem run_inv_allowed (h : Inv b s) {es : List Ev} (he : ∀ e ∈ es, e.Allowed) : Inv b (run step s es) := by
  have hstep : ∀ s e, Inv b s → Ev.Allowed e → Inv b (step s e) := fun _ e hs => step_inv hs e
  exact run_inv_of_forall step hstep h he

/-- Each cyclic timer is set, or its handler runs, or it was lost, and the same is true of
    the TCP timer if and only if `tcpip_tcp_timer_active` says so; no timer is set twice. -/
theorem set_once (before : Nat) (mem : Nat → Bool) {es : List Ev} (he : ∀ e ∈ es, e.Allowed) :
    (∀ i, Cyclic i → times (run step (ntInit before mem) es).entries i + (run step (ntInit before mem) es).lost.count i = 1) ∧
      times (run step (ntInit before mem) es).entries TCP_TIMER + (run step (ntInit before mem) es).lost.count TCP_TIMER =
        if (run step (ntInit before mem) es).tcpipTcpTimerActive then 1 else 0 := by
  have hinv := run_inv_allowed (ntInit_inv before mem) he
  exact ⟨hinv.cyclic, hinv.tcp⟩

/-- A connection is registered from inside `tcp_tmr`. -/
def registeredInside : List Ev :=
  [.tcpTimerNeeded true true, .pass (32 * 250), .check, .turn, .tcpTimerNeeded true true, .returned true true]

theorem registeredInside_set_once : (run step (ntInit 0 fun _ => true) registeredInside).tcpipTcpTimerActive = true ∧
    times (run step (ntInit 0 fun _ => true) registeredInside).entries TCP_TIMER +
      (run step (ntInit 0 fun _ => true) registeredInside).lost.count TCP_TIMER =
        if (run step (ntInit 0 fun _ => true) registeredInside).tcpipTcpTimerActive then 1 else 0 :=
  ⟨by decide, (set_once 0 (fun _ => true) (by decide)).2⟩

end Nanotube.Lwip.CyclicTimers
