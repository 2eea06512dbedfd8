/-
  Nanotube.Lwip.Timeouts — do lwIP's timeouts run on time? (src/lwIP/arch/time.c,
  src/lwIP/core/timeouts.c)

  lwIP orders its timeouts with `TIME_LESS_THAN`, which allows for a clock that wraps at
  2^32. The clock here is the 32-bit counter of timer 3 shifted right by 5, so it wraps at
  2^27 (`sysNow_toNat`), and a due time is that plus the delay, which does not wrap. Such
  due times never differ by 2^31, so `TIME_LESS_THAN` is just `<` on them
  (`timeLessThan_iff`).

  Time is counted in ticks of the counter; the handlers are numbered as they are set.

  Proved: every run is punctual for the clock that wraps at 2^27 (`run_punctual`); so it
  is on time exactly if no timeout's first due check comes after a wrap, or late by as
  much as the wraps have cost (`timeouts_on_time`). A timeout whose due time lies past the
  next wrap never runs at all (`past_the_wrap_never_runs`).
-/

import Nanotube.Lib.Runs
import Nanotube.Lib.Timers

namespace Nanotube.Lwip.Timeouts

open Nanotube.Lib.Runs
open Nanotube.Lib.Timers

/-- `timer_3_Counter` after a number of ticks. -/
def timer3Counter (ticks : Nat) : UInt32 := UInt32.ofNat ticks

def sysNow (ticks : Nat) : UInt32 := timer3Counter ticks >>> 5

def LWIP_MAX_TIMEOUT : UInt32 := 0x7fffffff

/-- `TIME_LESS_THAN`. -/
def timeLessThan (t compareTo : UInt32) : Bool := t - compareTo > LWIP_MAX_TIMEOUT

/-- `struct sys_timeo`, with a number for its handler and argument. -/
structure SysTimeo where
  time : UInt32
  handler : Nat
  deriving DecidableEq, Repr

/-- `sys_timeout_abs`, when `memp_malloc` succeeds. -/
def sysTimeoutAbs (timeout : SysTimeo) (nextTimeout : List SysTimeo) : List SysTimeo :=
  insert (fun t u => timeLessThan t.time u.time) timeout nextTimeout

def sysTimeout (ticks : Nat) (msecs : UInt32) (handler : Nat) (nextTimeout : List SysTimeo) : List SysTimeo :=
  sysTimeoutAbs ⟨sysNow ticks + msecs, handler⟩ nextTimeout

/-- `sys_check_timeouts`: the handlers it calls, and the timeouts left. -/
def sysCheckTimeouts (ticks : Nat) (nextTimeout : List SysTimeo) : List Nat × List SysTimeo :=
  let now := sysNow ticks
  let r := expire (fun t => timeLessThan now t.time) nextTimeout
  (r.1.map (·.handler), r.2)

/-! ## Runs -/

structure St where
  ticks : Nat
  nextTimeout : List SysTimeo
  /-- What was asked for and what was done, with the times in units of 32 ticks. -/
  history : History
  deriving DecidableEq, Repr

inductive Ev where
  | pass (ticks : Nat)
  | timeout (msecs : UInt32)
  | check
  deriving DecidableEq, Repr

/-- The units of 32 ticks that have gone by. -/
def St.n (s : St) : Nat := s.ticks / 32

def step (s : St) : Ev → St
  | .pass ticks => { s with ticks := s.ticks + ticks }
  | .timeout msecs =>
    { s with
      nextTimeout := sysTimeout s.ticks msecs s.history.sets.length s.nextTimeout
      history := s.history.set s.n msecs.toNat }
  | .check =>
    let r := sysCheckTimeouts s.ticks s.nextTimeout
    { s with nextTimeout := r.2, history := s.history.check s.n r.1 }

def start (ticks : Nat) : St := ⟨ticks, [], [], []⟩

/-- The longest delay `sys_timeout` takes. -/
def MAX_DELAY : Nat := 0x3fffffff

def Ev.Allowed : Ev → Prop
  | .timeout msecs => msecs.toNat ≤ MAX_DELAY
  | _ => True

/-! ## The clock -/

/-- Units of 32 ticks until the counter wraps: 2^27. -/
def LAP : Nat := 0x8000000

/-- What `sys_now` returns after `n` units. -/
def lapClock (n : Nat) : Nat := n % LAP

theorem sysNow_toNat (ticks : Nat) : (sysNow ticks).toNat = lapClock (ticks / 32) := by
  have h5 : (5 : UInt32).toNat % 32 = 5 := rfl
  rw [sysNow, timer3Counter, UInt32.toNat_shiftRight, h5, UInt32.toNat_ofNat', Nat.shiftRight_eq_div_pow]
  simp only [lapClock, LAP]
  omega

theorem lapClock_slow : Slow lapClock := by
  intro a b hab
  unfold lapClock LAP
  omega

/-- Below 2^31 the comparison is that of the numbers. -/
theorem timeLessThan_iff {t u : UInt32} (ht : t.toNat < 0x80000000) (hu : u.toNat < 0x80000000) :
    timeLessThan t u = true ↔ t.toNat < u.toNat := by
  have hsub := UInt32.toNat_sub t u
  have hmax : LWIP_MAX_TIMEOUT.toNat = 0x7fffffff := rfl
  simp only [timeLessThan, gt_iff_lt, decide_eq_true_eq, UInt32.lt_iff_toNat_lt, hmax, hsub]
  omega

theorem due_toNat (ticks : Nat) {msecs : UInt32} (h : msecs.toNat ≤ MAX_DELAY) :
    (sysNow ticks + msecs).toNat = lapClock (ticks / 32) + msecs.toNat := by
  have hlap : lapClock (ticks / 32) < LAP := Nat.mod_lt _ (by decide)
  unfold MAX_DELAY at h
  unfold LAP at hlap
  rw [UInt32.toNat_add, sysNow_toNat]
  omega

/-! ## Every run is punctual for the wrapping clock -/

/-- The timeouts in the list are those that wait, in order, each with its due time. -/
structure Inv (s : St) : Prop where
  ordered : Ordered s.history
  punctual : Punctual lapClock s.history
  sets : ∀ x ∈ s.history.sets, x.1 ≤ s.n ∧ x.2 ≤ MAX_DELAY
  sorted : Sorted (·.time.toNat) s.nextTimeout
  once : (s.nextTimeout.map (·.handler)).Nodup
  due : ∀ x ∈ s.nextTimeout, ∃ t d, s.history.sets[x.handler]? = some (t, d) ∧ x.time.toNat = lapClock t + d
  waits : ∀ i t d, s.history.sets[i]? = some (t, d) →
    (i ∈ s.nextTimeout.map (·.handler) ↔ Waits lapClock s.history.checks i t d)

theorem start_inv (ticks : Nat) : Inv (start ticks) where
  ordered := ⟨by simp [start], by simp [start], by simp [start], by simp [start]⟩
  punctual := by
    intro pre c post hsplit
    simp [start] at hsplit
  sets := by simp [start]
  sorted := List.Pairwise.nil
  once := List.nodup_nil
  due := by simp [start]
  waits := by simp [start]

theorem time_lt {s : St} (h : Inv s) {x : SysTimeo} (hx : x ∈ s.nextTimeout) : x.time.toNat < 0x80000000 := by
  obtain ⟨t, d, hs, htime⟩ := h.due x hx
  obtain ⟨-, hd⟩ := h.sets _ (List.mem_of_getElem? hs)
  have hlap : lapClock t < LAP := Nat.mod_lt _ (by decide)
  unfold LAP at hlap
  unfold MAX_DELAY at hd
  omega

theorem pass_inv {s : St} (h : Inv s) (ticks : Nat) : Inv (step s (.pass ticks)) where
  ordered := h.ordered
  punctual := h.punctual
  sets := by
    intro x hx
    obtain ⟨hn, hd⟩ := h.sets x hx
    refine ⟨Nat.le_trans hn ?_, hd⟩
    simp only [St.n, step]
    omega
  sorted := h.sorted
  once := h.once
  due := h.due
  waits := h.waits

theorem timeout_inv {s : St} (h : Inv s) {msecs : UInt32} (hd : msecs.toNat ≤ MAX_DELAY) :
    Inv (step s (.timeout msecs)) := by
  have hdue := due_toNat s.ticks hd
  have hlt : (sysNow s.ticks + msecs).toNat < 0x80000000 := by
    have hlap : lapClock (s.ticks / 32) < LAP := Nat.mod_lt _ (by decide)
    unfold LAP at hlap
    unfold MAX_DELAY at hd
    omega
  have hperm := insert_perm (fun t u : SysTimeo => timeLessThan t.time u.time)
    ⟨sysNow s.ticks + msecs, s.history.sets.length⟩ s.nextTimeout
  have hhandlers := hperm.map (·.handler)
  -- the handlers in the list are numbers given out before
  have hfresh : s.history.sets.length ∉ s.nextTimeout.map (·.handler) := by
    intro hmem
    obtain ⟨x, hx, he⟩ := List.mem_map.mp hmem
    obtain ⟨t, d, hs, -⟩ := h.due x hx
    exact absurd (lt_of_sets hs) (by omega)
  refine ⟨ordered_set h.ordered _ _, punctual_set lapClock h.ordered h.punctual _ _, ?_, ?_, ?_, ?_, ?_⟩
  · intro x hx
    rcases List.mem_append.mp hx with hx | hx
    · exact h.sets x hx
    · rw [List.mem_singleton] at hx
      subst hx
      exact ⟨Nat.le_refl _, hd⟩
  · refine insert_sorted (fun t : SysTimeo => t.time.toNat) ?_ h.sorted
    intro y hy
    exact timeLessThan_iff hlt (time_lt h hy)
  · refine hhandlers.nodup_iff.mpr ?_
    rw [List.map_cons, List.nodup_cons]
    exact ⟨hfresh, h.once⟩
  · intro x hx
    rcases List.mem_cons.mp (hperm.mem_iff.mp hx) with rfl | hx
    · refine ⟨s.n, msecs.toNat, ?_, hdue⟩
      simp [step, History.set]
    · obtain ⟨t, d, hs, htime⟩ := h.due x hx
      refine ⟨t, d, ?_, htime⟩
      rw [← hs]
      exact List.getElem?_append_left (lt_of_sets hs)
  · intro i t d hs
    refine hhandlers.mem_iff.trans ?_
    rw [List.map_cons, List.mem_cons]
    rcases sets_set hs with hs | ⟨rfl, rfl, rfl⟩
    · have hne : i ≠ s.history.sets.length := Nat.ne_of_lt (lt_of_sets hs)
      refine Iff.trans ?_ (h.waits i t d hs)
      exact ⟨fun hi => hi.resolve_left hne, Or.inr⟩
    · refine ⟨fun _ => ?_, fun _ => Or.inl rfl⟩
      intro c hc hi
      exact absurd (h.ordered.asked c hc) (by omega)

/-- What a check runs: the timeouts that wait and are due by the clock. -/
theorem check_ran {s : St} (h : Inv s) :
    sysCheckTimeouts s.ticks s.nextTimeout =
      ((s.nextTimeout.filter (·.time.toNat ≤ lapClock s.n)).map (·.handler),
        s.nextTimeout.filter (lapClock s.n < ·.time.toNat)) := by
  have hnow : (sysNow s.ticks).toNat = lapClock s.n := sysNow_toNat s.ticks
  have hlt : (sysNow s.ticks).toNat < 0x80000000 := by
    have hlap : lapClock s.n < LAP := Nat.mod_lt _ (by decide)
    unfold LAP at hlap
    omega
  have hearly : ∀ y ∈ s.nextTimeout, timeLessThan (sysNow s.ticks) y.time = true ↔ lapClock s.n < y.time.toNat := by
    intro y hy
    rw [← hnow]
    exact timeLessThan_iff hlt (time_lt h hy)
  have hexp := expire_sorted (fun t : SysTimeo => t.time.toNat) hearly h.sorted
  simp only [sysCheckTimeouts, hexp]

/-- Which timeouts of the list a test of the due time leaves. -/
theorem mem_filter_handlers {s : St} (h : Inv s) (p : Nat → Bool) {i t d : Nat}
    (hs : s.history.sets[i]? = some (t, d)) :
    i ∈ (s.nextTimeout.filter fun x => p x.time.toNat).map (·.handler) ↔
      p (lapClock t + d) = true ∧ Waits lapClock s.history.checks i t d := by
  have htime : ∀ x ∈ s.nextTimeout, x.handler = i → x.time.toNat = lapClock t + d := by
    intro x hx hi
    obtain ⟨t', d', hs', hx'⟩ := h.due x hx
    rw [hi, hs] at hs'
    cases hs'
    exact hx'
  rw [← h.waits i t d hs]
  simp only [List.mem_map, List.mem_filter]
  constructor
  · rintro ⟨x, ⟨hx, hp⟩, hi⟩
    rw [htime x hx hi] at hp
    exact ⟨hp, x, hx, hi⟩
  · rintro ⟨hp, x, hx, hi⟩
    refine ⟨x, ⟨hx, ?_⟩, hi⟩
    rw [htime x hx hi]
    exact hp

theorem check_inv {s : St} (h : Inv s) : Inv (step s .check) := by
  have hsub : ∀ p : SysTimeo → Bool, ((s.nextTimeout.filter p).map (·.handler)).Sublist
      (s.nextTimeout.map (·.handler)) := fun p => List.filter_sublist.map _
  have hlt : ∀ i ∈ s.nextTimeout.map (·.handler), i < s.history.sets.length := by
    intro i hi
    obtain ⟨x, hx, rfl⟩ := List.mem_map.mp hi
    obtain ⟨t, d, hs, -⟩ := h.due x hx
    exact lt_of_sets hs
  simp only [step, check_ran h]
  refine ⟨?_, ?_, h.sets, List.Pairwise.filter _ h.sorted, h.once.sublist (hsub _), ?_, ?_⟩
  · exact ordered_check h.ordered (fun x hx => (h.sets x hx).1) (fun i hi => hlt i ((hsub _).subset hi))
      (h.once.sublist (hsub _))
  · refine punctual_check lapClock h.punctual ?_
    intro i t d hs
    rw [mem_filter_handlers h (fun m => decide (m ≤ lapClock s.n)) hs, decide_eq_true_iff]
  · intro x hx
    exact h.due x (List.mem_of_mem_filter hx)
  · intro i t d hs
    rw [mem_filter_handlers h (fun m => decide (lapClock s.n < m)) hs, decide_eq_true_iff]
    constructor
    · rintro ⟨hlate, hw⟩ c hc hi
      rcases List.mem_append.mp hc with hc | hc
      · exact hw c hc hi
      · rw [List.mem_singleton] at hc
        subst hc
        exact hlate
    · intro hw
      refine ⟨?_, fun c hc => hw c (List.mem_append_left _ hc)⟩
      exact hw ⟨s.n, s.history.sets.length, _⟩ (List.mem_append_right _ List.mem_cons_self) (lt_of_sets hs)

theorem step_inv {s : St} (h : Inv s) (e : Ev) (he : e.Allowed) : Inv (step s e) := by
  cases e with
  | pass ticks => exact pass_inv h ticks
  | timeout msecs => exact timeout_inv h he
  | check => exact check_inv h

theorem run_inv_allowed (ticks : Nat) (es : List Ev) (he : ∀ e ∈ es, e.Allowed) :
    Inv (run step (start ticks) es) := by
  have hstep : ∀ s e, Inv s → Ev.Allowed e → Inv (step s e) := fun _ e hs => step_inv hs e
  exact run_inv_of_forall step hstep (start_inv ticks) he

/-- Every run is punctual for the clock that wraps at 2^27. -/
theorem run_punctual (ticks : Nat) (es : List Ev) (he : ∀ e ∈ es, e.Allowed) :
    Punctual lapClock (run step (start ticks) es).history := (run_inv_allowed ticks es he).punctual

/-! ## On time -/

/-- Every timeout runs in the first check at or after its due time, once, and in no other. -/
def OnTime (h : History) : Prop := Punctual Lib.Timers.time h ∧ ∀ c ∈ h.checks, c.ran.Nodup

/-- At the first check at or after a timeout's due time, the check is late by at least the
    laps the counter has gone through since the timeout was set. Within one lap there are
    none. Only the times of the calls are looked at. -/
def NoWrapLost (h : History) : Prop :=
  ∀ pre c post, h.checks = pre ++ c :: post → ∀ i t d, h.sets[i]? = some (t, d) → i < c.asked →
    t + d ≤ c.n → (∀ c' ∈ pre, i < c'.asked → c'.n < t + d) → (c.n / LAP - t / LAP) * LAP ≤ c.n - (t + d)

theorem lapClock_reaches_iff {t d n : Nat} (h : t + d ≤ n) :
    lapClock t + d ≤ lapClock n ↔ (n / LAP - t / LAP) * LAP ≤ n - (t + d) := by
  unfold lapClock LAP
  omega

theorem reaches_iff (h : History) : Reaches lapClock h ↔ NoWrapLost h := by
  constructor
  · intro hr pre c post hsplit i t d hs hi hdue hw
    exact (lapClock_reaches_iff hdue).mp (hr pre c post hsplit i t d hs hi hdue hw)
  · intro hn pre c post hsplit i t d hs hi hdue hw
    exact (lapClock_reaches_iff hdue).mpr (hn pre c post hsplit i t d hs hi hdue hw)

/-- From any start of the counter and for any timeouts and checks, all timeouts run on
    time if and only if no wrap of the counter is lost on one. -/
theorem timeouts_on_time (ticks : Nat) (es : List Ev) (he : ∀ e ∈ es, e.Allowed) :
    OnTime (run step (start ticks) es).history ↔ NoWrapLost (run step (start ticks) es).history := by
  have hinv := run_inv_allowed ticks es he
  rw [← reaches_iff, ← punctual_iff lapClock lapClock_slow hinv.ordered hinv.punctual]
  exact ⟨fun h => h.1, fun h => ⟨h, hinv.ordered.once⟩⟩

/-- A timeout whose due time by the clock is a whole lap or more is never run. -/
theorem past_the_wrap_never_runs (ticks : Nat) (es : List Ev) (he : ∀ e ∈ es, e.Allowed) {i t d : Nat}
    (hs : (run step (start ticks) es).history.sets[i]? = some (t, d)) (hd : LAP ≤ lapClock t + d) :
    ∀ c ∈ (run step (start ticks) es).history.checks, i ∉ c.ran := by
  intro c hc hr
  obtain ⟨pre, post, hsplit⟩ := List.append_of_mem hc
  have hdue := ((run_punctual ticks es he pre c post hsplit i t d hs).mp hr).2.1
  have hlt : lapClock c.n < LAP := Nat.mod_lt _ (by decide)
  omega

/-- A timeout of one unit set in the last unit before the counter wraps, and a check at
    its due time. -/
def acrossWrap : List Ev := [.timeout 1, .pass 32, .check]

theorem acrossWrap_allowed : ∀ e ∈ acrossWrap, e.Allowed := by
  intro e hmem
  simp only [acrossWrap, List.mem_cons, List.not_mem_nil, or_false] at hmem
  rcases hmem with rfl | rfl | rfl
  · show (1 : UInt32).toNat ≤ MAX_DELAY
    decide
  · trivial
  · trivial

/-- The check finds the clock back at 0, and runs nothing. -/
theorem a_timeout_across_the_wrap_is_lost :
    (∀ e ∈ acrossWrap, e.Allowed) ∧
      (run step (start (32 * (LAP - 1))) acrossWrap).history = ⟨[(LAP - 1, 1)], [⟨LAP, 1, []⟩]⟩ ∧
      ¬ OnTime (run step (start (32 * (LAP - 1))) acrossWrap).history := by
  have hrun : (run step (start (32 * (LAP - 1))) acrossWrap).history =
      ⟨[(LAP - 1, 1)], [⟨LAP, 1, []⟩]⟩ := by decide
  refine ⟨acrossWrap_allowed, hrun, ?_⟩
  intro h
  rw [hrun] at h
  have hr := (h.1 [] ⟨LAP, 1, []⟩ [] rfl 0 (LAP - 1) 1 rfl).mpr
    ⟨by decide, Nat.le_refl _, fun c hc => by cases hc⟩
  cases hr

/-- The same timeout and check in the middle of a lap. -/
theorem a_timeout_within_a_lap_is_on_time :
    (∀ e ∈ acrossWrap, e.Allowed) ∧ OnTime (run step (start 0) acrossWrap).history := by
  refine ⟨acrossWrap_allowed, (timeouts_on_time 0 acrossWrap acrossWrap_allowed).mpr ?_⟩
  have hrun : (run step (start 0) acrossWrap).history = ⟨[(0, 1)], [⟨1, 1, [0]⟩]⟩ := by decide
  rw [hrun]
  intro pre c post hsplit i t d hs hi hdue _
  obtain rfl : c = ⟨1, 1, [0]⟩ := by
    have hc : c ∈ [(⟨1, 1, [0]⟩ : Check)] := by
      rw [show [(⟨1, 1, [0]⟩ : Check)] = pre ++ c :: post from hsplit]
      simp
    simpa using hc
  have hlap : (1 : Nat) / LAP = 0 := by decide
  simp [hlap]

end Nanotube.Lwip.Timeouts
