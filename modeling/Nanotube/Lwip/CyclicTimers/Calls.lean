/-
  Nanotube.Lwip.CyclicTimers.Calls — do lwIP's own timers keep running? (src/lwIP/core/timeouts.c
  lwip_cyclic_timer, tcpip_tcp_timer, tcp_timer_needed, sys_check_timeouts; src/nanotube.c
  nt_init)

  Between two calls of a timer nothing touches its entry (`Waiting`), so a check at a time
  when it is due cannot end without calling it.

  Proved: a timer that was lost is never called again, and the TCP timer's flag keeps
  `tcp_timer_needed` from setting it (`lost_for_good`). If the handlers set no timeouts but
  their own, a check is over after two calls for each timeout at most (`check_ends`). By its
  end a check has called each timer that was set an interval before, whatever the handlers
  set (`called_each_interval`). But a timer is not called more often than once in an
  interval, and for the first lap of the clock only: past the wrap no call comes
  (`calls_run_out`).
-/

import Nanotube.Lwip.CyclicTimers.Model
import Mathlib.Algebra.GroupWithZero.Nat

namespace Nanotube.Lwip.CyclicTimers

open Nanotube.Lib.Runs
open Nanotube.Lwip.Timeouts (SysTimeo sysNow LAP MAX_DELAY sysNow_toNat)

variable {b : Nat} {s : St}

/-! ## Until the next call -/

/-- The `now` of the check that is running. -/
def Phase.now? : Phase → Option UInt32
  | .idle => none
  | .looping now => some now
  | .inside now _ => some now

/-- No handler is called, nothing is set or lost, and a check that runs goes on. -/
structure Quiet (s s' : St) : Prop where
  list : s'.nextTimeout.Sublist s.nextTimeout
  lost : s'.lost = s.lost
  called : s'.called = s.called
  running : ∀ x ∈ s'.phase.running, x ∈ s.phase.running
  now : ∀ now, s.phase.now? = some now → s'.phase.now? = some now

theorem Quiet.refl (s : St) : Quiet s s := ⟨List.Sublist.refl _, rfl, rfl, fun _ => id, fun _ => id⟩

/-- What the other events do: one timeout is set at most, and a cyclic timer only by its
    own handler. -/
theorem step_cases {e : Ev} (he : e ≠ .turn) : ∃ s', Quiet s s' ∧
    (step s e = s' ∨ ∃ mem x, step s e = sysTimeoutAbs mem x s' ∧
      (Cyclic x.handler → ∃ t ∈ s.phase.running, t.handler = x.handler)) := by
  cases e with
  | turn => exact absurd rfl he
  | pass ticks => exact ⟨step s (.pass ticks), ⟨List.Sublist.refl _, rfl, rfl, fun _ => id, fun _ => id⟩, Or.inl rfl⟩
  | timeout mem k msecs => exact ⟨s, Quiet.refl s, Or.inr ⟨mem, _, rfl, fun hc => absurd hc (not_cyclic_other k)⟩⟩
  | untimeout k => exact ⟨step s (.untimeout k), ⟨List.eraseP_sublist, rfl, rfl, fun _ => id, fun _ => id⟩, Or.inl rfl⟩
  | tcpTimerNeeded mem pcbs =>
    rw [step, tcpTimerNeeded]
    split
    · exact ⟨{ s with tcpipTcpTimerActive := true }, ⟨List.Sublist.refl _, rfl, rfl, fun _ => id, fun _ => id⟩,
        Or.inr ⟨mem, _, rfl, fun hc => absurd hc not_cyclic_tcp⟩⟩
    · exact ⟨s, Quiet.refl s, Or.inl rfl⟩
  | check =>
    rw [step]
    split
    · next hidle =>
      refine ⟨{ s with phase := .looping (sysNow s.ticks) }, ⟨List.Sublist.refl _, rfl, rfl,
        fun _ hx => absurd hx List.not_mem_nil, fun now hnow => ?_⟩,
        Or.inl rfl⟩
      rw [hidle] at hnow
      cases hnow
    · exact ⟨s, Quiet.refl s, Or.inl rfl⟩
  | returned mem pcbs =>
    cases hphase : s.phase with
    | idle | looping =>
      rw [returned_outside (by simp [hphase])]
      exact ⟨s, Quiet.refl s, Or.inl rfl⟩
    | inside now t =>
      have hquiet : Quiet s (back s now) := by
        refine ⟨List.Sublist.refl _, rfl, rfl, fun _ hx => absurd hx List.not_mem_nil, fun now' hnow => ?_⟩
        rw [hphase] at hnow
        exact hnow
      rw [returned_eq hphase, finish]
      split
      · cases pcbs with
        | true => exact ⟨back s now, hquiet, Or.inr ⟨mem, _, rfl, fun hc => absurd hc not_cyclic_tcp⟩⟩
        | false =>
          exact ⟨tcpipTcpTimer mem false (back s now), ⟨hquiet.list, rfl, rfl, hquiet.running, hquiet.now⟩, Or.inl rfl⟩
      · split
        · refine ⟨back s now, hquiet, Or.inr ?_⟩
          rw [lwipCyclicTimer]
          split
          · exact ⟨mem, _, rfl, fun _ => ⟨t, List.mem_singleton_self t, rfl⟩⟩
          · exact ⟨mem, _, rfl, fun _ => ⟨t, List.mem_singleton_self t, rfl⟩⟩
        · exact ⟨back s now, hquiet, Or.inl rfl⟩

theorem called_step {e : Ev} (he : e ≠ .turn) : (step s e).called = s.called := by
  obtain ⟨s', hquiet, heq | ⟨mem, x, heq, _⟩⟩ := step_cases (s := s) he
  · rw [heq, hquiet.called]
  · rw [heq, ← hquiet.called]
    cases mem <;> rfl

theorem calls_step (h : Inv b s) (e : Ev) (i : Nat) : s.calls i ≤ (step s e).calls i := by
  by_cases he : e = .turn
  · subst he
    cases hphase : s.phase with
    | idle | inside => exact Nat.le_of_eq (by rw [turn_outside (by simp [hphase])])
    | looping now =>
      rcases turn_cases h hphase with ⟨heq, _⟩ | ⟨t, next, _, _, heq⟩
      · exact Nat.le_of_eq (by rw [heq]; rfl)
      · rw [heq, calls_call]
        exact Nat.le_add_right ..
  · exact Nat.le_of_eq (by rw [St.calls, St.calls, called_step he])

theorem calls_run (h : Inv b s) {es : List Ev} (he : ∀ e ∈ es, e.Allowed) (i : Nat) :
    s.calls i ≤ (run step s es).calls i := by
  induction es generalizing s with
  | nil => exact Nat.le_refl _
  | cons e es ih =>
    obtain ⟨he, hes⟩ := List.forall_mem_cons.mp he
    exact Nat.le_trans (calls_step h e i) (ih (step_inv h e he) hes)

/-- The timer was called `k` times and was not lost, and the next call is due by `d`. -/
structure Waiting (i k d : Nat) (s : St) : Prop where
  calls : s.calls i = k
  here : i ∉ s.lost
  due : ∀ x ∈ s.nextTimeout, x.handler = i → x.time.toNat ≤ d
  outside : ∀ x ∈ s.phase.running, x.handler ≠ i

section Wait

variable {i k d : Nat}

theorem Waiting.of_quiet {s' : St} (h : Waiting i k d s) (hquiet : Quiet s s') : Waiting i k d s' where
  calls := by rw [St.calls, hquiet.called]; exact h.calls
  here := by rw [hquiet.lost]; exact h.here
  due := fun x hx => h.due x (hquiet.list.subset hx)
  outside := fun x hx => h.outside x (hquiet.running x hx)

theorem Waiting.set (h : Waiting i k d s) (mem : Bool) {x : SysTimeo} (hx : x.handler ≠ i) :
    Waiting i k d (sysTimeoutAbs mem x s) := by
  cases mem with
  | true =>
    refine ⟨h.calls, h.here, fun y hy hyi => ?_, h.outside⟩
    rcases mem_insertion hy with rfl | hy
    · exact absurd hyi hx
    · exact h.due y hy hyi
  | false =>
    refine ⟨h.calls, fun hmem => ?_, h.due, h.outside⟩
    rcases List.mem_cons.mp hmem with heq | hmem
    · exact hx heq.symm
    · exact h.here hmem

/-- It is on the list. -/
theorem Waiting.exists_entry (hi : Cyclic i) (h : Inv b s) (hw : Waiting i k d s) : ∃ x ∈ s.nextTimeout, x.handler = i := by
  have hone := h.cyclic i hi
  rw [St.kept, List.count_eq_zero_of_not_mem hw.here] at hone
  obtain ⟨x, hx, hxi⟩ := exists_of_times_pos (show 0 < times s.entries i by omega)
  rcases List.mem_append.mp hx with hx | hx
  · exact absurd hxi (hw.outside x hx)
  · exact ⟨x, hx, hxi⟩

/-- As long as it was not called, a check of a time when it is due goes on. -/
theorem step_waiting (hi : Cyclic i) (h : Inv b s) (hw : Waiting i k d s) (e : Ev) :
    k < (step s e).calls i ∨ Waiting i k d (step s e) ∧
      ∀ now, d ≤ now.toNat → s.phase.now? = some now → (step s e).phase.now? = some now := by
  by_cases he : e = .turn
  · subst he
    cases hphase : s.phase with
    | idle | inside =>
      right
      rw [turn_outside (by simp [hphase])]
      exact ⟨hw, fun _ _ h0 => hphase ▸ h0⟩
    | looping now =>
      rcases turn_cases h hphase with ⟨heq, hearly⟩ | ⟨t, next, hlist, hdue, heq⟩
      · right
        rw [heq]
        refine ⟨⟨hw.calls, hw.here, hw.due, fun _ hx => absurd hx List.not_mem_nil⟩, fun now' hd hnow => ?_⟩
        cases hnow
        obtain ⟨x, hx, hxi⟩ := hw.exists_entry hi h
        have hle := hw.due x hx hxi
        have hlt := hearly x hx
        omega
      · rw [heq, calls_call]
        by_cases ht : t.handler = i
        · left
          rw [if_pos ht, hw.calls]
          exact Nat.lt_succ_self k
        · right
          refine ⟨⟨?_, hw.here, fun x hx => hw.due x ?_, fun x hx => ?_⟩, fun _ _ => id⟩
          · rw [calls_call, if_neg ht]
            exact hw.calls
          · rw [hlist]
            exact List.mem_cons_of_mem t hx
          · rw [List.mem_singleton.mp hx]
            exact ht
  · right
    obtain ⟨s', hquiet, heq | ⟨mem, x, heq, hown⟩⟩ := step_cases (s := s) he
    · rw [heq]
      exact ⟨hw.of_quiet hquiet, fun now _ => hquiet.now now⟩
    · have hne : x.handler ≠ i := by
        intro hxi
        obtain ⟨t, ht, hti⟩ := hown (hxi ▸ hi)
        exact hw.outside t ht (hti.trans hxi)
      rw [heq]
      refine ⟨(hw.of_quiet hquiet).set mem hne, fun now _ hnow => ?_⟩
      have hphase : (sysTimeoutAbs mem x s').phase = s'.phase := by cases mem <;> rfl
      rw [hphase]
      exact hquiet.now now hnow

theorem run_waiting (hi : Cyclic i) (h : Inv b s) (hw : Waiting i k d s) {es : List Ev} (he : ∀ e ∈ es, e.Allowed) :
    k < (run step s es).calls i ∨ Waiting i k d (run step s es) ∧
      ∀ now, d ≤ now.toNat → s.phase.now? = some now → (run step s es).phase.now? = some now := by
  induction es generalizing s with
  | nil => exact Or.inr ⟨hw, fun _ _ => id⟩
  | cons e es ih =>
    obtain ⟨he, hes⟩ := List.forall_mem_cons.mp he
    have hinv := step_inv h e he
    rcases step_waiting hi h hw e with hlt | ⟨hw', hnow⟩
    · exact Or.inl (Nat.lt_of_lt_of_le hlt (calls_run hinv hes i))
    · exact (ih hinv hw' hes).imp_right fun hrun => ⟨hrun.1, fun now hd h0 => hrun.2 now hd (hnow now hd h0)⟩

end Wait

/-! ## Once lost -/

theorem Inv.not_set_of_lost (h : Inv b s) {i : Nat} (hi : i < lwipCyclicTimers.length) (hlost : i ∈ s.lost) :
    times s.entries i = 0 := by
  have hpos : 0 < s.lost.count i := List.count_pos_iff.mpr hlost
  have hone : s.kept i ≤ 1 := by
    rcases Nat.eq_zero_or_pos i with rfl | hi0
    · have htcp := h.tcp
      unfold TCP_TIMER at htcp
      rw [htcp]
      split <;> decide
    · exact Nat.le_of_eq (h.cyclic i ⟨hi0, hi⟩)
  unfold St.kept at hone
  omega

theorem step_lost (h : Inv b s) {i : Nat} (hi : i < lwipCyclicTimers.length) (hlost : i ∈ s.lost) (e : Ev) :
    i ∈ (step s e).lost ∧ (step s e).calls i = s.calls i := by
  by_cases he : e = .turn
  · subst he
    cases hphase : s.phase with
    | idle | inside =>
      rw [turn_outside (by simp [hphase])]
      exact ⟨hlost, rfl⟩
    | looping now =>
      rcases turn_cases h hphase with ⟨heq, _⟩ | ⟨t, next, hlist, _, heq⟩
      · rw [heq]
        exact ⟨hlost, rfl⟩
      · have hne : t.handler ≠ i := by
          intro heq
          have hzero := h.not_set_of_lost hi hlost
          rw [St.entries, hphase, hlist, times_append, times_cons, if_pos heq] at hzero
          omega
        rw [heq, calls_call, if_neg hne]
        exact ⟨hlost, rfl⟩
  · refine ⟨?_, by rw [St.calls, called_step he]; rfl⟩
    obtain ⟨s', hquiet, heq | ⟨mem, x, heq, _⟩⟩ := step_cases (s := s) he
    · rw [heq, hquiet.lost]
      exact hlost
    · rw [heq]
      rw [← hquiet.lost] at hlost
      cases mem with
      | true => exact hlost
      | false => exact List.mem_cons_of_mem _ hlost

/-! ## A check ends -/

/-- How often handlers are still called in a check, at most. -/
def late (now : Nat) (l : List SysTimeo) : Nat := (l.map fun x => min 2 (now + 1 - x.time.toNat)).sum

theorem late_cons (now : Nat) (x : SysTimeo) (l : List SysTimeo) :
    late now (x :: l) = min 2 (now + 1 - x.time.toNat) + late now l := List.sum_cons

theorem late_le (now : Nat) (l : List SysTimeo) : late now l ≤ 2 * l.length := by
  induction l with
  | nil => exact Nat.le_refl 0
  | cons x l ih =>
    rw [late_cons, List.length_cons]
    omega

theorem late_sysTimeoutAbs (now : Nat) (mem : Bool) (x : SysTimeo) (s : St) :
    late now (sysTimeoutAbs mem x s).nextTimeout ≤ min 2 (now + 1 - x.time.toNat) + late now s.nextTimeout := by
  cases mem with
  | true =>
    rw [← late_cons]
    exact Nat.le_of_eq ((insertion_perm x s.nextTimeout).map _).sum_nat
  | false => exact Nat.le_add_left ..

/-- A handler that was called late may be due again at once, but then not late. -/
theorem late_finish {now : UInt32} {t : SysTimeo} (hlap : t.time.toNat < LAP) (hdue : t.time.toNat ≤ now.toNat)
    (hnow : now.toNat ≤ (sysNow s.ticks).toNat) (mem pcbs : Bool) :
    late now.toNat (finish t mem pcbs s).nextTimeout < late now.toNat (t :: s.nextTimeout) := by
  rw [late_cons, finish]
  split
  · cases pcbs with
    | false =>
      show late now.toNat s.nextTimeout < _
      omega
    | true =>
      have htime : (sysNow s.ticks + intervalMs TCP_TIMER).toNat = (sysNow s.ticks).toNat + 250 :=
        toNat_add_of_lt (sysNow_lt s.ticks) (show (250 : UInt32).toNat ≤ MAX_DELAY by decide)
      have hle := late_sysTimeoutAbs now.toNat mem ⟨sysNow s.ticks + intervalMs TCP_TIMER, TCP_TIMER⟩ s
      show late now.toNat (sysTimeoutAbs mem ⟨sysNow s.ticks + intervalMs TCP_TIMER, TCP_TIMER⟩ s).nextTimeout < _
      dsimp only at hle
      omega
  · split
    · next hc =>
      obtain ⟨x, heq, _, _, hlow, hge, _⟩ := lwipCyclicTimer_eq hlap mem s
      have hle := late_sysTimeoutAbs now.toNat mem x s
      rw [intervalMs_of_cyclic hc] at hlow
      rw [heq]
      omega
    · omega

theorem finish_rest (t : SysTimeo) (mem pcbs : Bool) (s : St) :
    (finish t mem pcbs s).ticks = s.ticks ∧ (finish t mem pcbs s).phase = s.phase := by
  rw [finish]
  split
  · cases pcbs <;> cases mem <;> exact ⟨rfl, rfl⟩
  · split
    · rw [lwipCyclicTimer]
      split <;> cases mem <;> exact ⟨rfl, rfl⟩
    · exact ⟨rfl, rfl⟩

theorem sysNow_toNat_of_lt {ticks : Nat} (h : ticks / 32 < LAP) : (sysNow ticks).toNat = ticks / 32 := by
  rw [sysNow_toNat]
  exact Nat.mod_eq_of_lt h

/-- A turn of the loop: the ticks its handler takes, whether there is memory, and whether
    there are connections. -/
structure Round where
  took : Nat
  mem : Bool
  pcbs : Bool

def rounds (rs : List Round) : List Ev := rs.flatMap fun r => [.turn, .pass r.took, .returned r.mem r.pcbs]

theorem run_rounds_cons (s : St) (r : Round) (rs : List Round) : run step s (rounds (r :: rs)) =
    run step (step (step (step s .turn) (.pass r.took)) (.returned r.mem r.pcbs)) (rounds rs) := rfl

theorem rounds_idle (h : s.phase = .idle) (rs : List Round) : (run step s (rounds rs)).phase = .idle := by
  induction rs generalizing s with
  | nil => exact h
  | cons r rs ih =>
    have hpass : (step s (.pass r.took)).phase = .idle := h
    rw [run_rounds_cons, turn_outside (by simp [h]), returned_outside (by simp [hpass])]
    exact ih hpass

theorem rounds_end (h : Inv b s) {now : UInt32} (hphase : s.phase = .looping now) {rs : List Round}
    (hlap : (s.ticks + (rs.map Round.took).sum) / 32 < LAP) (hmany : late now.toNat s.nextTimeout < rs.length) :
    (run step s (rounds rs)).phase = .idle := by
  induction rs generalizing s with
  | nil => exact absurd hmany (Nat.not_lt_zero _)
  | cons r rs ih =>
    rw [List.map_cons, List.sum_cons] at hlap
    rw [run_rounds_cons]
    rcases turn_cases h hphase with ⟨heq, _⟩ | ⟨t, next, hlist, hdue, heq⟩
    · have hidle : (step (step s .turn) (.pass r.took)).phase = .idle := by rw [heq]; rfl
      rw [returned_outside (by simp [hidle])]
      exact rounds_idle hidle rs
    · have hinv := returned_inv (pass_inv (turn_inv h) r.took) r.mem r.pcbs
      have hinside : (step (step s .turn) (.pass r.took)).phase = .inside now t := by rw [heq]; rfl
      obtain ⟨hnow, hle⟩ := h.now_ok hphase
      rw [returned_eq hinside, heq] at hinv ⊢
      have hticks : (back (step (call s now t next) (.pass r.took)) now).ticks = s.ticks + r.took := rfl
      have hlist' : t :: (back (step (call s now t next) (.pass r.took)) now).nextTimeout = s.nextTimeout := hlist.symm
      have hphase' : (back (step (call s now t next) (.pass r.took)) now).phase = .looping now := rfl
      generalize back (step (call s now t next) (.pass r.took)) now = s' at hinv hticks hlist' hphase' ⊢
      obtain ⟨hticks', hsame⟩ := finish_rest t r.mem r.pcbs s'
      have hclock := sysNow_toNat_of_lt (show (s.ticks + r.took) / 32 < LAP by omega)
      have hlate := late_finish (s := s') (Nat.lt_of_le_of_lt hdue hnow) hdue
        (by rw [hticks]; unfold St.n at hle; omega) r.mem r.pcbs
      rw [hlist'] at hlate
      rw [List.length_cons] at hmany
      refine ih hinv (hsame.trans hphase') ?_ (by omega)
      rw [hticks', hticks]
      omega

/-! ## Over a run -/

/-- A timer of lwIP's own that there was no memory for once is never called again, the TCP
    timer included. -/
theorem lost_for_good (before : Nat) (mem : Nat → Bool) {es es' : List Ev} (he : ∀ e ∈ es, e.Allowed)
    (he' : ∀ e ∈ es', e.Allowed) {i : Nat} (hi : i < lwipCyclicTimers.length)
    (hlost : i ∈ (run step (ntInit before mem) es).lost) :
    (run step (ntInit before mem) (es ++ es')).calls i = (run step (ntInit before mem) es).calls i := by
  have hinv := run_inv_allowed (ntInit_inv before mem) he
  rw [run_append]
  generalize run step (ntInit before mem) es = s at hlost hinv ⊢
  induction es' generalizing s with
  | nil => rfl
  | cons e es' ih =>
    obtain ⟨he, hes⟩ := List.forall_mem_cons.mp he'
    obtain ⟨hlost', hcalls⟩ := step_lost hinv hi hlost e
    exact (ih hes _ hlost' (step_inv hinv e he)).trans hcalls

/-- The first connection finds no memory for the timer; the second is registered later. -/
theorem tcp_timer_lost_for_good : TCP_TIMER ∈ (run step (ntInit 0 fun _ => true) [.tcpTimerNeeded false true]).lost ∧
    (run step (ntInit 0 fun _ => true)
      ([.tcpTimerNeeded false true] ++ [.tcpTimerNeeded true true, .pass (32 * 250), .check, .turn])).calls TCP_TIMER =
      (run step (ntInit 0 fun _ => true) [.tcpTimerNeeded false true]).calls TCP_TIMER :=
  ⟨by decide, lost_for_good 0 (fun _ => true) (by decide) (by decide) (by decide) (by decide)⟩

/-- A check is over when its loop has gone round twice for each timeout and once more,
    whatever time the handlers take before the clock wraps, if they set no timeouts but
    their own. -/
theorem check_ends (before : Nat) (mem : Nat → Bool) {es : List Ev} (he : ∀ e ∈ es, e.Allowed) {rs : List Round}
    (hidle : (run step (ntInit before mem) es).phase = .idle)
    (hlap : ((run step (ntInit before mem) es).ticks + (rs.map Round.took).sum) / 32 < LAP)
    (hmany : 2 * (run step (ntInit before mem) es).nextTimeout.length < rs.length) :
    (run step (ntInit before mem) (es ++ .check :: rounds rs)).phase = .idle := by
  have hinv := check_inv (run_inv_allowed (ntInit_inv before mem) he)
  rw [run_append, run_cons]
  generalize run step (ntInit before mem) es = s at hidle hlap hmany hinv ⊢
  have hstep : step s .check = { s with phase := .looping (sysNow s.ticks) } := by rw [step, hidle]
  rw [hstep] at hinv ⊢
  exact rounds_end hinv rfl hlap (Nat.lt_of_le_of_lt (late_le _ _) hmany)

/-- The first second, with a connection. -/
def firstSecond : List Ev := [.tcpTimerNeeded true true, .pass (32 * 1000)]

/-- Handlers that take a unit each. -/
def slowRounds : List Round := List.replicate 9 ⟨32, true, true⟩

theorem firstSecond_check_ends :
    (run step (ntInit 0 fun _ => true) (firstSecond ++ .check :: rounds slowRounds)).phase = .idle :=
  check_ends 0 (fun _ => true) (by decide) (by decide) (by decide) (by decide)

/-- A check that begins an interval or more after a time when none was running, and before
    the clock wraps, has called the timer by its end, unless the timer was lost before. -/
theorem called_each_interval (before : Nat) (mem : Nat → Bool) {es mid tail : List Ev} (he : ∀ e ∈ es, e.Allowed)
    (hm : ∀ e ∈ mid, e.Allowed) (ht : ∀ e ∈ tail, e.Allowed) {i : Nat} (hi : Cyclic i)
    (hhere : i ∉ (run step (ntInit before mem) es).lost) (hidle : (run step (ntInit before mem) es).phase = .idle)
    (hidle' : (run step (ntInit before mem) (es ++ mid)).phase = .idle)
    (hlap : (run step (ntInit before mem) (es ++ mid)).n < LAP)
    (hlate : max (sysNow before).toNat (run step (ntInit before mem) es).n + (intervalMs i).toNat ≤
      (run step (ntInit before mem) (es ++ mid)).n)
    (hend : (run step (ntInit before mem) (es ++ mid ++ .check :: tail)).phase = .idle) :
    (run step (ntInit before mem) es).calls i < (run step (ntInit before mem) (es ++ mid ++ .check :: tail)).calls i := by
  have hinv := run_inv_allowed (ntInit_inv before mem) he
  rw [run_append, run_cons] at hend ⊢
  rw [run_append] at hidle' hlap hlate hend ⊢
  generalize run step (ntInit before mem) es = s at hhere hidle hidle' hlap hlate hend hinv ⊢
  have hwait : Waiting i (s.calls i) (max (sysNow before).toNat s.n + (intervalMs i).toNat) s := by
    refine ⟨rfl, hhere, fun x hx hxi => ?_, ?_⟩
    · have hsoon := hinv.soon x hx (hxi ▸ hi)
      rwa [hxi] at hsoon
    · rw [hidle]
      exact fun _ hx => absurd hx List.not_mem_nil
  have hmid := run_inv_allowed hinv hm
  have htail : ∀ e ∈ Ev.check :: tail, e.Allowed := List.forall_mem_cons.mpr ⟨trivial, ht⟩
  rcases run_waiting hi hinv hwait hm with hlt | ⟨hwait, _⟩
  · exact Nat.lt_of_lt_of_le hlt (calls_run hmid htail i)
  · generalize run step s mid = c at hidle' hlap hlate hend hmid hwait ⊢
    have hstep : step c .check = { c with phase := .looping (sysNow c.ticks) } := by rw [step, hidle']
    have hcheck := check_inv hmid
    rw [hstep] at hend hcheck ⊢
    have hwait' : Waiting i (s.calls i) _ { c with phase := .looping (sysNow c.ticks) } :=
      ⟨hwait.calls, hwait.here, hwait.due, fun _ hx => absurd hx List.not_mem_nil⟩
    rcases run_waiting hi hcheck hwait' ht with hlt | ⟨_, hnow⟩
    · exact hlt
    · -- not called, so the check would still be running
      have hclock := sysNow_toNat_of_lt hlap
      have hnow := hnow (sysNow c.ticks) (by rw [hclock]; exact hlate) rfl
      rw [hend] at hnow
      cases hnow

theorem firstSecond_called : (run step (ntInit 0 fun _ => true) []).calls 2 <
    (run step (ntInit 0 fun _ => true) ([] ++ firstSecond ++ .check :: rounds slowRounds)).calls 2 :=
  called_each_interval 0 (fun _ => true) (by decide) (by decide) (by decide) (by decide) (by decide) (by decide) (by decide)
    (by decide) (by decide) (by decide)

/-- However long the device is up, a cyclic timer is called at most once for each interval
    in the first lap of the clock, counted from what the counter showed before `nt_init`;
    and by any time, at most once for each interval so far. -/
theorem calls_run_out (before : Nat) (mem : Nat → Bool) {es : List Ev} (he : ∀ e ∈ es, e.Allowed) {i : Nat} (hi : Cyclic i)
    (hcalled : (run step (ntInit before mem) es).calls i ≠ 0) :
    (sysNow before).toNat + (run step (ntInit before mem) es).calls i * (intervalMs i).toNat < LAP ∧
      (sysNow before).toNat + (run step (ntInit before mem) es).calls i * (intervalMs i).toNat ≤
        (run step (ntInit before mem) es).n :=
  ((run_inv_allowed (ntInit_inv before mem) he).spent i hi).resolve_left hcalled

/-- With the counter close to its end before `nt_init`, the first call comes a lap later. -/
def lateStart : List Ev := [.pass (32 * (LAP - 1)), .check, .turn, .returned true false]

theorem lateStart_calls_run_out : (run step (ntInit (32 * (LAP - 1001)) fun _ => true) lateStart).calls 1 = 1 ∧
    (sysNow (32 * (LAP - 1001))).toNat +
      (run step (ntInit (32 * (LAP - 1001)) fun _ => true) lateStart).calls 1 * (intervalMs 1).toNat < LAP :=
  ⟨by decide, (calls_run_out (32 * (LAP - 1001)) (fun _ => true) (by decide) (by decide) (by decide)).1⟩

end Nanotube.Lwip.CyclicTimers
