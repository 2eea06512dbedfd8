/-
  Nanotube.Lwip.Dns.Promises — is every lookup answered, and once? (src/lwIP/core/dns.c)

  `dns_gethostbyname` returns ERR_INPROGRESS as a promise to call back. Proved, over any
  order of lookups, packets from anybody and ticks of `dns_tmr`, with memory, ports and
  random numbers as they come: each caller that was promised a call was called once or is
  still outstanding, and the table keeps `Inv` (`called_once`); who is outstanding is called
  within 14 ticks, 7 for each server (`called_in_time`).
-/

import Nanotube.Lib.Runs
import Nanotube.Lib.Slots
import Nanotube.Lwip.Dns.Steps

namespace Nanotube.Lwip.Dns

open Nanotube.Lib.Runs Nanotube.Lib.Slots

/-! ## Every promise is kept once -/

/-- The callers that wait. -/
def outstanding (s : State) : List Caller := slots fun r => (s.requests r).found

/-- What was promised is what was called and what is outstanding. -/
def Accounted (s : State) : Prop :=
  ∀ c, s.promised.count c = (s.called.map Prod.fst).count c + (outstanding s).count c

theorem count_outstanding_setRequest (s : State) {r : Fin DNS_MAX_REQUESTS} (q : Request)
    (free : (s.requests r).found = none) (c : Caller) :
    (outstanding (setRequest s r q)).count c = (outstanding s).count c + q.found.toList.count c := by
  have hupdate : (fun k => ((setRequest s r q).requests k).found) =
      Function.update (fun k => (s.requests k).found) r q.found := by
    funext k
    by_cases hk : k = r
    · subst hk
      rw [setRequest_self, Function.update_self]
    · rw [setRequest_ne _ _ _ hk, Function.update_of_ne hk]
  have hcount := count_slots_update (fun k => (s.requests k).found) r q.found c
  rw [← hupdate, free] at hcount
  exact hcount

/-- `dns_call_found` makes the calls of the requests it takes out. -/
theorem count_callsOf (s : State) (i : Fin DNS_TABLE_SIZE) (addr : Option Addr) (c : Caller) :
    ((callsOf s i addr).map Prod.fst).count c + (outstanding (dnsCallFound s i addr)).count c =
      (outstanding s).count c := by
  have hcalls : ((callsOf s i addr).map Prod.fst).count c =
      (List.finRange DNS_MAX_REQUESTS).countP fun r => (s.requests r).found = some c ∧ (s.requests r).dnsTableIdx = i := by
    rw [callsOf, List.map_filterMap, List.count_filterMap]
    refine List.countP_congr fun r _ => ?_
    by_cases hi : (s.requests r).dnsTableIdx = i
    · cases hf : (s.requests r).found <;> simp [hi]
    · simp [hi]
  have hleft : (outstanding (dnsCallFound s i addr)).count c = (List.finRange DNS_MAX_REQUESTS).countP
      fun r => (s.requests r).found = some c ∧ ¬ (s.requests r).dnsTableIdx = i := by
    rw [outstanding, count_slots]
    refine List.countP_congr fun r _ => ?_
    rw [dnsCallFound_requests]
    by_cases hi : (s.requests r).dnsTableIdx = i <;> simp [hi]
  have hsplit := List.countP_eq_countP_filter_add (List.finRange DNS_MAX_REQUESTS)
    (fun r => decide ((s.requests r).found = some c)) (fun r => decide ((s.requests r).dnsTableIdx = i))
  rw [List.countP_filter, List.countP_filter] at hsplit
  rw [hcalls, hleft, outstanding, count_slots, hsplit]
  simp

/-- A free request is given to a caller, who is promised a call. -/
theorem Accounted.give {s s' : State} (h : Accounted s) {r : Fin DNS_MAX_REQUESTS} {i : Fin DNS_TABLE_SIZE} {c : Caller}
    (free : (s.requests r).found = none) (hrequests : s'.requests = (setRequest s r ⟨some c, i⟩).requests)
    (hpromised : s'.promised = s.promised ++ [c]) (hcalled : s'.called = s.called) : Accounted s' := by
  intro c'
  have hout : outstanding s' = outstanding (setRequest s r ⟨some c, i⟩) := by rw [outstanding, hrequests]; rfl
  rw [hpromised, hcalled, hout, count_outstanding_setRequest s _ free, List.count_append, h c', Nat.add_assoc]
  rfl

theorem Move.accounted {P : Option Addr → Prop} {s s' : State} (hm : Move P s s') (h : Accounted s) : Accounted s' := by
  cases hm with
  | quiet same =>
    intro c
    rw [same.promised, same.called, outstanding, same.requests]
    exact h c
  | forget i free =>
    intro c
    rw [count_outstanding_setRequest s _ free]
    exact h c
  | join free => exact h.give free rfl rfl rfl
  | start port free => exact h.give free rfl rfl rfl
  | idle => exact h
  | again => exact h
  | @close _ _ addr =>
    intro c
    rw [setEntry_promised, setEntry_called, dnsCallFound_promised, dnsCallFound_called, List.map_append, List.count_append,
      Nat.add_assoc, h c]
    congr 1
    exact (count_callsOf s _ addr c).symm

theorem Moves.accounted {P : Option Addr → Prop} {s s' : State} (hm : Moves P s s') (h : Accounted s) : Accounted s' := by
  induction hm with
  | refl => exact h
  | tail _ hm ih => exact hm.accounted ih

/-! ## Whole runs -/

/-- After `dns_init`, with whatever the names hold. -/
structure Fresh (s : State) : Prop where
  table : ∀ i, (s.table i).state = .unused
  requests : ∀ r, (s.requests r).found = none
  pcbs : ∀ j, s.pcbs j = none
  promised : s.promised = []
  called : s.called = []

theorem Fresh.inv {s : State} (h : Fresh s) : Inv s := by
  have hidle : ∀ i, ¬ (s.table i).Asking := fun i => not_asking_of_rests (Or.inl (h.table i))
  refine ⟨fun r c hr => ?_, fun i hi => absurd hi (hidle i), fun i hi => absurd hi (hidle i), fun j hj => absurd (h.pcbs j) hj,
    fun i _ hi => absurd hi (hidle i), fun i hi => absurd hi (hidle i), fun i => not_new_of_rests (Or.inl (h.table i))⟩
  rw [h.requests r] at hr
  cases hr

theorem Fresh.accounted {s : State} (h : Fresh s) : Accounted s := by
  intro c
  have hout : outstanding s = [] := by simp [outstanding, slots, h.requests]
  rw [h.promised, h.called, hout]
  rfl

theorem run_inv_accounted (aton : List UInt8 → Option Addr) {s : State} (h : Inv s ∧ Accounted s) (evs : List Ev) :
    Inv (run (step aton) s evs) ∧ Accounted (run (step aton) s evs) :=
  run_inv (I := fun s => Inv s ∧ Accounted s) (step aton)
    (fun _ ev hs => ⟨(step_moves aton hs.1 ev).inv hs.1, (step_moves aton hs.1 ev).accounted hs.2⟩) h evs

/-- Over any lookups, packets and ticks: who was promised a call was called once or is
    outstanding, and who is outstanding waits for an entry that is asked, for its name. -/
theorem called_once (aton : List UInt8 → Option Addr) {s : State} (h : Fresh s) (evs : List Ev) :
    (∀ c, (run (step aton) s evs).promised.count c =
      ((run (step aton) s evs).called.map Prod.fst).count c + (outstanding (run (step aton) s evs)).count c) ∧
    Inv (run (step aton) s evs) := by
  have hrun := run_inv_accounted aton ⟨h.inv, h.accounted⟩ evs
  exact ⟨hrun.2, hrun.1⟩

/-- One server is set. -/
def resting : State where
  table _ := ⟨0, [], 0, .unused, 0, 0, 0, 0, none, fun _ => 0⟩
  requests _ := ⟨none, ⟨0, by decide⟩⟩
  pcbs _ := none
  lastPcbIdx := ⟨0, by decide⟩
  seqno := 0
  servers
    | 0 => [10, 0, 0, 1]
    | _ => [0, 0, 0, 0]
  sent := []
  promised := []
  called := []

theorem resting_fresh : Fresh resting := ⟨fun _ => rfl, fun _ => rfl, fun _ => rfl, rfl, rfl⟩

def someEnv : Env := ⟨fun _ => some fun _ => 0, some 1053, [7]⟩

/-- A lookup of "irc". -/
def ircCaller : Caller := ⟨1, ⟨[105, 114, 99], by decide⟩⟩

def noNumber : List UInt8 → Option Addr := fun _ => none

/-- Nobody answers: one call, with NULL, at the seventh tick. -/
theorem unanswered_called_once :
    (run (step noNumber) resting (.gethostbyname someEnv ircCaller :: List.replicate 7 (.tmr someEnv))).called =
        [(ircCaller, none)] ∧
      Inv (run (step noNumber) resting (.gethostbyname someEnv ircCaller :: List.replicate 7 (.tmr someEnv))) :=
  ⟨by decide +kernel, (called_once noNumber resting_fresh _).2⟩

/-! ## No lookup waits for ever -/

/-- A caller is called between two states. -/
def Served (s s' : State) (c : Caller) : Prop := ∃ addr, (c, addr) ∈ s'.called.drop s.called.length

/-- A caller that waits for an entry goes on waiting, no longer than before. -/
structure Waits (s : State) (r : Fin DNS_MAX_REQUESTS) (c : Caller) (i : Fin DNS_TABLE_SIZE) (n : Nat) : Prop where
  request : s.requests r = ⟨some c, i⟩
  asks : (s.table i).Asking
  left : ticksLeft (s.table i) ≤ n

theorem Move.grows {P : Option Addr → Prop} {s s' : State} (hm : Move P s s') : s.called <+: s'.called := by
  cases hm with
  | quiet same => rw [same.called]
  | close =>
    rw [setEntry_called, dnsCallFound_called]
    exact List.prefix_append ..
  | _ => exact List.prefix_rfl

theorem Moves.grows {P : Option Addr → Prop} {s s' : State} (hm : Moves P s s') : s.called <+: s'.called := by
  induction hm with
  | refl => exact List.prefix_rfl
  | tail _ hm ih => exact ih.trans hm.grows

theorem Served.mono {s t u : State} {c : Caller} (h : Served s t c) (htu : t.called <+: u.called) : Served s u c := by
  obtain ⟨addr, hmem⟩ := h
  exact ⟨addr, (htu.drop _).subset hmem⟩

theorem Served.of_later {s t u : State} {c : Caller} (hst : s.called <+: t.called) (h : Served t u c) : Served s u c := by
  obtain ⟨addr, hmem⟩ := h
  exact ⟨addr, List.drop_subset_drop_left _ hst.length_le hmem⟩

theorem served_close {s : State} {r : Fin DNS_MAX_REQUESTS} {c : Caller} {i : Fin DNS_TABLE_SIZE}
    (h : s.requests r = ⟨some c, i⟩) (addr : Option Addr) (e : Entry) :
    Served s (setEntry (dnsCallFound s i addr) i e) c := by
  have hmem := mem_callsOf (s := s) (r := r) (c := c) (by rw [h]) addr
  rw [h] at hmem
  refine ⟨addr, ?_⟩
  rw [setEntry_called, dnsCallFound_called, List.drop_left]
  exact hmem

theorem Move.waits {P : Option Addr → Prop} {s s' : State} (hm : Move P s s') {r : Fin DNS_MAX_REQUESTS} {c : Caller} {i : Fin DNS_TABLE_SIZE}
    {n : Nat} (h : Waits s r c i n) : Waits s' r c i n ∨ Served s s' c := by
  -- a request that is given to a caller was free
  have hother : ∀ {r'}, (s.requests r').found = none → r ≠ r' := by
    rintro r' hfree rfl
    rw [h.request] at hfree
    cases hfree
  cases hm with
  | quiet same =>
    left
    exact ⟨by rw [same.requests, h.request], by rw [same.table]; exact h.asks, by rw [same.table]; exact h.left⟩
  | forget k free => exact Or.inl ⟨(setRequest_ne _ _ _ (hother free)).trans h.request, h.asks, h.left⟩
  | join free => exact Or.inl ⟨(setRequest_ne _ _ _ (hother free)).trans h.request, h.asks, h.left⟩
  | @start _ k _ _ _ port free idle =>
    left
    have hik : i ≠ k := by
      rintro rfl
      exact idle h.asks
    refine ⟨(setRequest_ne _ _ _ (hother free)).trans h.request, ?_, ?_⟩
    · rw [promise_table, setRequest_table, setEntry_ne _ _ _ hik]
      exact h.asks
    · rw [promise_table, setRequest_table, setEntry_ne _ _ _ hik]
      exact h.left
  | @idle k _ idle =>
    left
    have hik : i ≠ k := by
      rintro rfl
      exact idle h.asks
    exact ⟨h.request, by rw [setEntry_ne _ _ _ hik]; exact h.asks, by rw [setEntry_ne _ _ _ hik]; exact h.left⟩
  | @again k e same less =>
    left
    by_cases hik : i = k
    · subst hik
      exact ⟨h.request, by rw [setEntry_self]; exact same.asks, by rw [setEntry_self]; exact less.trans h.left⟩
    · exact ⟨h.request, by rw [setEntry_ne _ _ _ hik]; exact h.asks, by rw [setEntry_ne _ _ _ hik]; exact h.left⟩
  | @close k e addr =>
    by_cases hik : i = k
    · subst hik
      exact Or.inr (served_close h.request addr e)
    · left
      refine ⟨?_, ?_, ?_⟩
      · rw [setEntry_requests, dnsCallFound_requests, h.request, if_neg hik]
      · rw [setEntry_ne _ _ _ hik, dnsCallFound_ne _ _ _ hik]
        exact h.asks
      · rw [setEntry_ne _ _ _ hik, dnsCallFound_ne _ _ _ hik]
        exact h.left

theorem Moves.waits {P : Option Addr → Prop} {s s' : State} (hm : Moves P s s') {r : Fin DNS_MAX_REQUESTS} {c : Caller} {i : Fin DNS_TABLE_SIZE}
    {n : Nat} (h : Waits s r c i n) : Waits s' r c i n ∨ Served s s' c := by
  induction hm with
  | refl => exact Or.inl h
  | tail hms hm ih =>
    rcases ih with hw | hserved
    · exact (hm.waits hw).imp_right (Served.of_later (Moves.grows hms))
    · exact Or.inr (hserved.mono hm.grows)

/-- The turn of the entry itself: a tick less. -/
theorem Ticked.waits {s s' : State} {r : Fin DNS_MAX_REQUESTS} {c : Caller} {i : Fin DNS_TABLE_SIZE} {n : Nat}
    (ht : Ticked s i s') (h : Waits s r c i (n + 1)) : Waits s' r c i n ∨ Served s s' c := by
  rcases ht with ⟨e, ha, hlt, hquiet⟩ | ⟨e, -, rfl⟩
  · have hleft := h.left
    refine Or.inl ⟨by rw [hquiet.requests]; exact h.request, ?_, ?_⟩
    · rw [hquiet.table, setEntry_self]
      exact ha.asks
    · rw [hquiet.table, setEntry_self]
      omega
  · exact Or.inr (served_close h.request none e)

/-- A tick of `dns_tmr` comes to every entry. -/
theorem dnsCheckEntries_waits (env : Env) {s : State} (hinv : Inv s) {r : Fin DNS_MAX_REQUESTS} {c : Caller}
    {i : Fin DNS_TABLE_SIZE} {n : Nat} (h : Waits s r c i (n + 1)) :
    Waits (dnsCheckEntries env s) r c i n ∨ Served s (dnsCheckEntries env s) c := by
  obtain ⟨before, after, hsplit⟩ := List.append_of_mem (List.mem_finRange i)
  rw [dnsCheckEntries, hsplit, List.foldl_append, List.foldl_cons]
  have hbefore := foldl_moves env before hinv
  generalize before.foldl (dnsCheckEntry env) s = t at hbefore ⊢
  have hinv := hbefore.inv hinv
  have hturn := dnsCheckEntry_moves env hinv i
  have hafter := foldl_moves env after (hturn.inv hinv)
  rcases hbefore.waits h with hw | hserved
  · rcases (dnsCheckEntry_asking env hw.asks (hinv.timed i hw.asks)).waits hw with hw | hserved
    · exact (hafter.waits hw).imp_right (Served.of_later (hbefore.grows.trans hturn.grows))
    · exact Or.inr ((Served.of_later hbefore.grows hserved).mono hafter.grows)
  · exact Or.inr (hserved.mono (hturn.grows.trans hafter.grows))

theorem ticksLeft_le {e : Entry} (h : Timed e) : ticksLeft e ≤ 14 := by
  have hle := h.le
  have hretries := h.retries
  rw [ticksLeft]
  generalize e.retries.toNat = n at *
  rcases n with _ | _ | _ | _ | n
  all_goals simp only [waits]; omega

def Ev.isTick : Ev → Bool
  | .tmr _ => true
  | _ => false

theorem run_grows (aton : List UInt8 → Option Addr) {s : State} (h : Inv s) (evs : List Ev) :
    s.called <+: (run (step aton) s evs).called := by
  induction evs generalizing s with
  | nil => exact List.prefix_rfl
  | cons ev evs ih => exact (step_moves aton h ev).grows.trans (ih ((step_moves aton h ev).inv h))

theorem served_of_ticks (aton : List UInt8 → Option Addr) {s : State} (hinv : Inv s) {r : Fin DNS_MAX_REQUESTS}
    {c : Caller} {i : Fin DNS_TABLE_SIZE} {n : Nat} (h : Waits s r c i n) {evs : List Ev} (hn : n ≤ evs.countP Ev.isTick) :
    Served s (run (step aton) s evs) c := by
  induction evs generalizing s n with
  | nil =>
    -- somebody waits, so at least one tick is left
    have hpos := (hinv.timed i h.asks).pos
    have hleft := h.left
    rw [ticksLeft] at hleft
    rw [List.countP_nil] at hn
    omega
  | cons ev evs ih =>
    have hmoves := step_moves aton hinv ev
    have hrest := run_grows aton (hmoves.inv hinv) evs
    have hstep : ∀ m, m ≤ evs.countP Ev.isTick → Waits (step aton s ev) r c i m ∨ Served s (step aton s ev) c →
        Served s (run (step aton) s (ev :: evs)) c := by
      intro m hm hor
      rcases hor with hw | hserved
      · exact Served.of_later hmoves.grows (ih (hmoves.inv hinv) hw hm)
      · exact hserved.mono hrest
    rw [List.countP_cons] at hn
    cases ev with
    | tmr env =>
      have hn : n ≤ evs.countP Ev.isTick + 1 := hn
      exact hstep _ (Nat.le_refl _) (dnsCheckEntries_waits env hinv ⟨h.request, h.asks, h.left.trans hn⟩)
    | gethostbyname env c' => exact hstep n hn (hmoves.waits h)
    | recv env p addr => exact hstep n hn (hmoves.waits h)
    | setserver numdns addr => exact hstep n hn (hmoves.waits h)

/-- Whoever is promised a call is called within 14 ticks of `dns_tmr`, whatever packets come
    and whatever else is asked. -/
theorem called_in_time (aton : List UInt8 → Option Addr) {s : State} (h : Fresh s) (before evs : List Ev)
    {c : Caller} (hc : c ∈ outstanding (run (step aton) s before)) (hticks : 14 ≤ evs.countP Ev.isTick) :
    Served (run (step aton) s before) (run (step aton) s (before ++ evs)) c := by
  have hinv := (run_inv_accounted aton ⟨h.inv, h.accounted⟩ before).1
  rw [run_append]
  obtain ⟨r, hr⟩ := mem_slots.mp hc
  have hask := (hinv.waiting r c hr).1
  have hrequest : (run (step aton) s before).requests r = ⟨some c, ((run (step aton) s before).requests r).dnsTableIdx⟩ := by
    rw [← hr]
  exact served_of_ticks aton hinv ⟨hrequest, hask, ticksLeft_le (hinv.timed _ hask)⟩ hticks

theorem unanswered_called_in_time :
    ircCaller ∈ outstanding (run (step noNumber) resting [.gethostbyname someEnv ircCaller]) ∧
      Served (run (step noNumber) resting [.gethostbyname someEnv ircCaller])
        (run (step noNumber) resting ([.gethostbyname someEnv ircCaller] ++ List.replicate 14 (.tmr someEnv))) ircCaller := by
  have hwaits : ircCaller ∈ outstanding (run (step noNumber) resting [.gethostbyname someEnv ircCaller]) := by
    decide +kernel
  exact ⟨hwaits, called_in_time noNumber resting_fresh _ _ hwaits (by decide)⟩

end Nanotube.Lwip.Dns
