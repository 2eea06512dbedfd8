/-
  Nanotube.Lwip.Dns.Table — what can happen to the resolver's table? (src/lwIP/core/dns.c)

  Every function of the resolver comes down to a few moves: an entry is asked for a caller,
  a caller joins an entry that is asked, an entry is asked again, its callers are called,
  or an entry that is not asked ages. Each keeps `Inv`: who waits, waits for an entry that
  is asked for its name; an entry that is asked has somebody waiting, a live UDP port and an
  id of its own; and no port is kept without an entry that asks with it (`Move.inv`).
-/

import Nanotube.Lwip.Dns.Model
import Mathlib.Logic.Relation

namespace Nanotube.Lwip.Dns

/-! ## What can happen to the table -/

/-- The ticks for the attempts behind `retries`, at one server. -/
def waits : Nat → Nat
  | 0 => 1 + 2 + 3
  | 1 => 2 + 3
  | 2 => 3
  | _ => 0

/-- The ticks until an entry that is asked is given up. -/
def ticksLeft (e : Entry) : Nat := e.tmr.toNat + waits e.retries.toNat + 7 * (1 - e.serverIdx)

structure Timed (e : Entry) : Prop where
  pos : 0 < e.tmr.toNat
  le : e.tmr.toNat ≤ max 1 e.retries.toNat
  retries : e.retries.toNat < 4
  server : e.serverIdx < DNS_MAX_SERVERS

def setPcb (s : State) (j : Fin DNS_MAX_SOURCE_PORTS) (port : UInt16) : State :=
  { s with pcbs := Function.update s.pcbs j (some port) }

/-- Only queries, servers and counters change. -/
structure Quiet (s s' : State) : Prop where
  table : s'.table = s.table
  requests : s'.requests = s.requests
  pcbs : s'.pcbs = s.pcbs
  called : s'.called = s.called
  promised : s'.promised = s.promised

/-- An entry that is asked, with another server or timer. -/
structure Again (s : State) (i : Fin DNS_TABLE_SIZE) (e : Entry) : Prop where
  was : (s.table i).Asking
  asks : e.Asking
  txid : e.txid = (s.table i).txid
  pcb : e.pcbIdx = (s.table i).pcbIdx
  name : e.name = (s.table i).name
  timed : Timed e

/-- What one function can do to the table; `P` are the answers that it may give. -/
inductive Move (P : Option Addr → Prop) (s : State) : State → Prop
  | quiet {s' : State} (same : Quiet s s') : Move P s s'
  | forget {r : Fin DNS_MAX_REQUESTS} (i : Fin DNS_TABLE_SIZE) (free : (s.requests r).found = none) :
      Move P s (setRequest s r ⟨none, i⟩)
  /-- a caller waits for an entry that is asked already -/
  | join {r : Fin DNS_MAX_REQUESTS} {i : Fin DNS_TABLE_SIZE} {c : Caller} (free : (s.requests r).found = none)
      (asks : (s.table i).Asking) (names : Holds (s.table i).name c.hostname.val) :
      Move P s (promise (setRequest s r ⟨some c, i⟩) c)
  /-- an entry is asked for a caller, with an id of its own -/
  | start {r : Fin DNS_MAX_REQUESTS} {i : Fin DNS_TABLE_SIZE} {j : Fin DNS_MAX_SOURCE_PORTS} {c : Caller} {e : Entry}
      (port : UInt16) (free : (s.requests r).found = none) (idle : ¬ (s.table i).Asking) (asks : e.Asking)
      (txid : ∀ k, (s.table k).Asking → (s.table k).txid ≠ e.txid) (timed : Timed e) (pcb : e.pcbIdx = some j)
      (names : Holds e.name c.hostname.val) :
      Move P s (promise (setRequest (setEntry (setPcb s j port) i e) r ⟨some c, i⟩) c)
  /-- an entry that is not asked ages, or is dropped -/
  | idle {i : Fin DNS_TABLE_SIZE} {e : Entry} (idle : ¬ (s.table i).Asking) (rests : e.state = .unused ∨ e.state = .done) :
      Move P s (setEntry s i e)
  | again {i : Fin DNS_TABLE_SIZE} {e : Entry} (same : Again s i e) (less : ticksLeft e ≤ ticksLeft (s.table i)) :
      Move P s (setEntry s i e)
  /-- the callers of an entry are called -/
  | close {i : Fin DNS_TABLE_SIZE} {e : Entry} {addr : Option Addr} (gives : P addr) (was : (s.table i).Asking)
      (rests : e.state = .unused ∨ e.state = .done) : Move P s (setEntry (dnsCallFound s i addr) i e)

/-- What holds between the calls into the resolver. -/
structure Inv (s : State) : Prop where
  waiting : ∀ r c, (s.requests r).found = some c →
    (s.table (s.requests r).dnsTableIdx).Asking ∧ Holds (s.table (s.requests r).dnsTableIdx).name c.hostname.val
  asked : ∀ i, (s.table i).Asking → ∃ r, (s.requests r).found ≠ none ∧ (s.requests r).dnsTableIdx = i
  port : ∀ i, (s.table i).Asking → ∃ j, (s.table i).pcbIdx = some j ∧ s.pcbs j ≠ none
  used : ∀ j, s.pcbs j ≠ none → ∃ i, (s.table i).Asking ∧ (s.table i).pcbIdx = some j
  txids : ∀ i k, (s.table i).Asking → (s.table k).Asking → (s.table i).txid = (s.table k).txid → i = k
  timed : ∀ i, (s.table i).Asking → Timed (s.table i)
  settled : ∀ i, (s.table i).state ≠ .new

theorem not_asking_of_rests {e : Entry} (h : e.state = .unused ∨ e.state = .done) : ¬ e.Asking := by
  rcases h with h | h <;> simp [Entry.Asking, h]

theorem not_new_of_rests {e : Entry} (h : e.state = .unused ∨ e.state = .done) : e.state ≠ .new := by
  rcases h with h | h <;> simp [h]

/-- An entry that is not asked can be replaced by another such entry. -/
theorem Inv.setEntry_idle {s : State} (h : Inv s) {i : Fin DNS_TABLE_SIZE} {e : Entry} (idle : ¬ (s.table i).Asking)
    (rests : e.state = .unused ∨ e.state = .done) : Inv (setEntry s i e) := by
  have hask : ∀ k, ((setEntry s i e).table k).Asking ↔ (s.table k).Asking := by
    intro k
    by_cases hk : k = i
    · subst hk
      rw [setEntry_self]
      exact iff_of_false (not_asking_of_rests rests) idle
    · rw [setEntry_ne _ _ _ hk]
  have hkeep : ∀ k, (s.table k).Asking → (setEntry s i e).table k = s.table k := by
    intro k hk
    exact setEntry_ne _ _ _ (by rintro rfl; exact idle hk)
  refine ⟨fun r c hr => ?_, fun k hk => h.asked k ((hask k).mp hk), fun k hk => ?_, fun j hj => ?_, fun k l hk hl heq => ?_,
    fun k hk => ?_, fun k => ?_⟩
  · have hw := h.waiting r c hr
    exact (hkeep _ hw.1).symm ▸ hw
  · have hk := (hask k).mp hk
    exact (hkeep k hk).symm ▸ h.port k hk
  · obtain ⟨k, hk⟩ := h.used j hj
    exact ⟨k, (hkeep k hk.1).symm ▸ hk⟩
  · rw [hask] at hk hl
    rw [hkeep k hk, hkeep l hl] at heq
    exact h.txids k l hk hl heq
  · have hk := (hask k).mp hk
    exact (hkeep k hk).symm ▸ h.timed k hk
  · by_cases hk : k = i
    · subst hk
      rw [setEntry_self]
      exact not_new_of_rests rests
    · rw [setEntry_ne _ _ _ hk]
      exact h.settled k

/-- An entry that is asked may change its server and its timer. -/
theorem Inv.setEntry_again {s : State} (h : Inv s) {i : Fin DNS_TABLE_SIZE} {e : Entry} (ha : Again s i e) :
    Inv (setEntry s i e) := by
  have hsame : ∀ k, ((setEntry s i e).table k).state = (s.table k).state ∧
      ((setEntry s i e).table k).txid = (s.table k).txid ∧ ((setEntry s i e).table k).pcbIdx = (s.table k).pcbIdx ∧
      ((setEntry s i e).table k).name = (s.table k).name := by
    intro k
    by_cases hk : k = i
    · subst hk
      rw [setEntry_self]
      exact ⟨ha.asks.trans ha.was.symm, ha.txid, ha.pcb, ha.name⟩
    · rw [setEntry_ne _ _ _ hk]
      exact ⟨rfl, rfl, rfl, rfl⟩
  refine ⟨fun r c hr => ?_, fun k hk => ?_, fun k hk => ?_, fun j hj => ?_, fun k l hk hl heq => ?_, fun k hk => ?_,
    fun k => ?_⟩
  · rw [Entry.Asking, (hsame _).1, (hsame _).2.2.2]
    exact h.waiting r c hr
  · exact h.asked k ((hsame k).1.symm.trans hk)
  · rw [(hsame k).2.2.1]
    exact h.port k ((hsame k).1.symm.trans hk)
  · obtain ⟨k, hk, hj⟩ := h.used j hj
    exact ⟨k, (hsame k).1.trans hk, (hsame k).2.2.1.trans hj⟩
  · rw [(hsame k).2.1, (hsame l).2.1] at heq
    exact h.txids k l ((hsame k).1.symm.trans hk) ((hsame l).1.symm.trans hl) heq
  · by_cases hki : k = i
    · subst hki
      rw [setEntry_self]
      exact ha.timed
    · rw [setEntry_ne _ _ _ hki] at hk ⊢
      exact h.timed k hk
  · rw [(hsame k).1]
    exact h.settled k

/-- A free request may be given to a caller that waits for an entry that is asked. -/
theorem Inv.give {s : State} (h : Inv s) {r : Fin DNS_MAX_REQUESTS} {q : Request}
    (free : (s.requests r).found = none)
    (names : ∀ c, q.found = some c → (s.table q.dnsTableIdx).Asking ∧ Holds (s.table q.dnsTableIdx).name c.hostname.val) :
    Inv (setRequest s r q) := by
  refine ⟨fun r' c hr => ?_, fun k hk => ?_, h.port, h.used, h.txids, h.timed, h.settled⟩
  · by_cases hrr : r' = r
    · subst hrr
      rw [setRequest_self] at hr ⊢
      exact names c hr
    · rw [setRequest_ne _ _ _ hrr] at hr ⊢
      exact h.waiting r' c hr
  · obtain ⟨r', hfound, hidx⟩ := h.asked k hk
    have hrr : r' ≠ r := by
      rintro rfl
      exact hfound free
    exact ⟨r', by rwa [setRequest_ne _ _ _ hrr], by rwa [setRequest_ne _ _ _ hrr]⟩

theorem Inv.close {s : State} (h : Inv s) {i : Fin DNS_TABLE_SIZE} {e : Entry} (addr : Option Addr)
    (rests : e.state = .unused ∨ e.state = .done) : Inv (setEntry (dnsCallFound s i addr) i e) := by
  have hne : ∀ {k}, ((setEntry (dnsCallFound s i addr) i e).table k).Asking → k ≠ i := by
    rintro k hk rfl
    rw [setEntry_self] at hk
    exact not_asking_of_rests rests hk
  have htable : ∀ {k}, k ≠ i → (setEntry (dnsCallFound s i addr) i e).table k = s.table k := by
    intro k hk
    rw [setEntry_ne _ _ _ hk, dnsCallFound_ne _ _ _ hk]
  -- the requests that are left are those for other entries, as they were
  have hreq : ∀ r c, ((setEntry (dnsCallFound s i addr) i e).requests r).found = some c →
      (s.requests r).dnsTableIdx ≠ i ∧ (dnsCallFound s i addr).requests r = s.requests r := by
    intro r c hr
    rw [setEntry_requests, dnsCallFound_requests] at hr
    rw [dnsCallFound_requests]
    by_cases hi : (s.requests r).dnsTableIdx = i
    · rw [if_pos hi] at hr
      cases hr
    · exact ⟨hi, if_neg hi⟩
  refine ⟨fun r c hr => ?_, fun k hk => ?_, fun k hk => ?_, fun j hj => ?_, fun k l hk hl heq => ?_, fun k hk => ?_,
    fun k => ?_⟩
  · obtain ⟨hi, heq⟩ := hreq r c hr
    rw [setEntry_requests, heq] at hr ⊢
    rw [htable hi]
    exact h.waiting r c hr
  · have hki := hne hk
    rw [htable hki] at hk
    obtain ⟨r, hfound, hidx⟩ := h.asked k hk
    refine ⟨r, ?_, ?_⟩ <;> rw [setEntry_requests, dnsCallFound_requests, if_neg (hidx ▸ hki)]
    exacts [hfound, hidx]
  · have hki := hne hk
    rw [htable hki] at hk ⊢
    obtain ⟨j, hpcb, hj⟩ := h.port k hk
    refine ⟨j, hpcb, ?_⟩
    rw [setEntry_pcbs, dnsCallFound_pcbs, if_neg (fun hrel => hrel.2 k hki hk hpcb)]
    exact hj
  · rw [setEntry_pcbs, dnsCallFound_pcbs] at hj
    split at hj
    · exact absurd rfl hj
    · next hkept =>
      obtain ⟨k, hk, hpcb⟩ := h.used j hj
      by_cases hki : k = i
      · subst hki
        simp only [hpcb, true_and, not_forall, not_not] at hkept
        obtain ⟨l, hl, hask, hlj⟩ := hkept
        exact ⟨l, by rw [htable hl]; exact ⟨hask, hlj⟩⟩
      · exact ⟨k, by rw [htable hki]; exact ⟨hk, hpcb⟩⟩
  · have hki := hne hk
    have hli := hne hl
    rw [htable hki] at hk heq
    rw [htable hli] at hl heq
    exact h.txids k l hk hl heq
  · have hki := hne hk
    rw [htable hki] at hk ⊢
    exact h.timed k hk
  · by_cases hki : k = i
    · subst hki
      rw [setEntry_self]
      exact not_new_of_rests rests
    · rw [htable hki]
      exact h.settled k

/-- A free request and an entry that is not asked, for a new question. -/
theorem Inv.start {s : State} (h : Inv s) {r : Fin DNS_MAX_REQUESTS} {i : Fin DNS_TABLE_SIZE}
    {j : Fin DNS_MAX_SOURCE_PORTS} {c : Caller} {e : Entry} (port : UInt16) (free : (s.requests r).found = none)
    (idle : ¬ (s.table i).Asking) (asks : e.Asking) (txid : ∀ k, (s.table k).Asking → (s.table k).txid ≠ e.txid)
    (timed : Timed e) (pcb : e.pcbIdx = some j) (names : Holds e.name c.hostname.val) :
    Inv (setRequest (setEntry (setPcb s j port) i e) r ⟨some c, i⟩) := by
  have htable : ∀ {k}, k ≠ i → (setEntry (setPcb s j port) i e).table k = s.table k := fun hk => setEntry_ne _ _ _ hk
  have hpcbs : ∀ {k}, s.pcbs k ≠ none → (setPcb s j port).pcbs k ≠ none := by
    intro k hk
    by_cases hkj : k = j
    · subst hkj
      simp [setPcb]
    · simpa [setPcb, Function.update_of_ne hkj] using hk
  have hold : ∀ {k}, (s.table k).Asking → k ≠ i := by
    rintro k hk rfl
    exact idle hk
  refine ⟨fun r' c' hr => ?_, fun k hk => ?_, fun k hk => ?_, fun l hl => ?_, fun k l hk hl heq => ?_, fun k hk => ?_,
    fun k => ?_⟩
  · by_cases hrr : r' = r
    · subst hrr
      rw [setRequest_self] at hr ⊢
      cases hr
      rw [setRequest_table, setEntry_self]
      exact ⟨asks, names⟩
    · rw [setRequest_ne _ _ _ hrr] at hr ⊢
      have hw := h.waiting r' c' hr
      rw [setRequest_table]
      exact (htable (hold hw.1)).symm ▸ hw
  · by_cases hki : k = i
    · exact ⟨r, by rw [setRequest_self]; exact ⟨Option.some_ne_none c, hki.symm⟩⟩
    · rw [setRequest_table, htable hki] at hk
      obtain ⟨r', hfound, hidx⟩ := h.asked k hk
      have hrr : r' ≠ r := by
        rintro rfl
        exact hfound free
      exact ⟨r', by rw [setRequest_ne _ _ _ hrr]; exact ⟨hfound, hidx⟩⟩
  · rw [setRequest_table] at hk ⊢
    by_cases hki : k = i
    · subst hki
      rw [setEntry_self]
      exact ⟨j, pcb, by simp [setPcb]⟩
    · rw [htable hki] at hk ⊢
      obtain ⟨j', hj', hlive⟩ := h.port k hk
      exact ⟨j', hj', hpcbs hlive⟩
  · by_cases hlj : l = j
    · exact ⟨i, by rw [setRequest_table, setEntry_self]; exact ⟨asks, hlj ▸ pcb⟩⟩
    · have hl : s.pcbs l ≠ none := by simpa [setPcb, Function.update_of_ne hlj] using hl
      obtain ⟨k, hk⟩ := h.used l hl
      exact ⟨k, by rw [setRequest_table, htable (hold hk.1)]; exact hk⟩
  · rw [setRequest_table] at hk hl heq
    by_cases hki : k = i <;> by_cases hli : l = i
    · rw [hki, hli]
    · subst hki
      rw [htable hli] at hl heq
      rw [setEntry_self] at heq
      exact absurd heq.symm (txid l hl)
    · subst hli
      rw [htable hki] at hk heq
      rw [setEntry_self] at heq
      exact absurd heq (txid k hk)
    · rw [htable hki] at hk heq
      rw [htable hli] at hl heq
      exact h.txids k l hk hl heq
  · rw [setRequest_table] at hk ⊢
    by_cases hki : k = i
    · subst hki
      rw [setEntry_self]
      exact timed
    · rw [htable hki] at hk ⊢
      exact h.timed k hk
  · rw [setRequest_table]
    by_cases hki : k = i
    · subst hki
      rw [setEntry_self, asks]
      exact EntryState.noConfusion
    · rw [htable hki]
      exact h.settled k

theorem Inv.of_fields {s s' : State} (h : Inv s) (htable : s'.table = s.table) (hrequests : s'.requests = s.requests)
    (hpcbs : s'.pcbs = s.pcbs) : Inv s' := by
  constructor
  · rw [hrequests, htable]; exact h.waiting
  · rw [hrequests, htable]; exact h.asked
  · rw [hpcbs, htable]; exact h.port
  · rw [hpcbs, htable]; exact h.used
  · rw [htable]; exact h.txids
  · rw [htable]; exact h.timed
  · rw [htable]; exact h.settled

theorem Move.inv {P : Option Addr → Prop} {s s' : State} (hm : Move P s s') (h : Inv s) : Inv s' := by
  cases hm with
  | quiet same => exact h.of_fields same.table same.requests same.pcbs
  | forget i free => exact h.give free fun c hc => (nomatch hc)
  | join free asks names =>
    refine (h.give free fun c' hc' => ?_).of_fields rfl rfl rfl
    cases hc'
    exact ⟨asks, names⟩
  | start port free idle asks txid timed pcb names =>
    exact (h.start port free idle asks txid timed pcb names).of_fields rfl rfl rfl
  | idle idle rests => exact h.setEntry_idle idle rests
  | again same => exact h.setEntry_again same
  | close gives was rests => exact h.close _ rests

/-- Several of them. -/
def Moves (P : Option Addr → Prop) : State → State → Prop := Relation.ReflTransGen (Move P)

theorem Moves.refl {P : Option Addr → Prop} (s : State) : Moves P s s := Relation.ReflTransGen.refl

/-- Nobody is told an address. -/
def Unanswered (addr : Option Addr) : Prop := addr = none

theorem Move.any {P : Option Addr → Prop} {s s' : State} (hm : Move P s s') : Move (fun _ => True) s s' := by
  cases hm with
  | quiet same => exact Move.quiet same
  | forget i free => exact Move.forget i free
  | join free asks names => exact Move.join free asks names
  | start port free idle asks txid timed pcb names => exact Move.start port free idle asks txid timed pcb names
  | idle idle rests => exact Move.idle idle rests
  | again same less => exact Move.again same less
  | close gives was rests => exact Move.close trivial was rests

theorem Moves.any {P : Option Addr → Prop} {s s' : State} (hm : Moves P s s') : Moves (fun _ => True) s s' := by
  induction hm with
  | refl => exact Moves.refl _
  | tail _ hm ih => exact Relation.ReflTransGen.tail ih hm.any

theorem Moves.inv {P : Option Addr → Prop} {s s' : State} (hm : Moves P s s') (h : Inv s) : Inv s' := by
  induction hm with
  | refl => exact h
  | tail _ hm ih => exact hm.inv ih

end Nanotube.Lwip.Dns
