/-
  Nanotube.Lwip.Arp.Resolution — does a packet that waits for an address get away?
  (src/lwIP/core/ipv4/etharp.c)

  Proved:
  - whatever else happens, five ticks of `etharp_tmr` after the cache took a reference to a
    packet it has given it back (`given_back_in_time`).
  - the first packet for a neighbour makes the cache ask for it; the answer of the neighbour
    to that question, whenever it comes, sends the packet that waits, to the neighbour, which
    by then knows where the answer to the packet has to go (`exchange`).
-/

import Nanotube.Lwip.Arp.Cache

namespace Nanotube.Lwip.Arp

open Nanotube.Lib.Runs Nanotube.Lib.Slots

/-! ## Packets that wait are given back -/

/-- `old` are packets that were there before: each is where it was, for at least `age` ticks,
    or was given back. -/
structure Owed (taken : List Nat) (old : Idx → Option Nat) (age : Idx → Nat) (s : State) : Prop where
  holds : ∀ i p, old i = some p → (s.arpTable i).q = some p ∧ age i ≤ (s.arpTable i).ctime
  counts : ∀ p, taken.count p ≤ s.freed.count p + (slots old).count p

variable {taken : List Nat} {old : Idx → Option Nat} {age : Idx → Nat}

/-- The packet of an entry is given back. -/
theorem Owed.release {s s' : State} (h : Owed taken old age s) {i : Idx} (hne : ∀ j, j ≠ i → s'.arpTable j = s.arpTable j)
    (hfreed : s'.freed = s.freed ++ (s.arpTable i).q.toList) : Owed taken (Function.update old i none) age s' := by
  refine ⟨fun j p hj => ?_, fun p => ?_⟩
  · by_cases hji : j = i
    · rw [hji, Function.update_self] at hj
      cases hj
    · rw [Function.update_of_ne hji] at hj
      rw [hne j hji]
      exact h.holds j p hj
  · have hslot := count_slots_update old i none p
    have hcounts := h.counts p
    have hq : (old i).toList.count p ≤ (s.arpTable i).q.toList.count p := by
      cases hold : old i with
      | none => exact Nat.zero_le _
      | some q => rw [(h.holds i q hold).1]
    rw [hfreed, List.count_append]
    simp only [Option.toList_none, List.count_nil] at hslot
    omega

/-- The packets stay where they are. -/
theorem Owed.keep {s s' : State} (h : Owed taken old age s) (hfreed : s'.freed = s.freed)
    (htable : ∀ i, old i ≠ none → (s'.arpTable i).q = (s.arpTable i).q ∧ (s.arpTable i).ctime ≤ (s'.arpTable i).ctime) :
    Owed taken old age s' := by
  refine ⟨fun i p hi => ?_, fun p => by rw [hfreed]; exact h.counts p⟩
  obtain ⟨hq, hctime⟩ := htable i (by rw [hi]; exact Option.some_ne_none p)
  obtain ⟨hold, hage⟩ := h.holds i p hi
  exact ⟨hq.trans hold, hage.trans hctime⟩

theorem Owed.old_none {s : State} (h : Owed taken old age s) {i : Idx} (hq : (s.arpTable i).q = none) : old i = none := by
  cases hold : old i with
  | none => rfl
  | some p =>
    rw [(h.holds i p hold).1] at hq
    cases hq

/-- Only one entry is written to. -/
theorem Owed.keep_setEntry {s : State} (h : Owed taken old age s) {i : Idx} {e : Entry}
    (hi : old i ≠ none → e.q = (s.arpTable i).q ∧ (s.arpTable i).ctime ≤ e.ctime) : Owed taken old age (setEntry s i e) := by
  refine h.keep rfl fun j hj => ?_
  by_cases hji : j = i
  · subst hji
    rw [setEntry_self]
    exact hi hj
  · rw [setEntry_ne _ _ _ hji]
    exact ⟨rfl, Nat.le_refl _⟩

/-- What is owed gets less only. -/
def Below (old' old : Idx → Option Nat) : Prop := ∀ i, old' i ≠ none → old' i = old i

theorem Below.refl (old : Idx → Option Nat) : Below old old := fun _ _ => rfl

theorem Below.update (old : Idx → Option Nat) (i : Idx) : Below (Function.update old i none) old := by
  intro j hj
  by_cases hji : j = i
  · rw [hji, Function.update_self] at hj
    exact absurd rfl hj
  · rw [Function.update_of_ne hji]

theorem Below.trans {old'' old' : Idx → Option Nat} (h : Below old'' old') (h' : Below old' old) : Below old'' old := by
  intro i hi
  have hi' := h i hi
  rw [hi'] at hi ⊢
  exact h' i hi

theorem Move.owed {s s' : State} (hm : Move s s') (hinv : Inv s) (h : Owed taken old age s) :
    ∃ old', Below old' old ∧ Owed taken old' age s' := by
  cases hm with
  | quiet same => exact ⟨old, Below.refl old, h.keep same.freed fun i _ => by rw [same.table]; exact ⟨rfl, Nat.le_refl _⟩⟩
  | drop i => exact ⟨_, Below.update old i, h.release (fun j hji => setEntry_ne _ _ _ hji) rfl⟩
  | hear => exact ⟨old, Below.refl old, h.keep rfl fun _ _ => ⟨rfl, Nat.le_refl _⟩⟩
  | put free =>
    exact ⟨old, Below.refl old, h.keep_setEntry fun hi => absurd (h.old_none (hinv.q_of_not_live free)) hi⟩
  | touch live on queue age => exact ⟨old, Below.refl old, h.keep_setEntry fun _ => ⟨queue, age⟩⟩
  | @learn i netif ipaddr ethaddr live on =>
    refine ⟨_, Below.update old i, h.release (fun j hji => ?_) (flush_table ..).2.2.2⟩
    rw [Arp.learn, (flush_table ..).1]
    exact setEntry_ne _ _ _ hji
  | @keep i p pending => exact ⟨_, Below.update old i, h.release (fun j hji => setEntry_ne _ _ _ hji) rfl⟩

theorem Moves.owed {s s' : State} (hm : Moves s s') (hinv : Inv s) (h : Owed taken old age s) :
    ∃ old', Below old' old ∧ Owed taken old' age s' := by
  induction hm with
  | refl => exact ⟨old, Below.refl old, h⟩
  | tail hms hm ih =>
    obtain ⟨old', hbelow, howed⟩ := ih
    obtain ⟨old'', hbelow', howed'⟩ := hm.owed (Moves.inv hms hinv) howed
    exact ⟨old'', hbelow'.trans hbelow, howed'⟩

/-- A packet that is still there after the turn of its entry is there for a tick more. -/
theorem tmrEntry_ctime (netifs : Nat → Netif) (mem : Idx → Bool) {s : State} (h : Inv s) (i : Idx)
    (hq : ((tmrEntry netifs mem s i).arpTable i).q ≠ none) :
    (s.arpTable i).ctime + 1 ≤ ((tmrEntry netifs mem s i).arpTable i).ctime := by
  revert hq
  dsimp only [tmrEntry]
  split
  · next hempty => exact fun hq => absurd (h.q_of_not_live (not_not.mpr hempty)) hq
  split
  · intro hq
    rw [etharpFreeEntry_self] at hq
    exact absurd rfl hq
  split
  · rw [setEntry_self]
    exact fun _ => Nat.le_refl _
  · rw [setEntry_self]
    exact fun _ => Nat.le_refl _
  · rw [etharpRequest, etharpRequestDst, (etharpRaw_quiet ..).table, setEntry_self]
    exact fun _ => Nat.le_refl _
  · rw [setEntry_self]
    exact fun _ => Nat.le_refl _

theorem tmrEntry_owed (netifs : Nat → Netif) (mem : Idx → Bool) {s : State} (hinv : Inv s) (i : Idx)
    (h : Owed taken old age s) :
    ∃ old', Owed taken old' (fun j => age j + if j = i then 1 else 0) (tmrEntry netifs mem s i) := by
  obtain ⟨old', hbelow, howed⟩ := (tmrEntry_moves netifs mem hinv i).owed hinv h
  refine ⟨old', fun j p hj => ?_, howed.counts⟩
  obtain ⟨hq, hage⟩ := howed.holds j p hj
  refine ⟨hq, ?_⟩
  by_cases hji : j = i
  · subst hji
    have hold : old j = some p := by
      rw [← hbelow j (by rw [hj]; exact Option.some_ne_none p), hj]
    have hbefore := (h.holds j p hold).2
    have hlater := tmrEntry_ctime netifs mem hinv j (by rw [hq]; exact Option.some_ne_none p)
    rw [if_pos rfl]
    omega
  · rw [if_neg hji]
    exact hage

theorem foldl_tmrEntry_owed (netifs : Nat → Netif) (mem : Idx → Bool) (l : List Idx) {s : State} (hinv : Inv s)
    (h : Owed taken old age s) : ∃ old', Owed taken old' (fun j => age j + l.count j) (l.foldl (tmrEntry netifs mem) s) := by
  induction l generalizing s old age with
  | nil => exact ⟨old, h⟩
  | cons i l ih =>
    obtain ⟨old', howed⟩ := tmrEntry_owed netifs mem hinv i h
    obtain ⟨old'', howed'⟩ := ih ((tmrEntry_moves netifs mem hinv i).inv hinv) howed
    refine ⟨old'', fun j p hj => ?_, howed'.counts⟩
    obtain ⟨hq, hage⟩ := howed'.holds j p hj
    refine ⟨hq, Nat.le_trans (Nat.le_of_eq ?_) hage⟩
    rw [List.count_cons]
    by_cases hji : j = i
    · subst hji
      simp only [beq_self_eq_true, if_true]
      omega
    · simp only [if_neg hji, beq_eq_false_iff_ne.mpr (Ne.symm hji), Bool.false_eq_true, if_false]
      omega

theorem etharpTmr_owed (netifs : Nat → Netif) (mem : Idx → Bool) {s : State} (hinv : Inv s) {k : Nat}
    (h : Owed taken old (fun _ => k) s) : ∃ old', Owed taken old' (fun _ => k + 1) (etharpTmr netifs mem s) := by
  obtain ⟨old', howed⟩ := foldl_tmrEntry_owed netifs mem (List.finRange ARP_TABLE_SIZE) hinv h
  rw [← etharpTmr] at howed
  have honce : ∀ j : Idx, (List.finRange ARP_TABLE_SIZE).count j = 1 := fun j =>
    List.count_eq_one_of_mem (List.nodup_finRange _) (List.mem_finRange j)
  simp only [honce] at howed
  exact ⟨old', howed⟩

def Ev.isTick : Ev → Bool
  | .tmr .. => true
  | _ => false

theorem step_owed {s : State} (hinv : Inv s) (ev : Ev) {k : Nat} (h : Owed taken old (fun _ => k) s) :
    ∃ old', Owed taken old' (fun _ => k + ev.isTick.toNat) (step s ev) := by
  cases ev with
  | tmr netifs mem => exact etharpTmr_owed netifs mem hinv h
  | _ =>
    obtain ⟨old', _, howed⟩ := (step_moves hinv _).owed hinv h
    exact ⟨old', howed⟩

theorem run_owed {s : State} (hinv : Inv s) (evs : List Ev) {k : Nat} (h : Owed taken old (fun _ => k) s) :
    ∃ old', Owed taken old' (fun _ => k + evs.countP Ev.isTick) (run step s evs) := by
  induction evs generalizing s old k with
  | nil => exact ⟨old, h⟩
  | cons ev evs ih =>
    obtain ⟨old', howed⟩ := step_owed hinv ev h
    obtain ⟨old'', howed'⟩ := ih ((step_moves hinv ev).inv hinv) howed
    refine ⟨old'', ?_⟩
    have hcount : k + ev.isTick.toNat + evs.countP Ev.isTick = k + (ev :: evs).countP Ev.isTick := by
      rw [List.countP_cons]
      cases ev.isTick
      · rfl
      · simp only [Bool.toNat_true, if_true]
        omega
    rw [← hcount]
    exact howed'

theorem given_back_in_time (before evs : List Ev) (hticks : ARP_MAXPENDING ≤ evs.countP Ev.isTick) (p : Nat) :
    (run step start before).taken.count p ≤ (run step start (before ++ evs)).freed.count p := by
  rw [run_append]
  have hinv := run_start_inv before
  have haccounted := run_start_accounted before
  generalize run step start before = s at hinv haccounted
  have howed : Owed s.taken (fun i => (s.arpTable i).q) (fun _ => 0) s :=
    ⟨fun i p hp => ⟨hp, Nat.zero_le _⟩, fun p => Nat.le_of_eq (haccounted p)⟩
  obtain ⟨old, hend⟩ := run_owed hinv evs howed
  have hinv' : Inv (run step s evs) := run_inv (I := Inv) step (fun _ ev hs => (step_moves hs ev).inv hs) hinv evs
  -- an entry that still has one would be pending for five ticks
  have hnone : ∀ i q, old i ≠ some q := by
    intro i q hi
    obtain ⟨hq, hage⟩ := hend.holds i q hi
    have hpending := (hinv'.entry i).pending ((hinv'.entry i).queue (by rw [hq]; exact Option.some_ne_none q))
    omega
  have hcounts := hend.counts p
  rw [List.count_eq_zero.mpr fun hp => (mem_slots.mp hp).elim fun i => hnone i p] at hcounts
  exact hcounts

/-- Nobody answers for the gateway. -/
theorem unanswered_given_back :
    1 ≤ (run step start ([.output true (some 7) ce 7 0x08080808] ++
      List.replicate 5 (.tmr (fun _ => ce) fun _ => true))).freed.count 7 :=
  given_back_in_time [.output true (some 7) ce 7 0x08080808] (List.replicate 5 (.tmr (fun _ => ce) fun _ => true)) (by decide) 7

/-! ## Question and answer -/

def question (netif : Netif) (ipaddr : Ip) : EtharpHdr :=
  ⟨LWIP_IANA_HWTYPE_ETHERNET, ETHTYPE_IP, ETH_HWADDR_LEN, 4, ARP_REQUEST, netif.hwaddr, netif.ipAddr, ethzero, ipaddr⟩

def answer (netif : Netif) (hwaddr : Mac) (ipaddr : Ip) : EtharpHdr :=
  ⟨LWIP_IANA_HWTYPE_ETHERNET, ETHTYPE_IP, ETH_HWADDR_LEN, 4, ARP_REPLY, netif.hwaddr, netif.ipAddr, hwaddr, ipaddr⟩

/-- A packet waits for the address. -/
def Awaits (s : State) (netif : Nat) (ipaddr : Ip) (p : Nat) : Prop :=
  ∃ i, (s.arpTable i).On ipaddr netif ∧ (s.arpTable i).q = some p

theorem etharpQuery_asks {s : State} (h : Inv s) {netif : Netif} {ipaddr : Ip} (hun : ¬ nonUnicast ipaddr netif)
    (habsent : Absent s ipaddr netif.num) (p : Nat) :
    (etharpQuery s true (some p) netif ipaddr (some p)).arpOut = s.arpOut ++ [⟨netif.num, ethbroadcast, question netif ipaddr⟩] ∧
      Awaits (etharpQuery s true (some p) netif ipaddr (some p)) netif.num ipaddr p := by
  unfold etharpQuery
  rw [if_neg hun]
  rcases etharpFindEntry_cases h ipaddr .tryHard netif.num with ⟨i, _, hlive, hon⟩ | ⟨heq, _⟩ | ⟨s', i, heq, _, hfresh⟩
  · exact absurd hon (habsent i hlive)
  · exact absurd (by rw [heq]) (etharpFindEntry_tryHard s ipaddr netif.num)
  · rw [heq]
    have hpend : pend s' i netif.num = setEntry s' i { s'.arpTable i with state := .pending, netif := netif.num } :=
      if_pos hfresh.state
    simp only [queryEntry, hpend, hfresh.state, etharpRequest, etharpRequestDst, etharpRaw, true_or, if_true, setEntry_self,
      EtharpState.known, Bool.false_eq_true, if_false, enqueue]
    refine ⟨?_, i, ?_⟩
    · show s'.arpOut ++ _ = _
      rw [hfresh.arpOut]
      rfl
    · simp only [setEntry_self, and_true]
      exact ⟨hfresh.on.1, rfl⟩

theorem etharpUpdateArpEntry_knows {s : State} (h : Inv s) {netif : Netif} {ipaddr : Ip} (hun : ¬ nonUnicast ipaddr netif)
    (ethaddr : Mac) :
    (etharpUpdateArpEntry s netif ipaddr ethaddr .tryHard).arpOut = s.arpOut ∧
      Knows (etharpUpdateArpEntry s netif ipaddr ethaddr .tryHard) netif.num ipaddr ethaddr := by
  rcases etharpUpdateArpEntry_cases h netif ipaddr ethaddr .tryHard with
    ⟨hnon, _⟩ | ⟨_, i, _, hon, heq⟩ | ⟨_, _, _, _, harpOut, hknows, _⟩
  · exact absurd hnon hun
  · rw [heq]
    exact ⟨flush_arpOut .., learn_knows s netif ethaddr hon.1⟩
  · exact ⟨harpOut, hknows rfl⟩

theorem etharpInput_answers {s : State} (h : Inv s) {netif from_ : Netif} (hzero : netif.ipAddr ≠ 0)
    (hun : ¬ nonUnicast from_.ipAddr netif) :
    (etharpInput s true netif (question from_ netif.ipAddr)).arpOut =
        s.arpOut ++ [⟨netif.num, from_.hwaddr, answer netif from_.hwaddr from_.ipAddr⟩] ∧
      Knows (etharpInput s true netif (question from_ netif.ipAddr)) netif.num from_.ipAddr from_.hwaddr := by
  obtain ⟨harpOut, hknows⟩ := etharpUpdateArpEntry_knows h hun from_.hwaddr
  have hinput : etharpInput s true netif (question from_ netif.ipAddr) =
      (etharpRaw (etharpUpdateArpEntry s netif from_.ipAddr from_.hwaddr .tryHard) true netif from_.hwaddr from_.hwaddr
        from_.ipAddr ARP_REPLY).1 := by
    simp [etharpInput, question, EtharpHdr.valid, forUs, hzero]
  rw [hinput]
  refine ⟨?_, ?_⟩
  · rw [← harpOut]
    rfl
  · obtain ⟨i, hi⟩ := hknows
    exact ⟨i, hi⟩

theorem etharpInput_delivers {s : State} (h : Inv s) (mem : Bool) {netif neighbour : Netif} (hun : ¬ nonUnicast neighbour.ipAddr netif)
    {p : Nat} (hawaits : Awaits s netif.num neighbour.ipAddr p) (hwaddr : Mac) (ipaddr : Ip) :
    (etharpInput s mem netif (answer neighbour hwaddr ipaddr)).out =
      s.out ++ [⟨netif.num, neighbour.hwaddr, some neighbour.ipAddr, p⟩] := by
  obtain ⟨i, hon, hq⟩ := hawaits
  have hpending := (h.entry i).queue (by rw [hq]; exact Option.some_ne_none p)
  have hlive : (s.arpTable i).Live := by rw [Entry.Live, hpending]; decide
  have hinput : ∃ flag, etharpInput s mem netif (answer neighbour hwaddr ipaddr) =
      etharpUpdateArpEntry s netif neighbour.ipAddr neighbour.hwaddr flag := by
    refine ⟨if forUs netif (answer neighbour hwaddr ipaddr) then .tryHard else .findOnly, ?_⟩
    simp [etharpInput, answer, EtharpHdr.valid, ARP_REPLY, ARP_REQUEST]
  obtain ⟨flag, hinput⟩ := hinput
  rw [hinput]
  rcases etharpUpdateArpEntry_cases h netif neighbour.ipAddr neighbour.hwaddr flag with
    ⟨hnon, _⟩ | ⟨_, j, hlive', hon', heq⟩ | ⟨_, habsent, _⟩
  · exact absurd hnon hun
  · have hij : i = j := h.unique i j hlive hlive' (by rw [hon.1, hon.2]; exact hon')
    rw [heq, ← hij, learn, hq]
    rfl
  · exact absurd hon (habsent i hlive)

theorem live_of_known {e : Entry} (h : e.state.known) : e.Live := by
  intro hempty
  rw [hempty] at h
  cases h

/-- The packet has a next hop that no entry is there for. -/
theorem etharpOutput_of_absent {s : State} {netif : Netif} {ipaddr hop : Ip} (mem : Bool) (keep : Option Nat) (q : Nat)
    (hunicast : ¬ ip4AddrIsbroadcast ipaddr netif ∧ ¬ ip4AddrIsmulticast ipaddr) (hhop : nextHop netif ipaddr = some hop)
    (habsent : Absent s hop netif.num) :
    etharpOutput s mem keep netif q ipaddr = etharpQuery s mem keep netif hop (some q) := by
  have hno : ∀ i, ¬ isFor (s.arpTable i) netif.num hop := by
    intro i hi
    simp only [isFor, Bool.and_eq_true, decide_eq_true_eq] at hi
    exact habsent i (live_of_known hi.1.1) ⟨hi.2.symm, hi.1.2⟩
  rw [etharpOutput, if_neg hunicast.1, if_neg hunicast.2, hhop]
  simp only
  rw [if_neg (hno _), List.find?_eq_none.mpr fun i _ => hno i]

/-- A packet for a next hop that is known is sent at once. -/
theorem etharpOutput_of_knows {s : State} (h : Inv s) {netif : Netif} {ipaddr hop : Ip} {ethaddr : Mac} (mem : Bool)
    (keep : Option Nat) (q : Nat) (hunicast : ¬ ip4AddrIsbroadcast ipaddr netif ∧ ¬ ip4AddrIsmulticast ipaddr)
    (hhop : nextHop netif ipaddr = some hop) (hknows : Knows s netif.num hop ethaddr) :
    (etharpOutput s mem keep netif q ipaddr).out = s.out ++ [⟨netif.num, ethaddr, some hop, q⟩] := by
  obtain ⟨i, hon, hknown, hmac⟩ := hknows
  have hsent : ∀ (s' : State) (j : Idx), s'.arpTable = s.arpTable → s'.out = s.out → isFor (s.arpTable j) netif.num hop →
      (etharpOutputToArpIndex s' mem netif q j).out = s.out ++ [⟨netif.num, ethaddr, some hop, q⟩] := by
    intro s' j htable hout hj
    simp only [isFor, Bool.and_eq_true, decide_eq_true_eq] at hj
    have hij : i = j := h.unique i j (live_of_known hknown) (live_of_known hj.1.1) ⟨by rw [hon.1, hj.2], by rw [hon.2, hj.1.2]⟩
    rw [(etharpOutputToArpIndex_out ..).1, htable, hout, ← hij, hmac, hon.1]
  have hfor : isFor (s.arpTable i) netif.num hop := by
    simp only [isFor, hknown, hon.1, hon.2, decide_true, Bool.and_self]
  rw [etharpOutput, if_neg hunicast.1, if_neg hunicast.2, hhop]
  simp only
  split
  · next hcached => exact hsent s _ rfl rfl hcached
  · split
    · next j hj =>
      have hfound := List.find?_some hj
      exact hsent _ j rfl rfl hfound
    · next hnone => exact absurd hfor (List.find?_eq_none.mp hnone i (List.mem_finRange i))

/-- `neighbour` is on the cable of `netif`, and may be its gateway. -/
structure Neighbours (netif neighbour : Netif) : Prop where
  unicast : ¬ nonUnicast neighbour.ipAddr netif
  unicast' : ¬ nonUnicast netif.ipAddr neighbour
  direct : nextHop neighbour netif.ipAddr = some netif.ipAddr

theorem unicast_of_nonUnicast {netif : Netif} {ipaddr : Ip} (h : ¬ nonUnicast ipaddr netif) :
    ipaddr ≠ 0 ∧ ¬ ip4AddrIsbroadcast ipaddr netif ∧ ¬ ip4AddrIsmulticast ipaddr := by
  simpa [nonUnicast, and_assoc] using h

theorem exchange {netif neighbour : Netif} (hpair : Neighbours netif neighbour) (before theirs : List Ev) (p : Nat)
    {ipaddr : Ip} (hunicast : ¬ ip4AddrIsbroadcast ipaddr netif ∧ ¬ ip4AddrIsmulticast ipaddr)
    (hhop : nextHop netif ipaddr = some neighbour.ipAddr)
    (habsent : Absent (run step start before) neighbour.ipAddr netif.num) :
    ∃ ask reply : EtharpHdr,
      (step (run step start before) (.output true (some p) netif p ipaddr)).arpOut =
        (run step start before).arpOut ++ [⟨netif.num, ethbroadcast, ask⟩] ∧
      Awaits (step (run step start before) (.output true (some p) netif p ipaddr)) netif.num neighbour.ipAddr p ∧
      (step (run step start theirs) (.input true neighbour ask)).arpOut =
        (run step start theirs).arpOut ++ [⟨neighbour.num, netif.hwaddr, reply⟩] ∧
      (∀ mem keep q, (run step start (theirs ++ [.input true neighbour ask, .output mem keep neighbour q netif.ipAddr])).out =
        (run step start (theirs ++ [.input true neighbour ask])).out ++
          [⟨neighbour.num, netif.hwaddr, some netif.ipAddr, q⟩]) ∧
      ∀ (later : List Ev) (mem : Bool), Awaits (run step start later) netif.num neighbour.ipAddr p →
        (step (run step start later) (.input mem netif reply)).out =
          (run step start later).out ++ [⟨netif.num, neighbour.hwaddr, some neighbour.ipAddr, p⟩] := by
  have hinv := run_start_inv before
  have hasks := etharpQuery_asks hinv hpair.unicast habsent p
  have hanswers := etharpInput_answers (run_start_inv theirs) (unicast_of_nonUnicast hpair.unicast).1 hpair.unicast'
  refine ⟨question netif neighbour.ipAddr, answer neighbour netif.hwaddr netif.ipAddr, ?_, ?_, hanswers.1, ?_, ?_⟩
  · rw [step, etharpOutput_of_absent true (some p) p hunicast hhop habsent]
    exact hasks.1
  · rw [step, etharpOutput_of_absent true (some p) p hunicast hhop habsent]
    exact hasks.2
  · intro mem keep q
    have hinput := run_start_inv (theirs ++ [.input true neighbour (question netif neighbour.ipAddr)])
    rw [run_append, run_cons, run_cons, run_nil, run_snoc]
    rw [run_snoc] at hinput
    exact etharpOutput_of_knows hinput mem keep q (unicast_of_nonUnicast hpair.unicast').2 hpair.direct hanswers.2
  · exact fun later mem hawaits => etharpInput_delivers (run_start_inv later) mem hpair.unicast hawaits _ _

def pc : Netif := ⟨0, 0xc0a80101, 0xffffff00, 0, true, [2, 0, 0, 0, 0, 1]⟩

/-- The PC is the gateway of the CE, and answers. -/
theorem gateway_exchange : ∃ reply : EtharpHdr, ∀ (later : List Ev) (mem : Bool), Awaits (run step start later) 0 0xc0a80101 7 →
    (step (run step start later) (.input mem ce reply)).out =
      (run step start later).out ++ [⟨0, [2, 0, 0, 0, 0, 1], some 0xc0a80101, 7⟩] := by
  have hpair : Neighbours ce pc := ⟨by decide, by decide, by decide⟩
  have hgateway : nextHop ce 0x08080808 = some pc.ipAddr := by decide
  obtain ⟨_, reply, _, _, _, _, hdelivers⟩ :=
    exchange hpair [] [] 7 ⟨by decide, by decide⟩ hgateway fun _ hlive => absurd rfl hlive
  exact ⟨reply, hdelivers⟩

end Nanotube.Lwip.Arp
