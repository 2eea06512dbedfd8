/-
  Nanotube.Lwip.Dns.Replies — who decides what address a caller is given? (src/lwIP/core/dns.c
  `dns_recv`, `dns_correct_response`, `dns_send`)

  Proved, over any order of lookups, packets from anybody and ticks:
  - a caller is given an address only out of a packet that answers the entry it waits for:
    with the id of that entry, from the server that was asked, a response with one question
    that `dns_compare_name` takes for its name (`addresses_authentic`). Neither the port the
    packet came to nor the port it came from is looked at.
  - a proper answer, with the question in any case and any records before the one with the
    address, is passed on to everybody who waits for the name (`answer_delivered`).
  - every query that is sent is well formed, leaves from a live port and goes to a server
    that is set (`queries_sound`).
-/

import Nanotube.Lwip.Dns.Answers
import Nanotube.Lwip.Dns.Promises

namespace Nanotube.Lwip.Dns

open Nanotube.Lib.Runs Nanotube.Lib.Wire Pbufs

/-! ## Where an address comes from -/

theorem mem_callsOf_iff {s : State} {i : Fin DNS_TABLE_SIZE} {addr x : Option Addr} {c : Caller} :
    (c, x) ∈ callsOf s i addr ↔ x = addr ∧ ∃ r, s.requests r = ⟨some c, i⟩ := by
  constructor
  · intro h
    obtain ⟨r, -, hr⟩ := List.mem_filterMap.mp h
    split at hr
    · next hi =>
      obtain ⟨c', hc', heq⟩ := Option.map_eq_some_iff.mp hr
      cases heq
      exact ⟨rfl, r, by rw [← hc', ← hi]⟩
    · cases hr
  · rintro ⟨rfl, r, hr⟩
    have hmem := mem_callsOf (s := s) (r := r) (c := c) (by rw [hr]) x
    rwa [hr] at hmem

/-- Without an answer nobody is given an address. -/
theorem Move.unanswered {s s' : State} (hm : Move Unanswered s s') {c : Caller} {a : Addr}
    (h : (c, some a) ∈ s'.called) : (c, some a) ∈ s.called := by
  cases hm with
  | quiet same => rwa [same.called] at h
  | close gives =>
    rw [setEntry_called, dnsCallFound_called, List.mem_append, mem_callsOf_iff] at h
    rcases h with h | ⟨h, -⟩
    · exact h
    · rw [show _ = none from gives] at h
      cases h
  | _ => exact h

theorem Moves.unanswered {s s' : State} (hm : Moves Unanswered s s') {c : Caller} {a : Addr}
    (h : (c, some a) ∈ s'.called) : (c, some a) ∈ s.called := by
  induction hm with
  | refl => exact h
  | tail _ hm ih => exact ih (hm.unanswered h)

/-- The packet answers the entry the caller waits for, and the address is in it. -/
structure Answers (s : State) (p : List Pbuf) (addr : Addr) (c : Caller) (a : Addr) (i : Fin DNS_TABLE_SIZE) : Prop where
  waits : ∃ r, s.requests r = ⟨some c, i⟩
  names : Holds (s.table i).name c.hostname.val
  reply : ReplyTo s p addr i
  address : ∃ ttl, readReply (hdrOf p) (s.table i).name p = .address a ttl

theorem dnsRecv_called (env : Env) {s : State} (hinv : Inv s) {p : List Pbuf} {addr : Addr} {c : Caller} {a : Addr}
    (h : (c, some a) ∈ (dnsRecv env s p addr).called) : (c, some a) ∈ s.called ∨ ∃ i, Answers s p addr c a i := by
  rcases dnsRecv_cases env s p addr with heq | ⟨i, hto, ⟨-, heq⟩ | ⟨e, -, heq⟩ | ⟨ipaddr, ttl, e, hreply, -, heq⟩⟩
  · rw [heq] at h
    exact Or.inl h
  · have hmove := again_of_error hto.asks (hinv.timed i hto.asks)
    rw [heq] at h
    exact Or.inl (hmove.unanswered ((dnsCheckEntry_moves env (hmove.inv hinv) i).unanswered h))
  · rw [heq, setEntry_called, dnsCallFound_called, List.mem_append, mem_callsOf_iff] at h
    exact h.imp_right fun h => by cases h.1
  · rw [heq, setEntry_called, dnsCallFound_called, List.mem_append, mem_callsOf_iff] at h
    refine h.imp_right fun h => ?_
    obtain ⟨ha, r, hr⟩ := h
    cases ha
    have hwaiting := (hinv.waiting r c (by rw [hr])).2
    rw [hr] at hwaiting
    exact ⟨i, ⟨r, hr⟩, hwaiting, hto, ttl, hreply⟩

theorem step_called (aton : List UInt8 → Option Addr) {s : State} (hinv : Inv s) {ev : Ev} {c : Caller} {a : Addr}
    (h : (c, some a) ∈ (step aton s ev).called) :
    (c, some a) ∈ s.called ∨ ∃ env p addr i, ev = .recv env p addr ∧ Answers s p addr c a i := by
  cases ev with
  | gethostbyname env c' => exact Or.inl ((dnsGethostbyname_moves aton env s c').unanswered h)
  | recv env p addr =>
    refine (dnsRecv_called env hinv h).imp_right ?_
    rintro ⟨i, hi⟩
    exact ⟨env, p, addr, i, rfl, hi⟩
  | tmr env => exact Or.inl ((dnsCheckEntries_moves env hinv).unanswered h)
  | setserver numdns addr =>
    left
    simp only [step, dnsSetserver] at h
    split at h <;> exact h

/-- An address that a caller is given stands in a packet that came before, and that answered
    the caller's question when it came. -/
theorem addresses_authentic (aton : List UInt8 → Option Addr) {s : State} (h : Fresh s) (evs : List Ev) {c : Caller}
    {a : Addr} (hc : (c, some a) ∈ (run (step aton) s evs).called) :
    ∃ before env p addr after i, evs = before ++ Ev.recv env p addr :: after ∧
      Answers (run (step aton) s before) p addr c a i := by
  have hrun : ∀ evs {s : State}, Inv s → (c, some a) ∈ (run (step aton) s evs).called →
      (c, some a) ∈ s.called ∨ ∃ before env p addr after i, evs = before ++ Ev.recv env p addr :: after ∧
        Answers (run (step aton) s before) p addr c a i := by
    intro evs
    induction evs with
    | nil => exact fun _ hc => Or.inl hc
    | cons ev evs ih =>
      intro s hinv hc
      rcases ih ((step_moves aton hinv ev).inv hinv) hc with hc | ⟨before, env, p, addr, after, i, heq, hans⟩
      · refine (step_called aton hinv hc).imp_right ?_
        rintro ⟨env, p, addr, i, rfl, hans⟩
        exact ⟨[], env, p, addr, evs, i, rfl, hans⟩
      · exact Or.inr ⟨ev :: before, env, p, addr, after, i, by rw [heq]; rfl, hans⟩
  rcases hrun evs h.inv hc with hc | hans
  · rw [h.called] at hc
    cases hc
  · exact hans

/-! ## A proper answer -/

theorem entryOf_eq {s : State} (hinv : Inv s) {i : Fin DNS_TABLE_SIZE} (hi : (s.table i).Asking) :
    entryOf s (s.table i).txid = some i := by
  have hsome : (entryOf s (s.table i).txid).isSome := by
    rw [entryOf, List.find?_isSome]
    exact ⟨i, List.mem_finRange i, decide_eq_true ⟨hi, rfl⟩⟩
  obtain ⟨k, hk⟩ := Option.isSome_iff_exists.mp hsome
  have hfound := List.find?_some hk
  simp only [decide_eq_true_eq] at hfound
  rw [hk, hinv.txids k i hfound.1 hi hfound.2]

/-- A proper answer from the server that is asked reaches everybody who waits for the name. -/
theorem answer_delivered (aton : List UInt8 → Option Addr) {s : State} (h : Fresh s) (before : List Ev) (env : Env)
    {r : Fin DNS_MAX_REQUESTS} {c : Caller} {i : Fin DNS_TABLE_SIZE}
    (hr : (run (step aton) s before).requests r = ⟨some c, i⟩) (hask : Askable c.hostname.val) (m : Answer)
    (hecho : m.echo.map toLower = c.hostname.val.map toLower) {p : List Pbuf} (hne : p ≠ []) (hc : Consistent p)
    (hp : contents p = m.bytes ((run (step aton) s before).table i).txid) (hlen : (contents p).length < 0xFFFF) :
    (c, some m.ipaddr) ∈ (run (step aton) s (before ++ [.recv env p
      ((run (step aton) s before).servers ((run (step aton) s before).table i).serverIdx)])).called := by
  have hinv := (run_inv_accounted aton ⟨h.inv, h.accounted⟩ before).1
  rw [run_snoc]
  generalize run (step aton) s before = t at *
  have hwaits := hinv.waiting r c (by rw [hr])
  rw [hr] at hwaits
  have hreply := Answer.readReply_eq hask hwaits.2 hecho hne hc hp hlen
  have hlength := m.length_bytes (t.table i).txid
  rw [← hp] at hlength
  have hhdr : pbufCopyPartial p SIZEOF_DNS_HDR 0 = m.hdr (t.table i).txid := Answer.copy_hdr hp
  have hflags : (m.hdr (t.table i).txid).getD 2 0 = m.flags1 := rfl
  have heq : step aton t (.recv env p (t.servers (t.table i).serverIdx)) =
      dnsCorrectResponse (setEntry t i { t.table i with ipaddr := m.ipaddr }) i (ansTtl m.found.fixed) := by
    simp only [step, dnsRecv, hhdr, (m.read16_hdr _).1, (m.read16_hdr _).2.1, entryOf_eq hinv hwaits.1, hflags, hreply]
    rw [if_neg (by rw [totLenOf_eq hne hc]; omega), if_neg (not_not.mpr (m.length_hdr _)), if_neg m.response,
      if_neg (not_not.mpr rfl), if_neg (not_not.mpr rfl)]
  obtain ⟨e, -, hresponse⟩ := dnsCorrectResponse_address t i m.ipaddr (ansTtl m.found.fixed)
  rw [heq, hresponse, setEntry_called, dnsCallFound_called, List.mem_append, mem_callsOf_iff]
  exact Or.inr ⟨rfl, r, hr⟩

/-- "irc" is another name for "i.x", and its address follows. -/
def ircAlias : Record where
  parts := [[105, 114, 99]]
  pointer := none
  type := 5
  cls := 1
  ttl := [0, 0, 0, 60]
  data := [1, 105, 1, 120, 0]
  isName := ⟨by decide, by decide, fun _ h => (Option.not_mem_none _ h).elim⟩
  ttl_length := rfl
  data_length := by decide

def ircAddress : Record where
  parts := []
  pointer := some (0xc0, 37)
  type := 1
  cls := 1
  ttl := [0, 0, 0, 60]
  data := [192, 0, 2, 1]
  isName := ⟨by decide, by decide, fun _ h => Option.mem_some_iff.mp h ▸ rfl⟩
  ttl_length := rfl
  data_length := by decide

/-- The server's answer to the lookup of "irc", in capitals. -/
def ircAnswer : Answer where
  flags1 := 0x81
  flags2 := 0x80
  nanswers := 2
  counts := [0, 0, 0, 0]
  echo := [73, 82, 67]
  skipped := [ircAlias]
  found := ircAddress
  rest := []
  response := by decide
  noError := by decide
  enough := by decide
  counts_length := rfl
  skipped_other := by decide
  found_address := by decide

/-- In two pbufs. -/
def ircPacket : List Pbuf := [⟨(ircAnswer.bytes 7).take 20, 57⟩, ⟨(ircAnswer.bytes 7).drop 20, 37⟩]

def ircLookup : List Ev := [.gethostbyname someEnv ircCaller]

theorem ircAnswer_delivered :
    (ircCaller, some [192, 0, 2, 1]) ∈
      (run (step noNumber) resting (ircLookup ++ [.recv someEnv ircPacket [10, 0, 0, 1]])).called :=
  answer_delivered noNumber resting_fresh ircLookup someEnv (r := 0) (i := 0) (by decide +kernel) (by decide) ircAnswer
    (by decide) (p := ircPacket) (by decide) ⟨by decide, by decide, trivial⟩ (by decide +kernel) (by decide)

theorem ircAnswer_authentic :
    (ircCaller, some [192, 0, 2, 1]) ∈
        (run (step noNumber) resting (ircLookup ++ [.recv someEnv ircPacket [10, 0, 0, 1]])).called ∧
      ∃ before env p addr after i, ircLookup ++ [.recv someEnv ircPacket [10, 0, 0, 1]] = before ++ Ev.recv env p addr :: after ∧
        Answers (run (step noNumber) resting before) p addr ircCaller [192, 0, 2, 1] i := by
  have hcalled : (ircCaller, some [192, 0, 2, 1]) ∈
      (run (step noNumber) resting (ircLookup ++ [.recv someEnv ircPacket [10, 0, 0, 1]])).called := by decide +kernel
  exact ⟨hcalled, addresses_authentic noNumber resting_fresh _ hcalled⟩

/-! ## What is sent -/

/-- A well formed query, from a live port to a server that is set. -/
structure Sent.Sound (q : Sent) : Prop where
  bytes : ∃ txid name, q.bytes = queryBytes txid name
  port : q.port ≠ none
  server : isAny q.server = false

/-- The entry has a live port. -/
def Live (s : State) (i : Fin DNS_TABLE_SIZE) : Prop := ∃ j, (s.table i).pcbIdx = some j ∧ s.pcbs j ≠ none

/-- Nothing is sent on the way but sound queries. -/
def SendsSound (s s' : State) : Prop := ∀ q ∈ s'.sent, q ∈ s.sent ∨ q.Sound

theorem SendsSound.of_eq {s s' : State} (h : s'.sent = s.sent) : SendsSound s s' := by
  intro q hq
  rw [h] at hq
  exact Or.inl hq

theorem SendsSound.trans {s t u : State} (h : SendsSound s t) (h' : SendsSound t u) : SendsSound s u := by
  intro q hq
  rcases h' q hq with hq | hq
  · exact h q hq
  · exact Or.inr hq

theorem dnsCallFound_sent (s : State) (i : Fin DNS_TABLE_SIZE) (addr : Option Addr) :
    (dnsCallFound s i addr).sent = s.sent := by
  simp only [dnsCallFound, releasePcb]
  split
  · rfl
  · split <;> rfl

theorem dnsAllocPcb_sent (env : Env) (s : State) : (dnsAllocPcb env s).1.sent = s.sent := by
  have hnext : (nextPcb s).1.sent = s.sent := by
    rw [nextPcb]
    split <;> rfl
  rw [dnsAllocPcb]
  split
  · rfl
  · exact hnext

/-- The pbuf for a query is long enough for it. -/
theorem fillQuery_sound (txid : UInt16) (name : Nat → UInt8) {mem : Option Device.Transmit.Memory} {p : Pbuf}
    (h : pbufAllocRam PBUF_TRANSPORT (SIZEOF_DNS_HDR + (nameOf name).length + 2 + SIZEOF_DNS_QUERY).toUInt16 mem = some p) :
    contents (fillQuery [p] txid (nameOf name)) = queryBytes txid (nameOf name) := by
  have hname : (nameOf name).length ≤ DNS_MAX_NAME_LENGTH := by
    have hle : (nameOf name).length ≤ ((List.range DNS_MAX_NAME_LENGTH).map name).length :=
      (List.takeWhile_sublist _).length_le
    rwa [List.length_map, List.length_range] at hle
  have hsizes : SIZEOF_DNS_HDR = 12 ∧ SIZEOF_DNS_QUERY = 4 ∧ DNS_MAX_NAME_LENGTH = 256 := ⟨rfl, rfl, rfl⟩
  have hlen : (SIZEOF_DNS_HDR + (nameOf name).length + 2 + SIZEOF_DNS_QUERY).toUInt16.toNat =
      SIZEOF_DNS_HDR + (nameOf name).length + 2 + SIZEOF_DNS_QUERY := Nat.mod_eq_of_lt (by omega)
  rw [pbufAllocRam] at h
  split at h
  · cases h
  · obtain ⟨memory, -, rfl⟩ := Option.map_eq_some_iff.mp h
    have hload := Device.Transmit.length_load memory 0
      (SIZEOF_DNS_HDR + (nameOf name).length + 2 + SIZEOF_DNS_QUERY).toUInt16.toNat
    refine contents_fillQuery txid (nameOf name) ⟨?_, trivial⟩ ?_
    · show _ = (Device.Transmit.load _ _ _).length + 0
      rw [hload]
      rfl
    · rw [contents, contents, List.append_nil, hload, hlen]

theorem dnsSend_sent (env : Env) {s : State} {i : Fin DNS_TABLE_SIZE} (hlive : Live s i) :
    SendsSound s (dnsSend env s i) := by
  simp only [dnsSend]
  split
  · exact SendsSound.of_eq (dnsCallFound_sent s i none)
  · next hserver =>
    split
    · exact SendsSound.of_eq rfl
    · next p halloc =>
      intro q hq
      rcases List.mem_append.mp hq with hq | hq
      · exact Or.inl hq
      · obtain ⟨j, hj, hport⟩ := hlive
        rw [List.mem_singleton.mp hq]
        refine Or.inr ⟨⟨_, _, fillQuery_sound _ _ halloc⟩, ?_, Bool.not_eq_true _ ▸ hserver⟩
        rw [hj]
        exact hport

theorem dnsCheckEntry_sent (env : Env) {s : State} {i : Fin DNS_TABLE_SIZE}
    (hlive : (s.table i).state = .asking ∨ (s.table i).state = .new → Live s i) : SendsSound s (dnsCheckEntry env s i) := by
  have hask : ∀ {e : Entry}, Live s i → e.pcbIdx = (s.table i).pcbIdx → SendsSound s (dnsSend env (setEntry s i e) i) := by
    rintro e ⟨j, hj, hport⟩ he
    have hlive : Live (setEntry s i e) i := ⟨j, by rw [setEntry_self, he, hj], hport⟩
    exact (SendsSound.of_eq rfl).trans (dnsSend_sent env hlive)
  cases hstate : (s.table i).state with
  | new =>
    simp only [dnsCheckEntry, hstate]
    exact hask (hlive (Or.inr hstate)) rfl
  | asking =>
    have hlive := hlive (Or.inl hstate)
    simp only [dnsCheckEntry, hstate]
    split
    · exact SendsSound.of_eq rfl
    split
    · exact hask hlive rfl
    split
    · exact hask hlive rfl
    · exact SendsSound.of_eq (dnsCallFound_sent _ i none)
  | done =>
    simp only [dnsCheckEntry, hstate]
    split <;> exact SendsSound.of_eq rfl
  | unused =>
    simp only [dnsCheckEntry, hstate]
    exact SendsSound.of_eq rfl

theorem Inv.live {s : State} (h : Inv s) (i : Fin DNS_TABLE_SIZE)
    (hi : (s.table i).state = .asking ∨ (s.table i).state = .new) : Live s i := by
  rcases hi with hi | hi
  · exact h.port i hi
  · exact absurd hi (h.settled i)

theorem foldl_sent (env : Env) (l : List (Fin DNS_TABLE_SIZE)) {s : State} (h : Inv s) :
    SendsSound s (l.foldl (dnsCheckEntry env) s) := by
  induction l generalizing s with
  | nil => exact SendsSound.of_eq rfl
  | cons i l ih => exact (dnsCheckEntry_sent env (h.live i)).trans (ih ((dnsCheckEntry_moves env h i).inv h))

theorem dnsRecv_sent (env : Env) {s : State} (h : Inv s) (p : List Pbuf) (addr : Addr) :
    SendsSound s (dnsRecv env s p addr) := by
  rcases dnsRecv_cases env s p addr with heq | ⟨i, hto, ⟨-, heq⟩ | ⟨e, -, heq⟩ | ⟨ipaddr, ttl, e, -, -, heq⟩⟩
  · rw [heq]
    exact SendsSound.of_eq rfl
  · have hmove := again_of_error hto.asks (h.timed i hto.asks)
    rw [heq]
    exact (SendsSound.of_eq rfl).trans (dnsCheckEntry_sent env ((hmove.inv h).live i))
  · rw [heq]
    exact SendsSound.of_eq (dnsCallFound_sent s i none)
  · rw [heq]
    exact SendsSound.of_eq (dnsCallFound_sent s i (some ipaddr))

theorem enqueueAt_sent (env : Env) (s : State) (i : Fin DNS_TABLE_SIZE) (r : Fin DNS_MAX_REQUESTS) (c : Caller) :
    SendsSound s (enqueueAt env s i r c).1 := by
  have hsent := dnsAllocPcb_sent env (openEntry s i r c)
  have hspec := dnsAllocPcb_spec env (openEntry s i r c)
  rw [enqueueAt]
  split
  · next t halloc =>
    rw [halloc] at hsent
    exact SendsSound.of_eq hsent
  · next t j halloc =>
    rw [halloc] at hsent hspec
    obtain ⟨-, -, -, -, -, port, hpcbs⟩ := hspec
    have hpcbs : t.pcbs = (setPcb (openEntry s i r c) j port).pcbs := hpcbs
    have hlive : Live (usePcb t i j) i := by
      refine ⟨j, congrArg Entry.pcbIdx (setEntry_self t i _), ?_⟩
      show t.pcbs j ≠ none
      rw [hpcbs]
      simp [setPcb]
    have huse : SendsSound s (usePcb t i j) := SendsSound.of_eq hsent
    exact huse.trans (dnsCheckEntry_sent env fun _ => hlive)

theorem step_sent (aton : List UInt8 → Option Addr) {s : State} (h : Inv s) (ev : Ev) : SendsSound s (step aton s ev) := by
  cases ev with
  | gethostbyname env c =>
    simp only [step, dnsGethostbyname]
    split
    · exact SendsSound.of_eq rfl
    split
    · exact SendsSound.of_eq rfl
    split
    · exact SendsSound.of_eq rfl
    split
    · exact SendsSound.of_eq rfl
    split
    · exact SendsSound.of_eq rfl
    rw [dnsEnqueue]
    split
    · exact SendsSound.of_eq rfl
    · rw [enqueueNew]
      split
      · exact enqueueAt_sent env s _ _ c
      · exact SendsSound.of_eq rfl
  | recv env p addr => exact dnsRecv_sent env h p addr
  | tmr env => exact foldl_sent env _ h
  | setserver numdns addr =>
    simp only [step, dnsSetserver]
    split <;> exact SendsSound.of_eq rfl

/-- Every query that is sent is the well formed query for some name, from a port that is
    open when it is sent, to a server that is set. -/
theorem queries_sound (aton : List UInt8 → Option Addr) {s : State} (h : Fresh s) (hsent : s.sent = []) (evs : List Ev) :
    ∀ q ∈ (run (step aton) s evs).sent, q.Sound := by
  have hrun : Inv (run (step aton) s evs) ∧ ∀ q ∈ (run (step aton) s evs).sent, q.Sound := by
    refine run_inv (I := fun s => Inv s ∧ ∀ q ∈ s.sent, q.Sound) (step aton) ?_ ⟨h.inv, ?_⟩ evs
    · rintro s ev ⟨hinv, hs⟩
      refine ⟨(step_moves aton hinv ev).inv hinv, fun q hq => ?_⟩
      rcases step_sent aton hinv ev q hq with hq | hq
      · exact hs q hq
      · exact hq
    · rw [hsent]
      exact fun q hq => absurd hq List.not_mem_nil
  exact hrun.2

theorem ircLookup_sends_sound :
    (run (step noNumber) resting ircLookup).sent = [⟨some 1053, [10, 0, 0, 1], queryBytes 7 [105, 114, 99]⟩] ∧
      ∀ q ∈ (run (step noNumber) resting ircLookup).sent, q.Sound :=
  ⟨by decide +kernel, queries_sound noNumber resting_fresh rfl ircLookup⟩

end Nanotube.Lwip.Dns
