/-
  Nanotube.Lwip.Dns.Steps — the moves behind each function of the resolver (src/lwIP/core/dns.c
  `dns_send`, `dns_check_entry`, `dns_correct_response`, `dns_recv`, `dns_alloc_pcb`,
  `dns_create_txid`, `dns_enqueue`).

  An entry that is asked comes nearer to its end with each tick (`dnsCheckEntry_asking`); a
  packet does nothing unless it is a reply to an entry (`dnsRecv_cases`); the id of a new
  entry is no other's (`dnsCreateTxid_fresh`).
-/

import Nanotube.Lwip.Dns.Table
import Mathlib.Data.Fintype.Card

namespace Nanotube.Lwip.Dns

open Nanotube.Lib.Wire Pbufs

/-! ## What the functions do -/

/-- `dns_call_found` reads no more of its own entry than the pcb. -/
theorem close_setEntry (s : State) (i : Fin DNS_TABLE_SIZE) {e : Entry} (addr : Option Addr) (e' : Entry)
    (h : e.pcbIdx = (s.table i).pcbIdx) :
    setEntry (dnsCallFound (setEntry s i e) i addr) i e' = setEntry (dnsCallFound s i addr) i e' := by
  have hcore : callRequests (setEntry s i e) i addr = setEntry (callRequests s i addr) i e := rfl
  have hpcb : ((callRequests s i addr).table i).pcbIdx = e.pcbIdx := h.symm
  rw [dnsCallFound, dnsCallFound, hcore]
  generalize callRequests s i addr = t at hpcb ⊢
  have hothers : (∃ k, k ≠ i ∧ ((setEntry t i e).table k).Asking ∧ ((setEntry t i e).table k).pcbIdx = e.pcbIdx) ↔
      ∃ k, k ≠ i ∧ (t.table k).Asking ∧ (t.table k).pcbIdx = e.pcbIdx := by
    refine exists_congr fun k => and_congr_right fun hk => ?_
    rw [setEntry_ne _ _ _ hk]
  simp only [releasePcb, setEntry_self, hothers, hpcb]
  split
  · simp only [setEntry_setEntry]
  · split <;> simp [setEntry]

/-- After a timer was set: the query goes out, or nobody can be asked. -/
theorem dnsSend_setEntry (env : Env) {s : State} {i : Fin DNS_TABLE_SIZE} {e : Entry}
    (hpcb : e.pcbIdx = (s.table i).pcbIdx) :
    Quiet (setEntry s i e) (dnsSend env (setEntry s i e) i) ∨
      ∃ e', (e'.state = .unused ∨ e'.state = .done) ∧
        dnsSend env (setEntry s i e) i = setEntry (dnsCallFound s i none) i e' := by
  simp only [dnsSend]
  split
  · right
    exact ⟨_, Or.inl rfl, close_setEntry s i none _ hpcb⟩
  · left
    split
    · exact ⟨rfl, rfl, rfl, rfl, rfl⟩
    · exact ⟨rfl, rfl, rfl, rfl, rfl⟩

/-- The entry is asked again, for less ticks, or its callers are called. -/
def Ticked (s : State) (i : Fin DNS_TABLE_SIZE) (s' : State) : Prop :=
  (∃ e, Again s i e ∧ ticksLeft e < ticksLeft (s.table i) ∧ Quiet (setEntry s i e) s') ∨
    ∃ e, (e.state = .unused ∨ e.state = .done) ∧ s' = setEntry (dnsCallFound s i none) i e

theorem Ticked.of_dnsSend (env : Env) {s : State} {i : Fin DNS_TABLE_SIZE} {e : Entry} (ha : Again s i e)
    (hlt : ticksLeft e < ticksLeft (s.table i)) : Ticked s i (dnsSend env (setEntry s i e) i) := by
  rcases dnsSend_setEntry env ha.pcb with h | h
  · exact Or.inl ⟨e, ha, hlt, h⟩
  · exact Or.inr h

theorem Ticked.moves {s s' : State} {i : Fin DNS_TABLE_SIZE} (hask : (s.table i).Asking) (h : Ticked s i s') :
    Moves Unanswered s s' := by
  rcases h with ⟨e, ha, hlt, hquiet⟩ | ⟨e, hrests, rfl⟩
  · exact (Relation.ReflTransGen.single (Move.again ha (Nat.le_of_lt hlt))).tail (Move.quiet hquiet)
  · exact Relation.ReflTransGen.single (Move.close rfl hask hrests)

theorem toNat_pred {t : UInt8} (h : 0 < t.toNat) : (t - 1).toNat = t.toNat - 1 := by
  have hlt := UInt8.toNat_lt t
  rw [UInt8.toNat_sub]
  change (256 - 1 + t.toNat) % 256 = t.toNat - 1
  omega

theorem toNat_succ {t : UInt8} (h : t.toNat < 4) : (t + 1).toNat = t.toNat + 1 := by
  rw [UInt8.toNat_add]
  change (t.toNat + 1) % 256 = t.toNat + 1
  omega

theorem waits_succ {n : Nat} (h : n < 3) : n + 1 + waits (n + 1) = waits n := by
  rcases n with _ | _ | _ | n
  · rfl
  · rfl
  · rfl
  · omega

theorem timed_first (e : Entry) : Timed (e.ask 0 1 0) where
  pos := show 0 < (1 : UInt8).toNat by decide
  le := show (1 : UInt8).toNat ≤ max 1 (0 : UInt8).toNat by decide
  retries := show (0 : UInt8).toNat < 4 by decide
  server := show 0 < DNS_MAX_SERVERS by decide

theorem Again.ask {s : State} {i : Fin DNS_TABLE_SIZE} (hask : (s.table i).Asking) {serverIdx : Nat} {tmr retries : UInt8}
    (hpos : 0 < tmr.toNat) (hle : tmr.toNat ≤ max 1 retries.toNat) (hretries : retries.toNat < 4)
    (hserver : serverIdx < DNS_MAX_SERVERS) : Again s i ((s.table i).ask serverIdx tmr retries) :=
  ⟨hask, hask, rfl, rfl, rfl, ⟨hpos, hle, hretries, hserver⟩⟩

theorem ticksLeft_ask (e : Entry) (serverIdx : Nat) (tmr retries : UInt8) :
    ticksLeft (e.ask serverIdx tmr retries) = tmr.toNat + waits retries.toNat + 7 * (1 - serverIdx) := rfl

theorem serverIdx_of_backup {s : State} {e : Entry} (h : dnsBackupserverAvailable s e = true) :
    e.serverIdx + 1 < DNS_MAX_SERVERS := by
  simp only [dnsBackupserverAvailable, Bool.and_eq_true, decide_eq_true_eq] at h
  exact h.1

theorem dnsCheckEntry_asking (env : Env) {s : State} {i : Fin DNS_TABLE_SIZE} (hask : (s.table i).Asking)
    (ht : Timed (s.table i)) : Ticked s i (dnsCheckEntry env s i) := by
  have hpred := toNat_pred ht.pos
  have hsucc := toNat_succ ht.retries
  have hserver : (s.table i).serverIdx < 2 := ht.server
  have hle := ht.le
  have hretries := ht.retries
  simp only [dnsCheckEntry, hask]
  split
  · next hmore =>
    -- not yet
    have hmore : (s.table i).tmr.toNat - 1 ≠ 0 := by
      rw [← hpred]
      exact fun h0 => hmore (UInt8.toNat_inj.mp h0)
    refine Or.inl ⟨_, Again.ask hask (by omega) (by omega) ht.retries ht.server, ?_, ⟨rfl, rfl, rfl, rfl, rfl⟩⟩
    rw [ticksLeft_ask, ticksLeft]
    omega
  · next hnow =>
    have hnow : (s.table i).tmr.toNat = 1 := by
      have h0 : ((s.table i).tmr - 1).toNat = 0 := by rw [not_not.mp hnow]; rfl
      have := ht.pos
      omega
    split
    · next hretry =>
      have hretry : (s.table i).retries.toNat < 3 := by
        have h4 : (s.table i).retries.toNat + 1 ≠ 4 := by
          rw [← hsucc]
          exact fun h0 => hretry (UInt8.toNat_inj.mp h0)
        omega
      have hwaits := waits_succ hretry
      refine Ticked.of_dnsSend env (Again.ask hask (by omega) (by omega) (by omega) ht.server) ?_
      rw [ticksLeft_ask, ticksLeft, hsucc]
      omega
    · split
      · next hbackup =>
        have hbackup := serverIdx_of_backup hbackup
        refine Ticked.of_dnsSend env (Again.ask hask (by decide) (by decide) (by decide) hbackup) ?_
        have h2 : DNS_MAX_SERVERS = 2 := rfl
        have h7 : (1 : UInt8).toNat + waits (0 : UInt8).toNat = 7 := rfl
        rw [ticksLeft_ask, ticksLeft, h7]
        omega
      · exact Or.inr ⟨_, Or.inl rfl, close_setEntry s i none _ rfl⟩

theorem dnsCheckEntry_moves (env : Env) {s : State} (h : Inv s) (i : Fin DNS_TABLE_SIZE) :
    Moves Unanswered s (dnsCheckEntry env s i) := by
  cases hstate : (s.table i).state with
  | new => exact absurd hstate (h.settled i)
  | asking => exact (dnsCheckEntry_asking env hstate (h.timed i hstate)).moves hstate
  | done =>
    have hidle : ¬ (s.table i).Asking := by simp [Entry.Asking, hstate]
    simp only [dnsCheckEntry, hstate]
    split
    · exact Relation.ReflTransGen.single (Move.idle hidle (Or.inl rfl))
    · exact Relation.ReflTransGen.single (Move.idle hidle (Or.inr rfl))
  | unused =>
    simp only [dnsCheckEntry, hstate]
    exact Moves.refl s

theorem foldl_moves (env : Env) (l : List (Fin DNS_TABLE_SIZE)) {s : State} (h : Inv s) :
    Moves Unanswered s (l.foldl (dnsCheckEntry env) s) := by
  induction l generalizing s with
  | nil => exact Moves.refl s
  | cons i l ih =>
    have hfirst := dnsCheckEntry_moves env h i
    exact hfirst.trans (ih (hfirst.inv h))

theorem dnsCheckEntries_moves (env : Env) {s : State} (h : Inv s) : Moves Unanswered s (dnsCheckEntries env s) :=
  foldl_moves env _ h

theorem dnsCorrectResponse_eq (s : State) (i : Fin DNS_TABLE_SIZE) (ttl : Nat) :
    ∃ e, (e.state = .unused ∨ e.state = .done) ∧
      dnsCorrectResponse s i ttl = setEntry (dnsCallFound s i (some (s.table i).ipaddr)) i e := by
  have hself : ∀ t : State, setEntry t i (t.table i) = t := fun t => by simp only [setEntry, Function.update_eq_self]
  simp only [dnsCorrectResponse, setEntry_self]
  split
  · exact ⟨_, Or.inl rfl, close_setEntry s i _ _ rfl⟩
  · rw [← hself (dnsCallFound _ i _), dnsCallFound_self, setEntry_self]
    exact ⟨_, Or.inr rfl, close_setEntry s i _ _ rfl⟩

theorem dnsCorrectResponse_address (s : State) (i : Fin DNS_TABLE_SIZE) (ipaddr : Addr) (ttl : Nat) :
    ∃ e, (e.state = .unused ∨ e.state = .done) ∧
      dnsCorrectResponse (setEntry s i { s.table i with ipaddr := ipaddr }) i ttl =
        setEntry (dnsCallFound s i (some ipaddr)) i e := by
  obtain ⟨e, hrests, heq⟩ := dnsCorrectResponse_eq (setEntry s i { s.table i with ipaddr := ipaddr }) i ttl
  rw [setEntry_self] at heq
  exact ⟨e, hrests, heq.trans (close_setEntry s i (some ipaddr) e rfl)⟩

/-! ## What a packet does -/

def hdrOf (p : List Pbuf) : List UInt8 := pbufCopyPartial p SIZEOF_DNS_HDR 0

/-- A packet for an entry that is asked: it has its id, is a response with one question, and
    comes from the server that is asked. -/
structure ReplyTo (s : State) (p : List Pbuf) (addr : Addr) (i : Fin DNS_TABLE_SIZE) : Prop where
  asks : (s.table i).Asking
  txid : read16 (hdrOf p) 0 = (s.table i).txid
  response : (hdrOf p).getD 2 0 &&& 0x80 ≠ 0
  question : read16 (hdrOf p) 4 = 1
  server : addr = s.servers (s.table i).serverIdx

theorem dnsRecv_cases (env : Env) (s : State) (p : List Pbuf) (addr : Addr) :
    dnsRecv env s p addr = s ∨ ∃ i, ReplyTo s p addr i ∧
      ((dnsBackupserverAvailable s (s.table i) ∧ dnsRecv env s p addr =
          dnsCheckEntry env (setEntry s i ((s.table i).ask (s.table i).serverIdx 1 (DNS_MAX_RETRIES - 1))) i) ∨
        (∃ e, (e.state = .unused ∨ e.state = .done) ∧
          dnsRecv env s p addr = setEntry (dnsCallFound s i none) i e) ∨
        ∃ ipaddr ttl e, readReply (hdrOf p) (s.table i).name p = .address ipaddr ttl ∧
          (e.state = .unused ∨ e.state = .done) ∧
          dnsRecv env s p addr = setEntry (dnsCallFound s i (some ipaddr)) i e) := by
  generalize hs' : dnsRecv env s p addr = s'
  rw [dnsRecv] at hs'
  simp only at hs'
  split at hs'
  · exact Or.inl hs'.symm
  split at hs'
  · exact Or.inl hs'.symm
  split at hs'
  · exact Or.inl hs'.symm
  next i hentry =>
    have hi := List.find?_some hentry
    simp only [decide_eq_true_eq] at hi
    split at hs'
    · exact Or.inl hs'.symm
    next hresponse =>
    split at hs'
    · exact Or.inl hs'.symm
    next hquestion =>
    split at hs'
    · exact Or.inl hs'.symm
    next hserver =>
    have hto : ReplyTo s p addr i := ⟨hi.1, hi.2.symm, hresponse, not_not.mp hquestion, not_not.mp hserver⟩
    split at hs'
    · exact Or.inl hs'.symm
    · split at hs'
      · next hbackup => exact Or.inr ⟨i, hto, Or.inl ⟨hbackup, hs'.symm⟩⟩
      · exact Or.inr ⟨i, hto, Or.inr (Or.inl ⟨_, Or.inl rfl, hs'.symm⟩)⟩
    · exact Or.inr ⟨i, hto, Or.inr (Or.inl ⟨_, Or.inl rfl, hs'.symm⟩)⟩
    · next ipaddr ttl hreply =>
      obtain ⟨e, hrests, heq⟩ := dnsCorrectResponse_address s i ipaddr ttl
      exact Or.inr ⟨i, hto, Or.inr (Or.inr ⟨ipaddr, ttl, e, hreply, hrests, hs'.symm.trans heq⟩)⟩

/-- The error of a server makes the next one be asked, with all its attempts. -/
theorem again_of_error {s : State} {i : Fin DNS_TABLE_SIZE} (hask : (s.table i).Asking) (ht : Timed (s.table i)) :
    Move Unanswered s (setEntry s i ((s.table i).ask (s.table i).serverIdx 1 (DNS_MAX_RETRIES - 1))) := by
  refine Move.again (Again.ask hask (by decide) (by decide) (by decide) ht.server) ?_
  have h1 : (1 : UInt8).toNat + waits (DNS_MAX_RETRIES - 1).toNat = 1 := rfl
  have hpos := ht.pos
  rw [ticksLeft_ask, ticksLeft, h1]
  omega

theorem dnsRecv_moves (env : Env) {s : State} (h : Inv s) (p : List Pbuf) (addr : Addr) :
    Moves (fun _ => True) s (dnsRecv env s p addr) := by
  rcases dnsRecv_cases env s p addr with heq | ⟨i, hto, ⟨-, heq⟩ | ⟨e, hrests, heq⟩ | ⟨ipaddr, ttl, e, -, hrests, heq⟩⟩
  · rw [heq]
    exact Moves.refl s
  · have hmove := again_of_error hto.asks (h.timed i hto.asks)
    rw [heq]
    have hmoves := (Relation.ReflTransGen.single hmove).trans (dnsCheckEntry_moves env (hmove.inv h) i)
    exact Moves.any hmoves
  · rw [heq]
    exact Relation.ReflTransGen.single (Move.close trivial hto.asks hrests)
  · rw [heq]
    exact Relation.ReflTransGen.single (Move.close trivial hto.asks hrests)

/-! ## What a lookup does -/

theorem toLower_of_letter (c : UInt8) (h : 0x61 ≤ c ||| 0x20 ∧ c ||| 0x20 ≤ 0x7a) : toLower c = c ||| 0x20 := by
  have hall : ∀ b : BitVec 8, 0x61 ≤ UInt8.ofBitVec b ||| 0x20 ∧ UInt8.ofBitVec b ||| 0x20 ≤ 0x7a →
      toLower (UInt8.ofBitVec b) = UInt8.ofBitVec b ||| 0x20 := by decide +kernel
  exact hall c.toBitVec h

theorem toLower_of_not_differ {c1 c2 : UInt8} (h : charsDiffer c1 c2 = false) : toLower c1 = toLower c2 := by
  by_cases heq : c1 = c2
  · rw [heq]
  · simp only [charsDiffer, heq, ne_eq, not_false_eq_true, decide_true, Bool.true_and, Bool.not_eq_false',
      Bool.and_eq_true, decide_eq_true_eq] at h
    obtain ⟨⟨h1, h2⟩, heq⟩ := h
    rw [toLower_of_letter c1 ⟨h1, h2⟩, toLower_of_letter c2 (heq ▸ ⟨h1, h2⟩), heq]

/-- Strings that compare equal agree, in any case, up to the NUL of the first. -/
theorem toLower_of_lwipStrnicmp {str1 str2 : Nat → UInt8} {len k : Nat} (h : lwipStrnicmp str1 str2 len k = true)
    {j : Nat} (hj : j < len) (hnul : ∀ m < j, str1 (k + m) ≠ 0) : toLower (str1 (k + j)) = toLower (str2 (k + j)) := by
  induction len generalizing k j with
  | zero => exact absurd hj (Nat.not_lt_zero j)
  | succ len ih =>
    rw [lwipStrnicmp] at h
    split at h
    · cases h
    · next hsame =>
      cases j with
      | zero => exact toLower_of_not_differ (Bool.not_eq_true _ ▸ hsame)
      | succ j =>
        have hfirst : str1 k ≠ 0 := hnul 0 (Nat.succ_pos j)
        rw [if_neg hfirst] at h
        have hnul' : ∀ m < j, str1 (k + 1 + m) ≠ 0 := by
          intro m hm
          rw [Nat.add_assoc, Nat.add_comm 1]
          exact hnul (m + 1) (Nat.succ_lt_succ hm)
        have hrest := ih h (Nat.lt_of_succ_lt_succ hj) hnul'
        rwa [Nat.add_assoc, Nat.add_comm 1] at hrest

theorem stringz_ne_zero {hostname : CString} {k : Nat} (hk : k < hostname.val.length) : stringz hostname.val k ≠ 0 := by
  rw [stringz, List.getD_eq_getElem _ _ hk]
  intro h0
  have hmem := List.getElem_mem hk
  rw [h0] at hmem
  exact hostname.property hmem

theorem holds_of_sameName {hostname : CString} {e : Entry} (hlen : hostname.val.length < DNS_MAX_NAME_LENGTH)
    (h : sameName hostname e = true) : Holds e.name hostname.val := by
  intro k hk
  have heq := toLower_of_lwipStrnicmp h (Nat.lt_of_le_of_lt hk hlen)
    (fun m hm => by rw [Nat.zero_add]; exact stringz_ne_zero (Nat.lt_of_lt_of_le hm hk))
  rw [Nat.zero_add] at heq
  exact heq.symm

theorem holds_writeName (mem : Nat → UInt8) (name : List UInt8) : Holds (writeName mem name) name := by
  intro k hk
  rw [writeName, if_pos hk]

theorem done_of_oldestDone {s : State} {i : Fin DNS_TABLE_SIZE} (h : oldestDone s = some i) : (s.table i).state = .done := by
  have hfold : ∀ (l : List (Fin DNS_TABLE_SIZE)) (acc : UInt8 × Option (Fin DNS_TABLE_SIZE)),
      (∀ i, acc.2 = some i → (s.table i).state = .done) →
      ∀ i, (l.foldl (older s) acc).2 = some i → (s.table i).state = .done := by
    intro l
    induction l with
    | nil => exact fun acc hacc => hacc
    | cons k l ih =>
      intro acc hacc
      refine ih _ fun i hi => ?_
      rw [older] at hi
      split at hi
      · next hk =>
        cases hi
        exact hk.1
      · exact hacc i hi
  exact hfold _ (0, none) (fun _ h0 => by cases h0) i h

theorem idle_of_entryFor {s : State} {i : Fin DNS_TABLE_SIZE} (h : entryFor s = some i) : ¬ (s.table i).Asking := by
  rw [entryFor, Option.or_eq_some_iff] at h
  rcases h with h | ⟨-, h⟩
  · have := List.find?_some h
    simp only [decide_eq_true_eq] at this
    exact not_asking_of_rests (Or.inl this)
  · exact not_asking_of_rests (Or.inr (done_of_oldestDone h))

theorem free_of_freeRequest {s : State} {r : Fin DNS_MAX_REQUESTS} (h : freeRequest s = some r) :
    (s.requests r).found = none := by
  simpa using List.find?_some h

/-- A pcb is there afterwards: a new one, or one that was there. Nothing else changes. -/
theorem dnsAllocPcb_spec (env : Env) (s : State) :
    (dnsAllocPcb env s).1.table = s.table ∧ (dnsAllocPcb env s).1.requests = s.requests ∧
      (dnsAllocPcb env s).1.called = s.called ∧ (dnsAllocPcb env s).1.promised = s.promised ∧
      (dnsAllocPcb env s).1.servers = s.servers ∧
      match (dnsAllocPcb env s).2 with
      | none => (dnsAllocPcb env s).1.pcbs = s.pcbs
      | some j => ∃ port, (dnsAllocPcb env s).1.pcbs = (setPcb s j port).pcbs := by
  have hnext : (nextPcb s).1.table = s.table ∧ (nextPcb s).1.requests = s.requests ∧
      (nextPcb s).1.called = s.called ∧ (nextPcb s).1.promised = s.promised ∧ (nextPcb s).1.servers = s.servers ∧
      match (nextPcb s).2 with
      | none => (nextPcb s).1.pcbs = s.pcbs
      | some j => ∃ port, (nextPcb s).1.pcbs = (setPcb s j port).pcbs := by
    rw [nextPcb]
    split
    · next j hj =>
      have hsome := List.find?_some hj
      obtain ⟨port, hport⟩ := Option.isSome_iff_exists.mp hsome
      refine ⟨rfl, rfl, rfl, rfl, rfl, port, ?_⟩
      rw [setPcb, ← hport, Function.update_eq_self]
    · exact ⟨rfl, rfl, rfl, rfl, rfl, rfl⟩
  rw [dnsAllocPcb]
  split
  · exact ⟨rfl, rfl, rfl, rfl, rfl, _, rfl⟩
  · exact hnext

/-- There are more numbers than entries. -/
theorem dnsCreateTxid_fresh (s : State) (rand : List UInt16) (k : Fin DNS_TABLE_SIZE) (hk : (s.table k).Asking) :
    (s.table k).txid ≠ dnsCreateTxid s rand := by
  have hfound : ∃ t, (rand ++ (List.range (DNS_TABLE_SIZE + 1)).map Nat.toUInt16).find? (fun t => !inUse s t) = some t := by
    rw [← Option.isSome_iff_exists, List.find?_isSome]
    by_contra hnone
    have huse : ∀ n : Fin (DNS_TABLE_SIZE + 1), ∃ i, (s.table i).Asking ∧ (s.table i).txid = n.val.toUInt16 := by
      intro n
      by_contra hfree
      refine hnone ⟨n.val.toUInt16, List.mem_append_right _ (List.mem_map_of_mem (List.mem_range.mpr n.isLt)), ?_⟩
      simpa [inUse] using hfree
    choose f hf using huse
    have hinj : Function.Injective f := by
      intro n m hnm
      have heq : n.val.toUInt16 = m.val.toUInt16 := by rw [← (hf n).2, ← (hf m).2, hnm]
      have hall : ∀ n m : Fin (DNS_TABLE_SIZE + 1), n.val.toUInt16 = m.val.toUInt16 → n = m := by decide
      exact hall n m heq
    exact absurd (Fintype.card_le_of_injective f hinj) (by simp)
  obtain ⟨t, ht⟩ := hfound
  have hfree := List.find?_some ht
  rw [dnsCreateTxid, ht, Option.getD_some]
  intro heq
  simp only [inUse, Bool.not_eq_true', decide_eq_false_iff_not, not_exists, not_and] at hfree
  exact hfree k hk heq

/-- The first query of an entry, with a server to ask. -/
theorem dnsSend_quiet (env : Env) {s : State} {i : Fin DNS_TABLE_SIZE}
    (h : isAny (s.servers (s.table i).serverIdx) = false) : Quiet s (dnsSend env s i) := by
  simp only [dnsSend, h, Bool.false_eq_true, if_false]
  split <;> exact ⟨rfl, rfl, rfl, rfl, rfl⟩

theorem enqueueAt_moves (env : Env) {s : State} {i : Fin DNS_TABLE_SIZE} {r : Fin DNS_MAX_REQUESTS} (c : Caller)
    (hserver : isAny (s.servers 0) = false) (hidle : ¬ (s.table i).Asking) (hfree : (s.requests r).found = none) :
    Moves Unanswered s (enqueueAt env s i r c).1 := by
  have hspec := dnsAllocPcb_spec env (openEntry s i r c)
  rw [enqueueAt]
  split
  · next t halloc =>
    rw [halloc] at hspec
    obtain ⟨htable, hrequests, hcalled, hpromised, -, hpcbs⟩ := hspec
    have hdrop : Move Unanswered s (setEntry s i { t.table i with state := .unused, pcbIdx := none }) := Move.idle hidle (Or.inl rfl)
    refine (Relation.ReflTransGen.single hdrop).tail (Move.forget i hfree) |>.tail
      (Move.quiet ⟨?_, ?_, hpcbs, hcalled, hpromised⟩)
    · show Function.update t.table i _ = Function.update s.table i _
      rw [show t.table = _ from htable]
      exact Function.update_idem ..
    · show Function.update t.requests r _ = Function.update s.requests r _
      rw [show t.requests = _ from hrequests]
      exact Function.update_idem ..
  · next t j halloc =>
    rw [halloc] at hspec
    obtain ⟨htable, hrequests, hcalled, hpromised, hservers, port, hpcbs⟩ := hspec
    have htable : t.table = (openEntry s i r c).table := htable
    generalize hu : usePcb t i j = u
    have hui : u.table i = { t.table i with pcbIdx := some j } := by rw [← hu]; exact setEntry_self ..
    have hnew : (t.table i).state = .new ∧ (t.table i).name = writeName (s.table i).name c.hostname.val := by
      rw [htable, openEntry, setRequest_table, setEntry_self]
      exact ⟨rfl, rfl⟩
    have hne : ∀ k, k ≠ i → u.table k = s.table k := by
      intro k hk
      rw [← hu]
      refine (setEntry_ne t i _ hk).trans ?_
      rw [htable]
      exact setEntry_ne s i _ hk
    have hcheck : dnsCheckEntry env u i =
        dnsSend env (setEntry u i (Entry.ask { u.table i with txid := dnsCreateTxid u env.rand, state := .asking } 0 1 0)) i := by
      have hstate : (u.table i).state = .new := by rw [hui]; exact hnew.1
      simp only [dnsCheckEntry, hstate]
    generalize he : Entry.ask { u.table i with txid := dnsCreateTxid u env.rand, state := .asking } 0 1 0 = e at hcheck
    have htxid : ∀ k, (s.table k).Asking → (s.table k).txid ≠ e.txid := by
      intro k hk
      have hki := hne k (by rintro rfl; exact hidle hk)
      rw [← hki] at hk ⊢
      rw [← he]
      exact dnsCreateTxid_fresh u env.rand k hk
    have hnames : Holds e.name c.hostname.val := by
      have hname : e.name = writeName (s.table i).name c.hostname.val := by rw [← he, Entry.ask, hui]; exact hnew.2
      rw [hname]
      exact holds_writeName _ _
    have hstart := Move.start (P := Unanswered) port hfree hidle (e := e) (j := j) (by rw [← he]; rfl) htxid
      (by rw [← he]; exact timed_first _) (by rw [← he, Entry.ask, hui]) hnames
    have hquiet : Quiet (setEntry u i e) (dnsSend env (setEntry u i e) i) := by
      refine dnsSend_quiet env ?_
      have hsrv : u.servers = s.servers := by rw [← hu]; exact hservers
      rw [setEntry_self, setEntry_servers, hsrv, ← he]
      exact hserver
    refine (Relation.ReflTransGen.single hstart).tail (Move.quiet ⟨?_, ?_, ?_, ?_, ?_⟩)
    · show (dnsCheckEntry env u i).table = Function.update s.table i e
      rw [hcheck, hquiet.table, ← hu]
      show Function.update (Function.update t.table i _) i e = _
      rw [htable, Function.update_idem]
      exact Function.update_idem ..
    · show (dnsCheckEntry env u i).requests = _
      rw [hcheck, hquiet.requests, ← hu]
      exact hrequests
    · show (dnsCheckEntry env u i).pcbs = _
      rw [hcheck, hquiet.pcbs, ← hu]
      exact hpcbs
    · show (dnsCheckEntry env u i).called = _
      rw [hcheck, hquiet.called, ← hu]
      exact hcalled
    · show (dnsCheckEntry env u i).promised ++ [c] = s.promised ++ [c]
      rw [hcheck, hquiet.promised, ← hu]
      exact congrArg (· ++ [c]) hpromised

theorem dnsGethostbyname_moves (aton : List UInt8 → Option Addr) (env : Env) (s : State) (c : Caller) :
    Moves Unanswered s (dnsGethostbyname aton env s c).1 := by
  rw [dnsGethostbyname]
  split
  · exact Moves.refl s
  split
  · exact Moves.refl s
  next hlen =>
  split
  · exact Moves.refl s
  split
  · exact Moves.refl s
  split
  · exact Moves.refl s
  next hserver =>
  rw [dnsEnqueue]
  split
  · next i r hdup hfree =>
    have hdup := List.find?_some hdup
    simp only [Bool.decide_and, Bool.decide_eq_true, Bool.and_eq_true, decide_eq_true_eq] at hdup
    exact Relation.ReflTransGen.single
      (Move.join (free_of_freeRequest hfree) hdup.1 (holds_of_sameName (Nat.not_le.mp hlen) hdup.2))
  · rw [enqueueNew]
    split
    · next i r hentry hfree =>
      exact enqueueAt_moves env c (Bool.not_eq_true _ ▸ hserver) (idle_of_entryFor hentry) (free_of_freeRequest hfree)
    · exact Moves.refl s

theorem step_moves (aton : List UInt8 → Option Addr) {s : State} (h : Inv s) (ev : Ev) :
    Moves (fun _ => True) s (step aton s ev) := by
  cases ev with
  | gethostbyname env c => exact (dnsGethostbyname_moves aton env s c).any
  | recv env p addr => exact dnsRecv_moves env h p addr
  | tmr env => exact (dnsCheckEntries_moves env h).any
  | setserver numdns addr =>
    simp only [step, dnsSetserver]
    split
    · exact Relation.ReflTransGen.single (Move.quiet ⟨rfl, rfl, rfl, rfl, rfl⟩)
    · exact Moves.refl s

end Nanotube.Lwip.Dns
