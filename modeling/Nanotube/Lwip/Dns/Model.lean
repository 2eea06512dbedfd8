/-
  Nanotube.Lwip.Dns.Model — the resolver (src/lwIP/core/dns.c `dns_gethostbyname`,
  `dns_enqueue`, `dns_recv`, `dns_tmr` and what they call).

  A caller of `dns_gethostbyname` either has its answer at once or is promised a callback
  (`ERR_INPROGRESS`). The promise is a request; the question is an entry of the table, which
  several requests may share. An entry that is asked has a transaction id and a UDP port; it
  is asked again after 1, 1, 2 and 3 ticks of `dns_tmr`, then the next server is tried.

  `Caller` is a callback with its argument, and the name it was registered for. A callback
  is taken not to call into the resolver (`name_resolved` of irc.c does not).
-/

import Nanotube.Lwip.Dns.Message
import Mathlib.Logic.Function.Basic

namespace Nanotube.Lwip.Dns

open Nanotube.Lib.Wire Pbufs

abbrev DNS_TABLE_SIZE : Nat := 4
abbrev DNS_MAX_REQUESTS : Nat := 4
abbrev DNS_MAX_SOURCE_PORTS : Nat := 4
def PBUF_TRANSPORT : Nat := 54
def DNS_MAX_SERVERS : Nat := 2
def DNS_MAX_RETRIES : UInt8 := 4
def DNS_MAX_TTL : Nat := 604800

/-- A C string, without its NUL. -/
abbrev CString := { cs : List UInt8 // (0 : UInt8) ∉ cs }

structure Caller where
  found : Nat
  hostname : CString
  deriving DecidableEq

inductive EntryState where
  | unused
  | new
  | asking
  | done
  deriving DecidableEq, Repr

/-- `name` is the memory from the name of the entry on, and `pcb_idx` is none when it is
    DNS_MAX_SOURCE_PORTS. -/
structure Entry where
  ttl : Nat
  ipaddr : Addr
  txid : UInt16
  state : EntryState
  serverIdx : Nat
  tmr : UInt8
  retries : UInt8
  seqno : UInt8
  pcbIdx : Option (Fin DNS_MAX_SOURCE_PORTS)
  name : Nat → UInt8

structure Request where
  found : Option Caller
  dnsTableIdx : Fin DNS_TABLE_SIZE
  deriving DecidableEq

/-- A query that was given to `udp_sendto`. -/
structure Sent where
  port : Option UInt16
  server : Addr
  bytes : List UInt8
  deriving DecidableEq

structure State where
  table : Fin DNS_TABLE_SIZE → Entry
  requests : Fin DNS_MAX_REQUESTS → Request
  /-- the port of each pcb -/
  pcbs : Fin DNS_MAX_SOURCE_PORTS → Option UInt16
  lastPcbIdx : Fin DNS_MAX_SOURCE_PORTS
  seqno : UInt8
  servers : Nat → Addr
  sent : List Sent
  /-- the callers that were told ERR_INPROGRESS -/
  promised : List Caller
  /-- the callbacks that were made, with the address or NULL -/
  called : List (Caller × Option Addr)

/-- What the functions get from outside: whether `pbuf_alloc` has memory for the query of
    an entry, what is in it, the port if a pcb can be had, and the random numbers. -/
structure Env where
  mem : Fin DNS_TABLE_SIZE → Option Device.Transmit.Memory
  port : Option UInt16
  rand : List UInt16

/-! ## The code -/

def isAny (addr : Addr) : Bool := addr = [0, 0, 0, 0]

def setEntry (s : State) (i : Fin DNS_TABLE_SIZE) (e : Entry) : State := { s with table := Function.update s.table i e }

def setRequest (s : State) (r : Fin DNS_MAX_REQUESTS) (q : Request) : State :=
  { s with requests := Function.update s.requests r q }

abbrev Entry.Asking (e : Entry) : Prop := e.state = .asking

/-- The first loop of `dns_call_found`, without the address that goes with the name. -/
def callRequests (s : State) (idx : Fin DNS_TABLE_SIZE) (addr : Option Addr) : State :=
  { s with
    called := s.called ++ (List.finRange DNS_MAX_REQUESTS).filterMap fun i =>
      if (s.requests i).dnsTableIdx = idx then (s.requests i).found.map (·, addr) else none
    requests := fun i =>
      if (s.requests i).dnsTableIdx = idx then { s.requests i with found := none } else s.requests i }

/-- The rest of `dns_call_found`: the pcb is removed unless another entry asks with it. -/
def releasePcb (s : State) (idx : Fin DNS_TABLE_SIZE) : State :=
  let e := s.table idx
  let s' := setEntry s idx { e with pcbIdx := none }
  if ∃ i, i ≠ idx ∧ (s.table i).Asking ∧ (s.table i).pcbIdx = e.pcbIdx then s'
  else match e.pcbIdx with
    | none => s'
    | some j => { s' with pcbs := Function.update s.pcbs j none }

def dnsCallFound (s : State) (idx : Fin DNS_TABLE_SIZE) (addr : Option Addr) : State :=
  releasePcb (callRequests s idx addr) idx

def setState (s : State) (i : Fin DNS_TABLE_SIZE) (st : EntryState) : State :=
  setEntry s i { s.table i with state := st }

/-- `dns_call_found(i, NULL)`, and the entry is UNUSED. -/
def giveUp (s : State) (i : Fin DNS_TABLE_SIZE) : State := setState (dnsCallFound s i none) i .unused

/-- `entry->name` up to its NUL. -/
def nameOf (mem : Nat → UInt8) : List UInt8 := ((List.range DNS_MAX_NAME_LENGTH).map mem).takeWhile (· ≠ 0)

def dnsSend (env : Env) (s : State) (idx : Fin DNS_TABLE_SIZE) : State :=
  let e := s.table idx
  if isAny (s.servers e.serverIdx) then giveUp s idx
  else
    let len := SIZEOF_DNS_HDR + (nameOf e.name).length + 2 + SIZEOF_DNS_QUERY
    match pbufAllocRam PBUF_TRANSPORT len.toUInt16 (env.mem idx) with
    | none => s
    | some p =>
      { s with sent := s.sent ++ [⟨e.pcbIdx.bind s.pcbs, s.servers e.serverIdx,
          contents (fillQuery [p] e.txid (nameOf e.name))⟩] }

def inUse (s : State) (txid : UInt16) : Bool := ∃ i, (s.table i).Asking ∧ (s.table i).txid = txid

/-- `dns_create_txid`: the first random number no entry asks with. When `rand` has none, the
    next one drawn is the least. -/
def dnsCreateTxid (s : State) (rand : List UInt16) : UInt16 :=
  ((rand ++ (List.range (DNS_TABLE_SIZE + 1)).map Nat.toUInt16).find? fun t => !inUse s t).getD 0

def dnsBackupserverAvailable (s : State) (e : Entry) : Bool :=
  e.serverIdx + 1 < DNS_MAX_SERVERS && !isAny (s.servers (e.serverIdx + 1))

def Entry.ask (e : Entry) (serverIdx : Nat) (tmr retries : UInt8) : Entry :=
  { e with serverIdx := serverIdx, tmr := tmr, retries := retries }

def dnsCheckEntry (env : Env) (s : State) (i : Fin DNS_TABLE_SIZE) : State :=
  let e := s.table i
  match e.state with
  | .new =>
    let e := { e with txid := dnsCreateTxid s env.rand, state := .asking }
    dnsSend env (setEntry s i (e.ask 0 1 0)) i
  | .asking =>
    if e.tmr - 1 ≠ 0 then setEntry s i (e.ask e.serverIdx (e.tmr - 1) e.retries)
    else if e.retries + 1 ≠ DNS_MAX_RETRIES then
      dnsSend env (setEntry s i (e.ask e.serverIdx (e.retries + 1) (e.retries + 1))) i
    else if dnsBackupserverAvailable s e then dnsSend env (setEntry s i (e.ask (e.serverIdx + 1) 1 0)) i
    else giveUp (setEntry s i (e.ask e.serverIdx 0 (e.retries + 1))) i
  | .done =>
    if e.ttl = 0 ∨ e.ttl - 1 = 0 then setEntry s i { e with ttl := 0, state := .unused }
    else setEntry s i { e with ttl := e.ttl - 1 }
  | .unused => s

def dnsCheckEntries (env : Env) (s : State) : State := (List.finRange DNS_TABLE_SIZE).foldl (dnsCheckEntry env) s

def dnsCorrectResponse (s : State) (idx : Fin DNS_TABLE_SIZE) (ttl : Nat) : State :=
  let s := setEntry s idx { s.table idx with state := .done, ttl := min ttl DNS_MAX_TTL }
  let s := dnsCallFound s idx (some (s.table idx).ipaddr)
  if (s.table idx).ttl = 0 then setState s idx .unused else s

/-- The entry a packet is for. -/
def entryOf (s : State) (txid : UInt16) : Option (Fin DNS_TABLE_SIZE) :=
  (List.finRange DNS_TABLE_SIZE).find? fun i => (s.table i).Asking ∧ (s.table i).txid = txid

def dnsRecv (env : Env) (s : State) (p : List Pbuf) (addr : Addr) : State :=
  let hdr := pbufCopyPartial p SIZEOF_DNS_HDR 0
  if totLenOf p < SIZEOF_DNS_HDR + SIZEOF_DNS_QUERY then s
  else if hdr.length ≠ SIZEOF_DNS_HDR then s
  else match entryOf s (read16 hdr 0) with
    | none => s
    | some i =>
      let e := s.table i
      if hdr.getD 2 0 &&& 0x80 = 0 then s
      else if read16 hdr 4 ≠ 1 then s
      else if addr ≠ s.servers e.serverIdx then s
      else match readReply hdr e.name p with
        | .malformed => s
        | .error =>
          if dnsBackupserverAvailable s e then
            dnsCheckEntry env (setEntry s i (e.ask e.serverIdx 1 (DNS_MAX_RETRIES - 1))) i
          else giveUp s i
        | .noAddress => giveUp s i
        | .address ipaddr ttl => dnsCorrectResponse (setEntry s i { e with ipaddr := ipaddr }) i ttl

/-! ## The code: asking -/

def sameName (hostname : CString) (e : Entry) : Bool :=
  lwipStrnicmp (stringz hostname.val) e.name DNS_MAX_NAME_LENGTH 0

def dnsLookup (s : State) (hostname : CString) : Option Addr :=
  ((List.finRange DNS_TABLE_SIZE).find? fun i => (s.table i).state = .done ∧ sameName hostname (s.table i)).map
    fun i => (s.table i).ipaddr

/-- `dns_alloc_pcb` once no new pcb can be had: the next one that is there. -/
def nextPcb (s : State) : State × Option (Fin DNS_MAX_SOURCE_PORTS) :=
  let order := (List.finRange DNS_MAX_SOURCE_PORTS).map fun k => s.lastPcbIdx + 1 + k
  match order.find? fun j => (s.pcbs j).isSome with
  | some j => ({ s with lastPcbIdx := j }, some j)
  | none => (s, none)

def dnsAllocPcb (env : Env) (s : State) : State × Option (Fin DNS_MAX_SOURCE_PORTS) :=
  match (List.finRange DNS_MAX_SOURCE_PORTS).find? fun j => (s.pcbs j).isNone, env.port with
  | some j, some port => ({ s with pcbs := Function.update s.pcbs j (some port), lastPcbIdx := j }, some j)
  | _, _ => nextPcb s

def freeRequest (s : State) : Option (Fin DNS_MAX_REQUESTS) :=
  (List.finRange DNS_MAX_REQUESTS).find? fun r => (s.requests r).found = none

/-- The entry that asks for the name already. -/
def duplicateOf (s : State) (hostname : CString) : Option (Fin DNS_TABLE_SIZE) :=
  (List.finRange DNS_TABLE_SIZE).find? fun i => (s.table i).Asking ∧ sameName hostname (s.table i)

/-- `lseq` and `lseqi`, with one more entry. -/
def older (s : State) (lseq : UInt8 × Option (Fin DNS_TABLE_SIZE)) (i : Fin DNS_TABLE_SIZE) :
    UInt8 × Option (Fin DNS_TABLE_SIZE) :=
  let age := s.seqno - (s.table i).seqno
  if (s.table i).state = .done ∧ age > lseq.1 then (age, some i) else lseq

/-- The oldest of the entries that are DONE. -/
def oldestDone (s : State) : Option (Fin DNS_TABLE_SIZE) :=
  ((List.finRange DNS_TABLE_SIZE).foldl (older s) (0, none)).2

/-- The entry for a new question. -/
def entryFor (s : State) : Option (Fin DNS_TABLE_SIZE) :=
  ((List.finRange DNS_TABLE_SIZE).find? fun i => (s.table i).state = .unused).or (oldestDone s)

/-- `MEMCPY(entry->name, name, namelen)`, and the NUL. -/
def writeName (mem : Nat → UInt8) (name : List UInt8) (k : Nat) : UInt8 :=
  if k ≤ name.length then stringz name k else mem k

inductive Result where
  | ok (addr : Addr)
  | inProgress
  | arg
  | mem
  | val
  deriving DecidableEq, Repr

def promise (s : State) (c : Caller) : State := { s with promised := s.promised ++ [c] }

/-- The entry and the request are taken. -/
def openEntry (s : State) (i : Fin DNS_TABLE_SIZE) (r : Fin DNS_MAX_REQUESTS) (c : Caller) : State :=
  let e := s.table i
  let e := { e with state := .new, seqno := s.seqno, name := writeName e.name c.hostname.val }
  setRequest (setEntry s i e) r ⟨some c, i⟩

/-- There is no pcb. -/
def refuse (s : State) (i : Fin DNS_TABLE_SIZE) (r : Fin DNS_MAX_REQUESTS) : State :=
  setRequest (setEntry s i { s.table i with state := .unused, pcbIdx := none }) r ⟨none, i⟩

def usePcb (s : State) (i : Fin DNS_TABLE_SIZE) (j : Fin DNS_MAX_SOURCE_PORTS) : State :=
  { setEntry s i { s.table i with pcbIdx := some j } with seqno := s.seqno + 1 }

def enqueueAt (env : Env) (s : State) (i : Fin DNS_TABLE_SIZE) (r : Fin DNS_MAX_REQUESTS) (c : Caller) :
    State × Result :=
  match dnsAllocPcb env (openEntry s i r c) with
  | (s, none) => (refuse s i r, .mem)
  | (s, some j) => (promise (dnsCheckEntry env (usePcb s i j) i) c, .inProgress)

/-- `dns_enqueue` for a question that is not in the table. -/
def enqueueNew (env : Env) (s : State) (c : Caller) : State × Result :=
  match entryFor s, freeRequest s with
  | some i, some r => enqueueAt env s i r c
  | _, _ => (s, .mem)

def dnsEnqueue (env : Env) (s : State) (c : Caller) : State × Result :=
  match duplicateOf s c.hostname, freeRequest s with
  | some i, some r => (promise (setRequest s r ⟨some c, i⟩) c, .inProgress)
  | _, _ => enqueueNew env s c

/-- `aton` is `ipaddr_aton`. -/
def dnsGethostbyname (aton : List UInt8 → Option Addr) (env : Env) (s : State) (c : Caller) : State × Result :=
  if c.hostname.val = [] then (s, .arg)
  else if c.hostname.val.length ≥ DNS_MAX_NAME_LENGTH then (s, .arg)
  else match aton c.hostname.val with
    | some addr => (s, .ok addr)
    | none => match dnsLookup s c.hostname with
      | some addr => (s, .ok addr)
      | none => if isAny (s.servers 0) then (s, .val) else dnsEnqueue env s c

def dnsSetserver (s : State) (numdns : Nat) (addr : Addr) : State :=
  if numdns < DNS_MAX_SERVERS then { s with servers := Function.update s.servers numdns addr } else s

inductive Ev where
  | gethostbyname (env : Env) (c : Caller)
  | recv (env : Env) (p : List Pbuf) (addr : Addr)
  | tmr (env : Env)
  | setserver (numdns : Nat) (addr : Addr)

def step (aton : List UInt8 → Option Addr) (s : State) : Ev → State
  | .gethostbyname env c => (dnsGethostbyname aton env s c).1
  | .recv env p addr => dnsRecv env s p addr
  | .tmr env => dnsCheckEntries env s
  | .setserver numdns addr => dnsSetserver s numdns addr

/-! ## Field lemmas -/

section Fields
variable (s : State) (i : Fin DNS_TABLE_SIZE) (e : Entry) (r : Fin DNS_MAX_REQUESTS) (q : Request) (c : Caller)

@[simp] theorem setEntry_self : (setEntry s i e).table i = e := Function.update_self ..
@[simp] theorem setEntry_requests : (setEntry s i e).requests = s.requests := rfl
@[simp] theorem setEntry_pcbs : (setEntry s i e).pcbs = s.pcbs := rfl
@[simp] theorem setEntry_servers : (setEntry s i e).servers = s.servers := rfl
@[simp] theorem setEntry_called : (setEntry s i e).called = s.called := rfl
@[simp] theorem setEntry_promised : (setEntry s i e).promised = s.promised := rfl
@[simp] theorem setRequest_self : (setRequest s r q).requests r = q := Function.update_self ..
@[simp] theorem setRequest_table : (setRequest s r q).table = s.table := rfl
@[simp] theorem setRequest_pcbs : (setRequest s r q).pcbs = s.pcbs := rfl
@[simp] theorem setRequest_servers : (setRequest s r q).servers = s.servers := rfl
@[simp] theorem setRequest_called : (setRequest s r q).called = s.called := rfl
@[simp] theorem setRequest_promised : (setRequest s r q).promised = s.promised := rfl
@[simp] theorem promise_table : (promise s c).table = s.table := rfl
@[simp] theorem promise_requests : (promise s c).requests = s.requests := rfl
@[simp] theorem promise_pcbs : (promise s c).pcbs = s.pcbs := rfl
@[simp] theorem promise_called : (promise s c).called = s.called := rfl
@[simp] theorem promise_promised : (promise s c).promised = s.promised ++ [c] := rfl

theorem setEntry_ne {k : Fin DNS_TABLE_SIZE} (h : k ≠ i) : (setEntry s i e).table k = s.table k :=
  Function.update_of_ne h ..

theorem setRequest_ne {k : Fin DNS_MAX_REQUESTS} (h : k ≠ r) : (setRequest s r q).requests k = s.requests k :=
  Function.update_of_ne h ..

@[simp] theorem setEntry_setEntry (e' : Entry) : setEntry (setEntry s i e) i e' = setEntry s i e' := by
  simp only [setEntry, Function.update_idem]

end Fields

/-- The calls that `dns_call_found` makes. -/
def callsOf (s : State) (idx : Fin DNS_TABLE_SIZE) (addr : Option Addr) : List (Caller × Option Addr) :=
  (List.finRange DNS_MAX_REQUESTS).filterMap fun i =>
    if (s.requests i).dnsTableIdx = idx then (s.requests i).found.map (·, addr) else none

section CallFound
variable (s : State) (idx : Fin DNS_TABLE_SIZE) (addr : Option Addr)

theorem dnsCallFound_called : (dnsCallFound s idx addr).called = s.called ++ callsOf s idx addr := by
  simp only [dnsCallFound, releasePcb]
  split
  · rfl
  · split <;> rfl

theorem dnsCallFound_requests (r : Fin DNS_MAX_REQUESTS) :
    (dnsCallFound s idx addr).requests r =
      if (s.requests r).dnsTableIdx = idx then { s.requests r with found := none } else s.requests r := by
  simp only [dnsCallFound, releasePcb]
  split
  · rfl
  · split <;> rfl

theorem dnsCallFound_promised : (dnsCallFound s idx addr).promised = s.promised := by
  simp only [dnsCallFound, releasePcb]
  split
  · rfl
  · split <;> rfl

theorem dnsCallFound_self : (dnsCallFound s idx addr).table idx = { s.table idx with pcbIdx := none } := by
  simp only [dnsCallFound, releasePcb]
  split
  · exact setEntry_self ..
  · split <;> exact setEntry_self ..

theorem dnsCallFound_ne {k : Fin DNS_TABLE_SIZE} (h : k ≠ idx) : (dnsCallFound s idx addr).table k = s.table k := by
  simp only [dnsCallFound, releasePcb]
  split
  · exact setEntry_ne _ _ _ h
  · split <;> exact setEntry_ne _ _ _ h

/-- Just the pcb of the entry is removed, if no other entry asks with it. -/
theorem dnsCallFound_pcbs (j : Fin DNS_MAX_SOURCE_PORTS) :
    (dnsCallFound s idx addr).pcbs j =
      if (s.table idx).pcbIdx = some j ∧ ∀ i, i ≠ idx → (s.table i).Asking → (s.table i).pcbIdx ≠ some j then none
      else s.pcbs j := by
  have hcore : (callRequests s idx addr).table = s.table := rfl
  simp only [dnsCallFound, releasePcb, hcore]
  split
  · next h =>
    obtain ⟨i, hne, hask, heq⟩ := h
    rw [if_neg (by rintro ⟨h1, h2⟩; exact h2 i hne hask (heq.trans h1))]
    rfl
  · next h =>
    split
    · next h0 =>
      rw [if_neg (by rw [h0]; simp)]
      rfl
    · next k hk =>
      rw [hk] at h ⊢
      by_cases hj : j = k
      · rw [if_pos ⟨by rw [hj], fun i hne hask heq => h ⟨i, hne, hask, by rw [heq, hj]⟩⟩, hj]
        exact Function.update_self ..
      · rw [if_neg (fun h1 => hj (Option.some.inj h1.1).symm)]
        exact Function.update_of_ne hj ..

end CallFound

theorem mem_callsOf {s : State} {r : Fin DNS_MAX_REQUESTS} {c : Caller} (h : (s.requests r).found = some c)
    (addr : Option Addr) : (c, addr) ∈ callsOf s (s.requests r).dnsTableIdx addr := by
  rw [callsOf, List.mem_filterMap]
  exact ⟨r, List.mem_finRange r, by rw [if_pos rfl, h]; rfl⟩

end Nanotube.Lwip.Dns
