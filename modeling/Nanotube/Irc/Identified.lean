/-
  Nanotube.Irc.Identified — is the client registered when it thinks it is? (src/irc.c
  `process_message`, `irc_send_raw`, `irc_init`)

  The ident notice makes `process_message` send the USER/NICK block, once: it sets
  `identified` and never looks at the notice again. `irc_send_raw` reports a refused
  `tcp_write` by its result, which is not looked at either.

  A message is one that `recv_func` cuts off: it holds no CRLF, and where the CRLF stood a
  NUL and another byte follow it (`Received`, `recvLoop_handles`). So nothing else that is
  sent, a PONG or a relayed line, is the block.

  Proved: over any messages and any answers of lwIP, the block was queued exactly once
  when `identified` is true and not at all when it is false, all along, if and only if lwIP
  accepts the block when it is written (`registered_once_iff`); a refused `tcp_output` does
  no harm.
-/

import Nanotube.Irc.Locality
import Nanotube.Lib.Runs

namespace Nanotube.Irc

open Nanotube.Lib.Frames Nanotube.Lib.Runs
open Nanotube.Device.Ecm (ErrT ERR_OK)

variable (lwip : Nat → ErrT)

/-! ## Messages -/

/-- A message as `recv_func` passes it to `process_message`. -/
structure Received where
  mem : List UInt8
  base : Nat
  text : List UInt8
  ends : Ends mem base text
  line : find CR LF text = none

def handle (s : St) (m : Received) : St := (processMessage lwip m.mem m.base s).2

/-- `recv_func` handles such messages one after the other. -/
theorem recvLoop_handles (fuel : Nat) (mem : List UInt8) (current : Nat) (s : St) :
    ∃ ms, (recvLoop lwip fuel mem current s).2 = run (handle lwip) s ms := by
  induction fuel generalizing mem current s with
  | zero => exact ⟨[], rfl⟩
  | succ fuel ih =>
    cases hfind : find CR LF (cstr mem current) with
    | none => exact ⟨[], by simp [recvLoop, strstrCrlf, hfind]⟩
    | some i =>
      let m : Received :=
        { mem := mem.set (current + i) 0, base := current, text := (cstr mem current).take i,
          ends := ends_of_crlf (find_lt CR LF hfind), line := find_take CR LF hfind }
      obtain ⟨ms, hms⟩ := ih (processMessage lwip m.mem m.base s).1 (current + i + 2) (handle lwip s m)
      refine ⟨m :: ms, ?_⟩
      rw [run_cons, ← hms]
      simp only [recvLoop, strstrCrlf, hfind, Option.map_some]
      rfl

/-! ## What is queued -/

/-- How often `tcp_write` was called with `bytes`, from call `k` on, and accepted them. -/
def queued (bytes : List UInt8) (k : Nat) (s : St) : Nat :=
  (s.calls.zipIdx.drop k).countP fun c => c.1.fn = .write bytes ∧ lwip c.2 = ERR_OK

theorem queued_append (bytes : List UInt8) {k : Nat} {s s' : St} {cs : List TcpCall} (hk : k ≤ s.calls.length)
    (h : s'.calls = s.calls ++ cs) :
    queued lwip bytes k s' = queued lwip bytes k s +
      (cs.zipIdx s.calls.length).countP fun c => c.1.fn = .write bytes ∧ lwip c.2 = ERR_OK := by
  unfold queued
  rw [h, List.zipIdx_append, List.drop_append_of_le_length (by simpa using hk), List.countP_append, Nat.zero_add]

/-- Calls that do not write `bytes` do not queue them. -/
theorem countP_writes {bytes : List UInt8} {cs : List TcpCall} (h : ∀ c ∈ cs, c.fn ≠ .write bytes) (k : Nat) :
    (cs.zipIdx k).countP (fun c => c.1.fn = .write bytes ∧ lwip c.2 = ERR_OK) = 0 := by
  rw [List.countP_eq_zero]
  intro c hc
  simp [h c.1 (List.fst_mem_of_mem_zipIdx hc)]

/-- The connection is the same, and `bytes` was not written. -/
def Passes (bytes : List UInt8) (s s' : St) : Prop :=
  s'.conn = s.conn ∧ ∃ cs, s'.calls = s.calls ++ cs ∧ ∀ c ∈ cs, c.fn ≠ .write bytes

theorem Passes.queued_eq {bytes : List UInt8} {k : Nat} {s s' : St} (h : Passes bytes s s') (hk : k ≤ s.calls.length) :
    queued lwip bytes k s' = queued lwip bytes k s := by
  obtain ⟨-, cs, hcs, hne⟩ := h
  rw [queued_append lwip bytes hk hcs, countP_writes lwip hne, Nat.add_zero]

/-- What `irc_send_raw` calls: `tcp_write`, and `tcp_output` if it was accepted. -/
theorem sendRaw_calls (message : List UInt8) (len : Nat) (s : St) :
    (ircSendRaw lwip message len s).2.conn = s.conn ∧ ∃ cs, (∀ c ∈ cs, c.fn = .output) ∧
      (ircSendRaw lwip message len s).2.calls =
        s.calls ++ ⟨.write (message.take len), s.conn.pcb, s.conn.pcb.any (s.freed.contains ·)⟩ :: cs := by
  simp only [ircSendRaw]
  split
  · exact ⟨rfl, [], by simp, rfl⟩
  · have hboth : ((s.call (.write (message.take len)) s.conn.pcb).call .output s.conn.pcb).calls = s.calls ++
        [⟨.write (message.take len), s.conn.pcb, s.conn.pcb.any (s.freed.contains ·)⟩,
          ⟨.output, s.conn.pcb, s.conn.pcb.any (s.freed.contains ·)⟩] := by
      simp [St.call]
    split
    · exact ⟨rfl, _, List.forall_mem_singleton.mpr rfl, hboth⟩
    · exact ⟨rfl, _, List.forall_mem_singleton.mpr rfl, hboth⟩

theorem sendRaw_passes {bytes message : List UInt8} {len : Nat} (h : message.take len ≠ bytes) (s : St) :
    Passes bytes s (ircSendRaw lwip message len s).2 := by
  obtain ⟨hconn, cs, hout, hcalls⟩ := sendRaw_calls lwip message len s
  refine ⟨hconn, _, hcalls, List.forall_mem_cons.mpr ⟨?_, ?_⟩⟩
  · simpa using h
  · intro c hc
    rw [hout c hc]
    simp

/-! ## Nothing else is the block -/

theorem registration_head (conn : Conn) : (registration conn).head? = some (byte 'U') := rfl

/-- A reply starts with a P, or is a bare CRLF. -/
theorem ping_passes {command : List UInt8} (h : PING <+: command) (conn : Conn) (s : St) :
    Passes (registration conn) s (processPing lwip command s) := by
  simp only [processPing]
  split
  · exact ⟨rfl, [], by simp, by simp⟩
  · refine sendRaw_passes lwip (fun heq => ?_) _
    have hhead := registration_head conn
    rw [← heq] at hhead
    obtain ⟨t, rfl⟩ := h
    generalize (PING ++ t).length % 256 = len at hhead
    cases len with
    | zero =>
      have hCR : some CR = some (byte 'U') := hhead
      exact absurd hCR (by decide)
    | succ len =>
      have hP : some (byte 'P') = some (byte 'U') := by
        rw [← hhead, show len + 1 + 2 = (len + 2) + 1 by omega]
        cases len <;> rfl
      exact absurd hP (by decide)

/-- A line with its CRLF is not the block, which has two. -/
theorem line_ne_registration {t : List UInt8} (h : ¬ [CR, LF] <:+: t) (conn : Conn) :
    t ++ [CR, LF] ≠ registration conn := by
  intro heq
  rw [registration, List.append_cancel_right_eq] at heq
  apply h
  rw [heq]
  refine ⟨['U', 'S', 'E', 'R', ' '].map byte ++ conn.nick ++ [' ', '0', ' ', '*', ' ', ':'].map byte ++ conn.realname,
    ['N', 'I', 'C', 'K', ' '].map byte ++ conn.nick, ?_⟩
  simp only [List.append_assoc]

theorem line_passes (m : Received) {l : Line} (hl : m.text = l.text) (conn : Conn) (s : St) :
    Passes (registration conn) s (handle lwip s m) := by
  have hcstr : cstr m.mem m.base = l.text := m.ends.cstr_eq.trans hl
  rw [handle, processMessage_line lwip l hcstr s]
  cases l.nickLen with
  | none => exact ⟨rfl, [], (List.append_nil _).symm, by simp⟩
  | some n =>
    have hends : Ends m.mem (m.base + l.saidAt) (m.text.drop l.saidAt) := m.ends.suffix (by rw [hl]; exact l.saidAt_le)
    simp only [privmsgCallback_text lwip hends]
    split
    next hquote =>
      have hlen : 2 ≤ (m.text.drop l.saidAt).length := hquote.2.length_le
      have hwhole : ((m.text.drop l.saidAt).drop 2 ++ [CR, LF]).length = (m.text.drop l.saidAt).length := by
        simp only [List.length_append, List.length_drop, List.length_cons, List.length_nil] at hlen ⊢
        omega
      have hplain : ¬ [CR, LF] <:+: (m.text.drop l.saidAt).drop 2 := by
        rw [List.drop_drop]
        intro h
        exact (find_eq_none_iff CR LF m.text).mp m.line (h.trans (List.drop_suffix _ _).isInfix)
      refine sendRaw_passes lwip (s := l.heard n s) ?_
      rw [← hwhole, List.take_length]
      exact line_ne_registration hplain conn
    next => exact ⟨rfl, [], (List.append_nil _).symm, by simp⟩

/-! ## One message -/

/-- The message is the ident notice, and the client has not registered. -/
def Notice (s : St) (m : Received) : Prop := s.conn.identified = false ∧ checkingIdent <+: m.text

/-- The notice writes the block and sets `identified`; nothing else does either. -/
theorem handle_cases (s : St) (m : Received) :
    (Notice s m ∧ (handle lwip s m).conn = { s.conn with identified := true } ∧
      ∃ cs, (∀ c ∈ cs, c.fn = .output) ∧ (handle lwip s m).calls =
        s.calls ++ ⟨.write (registration s.conn), s.conn.pcb, s.conn.pcb.any (s.freed.contains ·)⟩ :: cs) ∨
    (¬ Notice s m ∧ Passes (registration s.conn) s (handle lwip s m)) := by
  have htext := m.ends.cstr_eq
  by_cases hn : Notice s m
  · have hident : checkingIdent <+: cstr m.mem m.base := by
      rw [htext]
      exact hn.2
    obtain ⟨hconn, cs, hout, hcalls⟩ := sendRaw_calls lwip (registration s.conn) (registration s.conn).length
      ((s.act (.message (cstr m.mem m.base))).act (.write .buffer 0 ((registration s.conn).length + 1)))
    rw [List.take_length] at hcalls
    rw [handle, processMessage_notice lwip hn.1 hident]
    exact Or.inl ⟨hn, congrArg (fun c : Conn => { c with identified := true }) hconn, cs, hout, hcalls⟩
  · refine Or.inr ⟨hn, ?_⟩
    rcases processMessage_cases lwip m.mem m.base s with ⟨hident, -⟩ | ⟨command, hping, hp⟩ | hi | ⟨l, hl⟩
    · rw [htext] at hident
      exact absurd hident hn
    · rw [handle, hp]
      exact ping_passes lwip hping s.conn (s.act (.message (cstr m.mem m.base)))
    · rw [handle, hi]
      exact ⟨rfl, [], (List.append_nil _).symm, by simp⟩
    · exact line_passes lwip m (htext.symm.trans hl) s.conn s

/-! ## Runs -/

/-- In `s`, of a connection that was not identified in `s₀`: the block has been queued
    since, exactly once, if `identified` is true, and not at all if it is false. -/
def RegisteredOnce (s₀ s : St) : Prop :=
  queued lwip (registration s₀.conn) s₀.calls.length s = if s.conn.identified then 1 else 0

instance (s₀ s : St) : Decidable (RegisteredOnce lwip s₀ s) := inferInstanceAs (Decidable (_ = _))

/-- When the notice comes, lwIP accepts the next call, the `tcp_write` of the block. -/
def Accepted (s : St) (m : Received) : Prop := Notice s m → lwip s.calls.length = ERR_OK

/-- The block is that of the connection, and the calls counted are those since `s₀`. -/
structure Since (s₀ s : St) : Prop where
  block : registration s.conn = registration s₀.conn
  calls : s₀.calls.length ≤ s.calls.length

theorem Since.of_append {s₀ s s' : St} (h : Since s₀ s) (hblock : registration s'.conn = registration s.conn)
    {cs : List TcpCall} (hcalls : s'.calls = s.calls ++ cs) : Since s₀ s' := by
  refine ⟨hblock.trans h.block, ?_⟩
  rw [hcalls, List.length_append]
  exact h.calls.trans (Nat.le_add_right _ _)

theorem handle_since {s₀ s : St} (m : Received) (h : Since s₀ s) : Since s₀ (handle lwip s m) := by
  rcases handle_cases lwip s m with ⟨-, hconn, cs, -, hcalls⟩ | ⟨-, hconn, cs, hcalls, -⟩
  · exact h.of_append (by rw [hconn]; rfl) hcalls
  · exact h.of_append (by rw [hconn]) hcalls

/-- The notice is what changes the count: by one if lwIP accepts, and by nothing if not. -/
theorem queued_notice {s₀ s : St} {m : Received} (h : Since s₀ s) (hn : Notice s m) :
    queued lwip (registration s₀.conn) s₀.calls.length (handle lwip s m) =
      queued lwip (registration s₀.conn) s₀.calls.length s + if lwip s.calls.length = ERR_OK then 1 else 0 := by
  rcases handle_cases lwip s m with ⟨-, -, cs, hout, hcalls⟩ | ⟨hno, -⟩
  · rw [queued_append lwip _ h.calls hcalls, List.zipIdx_cons, List.countP_cons, h.block]
    have hrest : ∀ c ∈ cs, c.fn ≠ .write (registration s₀.conn) := by
      intro c hc
      simp [hout c hc]
    rw [countP_writes lwip hrest]
    simp
  · exact absurd hn hno

theorem handle_registers {s₀ s : St} {m : Received} (h : Since s₀ s) (hr : RegisteredOnce lwip s₀ s) :
    RegisteredOnce lwip s₀ (handle lwip s m) ↔ Accepted lwip s m := by
  unfold RegisteredOnce Accepted at *
  rcases handle_cases lwip s m with ⟨hn, hconn, -⟩ | ⟨hno, hpass⟩
  · rw [queued_notice lwip h hn, hr, hconn, hn.1]
    simp [hn]
  · rw [h.block] at hpass
    rw [hpass.queued_eq lwip h.calls, hr, hpass.1]
    simp [hno]

/-- From any state with `identified` false, as `irc_init` leaves it: registration is neither
    lost nor repeated, in any state of the run, if and only if lwIP accepts the block. -/
theorem registered_once_iff {s : St} (h : s.conn.identified = false) (ms : List Received) :
    Always (handle lwip) (RegisteredOnce lwip s) s ms ↔ Along (handle lwip) (Accepted lwip) s ms := by
  have hstart : RegisteredOnce lwip s s := by
    rw [RegisteredOnce, queued, List.drop_eq_nil_of_le (by simp), h]
    rfl
  have hsince : Since s s := ⟨rfl, Nat.le_refl _⟩
  constructor
  · apply along_of_always (handle lwip) (I := Since s) (fun t m ht _ _ => handle_since lwip m ht)
    · exact fun t m ht hr hr' => (handle_registers lwip ht hr).mp hr'
    · exact hsince
  · intro halong
    have hboth : Always (handle lwip) (fun t => Since s t ∧ RegisteredOnce lwip s t) s ms := by
      refine always_of_along (handle lwip) ?_ ⟨hsince, hstart⟩ halong
      rintro t m ⟨ht, hr⟩ hc
      exact ⟨handle_since lwip m ht, (handle_registers lwip ht hr).mpr hc⟩
    exact always_mono (handle lwip) (fun t ht => ht.2) hboth

/-- A successful `irc_init` starts such a run. -/
theorem init_unidentified (port : UInt16) {nick realname : List UInt8} (hn : nick.length < 10)
    (hr : realname.length < 32) (dns : DnsOutcome) (s : St) :
    (ircInit port nick realname true dns s).2.conn.identified = false := by
  have hn' : ¬ nick.length ≥ 10 := by omega
  have hr' : ¬ realname.length ≥ 32 := by omega
  simp only [ircInit, if_neg hn', if_neg hr', Bool.true_eq_false, if_false]
  split <;> rfl

def identNotice : Received where
  mem := checkingIdent ++ [0, LF]
  base := 0
  text := checkingIdent
  ends := ⟨by decide, LF, [], rfl⟩
  line := by decide

/-- The connection of `main`, initialised; the name is looked up. -/
def initialised : St := (ircInit 6667 (['n', 't'].map byte) (['t', 'i'].map byte) true ⟨ERR_INPROGRESS, 0⟩ start).2

/-- The notice twice, with every `tcp_output` refused. -/
theorem a_registration_is_sent_once :
    Always (handle fun k => if k = 0 then ERR_OK else ERR_MEM)
      (RegisteredOnce (fun k => if k = 0 then ERR_OK else ERR_MEM) initialised) initialised
      [identNotice, identNotice] :=
  (registered_once_iff (fun k => if k = 0 then ERR_OK else ERR_MEM) (s := initialised) (by decide) _).mpr
    ⟨fun _ => rfl, fun h => absurd h.1 (by decide), trivial⟩

/-- lwIP has no memory for the block: it is never sent, and `identified` is set. -/
theorem a_registration_is_lost :
    let s := run (handle fun k => if k = 0 then ERR_MEM else ERR_OK) initialised [identNotice, identNotice]
    s.conn.identified = true ∧
      queued (fun k => if k = 0 then ERR_MEM else ERR_OK) (registration initialised.conn) 0 s = 0 ∧
      ¬ RegisteredOnce (fun k => if k = 0 then ERR_MEM else ERR_OK) initialised s := by
  decide +kernel

end Nanotube.Irc
