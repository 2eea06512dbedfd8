/-
  Nanotube.Irc.Recv — cutting the received stream into lines (src/irc.c `recv_func`).

  lwIP delivers the server's bytes in buffers, each a chain of pbufs, cut wherever TCP
  cut them. `recv_func` searches the memory at the first pbuf's payload for CRLFs, up to
  the first NUL it meets, and passes each line to `process_message`. It carries nothing
  from one buffer to the next, does not look at the other pbufs of the chain, and does
  not stop at the end of the payload.

  Proved: `process_message` leaves the buffer as it found it (`processMessage_frame`), so
  one call passes on exactly the lines of the text it sees (`recvLoop_messages`).
-/

import Nanotube.Irc.Message

namespace Nanotube.Irc

open Nanotube.Lib.Frames
open Nanotube.Device.Ecm (ErrT ERR_OK)

/-- A received buffer: the payload of its first pbuf, those of the others, and what the
    memory holds behind the first payload. -/
structure Segment where
  first : List UInt8
  tail : List (List UInt8)
  after : List UInt8
  deriving DecidableEq, Repr

def Segment.bytes (p : Segment) : List UInt8 := p.first ++ p.tail.flatten

def Segment.mem (p : Segment) : List UInt8 := p.first ++ p.after

variable (lwip : Nat → ErrT)

/-- The loop of `recv_func`. Every round moves `current` forward, so the length of the
    memory bounds their number. -/
def recvLoop : Nat → List UInt8 → Nat → St → List UInt8 × St
  | 0, mem, _, s => (mem, s)
  | fuel + 1, mem, current, s =>
    match strstrCrlf mem current with
    | none => (mem, s)
    | some endPos =>
      let r := processMessage lwip (mem.set endPos 0) current s
      recvLoop fuel r.1 (endPos + 2) r.2

/-- `recv_func`; the buffer is `none` when the peer has closed the connection. -/
def recvFunc (tpcb : Nat) (p : Option Segment) (err : ErrT) (s : St) : ErrT × St :=
  match p with
  | none => (ERR_OK, s)
  | some p =>
    if err ≠ ERR_OK then (ERR_OK, s)
    else
      let s := (recvLoop lwip p.mem.length p.mem 0 s).2
      (ERR_OK, s.call (.recved p.bytes.length) (some tpcb))

/-- The buffers `ps` arrive one after the other. -/
def recvAll (tpcb : Nat) (ps : List Segment) (s : St) : St :=
  ps.foldl (fun s p => (recvFunc lwip tpcb (some p) ERR_OK s).2) s

/-- The strings `process_message` has been called with. -/
def messages (s : St) : List (List UInt8) :=
  s.acts.filterMap fun
    | .message text => some text
    | _ => none

/-! ## What process_message leaves alone -/

theorem messages_act_message (s : St) (text : List UInt8) :
    messages (s.act (.message text)) = messages s ++ [text] := by
  simp [messages, St.act]

theorem messages_act {s : St} {a : Act} (h : ∀ text, a ≠ .message text) : messages (s.act a) = messages s := by
  cases a with
  | message text => exact absurd rfl (h text)
  | write arr start len => simp [messages, St.act]
  | privmsg channel sender content => simp [messages, St.act]
  | wildCopy => simp [messages, St.act]
  | nullRead => simp [messages, St.act]

@[simp] theorem messages_write (s : St) (arr : Arr) (start len : Nat) :
    messages (s.act (.write arr start len)) = messages s := messages_act (by intro _ h; cases h)

@[simp] theorem messages_privmsg (s : St) (channel sender content : List UInt8) :
    messages (s.act (.privmsg channel sender content)) = messages s := messages_act (by intro _ h; cases h)

@[simp] theorem messages_wildCopy (s : St) : messages (s.act .wildCopy) = messages s :=
  messages_act (by intro _ h; cases h)

@[simp] theorem messages_call (s : St) (fn : TcpFn) (pcb : Option Nat) : messages (s.call fn pcb) = messages s := rfl

@[simp] theorem messages_sendRaw (message : List UInt8) (len : Nat) (s : St) :
    messages (ircSendRaw lwip message len s).2 = messages s := by
  simp only [ircSendRaw]
  split
  · simp
  · split <;> simp

@[simp] theorem messages_ping (command : List UInt8) (s : St) : messages (processPing lwip command s) = messages s := by
  simp only [processPing]
  split <;> simp

theorem set2_restore (mem : List UInt8) (i : Nat) (a b : UInt8) :
    set2 (set2 mem i a b) i (mem.getD i 0) (mem.getD (i + 1) 0) = mem := by
  apply List.ext_getElem?
  intro j
  simp only [set2, List.getElem?_set, List.getD_eq_getElem?_getD, List.length_set]
  by_cases h1 : i + 1 = j
  · subst h1
    by_cases h : i + 1 < mem.length
    · simp [h]
    · simp [h]
  · by_cases h2 : i = j
    · subst h2
      by_cases h : i < mem.length
      · simp [h]
      · simp [h]
    · simp [h1, h2]

theorem privmsgCallback_mem (mem sender : List UInt8) (message : Nat) (s : St) :
    (ircPrivmsgCallback lwip mem sender message s).1 = mem := by
  unfold ircPrivmsgCallback
  split
  · exact set2_restore mem _ CR LF
  · rfl

@[simp] theorem messages_privmsgCallback (mem sender : List UInt8) (message : Nat) (s : St) :
    messages (ircPrivmsgCallback lwip mem sender message s).2 = messages s := by
  unfold ircPrivmsgCallback
  split <;> simp

theorem processPrivmsg_frame (mem : List UInt8) (base : Nat) (message : List UInt8) (cmd userLen : Nat) (s : St) :
    (processPrivmsg lwip mem base message cmd userLen s).1 = mem ∧
      messages (processPrivmsg lwip mem base message cmd userLen s).2 = messages s := by
  unfold processPrivmsg
  split
  · exact ⟨rfl, rfl⟩
  · dsimp only
    split
    · exact ⟨rfl, rfl⟩
    · split
      · exact ⟨rfl, by simp⟩
      · exact ⟨privmsgCallback_mem lwip _ _ _ _, by simp⟩

theorem processCommand_frame (mem : List UInt8) (base : Nat) (message : List UInt8) (cmd userLen : Nat) (s : St) :
    (processCommand lwip mem base message cmd userLen s).1 = mem ∧
      messages (processCommand lwip mem base message cmd userLen s).2 = messages s := by
  unfold processCommand
  split
  · exact ⟨rfl, by simp⟩
  · split
    · exact ⟨rfl, rfl⟩
    · exact processPrivmsg_frame lwip mem base message cmd userLen s

/-- `process_message` leaves the received buffer as it found it, and is one message. -/
theorem processMessage_frame (mem : List UInt8) (base : Nat) (s : St) :
    (processMessage lwip mem base s).1 = mem ∧
      messages (processMessage lwip mem base s).2 = messages s ++ [cstr mem base] := by
  have hm := messages_act_message s (cstr mem base)
  have hcommand : ∀ cmd userLen,
      (processCommand lwip mem base (cstr mem base) cmd userLen (s.act (.message (cstr mem base)))).1 = mem ∧
        messages (processCommand lwip mem base (cstr mem base) cmd userLen (s.act (.message (cstr mem base)))).2 =
          messages s ++ [cstr mem base] := by
    intro cmd userLen
    obtain ⟨h1, h2⟩ := processCommand_frame lwip mem base (cstr mem base) cmd userLen
      (s.act (.message (cstr mem base)))
    exact ⟨h1, h2.trans hm⟩
  simp only [processMessage]
  split
  · refine ⟨rfl, ?_⟩
    show messages (ircSendRaw lwip _ _ _).2 = _
    rw [messages_sendRaw, messages_write, hm]
  · split
    · split
      · exact ⟨rfl, hm⟩
      · exact hcommand _ _
    · exact hcommand 0 0

/-! ## One call -/

theorem takeWhile_drop {p : UInt8 → Bool} {l : List UInt8} {k : Nat} (h : k ≤ (l.takeWhile p).length) :
    (l.drop k).takeWhile p = (l.takeWhile p).drop k := by
  induction l generalizing k with
  | nil => simp
  | cons x l ih =>
    cases k with
    | zero => rfl
    | succ k =>
      by_cases hx : p x = true
      · simp only [List.takeWhile_cons, hx, if_true, List.length_cons] at h ⊢
        simpa using ih (by omega)
      · simp [hx] at h

theorem cstr_add {mem : List UInt8} {i k : Nat} (h : k ≤ (cstr mem i).length) :
    cstr mem (i + k) = (cstr mem i).drop k := by
  unfold cstr at h ⊢
  rw [← List.drop_drop]
  exact takeWhile_drop h

/-- Writing a NUL over a byte of a string cuts it there. -/
theorem takeWhile_set {l : List UInt8} {k : Nat} (h : k < (l.takeWhile (· ≠ 0)).length) :
    (l.set k 0).takeWhile (· ≠ 0) = (l.takeWhile (· ≠ 0)).take k := by
  induction l generalizing k with
  | nil => simp at h
  | cons x l ih =>
    by_cases hx : x ≠ 0
    · cases k with
      | zero => simp
      | succ k =>
        simp only [List.takeWhile_cons, hx, ne_eq, not_false_eq_true, decide_true, if_true, List.length_cons,
          List.set_cons_succ, List.take_succ_cons] at h ⊢
        simpa using ih (by simpa using h)
    · simp [hx] at h

theorem cstr_set {mem : List UInt8} {i k : Nat} (h : k < (cstr mem i).length) :
    cstr (mem.set (i + k) 0) i = (cstr mem i).take k := by
  unfold cstr at h ⊢
  rw [List.drop_set, if_neg (by omega), Nat.add_sub_cancel_left]
  exact takeWhile_set h

theorem cstr_set_before {mem : List UInt8} {i k : Nat} (h : k < i) : cstr (mem.set k 0) i = cstr mem i := by
  unfold cstr
  rw [List.drop_set_of_lt h]

/-- The rule for the loop of `recv_func`: it takes the lines of the text it sees one after
    the other, each a string of its own for `process_message`. -/
theorem recvLoop_lines {P : St → List (List UInt8) → St → Prop} (nil : ∀ s, P s [] s)
    (cons : ∀ mem base s lines s', P (processMessage lwip mem base s).2 lines s' → P s (cstr mem base :: lines) s')
    {fuel : Nat} {mem : List UInt8} {current : Nat} (s : St) (hfuel : (cstr mem current).length ≤ fuel) :
    P s (frames CR LF (cstr mem current)) (recvLoop lwip fuel mem current s).2 := by
  induction fuel generalizing mem current s with
  | zero =>
    have hempty : cstr mem current = [] := List.eq_nil_of_length_eq_zero (by omega)
    rw [hempty]
    exact nil s
  | succ fuel ih =>
    cases hfind : find CR LF (cstr mem current) with
    | none =>
      have hstr : strstrCrlf mem current = none := by simp [strstrCrlf, hfind]
      simp only [recvLoop, hstr, frames, split_of_find_none CR LF hfind]
      exact nil s
    | some i =>
      have hlt := find_lt CR LF hfind
      have hstr : strstrCrlf mem current = some (current + i) := by simp [strstrCrlf, hfind]
      have hline : cstr (mem.set (current + i) 0) current = (cstr mem current).take i := cstr_set (by omega)
      -- the NUL just written lies behind the new position
      have hnext : cstr (mem.set (current + i) 0) (current + i + 2) = (cstr mem current).drop (i + 2) := by
        rw [cstr_set_before (by omega), show current + i + 2 = current + (i + 2) by omega]
        exact cstr_add hlt
      have hframes : frames CR LF (cstr mem current) =
          (cstr mem current).take i :: frames CR LF ((cstr mem current).drop (i + 2)) := by
        simp only [frames, split_of_find CR LF hfind]
      simp only [recvLoop, hstr, (processMessage_frame lwip (mem.set (current + i) 0) current s).1]
      rw [hframes, ← hline, ← hnext]
      apply cons
      exact ih _ (by rw [hnext, List.length_drop]; omega)

/-- One call of `recv_func` passes on the lines of the text it sees. -/
theorem recvLoop_messages {fuel : Nat} {mem : List UInt8} {current : Nat} (s : St)
    (hfuel : (cstr mem current).length ≤ fuel) :
    messages (recvLoop lwip fuel mem current s).2 = messages s ++ frames CR LF (cstr mem current) := by
  refine recvLoop_lines lwip (P := fun s lines s' => messages s' = messages s ++ lines)
    (fun s => (List.append_nil _).symm) ?_ s hfuel
  intro mem base s lines s' h
  rw [h, (processMessage_frame lwip mem base s).2, List.append_assoc]
  rfl

/-- The text `recv_func` sees of a buffer. -/
def Segment.visible (p : Segment) : List UInt8 := cstr p.mem 0

theorem Segment.visible_le (p : Segment) : (cstr p.mem 0).length ≤ p.mem.length :=
  List.IsPrefix.length_le (List.takeWhile_prefix _)

theorem recvFunc_messages (tpcb : Nat) (p : Segment) (s : St) :
    messages (recvFunc lwip tpcb (some p) ERR_OK s).2 = messages s ++ frames CR LF p.visible := by
  have h := recvLoop_messages lwip s p.visible_le
  simp only [recvFunc, ne_eq, not_true_eq_false, if_false, messages_call]
  exact h

theorem recvAll_messages (tpcb : Nat) (ps : List Segment) (s : St) :
    messages (recvAll lwip tpcb ps s) = messages s ++ ps.flatMap fun p => frames CR LF p.visible := by
  induction ps generalizing s with
  | nil => simp [recvAll]
  | cons p ps ih =>
    have h := ih (recvFunc lwip tpcb (some p) ERR_OK s).2
    simp only [recvAll, List.foldl_cons, List.flatMap_cons] at h ⊢
    rw [h, recvFunc_messages, List.append_assoc]

theorem visible_eq {p : Segment} (h : 0 ∉ p.first) : p.visible = p.first ++ cstr p.after 0 := by
  have hp : ∀ x ∈ p.first, decide (x ≠ 0) = true := by
    intro x hx
    simp only [ne_eq, decide_not, Bool.not_eq_true', decide_eq_false_iff_not]
    intro e
    exact h (e ▸ hx)
  simp only [Segment.visible, Segment.mem, cstr, List.drop_zero]
  exact List.takeWhile_append_of_pos hp

theorem cr_ne_lf : CR ≠ LF := by decide

/-- An IRC connection at its start: nothing called yet. -/
def idle : St :=
  { conn :=
      { server := 0, port := 6667, nick := ['a'].map byte, realname := ['b'].map byte, pcb := some 0,
        identified := true },
    calls := [], acts := [], nextPcb := 1, freed := [] }

end Nanotube.Irc
