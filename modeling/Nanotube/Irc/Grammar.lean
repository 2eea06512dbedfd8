/-
  Nanotube.Irc.Grammar — which lines `process_message` takes for a PRIVMSG, and what it
  reads out of them (src/irc.c `process_message`, `irc_send`).

  The parser is a chain of searches for the next space. `Line` says what the chain
  accepts: a prefix between a colon and a space, or none, then a word that starts with
  "PRIVMSG", then the target, then the content, which may hold anything. Every message is
  the ident notice, a PING, such a line, or ignored (`processMessage_cases`); on a line
  the searches stop at the ends of its fields, whatever the fields hold
  (`processMessage_line`).

  Proved: what `irc_send` writes, relayed with the sender's prefix in front, reaches the
  callback as the channel, the nick and the text that went in (`privmsg_round_trip`).
-/

import Nanotube.Irc.Client

namespace Nanotube.Irc

open Nanotube.Device.Ecm (ErrT ERR_OK)

variable (lwip : Nat → ErrT)

/-! ## Searches -/

theorem strchr_append {c : UInt8} {a : List UInt8} (h : c ∉ a) (b : List UInt8) :
    strchr (a ++ c :: b) c = some a.length := by
  unfold strchr
  induction a with
  | nil => simp [List.findIdx?_cons]
  | cons x a ih =>
    rw [List.mem_cons, not_or] at h
    have hx : (x == c) = false := by simpa using Ne.symm h.1
    simp [List.findIdx?_cons, hx, ih h.2]

theorem strchr_some {c : UInt8} {l : List UInt8} {i : Nat} (h : strchr l c = some i) :
    ∃ a b, l = a ++ c :: b ∧ c ∉ a ∧ a.length = i := by
  unfold strchr at h
  induction l generalizing i with
  | nil => simp at h
  | cons x l ih =>
    by_cases hx : x = c
    · subst hx
      refine ⟨[], l, rfl, by simp, ?_⟩
      simpa [List.findIdx?_cons] using h
    · have hx' : (x == c) = false := by simpa using hx
      simp only [List.findIdx?_cons, hx', Bool.false_eq_true, if_false, Option.map_eq_some_iff] at h
      obtain ⟨j, hj, rfl⟩ := h
      obtain ⟨a, b, rfl, ha, rfl⟩ := ih hj
      refine ⟨x :: a, b, rfl, ?_, rfl⟩
      rw [List.mem_cons, not_or]
      exact ⟨Ne.symm hx, ha⟩

theorem not_ident_of_head {message : List UInt8} (h : message.head? ≠ some (byte 'N')) :
    ¬ checkingIdent <+: message := by
  rintro ⟨t, rfl⟩
  exact h rfl

/-! ## Lines -/

/-- The fields of a line that is taken for a PRIVMSG. `user` is what stands between the
    colon and the first space, and `word` what follows "PRIVMSG" in the command. -/
structure Line where
  user : Option (List UInt8)
  word : List UInt8
  target : List UInt8
  content : List UInt8
  user_free : ∀ u ∈ user, SPACE ∉ u
  word_free : SPACE ∉ word
  target_free : SPACE ∉ target

namespace Line

variable (l : Line)

/-- Where the command starts. -/
def cmd : Nat := l.user.elim 0 (·.length + 2)

def command : List UInt8 := PRIVMSG ++ l.word ++ SPACE :: (l.target ++ SPACE :: l.content)

def text : List UInt8 := l.user.elim l.command fun u => byte ':' :: u ++ SPACE :: l.command

/-- The content without the colon in front of it. -/
def said : List UInt8 := if l.content.head? = some (byte ':') then l.content.tail else l.content

/-- `nick_len`, unless `nick_end` is NULL. -/
def nickLen : Option Nat := if l.user.isSome then (strchr l.text (byte '!')).map (· - 1) else some 0

/-- What is copied to `channel` before `sender` is looked at. -/
def begun (s : St) : St :=
  ((s.act (.message l.text)).act (.write .channel 0 l.target.length)).act (.write .channel l.target.length 1)

/-- The state in which the callback is called, with a sender of `n` bytes. -/
def heard (n : Nat) (s : St) : St :=
  (((l.begun s).act (.write .sender 0 n)).act (.write .sender n 1)).act
    (.privmsg l.target ((l.text.drop 1).take n) l.said)

theorem drop_cmd : l.text.drop l.cmd = l.command := by
  unfold text cmd
  cases l.user with
  | none => rfl
  | some u =>
    show (byte ':' :: (u ++ SPACE :: l.command)).drop (u.length + 2) = l.command
    rw [List.drop_succ_cons, show u.length + 1 = (u ++ [SPACE]).length by simp,
      show u ++ SPACE :: l.command = (u ++ [SPACE]) ++ l.command by simp]
    exact List.drop_left

theorem command_target : strchr l.command SPACE = some (PRIVMSG ++ l.word).length := by
  have hfree : SPACE ∉ PRIVMSG ++ l.word := by
    rw [List.mem_append, not_or]
    exact ⟨by decide, l.word_free⟩
  exact strchr_append hfree _

theorem drop_target : l.text.drop (l.cmd + (PRIVMSG ++ l.word).length + 1) = l.target ++ SPACE :: l.content := by
  rw [Nat.add_assoc, ← List.drop_drop, drop_cmd, ← List.drop_drop]
  unfold command
  rw [List.drop_left]
  rfl

theorem target_content : strchr (l.target ++ SPACE :: l.content) SPACE = some l.target.length :=
  strchr_append l.target_free _

theorem drop_content :
    l.text.drop (l.cmd + (PRIVMSG ++ l.word).length + 1 + l.target.length + 1) = l.content := by
  rw [Nat.add_assoc (_ + 1), ← List.drop_drop, drop_target, ← List.drop_drop, List.drop_left]
  rfl

/-- Where the text for the callback starts. -/
def saidAt : Nat :=
  let content := l.cmd + (PRIVMSG ++ l.word).length + 1 + l.target.length + 1
  if l.content.head? = some (byte ':') then content + 1 else content

theorem drop_saidAt : l.text.drop l.saidAt = l.said := by
  unfold saidAt said
  dsimp only
  split
  · rw [← List.drop_drop, drop_content, List.drop_one]
  · exact l.drop_content

theorem saidAt_le : l.saidAt ≤ l.text.length := by
  have hc := congrArg List.length l.drop_cmd
  have hlen : l.command.length = (PRIVMSG ++ l.word).length + 1 + l.target.length + 1 + l.content.length := by
    simp only [command, List.length_append, List.length_cons]
    omega
  rw [List.length_drop] at hc
  unfold saidAt
  dsimp only
  split
  next h =>
    have : 0 < l.content.length := by
      cases hl : l.content with
      | nil => simp [hl] at h
      | cons x xs => simp
    omega
  next h => omega

/-- A line is not the ident notice, as it starts with a colon or a P. -/
theorem not_ident : ¬ checkingIdent <+: l.text := by
  apply not_ident_of_head
  unfold text
  cases hu : l.user with
  | none =>
    show some (byte 'P') ≠ some (byte 'N')
    decide
  | some u =>
    show some (byte ':') ≠ some (byte 'N')
    decide

theorem command_head : l.command =
    byte 'P' :: byte 'R' :: (PRIVMSG.drop 2 ++ l.word ++ SPACE :: (l.target ++ SPACE :: l.content)) := rfl

theorem not_ping : ¬ PING <+: l.command := by
  rw [command_head]
  intro h
  have h2 := (List.cons_prefix_cons.mp h).2
  exact absurd (List.cons_prefix_cons.mp h2).1 (by decide)

theorem is_privmsg : PRIVMSG <+: l.command := by
  unfold command
  rw [List.append_assoc]
  exact List.prefix_append _ _

/-- A prefix with a '!' gives the sender in front of it. -/
theorem nick_of_user {nick host : List UInt8} (hu : l.user = some (nick ++ byte '!' :: host))
    (hfree : byte '!' ∉ nick) : l.nickLen = some nick.length ∧ (l.text.drop 1).take nick.length = nick := by
  have htext : l.text = (byte ':' :: nick) ++ byte '!' :: (host ++ SPACE :: l.command) := by
    simp [text, hu]
  have hfree' : byte '!' ∉ byte ':' :: nick := by
    rw [List.mem_cons, not_or]
    exact ⟨by decide, hfree⟩
  constructor
  · simp only [nickLen, hu, htext, strchr_append hfree', Option.isSome_some, if_true, Option.map_some,
      List.length_cons, Nat.add_sub_cancel]
  · rw [htext, List.cons_append, List.drop_one, List.tail_cons, List.take_left]

end Line

/-- What a line does once its command has been found. -/
theorem processPrivmsg_line (l : Line) (mem : List UInt8) (base userLen : Nat) (s : St)
    (huser : userLen ≠ 0 ↔ l.user.isSome) :
    processPrivmsg lwip mem base l.text l.cmd userLen (s.act (.message l.text)) =
      match l.nickLen with
      | none => (mem, (l.begun s).act .wildCopy)
      | some n => ircPrivmsgCallback lwip mem ((l.text.drop 1).take n) (base + l.saidAt) (l.heard n s) := by
  have hnick : (if userLen ≠ 0 then (strchr l.text (byte '!')).map (· - 1) else some 0) = l.nickLen := by
    simp only [huser, Line.nickLen]
  have htake : (l.target ++ SPACE :: l.content).take l.target.length = l.target := List.take_left
  have hsaid := l.drop_saidAt
  unfold Line.saidAt at hsaid ⊢
  unfold processPrivmsg
  simp only [l.drop_cmd, l.command_target, l.drop_target, l.target_content, l.drop_content, hnick, htake] at hsaid ⊢
  rw [hsaid]
  rfl

/-- `process_message` on a line finds its fields, in any state of the connection. -/
theorem processMessage_line (l : Line) {mem : List UInt8} {base : Nat} (h : cstr mem base = l.text) (s : St) :
    processMessage lwip mem base s =
      match l.nickLen with
      | none => (mem, (l.begun s).act .wildCopy)
      | some n => ircPrivmsgCallback lwip mem ((l.text.drop 1).take n) (base + l.saidAt) (l.heard n s) := by
  have hcommand : ∀ userLen, processCommand lwip mem base l.text l.cmd userLen (s.act (.message l.text)) =
      processPrivmsg lwip mem base l.text l.cmd userLen (s.act (.message l.text)) := by
    intro userLen
    unfold processCommand
    rw [l.drop_cmd, if_neg l.not_ping, if_neg (not_not.mpr l.is_privmsg)]
  simp only [processMessage, h]
  rw [if_neg (fun hi => l.not_ident hi.2)]
  cases hu : l.user with
  | none =>
    have hcmd : l.cmd = 0 := by simp [Line.cmd, hu]
    have hhead : l.text.head? ≠ some (byte ':') := by
      have hp : byte 'P' ≠ byte ':' := by decide
      simpa only [Line.text, hu, Option.elim_none, l.command_head, List.head?_cons, ne_eq, Option.some.injEq] using hp
    rw [if_neg hhead, ← hcmd, hcommand]
    exact processPrivmsg_line lwip l mem base l.cmd s (by simp [hcmd, hu])
  | some u =>
    have htext : l.text = (byte ':' :: u) ++ SPACE :: l.command := by simp [Line.text, hu]
    have hcmd : l.cmd = u.length + 1 + 1 := by simp [Line.cmd, hu]
    have hfree : SPACE ∉ byte ':' :: u := by
      rw [List.mem_cons, not_or]
      exact ⟨by decide, l.user_free u hu⟩
    have hsearch : strchr l.text SPACE = some (u.length + 1) := by
      rw [htext, strchr_append hfree]
      rfl
    rw [if_pos (by rw [htext]; rfl)]
    simp only [hsearch]
    rw [← hcmd, hcommand]
    exact processPrivmsg_line lwip l mem base (u.length + 1) s (by simp [hu])

/-! ## Every message -/

/-- A command that starts with "PRIVMSG", then holds two spaces, is that of a line. -/
theorem command_fields {command : List UInt8} (h : PRIVMSG <+: command) {i j : Nat} (hi : strchr command SPACE = some i)
    (hj : strchr (command.drop (i + 1)) SPACE = some j) :
    ∃ word target content, command = PRIVMSG ++ word ++ SPACE :: (target ++ SPACE :: content) ∧
      SPACE ∉ word ∧ SPACE ∉ target := by
  obtain ⟨a, b, rfl, ha, rfl⟩ := strchr_some hi
  have hdrop : (a ++ SPACE :: b).drop (a.length + 1) = b := by
    rw [← List.drop_drop, List.drop_left]
    rfl
  rw [hdrop] at hj
  obtain ⟨target, content, rfl, htarget, -⟩ := strchr_some hj
  -- the first space stands behind "PRIVMSG", which has none
  have hprefix : PRIVMSG <+: a := by
    rcases List.prefix_or_prefix_of_prefix h (List.prefix_append a _) with hp | hp
    · exact hp
    · obtain ⟨t, ht⟩ := hp
      cases t with
      | nil => exact ⟨[], by simpa using ht.symm⟩
      | cons x t =>
        exfalso
        rw [← ht] at h
        have hx : x = SPACE := (List.cons_prefix_cons.mp ((List.prefix_append_right_inj a).mp h)).1
        have : SPACE ∈ PRIVMSG := by
          rw [← ht, hx]
          exact List.mem_append_right _ List.mem_cons_self
        exact absurd this (by decide)
  obtain ⟨word, rfl⟩ := hprefix
  exact ⟨word, target, content, rfl, fun hw => ha (List.mem_append_right _ hw), htarget⟩

/-- A command is a PING, or ignored, or one of a line. -/
theorem processCommand_cases (mem : List UInt8) (base : Nat) (message : List UInt8) (cmd userLen : Nat) (s : St) :
    (PING <+: message.drop cmd ∧
      processCommand lwip mem base message cmd userLen s = (mem, processPing lwip (message.drop cmd) s)) ∨
      processCommand lwip mem base message cmd userLen s = (mem, s) ∨
      ∃ word target content, message.drop cmd = PRIVMSG ++ word ++ SPACE :: (target ++ SPACE :: content) ∧
        SPACE ∉ word ∧ SPACE ∉ target := by
  unfold processCommand
  by_cases hping : PING <+: message.drop cmd
  · rw [if_pos hping]
    exact Or.inl ⟨hping, rfl⟩
  rw [if_neg hping]
  by_cases hpriv : PRIVMSG <+: message.drop cmd
  · rw [if_neg (not_not.mpr hpriv)]
    unfold processPrivmsg
    cases hi : strchr (message.drop cmd) SPACE with
    | none => exact Or.inr (Or.inl rfl)
    | some i =>
      cases hj : strchr (message.drop (cmd + i + 1)) SPACE with
      | none =>
        refine Or.inr (Or.inl ?_)
        simp only [hj]
      | some j =>
        refine Or.inr (Or.inr (command_fields hpriv hi (j := j) ?_))
        rw [List.drop_drop, ← Nat.add_assoc]
        exact hj
  · rw [if_pos hpriv]
    exact Or.inr (Or.inl rfl)

/-- What `process_message` does with the ident notice. -/
def registered (message : List UInt8) (s : St) : St :=
  let s := (s.act (.message message)).act (.write .buffer 0 ((registration s.conn).length + 1))
  let s := (ircSendRaw lwip (registration s.conn) (registration s.conn).length s).2
  { s with conn := { s.conn with identified := true } }

theorem processMessage_notice {mem : List UInt8} {base : Nat} {s : St} (h : s.conn.identified = false)
    (hident : checkingIdent <+: cstr mem base) :
    processMessage lwip mem base s = (mem, registered lwip (cstr mem base) s) := if_pos ⟨h, hident⟩

/-- A message is the ident notice, a PING, a line, or ignored. -/
theorem processMessage_cases (mem : List UInt8) (base : Nat) (s : St) :
    (s.conn.identified = false ∧ checkingIdent <+: cstr mem base) ∧
        processMessage lwip mem base s = (mem, registered lwip (cstr mem base) s) ∨
      (∃ command, PING <+: command ∧ processMessage lwip mem base s =
        (mem, processPing lwip command (s.act (.message (cstr mem base))))) ∨
      processMessage lwip mem base s = (mem, s.act (.message (cstr mem base))) ∨
      ∃ l : Line, cstr mem base = l.text := by
  simp only [processMessage]
  by_cases hident : (s.act (.message (cstr mem base))).conn.identified = false ∧ checkingIdent <+: cstr mem base
  · rw [if_pos hident]
    exact Or.inl ⟨hident, rfl⟩
  rw [if_neg hident]
  by_cases hcolon : (cstr mem base).head? = some (byte ':')
  · rw [if_pos hcolon]
    cases hsp : strchr (cstr mem base) SPACE with
    | none => exact Or.inr (Or.inr (Or.inl rfl))
    | some userLen =>
      rcases processCommand_cases lwip mem base (cstr mem base) (userLen + 1) userLen
        (s.act (.message (cstr mem base))) with ⟨hping, hp⟩ | hi | ⟨word, target, content, hf, hw, ht⟩
      · exact Or.inr (Or.inl ⟨_, hping, hp⟩)
      · exact Or.inr (Or.inr (Or.inl hi))
      · refine Or.inr (Or.inr (Or.inr ?_))
        obtain ⟨a, b, hab, ha, hlen⟩ := strchr_some hsp
        cases a with
        | nil =>
          rw [hab] at hcolon
          have hspace : some SPACE = some (byte ':') := hcolon
          exact absurd hspace (by decide)
        | cons x u =>
          have hx : x = byte ':' := by simpa [hab] using hcolon
          subst hx
          have hb : b = PRIVMSG ++ word ++ SPACE :: (target ++ SPACE :: content) := by
            rw [← hf, hab, ← hlen, ← List.drop_drop, List.drop_left]
            rfl
          have hu : SPACE ∉ u := fun hu => ha (List.mem_cons_of_mem _ hu)
          refine ⟨⟨some u, word, target, content, ?_, hw, ht⟩, ?_⟩
          · intro v hv
            rw [Option.mem_some_iff] at hv
            exact hv ▸ hu
          · rw [hab, hb]
            rfl
  · rw [if_neg hcolon]
    rcases processCommand_cases lwip mem base (cstr mem base) 0 0 (s.act (.message (cstr mem base)))
      with ⟨hping, hp⟩ | hi | ⟨word, target, content, hf, hw, ht⟩
    · exact Or.inr (Or.inl ⟨_, hping, hp⟩)
    · exact Or.inr (Or.inr (Or.inl hi))
    · exact Or.inr (Or.inr (Or.inr ⟨⟨none, word, target, content, by simp, hw, ht⟩, hf⟩))

/-! ## The round trip -/

/-- The payloads given to `tcp_write`. -/
def writes (s : St) : List (List UInt8) :=
  s.calls.filterMap fun c =>
    match c.fn with
    | .write bytes => some bytes
    | _ => none

/-- The calls of the PRIVMSG callback: channel, sender and content. -/
def privmsgs (s : St) : List (List UInt8 × List UInt8 × List UInt8) :=
  s.acts.filterMap fun
    | .privmsg channel sender content => some (channel, sender, content)
    | _ => none

/-- A write that stays inside its array. -/
def Inside : Act → Prop
  | .write arr start len => start + len ≤ arr.size
  | .wildCopy => False
  | _ => True

instance : DecidablePred Inside := fun a =>
  match a with
  | .write arr start len => inferInstanceAs (Decidable (start + len ≤ arr.size))
  | .wildCopy => instDecidableFalse
  | .message _ => instDecidableTrue
  | .privmsg _ _ _ => instDecidableTrue
  | .nullRead => instDecidableTrue

/-- Bytes that can stand in a line. -/
def Plain (l : List UInt8) : Prop := 0 ∉ l ∧ CR ∉ l ∧ LF ∉ l

/-- Someone with a nick says something on a channel, in a message that fits the buffer of
    `irc_send`. The message may hold the delimiters of a line. -/
structure Saying where
  channel : List UInt8
  nick : List UInt8
  userhost : List UInt8
  message : List UInt8
  channel_len : 1 ≤ channel.length ∧ channel.length ≤ 31
  channel_free : SPACE ∉ channel
  nick_len : 1 ≤ nick.length ∧ nick.length ≤ 31
  nick_free : SPACE ∉ nick ∧ byte '!' ∉ nick
  userhost_free : SPACE ∉ userhost
  plain : Plain channel ∧ Plain nick ∧ Plain userhost ∧ Plain message
  fits : channel.length + message.length + 12 < 512

namespace Saying

variable (w : Saying)

/-- The server's line for `line`, CRLF included, without the CRLF. -/
def relayed (line : List UInt8) : List UInt8 :=
  byte ':' :: (w.nick ++ byte '!' :: w.userhost) ++ SPACE :: line.take (line.length - 2)

/-- The fields of the relayed line; the colon of `irc_send` starts its content. -/
def line : Line where
  user := some (w.nick ++ byte '!' :: w.userhost)
  word := []
  target := w.channel
  content := byte ':' :: w.message
  user_free := by
    intro u hu
    rw [Option.mem_some_iff] at hu
    subst hu
    simp only [List.mem_append, List.mem_cons, not_or]
    exact ⟨w.nick_free.1, by decide, w.userhost_free⟩
  word_free := List.not_mem_nil
  target_free := w.channel_free

theorem relayed_line : w.relayed (privmsgLine w.channel w.message) = w.line.text := by
  have hline : privmsgLine w.channel w.message = w.line.command ++ [CR, LF] := by
    simp [privmsgLine, Line.command, line, PRIVMSG, SPACE, byte]
  have hlen : (w.line.command ++ [CR, LF]).length - 2 = w.line.command.length := by simp
  unfold relayed
  rw [hline, hlen, List.take_left]
  rfl

/-- The first '!' of the line ends the nick, which has none. -/
theorem nick_eq : w.line.nickLen = some w.nick.length ∧ (w.line.text.drop 1).take w.nick.length = w.nick :=
  w.line.nick_of_user rfl w.nick_free.2

theorem said_eq : w.line.said = w.message := rfl

end Saying

@[simp] theorem writes_act (s : St) (a : Act) : writes (s.act a) = writes s := rfl

/-- Whatever lwIP answers, the bytes are given to `tcp_write`, once. -/
theorem writes_sendRaw (message : List UInt8) (len : Nat) (s : St) :
    writes (ircSendRaw lwip message len s).2 = writes s ++ [message.take len] := by
  simp only [ircSendRaw]
  split
  · simp [writes, St.call]
  · split <;> simp [writes, St.call]

theorem writes_send (channel message : List UInt8) (s : St) :
    writes (ircSend lwip channel message s).2 = writes s ++ [privmsgLine channel message] := by
  rw [ircSend, sendLine, writes_sendRaw, List.take_length, writes_act]

@[simp] theorem acts_sendRaw (message : List UInt8) (len : Nat) (s : St) :
    (ircSendRaw lwip message len s).2.acts = s.acts := by
  simp only [ircSendRaw]
  split
  · rfl
  · split <;> rfl

@[simp] theorem acts_privmsgCallback (mem sender : List UInt8) (message : Nat) (s : St) :
    (ircPrivmsgCallback lwip mem sender message s).2.acts = s.acts := by
  unfold ircPrivmsgCallback
  split
  · exact acts_sendRaw lwip _ _ s
  · rfl

theorem Line.acts_begun (l : Line) (s : St) :
    (l.begun s).acts =
      s.acts ++ [.message l.text, .write .channel 0 l.target.length, .write .channel l.target.length 1] := by
  simp [begun, St.act]

theorem Line.acts_heard (l : Line) (n : Nat) (s : St) :
    (l.heard n s).acts = s.acts ++
      [.message l.text, .write .channel 0 l.target.length, .write .channel l.target.length 1, .write .sender 0 n,
        .write .sender n 1, .privmsg l.target ((l.text.drop 1).take n) l.said] := by
  simp [heard, begun, St.act]

/-- The line that `irc_send` writes for `w`, relayed by the server: `process_message` makes
    one callback with the channel, the nick and the message of `w`, in any state, and has
    called nothing of lwIP when it makes it. All writes to arrays stay inside. -/
theorem privmsg_round_trip (w : Saying) (s : St) :
    ∃ line, writes (ircSend lwip w.channel w.message s).2 = writes s ++ [line] ∧
      (∃ acts, (ircSend lwip w.channel w.message s).2.acts = s.acts ++ acts ∧ ∀ a ∈ acts, Inside a) ∧
      ∀ (mem : List UInt8) (base : Nat) (t : St), cstr mem base = w.relayed line →
        ∃ content t', processMessage lwip mem base t = ircPrivmsgCallback lwip mem w.nick content t' ∧
          cstr mem content = w.message ∧ t'.conn = t.conn ∧ t'.calls = t.calls ∧
          privmsgs t' = privmsgs t ++ [(w.channel, w.nick, w.message)] ∧
          privmsgs (processMessage lwip mem base t).2 = privmsgs t ++ [(w.channel, w.nick, w.message)] ∧
          ∃ acts, t'.acts = t.acts ++ acts ∧ ∀ a ∈ acts, Inside a := by
  refine ⟨privmsgLine w.channel w.message, writes_send lwip _ _ s, ?_, ?_⟩
  · refine ⟨[.write .text 0 ((privmsgLine w.channel w.message).length + 1)], ?_, ?_⟩
    · simp only [ircSend, sendLine, acts_sendRaw, St.act]
    · intro a ha
      rw [List.mem_singleton] at ha
      subst ha
      have := w.fits
      simp only [Inside, Arr.size, privmsgLine, List.length_append, List.length_map, List.length_cons, List.length_nil]
      omega
  · intro mem base t hmem
    rw [w.relayed_line] at hmem
    obtain ⟨hnick, hsender⟩ := w.nick_eq
    have hline := processMessage_line lwip w.line hmem t
    rw [hnick] at hline
    simp only [hsender] at hline
    have hacts := w.line.acts_heard w.nick.length t
    rw [hsender, w.said_eq] at hacts
    have hprivmsgs : privmsgs (w.line.heard w.nick.length t) = privmsgs t ++ [(w.channel, w.nick, w.message)] := by
      simp only [privmsgs, hacts, List.filterMap_append]
      rfl
    refine ⟨base + w.line.saidAt, w.line.heard w.nick.length t, hline, ?_, rfl, rfl, hprivmsgs, ?_, _, hacts, ?_⟩
    · rw [cstr_add (hmem ▸ w.line.saidAt_le), hmem, w.line.drop_saidAt]
      rfl
    · rw [hline]
      unfold privmsgs
      rw [acts_privmsgCallback]
      exact hprivmsgs
    · have hc := w.channel_len
      have hn := w.nick_len
      have hsize : w.line.target.length ≤ 31 := hc.2
      intro a ha
      simp only [List.mem_cons, List.not_mem_nil, or_false] at ha
      rcases ha with rfl | rfl | rfl | rfl | rfl | rfl <;> simp only [Inside, Arr.size] <;> omega

/-- bob says ": a ! b" on #c. -/
def colonSaying : Saying where
  channel := ['#', 'c'].map byte
  nick := ['b', 'o', 'b'].map byte
  userhost := ['u', '@', 'h'].map byte
  message := [':', ' ', 'a', ' ', '!', ' ', 'b'].map byte
  channel_len := by decide
  channel_free := by decide
  nick_len := by decide
  nick_free := by decide
  userhost_free := by decide
  plain := ⟨⟨by decide, by decide, by decide⟩, ⟨by decide, by decide, by decide⟩,
    ⟨by decide, by decide, by decide⟩, ⟨by decide, by decide, by decide⟩⟩
  fits := by decide

/-- The delimiters in a message reach the other side like the rest of it. -/
theorem a_message_of_delimiters_is_heard :
    privmsgs (processMessage (fun _ => ERR_OK)
        (colonSaying.relayed (privmsgLine colonSaying.channel colonSaying.message) ++ [0]) 0 idle).2 =
      [(colonSaying.channel, colonSaying.nick, colonSaying.message)] := by
  obtain ⟨line, hline, -, h⟩ := privmsg_round_trip (fun _ => ERR_OK) colonSaying idle
  rw [writes_send, List.append_cancel_left_eq] at hline
  obtain rfl : privmsgLine colonSaying.channel colonSaying.message = line := by simpa using hline
  obtain ⟨-, -, -, -, -, -, -, hheard, -⟩ := h
    (colonSaying.relayed (privmsgLine colonSaying.channel colonSaying.message) ++ [0]) 0 idle (by decide)
  exact hheard

end Nanotube.Irc
