/-
  Nanotube.Irc.Arrays — can a message of the server make `process_message` write past its
  arrays? (src/irc.c `process_message`, `irc_init`; src/irc.h)

  The registration is built from a nick and a real name whose lengths `irc_init` checks,
  and the reply to a PING has a length check of its own. The copies of a PRIVMSG's target
  and sender have none, and the end of the sender is the first '!' of the whole message,
  if there is one at all.

  Proved: the writes stay inside, and the sender inside the prefix, exactly for the
  messages that are `Tame` (`arrays_hold`): a PRIVMSG has a target of at most 31 bytes,
  and its prefix, if any, a nick of at most 31 bytes that ends with '!'. A PRIVMSG of a
  server, whose prefix has no '!', breaks it (`a_server_privmsg_copies_wildly`).

  For the writes alone the message has to be `Harmless` only (`processMessage_intact`):
  there the '!' may also stand behind the prefix, and the sender is then too much, but not
  too long. What a run does is known only as far as it is `Intact`.
-/

import Nanotube.Irc.Grammar

namespace Nanotube.Irc

open Nanotube.Device.Ecm (ErrT ERR_OK)

variable (lwip : Nat → ErrT)

/-- A connection whose names `irc_init` has checked. -/
structure Named (conn : Conn) : Prop where
  nick : conn.nick.length < 10
  realname : conn.realname.length < 32

theorem named_init (port : UInt16) {nick realname : List UInt8} (tcpNew : Bool) (dns : DnsOutcome) (s : St)
    (hnick : nick.length < 10) (hreal : realname.length < 32) :
    Named (ircInit port nick realname tcpNew dns s).2.conn := by
  simp only [ircInit, if_neg (Nat.not_le.mpr hnick), if_neg (Nat.not_le.mpr hreal), ge_iff_le]
  split
  · exact ⟨hnick, hreal⟩
  · split
    · exact ⟨hnick, hreal⟩
    · exact ⟨hnick, hreal⟩

/-- What stands between the colon in front of a message and its first space. -/
def userPart (message : List UInt8) : List UInt8 :=
  if message.head? = some (byte ':') then (message.drop 1).takeWhile (· ≠ SPACE) else []

/-- The writes of `acts` stay inside their arrays, and what they copy to `sender` comes
    from the prefix `user`. -/
def Contained (user : List UInt8) (acts : List Act) : Prop :=
  ∀ a ∈ acts, Inside a ∧ ∀ channel sender content, a = .privmsg channel sender content → sender <+: user

/-- The sender of a message that has a prefix ends with '!', and neither it nor the target
    is too long. -/
def Tame (message : List UInt8) : Prop :=
  ∀ l : Line, message = l.text → l.target.length ≤ 31 ∧
    ∀ u ∈ l.user, ∃ nick host, u = nick ++ byte '!' :: host ∧ byte '!' ∉ nick ∧ nick.length ≤ 31

/-- The writes recorded from `s` to `s'` stay inside their arrays. -/
def Intact (s s' : St) : Prop := ∃ acts, s'.acts = s.acts ++ acts ∧ ∀ a ∈ acts, Inside a

/-- The target and the `nick_len` bytes copied to `sender` fit, if it is a PRIVMSG. -/
def Harmless (message : List UInt8) : Prop :=
  ∀ l : Line, message = l.text → l.target.length ≤ 31 ∧ ∃ n, l.nickLen = some n ∧ n ≤ 31

/-- What `process_message` does to its arrays with the message at `base`. -/
def Holds (mem : List UInt8) (base : Nat) (s : St) : Prop :=
  ∃ acts, (processMessage lwip mem base s).2.acts = s.acts ++ acts ∧ Contained (userPart (cstr mem base)) acts

namespace Contained

variable {user : List UInt8} {acts : List Act}

theorem nil : Contained user [] := fun _ ha => by cases ha

theorem message (text : List UInt8) (h : Contained user acts) : Contained user (.message text :: acts) :=
  List.forall_mem_cons.mpr ⟨⟨trivial, fun _ _ _ e => by cases e⟩, h⟩

theorem write {arr : Arr} {start len : Nat} (hsize : start + len ≤ arr.size) (h : Contained user acts) :
    Contained user (.write arr start len :: acts) :=
  List.forall_mem_cons.mpr ⟨⟨hsize, fun _ _ _ e => by cases e⟩, h⟩

theorem privmsg {channel sender content : List UInt8} (hpre : sender <+: user) (h : Contained user acts) :
    Contained user (.privmsg channel sender content :: acts) := by
  refine List.forall_mem_cons.mpr ⟨⟨trivial, ?_⟩, h⟩
  intro _ _ _ e
  cases e
  exact hpre

end Contained

/-! ## The paths with a check -/

theorem registration_length {conn : Conn} (h : Named conn) : (registration conn).length + 1 ≤ Arr.buffer.size := by
  have hn := h.nick
  have hr := h.realname
  simp only [registration, List.length_append, List.length_map, List.length_cons, List.length_nil, Arr.size]
  omega

theorem registered_contained {s : St} (h : Named s.conn) (user message : List UInt8) :
    ∃ acts, (registered lwip message s).acts = s.acts ++ acts ∧ Contained user acts := by
  refine ⟨[.message message, .write .buffer 0 ((registration s.conn).length + 1)], ?_, ?_⟩
  · simp only [registered, acts_sendRaw, St.act, List.append_assoc, List.cons_append, List.nil_append]
  · exact .message message (.write (by simpa using registration_length h) .nil)

theorem ping_contained (user message command : List UInt8) (s : St) :
    ∃ acts, (processPing lwip command (s.act (.message message))).acts = s.acts ++ acts ∧ Contained user acts := by
  unfold processPing
  dsimp only
  split
  · exact ⟨[.message message], rfl, .message message .nil⟩
  next h =>
    refine ⟨[.message message, .write .response 0 (command.length % 256), .write .response 1 1,
      .write .response (command.length % 256) 1, .write .response (command.length % 256 + 1) 1], ?_, ?_⟩
    · simp only [acts_sendRaw, St.act, List.append_assoc, List.cons_append, List.nil_append]
    · have hsize : Arr.response.size = 32 := rfl
      exact .message message (.write (by omega) (.write (by omega) (.write (by omega) (.write (by omega) .nil))))

/-! ## A PRIVMSG -/

namespace Line

variable (l : Line)

theorem userPart_text : userPart l.text = l.user.getD [] := by
  cases hu : l.user with
  | none =>
    have hhead : l.text.head? = some (byte 'P') := by simp [text, hu, command_head]
    have hne : some (byte 'P') ≠ some (byte ':') := by decide
    rw [userPart, hhead, if_neg hne]
    rfl
  | some u =>
    have htext : l.text = byte ':' :: (u ++ SPACE :: l.command) := by simp [text, hu]
    have hall : ∀ x ∈ u, decide (x ≠ SPACE) = true := by
      intro x hx
      rw [decide_eq_true_iff]
      intro e
      exact l.user_free u hu (e ▸ hx)
    rw [userPart, htext, List.head?_cons, if_pos rfl, List.drop_one, List.tail_cons,
      List.takeWhile_append_of_pos hall]
    simp

/-- Without a '!' in the prefix the search fails, or ends behind the prefix. -/
theorem nick_of_no_mark {u : List UInt8} (hu : l.user = some u) (hfree : byte '!' ∉ u) {n : Nat}
    (hn : l.nickLen = some n) : u.length < ((l.text.drop 1).take n).length := by
  have htext : l.text = byte ':' :: (u ++ SPACE :: l.command) := by simp [text, hu]
  simp only [nickLen, hu, Option.isSome_some, if_true, Option.map_eq_some_iff] at hn
  obtain ⟨k, hk, rfl⟩ := hn
  obtain ⟨a, b, hab, ha, rfl⟩ := strchr_some hk
  have hlen := congrArg List.length hab
  -- up to the end of the prefix and its space there is no '!'
  have hfree' : byte '!' ∉ byte ':' :: (u ++ [SPACE]) := by
    simp only [List.mem_cons, List.mem_append, List.not_mem_nil, or_false, not_or]
    exact ⟨by decide, hfree, by decide⟩
  have hfar : u.length + 2 ≤ a.length := by
    by_contra hlt
    have hget : l.text[a.length]? = some (byte '!') := by
      rw [hab]
      simp
    have hin : a.length < (byte ':' :: (u ++ [SPACE])).length := by simp; omega
    have htext' : l.text = (byte ':' :: (u ++ [SPACE])) ++ l.command := by simp [htext]
    rw [htext', List.getElem?_append_left hin] at hget
    exact hfree' (List.mem_of_getElem? hget)
  simp only [List.length_take, List.length_drop]
  simp only [List.length_append, List.length_cons] at hlen
  omega

end Line

namespace Line

variable (l : Line)

/-- What is recorded of the line. -/
def acts : List Act :=
  [.message l.text, .write .channel 0 l.target.length, .write .channel l.target.length 1] ++
    match l.nickLen with
    | none => [.wildCopy]
    | some n => [.write .sender 0 n, .write .sender n 1, .privmsg l.target ((l.text.drop 1).take n) l.said]

theorem acts_processMessage {mem : List UInt8} {base : Nat} (h : cstr mem base = l.text) (s : St) :
    (processMessage lwip mem base s).2.acts = s.acts ++ l.acts := by
  have hline := processMessage_line lwip l h s
  unfold acts
  cases hn : l.nickLen with
  | none =>
    rw [hn] at hline
    rw [hline]
    simp only [St.act, l.acts_begun, List.append_assoc]
  | some n =>
    rw [hn] at hline
    rw [hline, acts_privmsgCallback, l.acts_heard]
    rfl

theorem inside_acts : (∀ a ∈ l.acts, Inside a) ↔ l.target.length ≤ 31 ∧ ∃ n, l.nickLen = some n ∧ n ≤ 31 := by
  have hsize : Arr.channel.size = 32 ∧ Arr.sender.size = 32 := ⟨rfl, rfl⟩
  unfold acts
  cases hn : l.nickLen with
  | none =>
    constructor
    · intro h
      exact absurd (h .wildCopy (by simp)) id
    · rintro ⟨-, n, hn', -⟩
      cases hn'
  | some n =>
    constructor
    · intro h
      have hchannel : l.target.length + 1 ≤ Arr.channel.size := h (.write .channel l.target.length 1) (by simp)
      have hsender : n + 1 ≤ Arr.sender.size := h (.write .sender n 1) (by simp)
      exact ⟨by omega, n, rfl, by omega⟩
    · rintro ⟨htarget, n', hn', hle⟩
      obtain rfl := Option.some.inj hn'
      intro a ha
      simp only [List.cons_append, List.nil_append, List.mem_cons, List.not_mem_nil, or_false] at ha
      rcases ha with rfl | rfl | rfl | rfl | rfl | rfl <;> simp only [Inside] <;> omega

/-- A line with a nick that ends with '!' has it for its sender. -/
theorem nick_of_tame (huser : ∀ u ∈ l.user, ∃ nick host, u = nick ++ byte '!' :: host ∧ byte '!' ∉ nick ∧ nick.length ≤ 31) :
    ∃ n, l.nickLen = some n ∧ n ≤ 31 ∧ (l.text.drop 1).take n <+: l.user.getD [] := by
  cases hu : l.user with
  | none => exact ⟨0, by simp [nickLen, hu], Nat.zero_le _, by simp⟩
  | some u =>
    obtain ⟨nick, host, rfl, hfree, hle⟩ := huser u hu
    obtain ⟨hn, htake⟩ := l.nick_of_user hu hfree
    refine ⟨nick.length, hn, hle, ?_⟩
    rw [htake]
    exact List.prefix_append _ _

end Line

theorem holds_of_tame {l : Line} {mem : List UInt8} {base : Nat} (h : cstr mem base = l.text) (s : St)
    (ht : Tame (cstr mem base)) : Holds lwip mem base s := by
  obtain ⟨htarget, huser⟩ := ht l h
  obtain ⟨n, hn, hle, hpre⟩ := l.nick_of_tame huser
  refine ⟨l.acts, l.acts_processMessage lwip h s, fun a ha => ⟨l.inside_acts.mpr ⟨htarget, n, hn, hle⟩ a ha, ?_⟩⟩
  -- the one callback has the sender that was copied
  rintro channel sender content rfl
  simp only [Line.acts, hn, List.cons_append, List.nil_append, List.mem_cons, List.not_mem_nil, or_false, reduceCtorEq,
    false_or, Act.privmsg.injEq] at ha
  rw [h, l.userPart_text, ha.2.1]
  exact hpre

theorem tame_of_holds {l : Line} {mem : List UInt8} {base : Nat} (h : cstr mem base = l.text) (s : St)
    (hh : Holds lwip mem base s) :
    l.target.length ≤ 31 ∧
      ∀ u ∈ l.user, ∃ nick host, u = nick ++ byte '!' :: host ∧ byte '!' ∉ nick ∧ nick.length ≤ 31 := by
  obtain ⟨acts, hacts, hcont⟩ := hh
  rw [l.acts_processMessage lwip h s, List.append_cancel_left_eq] at hacts
  subst hacts
  rw [h, l.userPart_text] at hcont
  obtain ⟨htarget, n, hn, hle⟩ := l.inside_acts.mp fun a ha => (hcont a ha).1
  have hpre : (l.text.drop 1).take n <+: l.user.getD [] :=
    (hcont (.privmsg l.target ((l.text.drop 1).take n) l.said) (by simp [Line.acts, hn])).2 _ _ _ rfl
  refine ⟨htarget, ?_⟩
  intro u hu
  by_cases hmark : byte '!' ∈ u
  · obtain ⟨nick, host, rfl, hfree⟩ := List.eq_append_cons_of_mem hmark
    obtain ⟨hn', -⟩ := l.nick_of_user hu hfree
    obtain rfl : nick.length = n := Option.some.inj (hn'.symm.trans hn)
    exact ⟨nick, host, rfl, hfree, hle⟩
  · have hlong := l.nick_of_no_mark hu hmark hn
    have hshort := hpre.length_le
    rw [show l.user = some u from hu, Option.getD_some] at hshort
    omega

theorem Contained.intact {user : List UInt8} {s s' : St}
    (h : ∃ acts, s'.acts = s.acts ++ acts ∧ Contained user acts) : Intact s s' := by
  obtain ⟨acts, hacts, hcont⟩ := h
  exact ⟨acts, hacts, fun a ha => (hcont a ha).1⟩

/-- The writes of `process_message` stay inside its arrays exactly for harmless messages. -/
theorem processMessage_intact {mem : List UInt8} {base : Nat} {s : St} (hnamed : Named s.conn) :
    Intact s (processMessage lwip mem base s).2 ↔ Harmless (cstr mem base) := by
  constructor
  · rintro ⟨acts, hacts, hin⟩ l hl
    rw [l.acts_processMessage lwip hl s, List.append_cancel_left_eq] at hacts
    exact l.inside_acts.mp (hacts ▸ hin)
  · intro hharm
    rcases processMessage_cases lwip mem base s with ⟨-, hr⟩ | ⟨command, -, hp⟩ | hi | ⟨l, hl⟩
    · rw [hr]
      exact Contained.intact (registered_contained lwip hnamed [] _)
    · rw [hp]
      exact Contained.intact (ping_contained lwip [] _ command s)
    · rw [hi]
      exact ⟨[.message (cstr mem base)], rfl, by simp [Inside]⟩
    · exact ⟨l.acts, l.acts_processMessage lwip hl s, l.inside_acts.mpr (hharm l hl)⟩

/-- It is enough to try a message on one connection. -/
theorem harmless_of_idle {message : List UInt8} (hstr : cstr (message ++ [0]) 0 = message)
    (h : ∀ a ∈ (processMessage (fun _ => ERR_OK) (message ++ [0]) 0 idle).2.acts, Inside a) : Harmless message := by
  have hnamed : Named idle.conn := ⟨by decide, by decide⟩
  rw [← hstr]
  exact (processMessage_intact (fun _ => ERR_OK) hnamed).mp ⟨_, rfl, h⟩

/-- Whatever the connection, once `irc_init` has checked its names: the writes of
    `process_message` stay inside its arrays, and the sender inside the prefix, if and only
    if the message is tame. -/
theorem arrays_hold :
    (∀ (port : UInt16) (nick realname : List UInt8) (tcpNew : Bool) (dns : DnsOutcome) (s : St),
      nick.length < 10 → realname.length < 32 → Named (ircInit port nick realname tcpNew dns s).2.conn) ∧
    ∀ (mem : List UInt8) (base : Nat) (s : St), Named s.conn → (Holds lwip mem base s ↔ Tame (cstr mem base)) := by
  refine ⟨fun port nick realname tcpNew dns s => named_init port tcpNew dns s, ?_⟩
  intro mem base s hnamed
  constructor
  · intro hh l hl
    exact tame_of_holds lwip hl s hh
  · intro ht
    rcases processMessage_cases lwip mem base s with ⟨-, hr⟩ | ⟨command, -, hp⟩ | hi | ⟨l, hl⟩
    · unfold Holds
      rw [hr]
      exact registered_contained lwip hnamed _ _
    · unfold Holds
      rw [hp]
      exact ping_contained lwip _ _ command s
    · unfold Holds
      rw [hi]
      exact ⟨[.message (cstr mem base)], rfl, .message _ .nil⟩
    · exact holds_of_tame lwip hl s ht

/-- ":s PRIVMSG a :x" -/
def serverPrivmsg : List UInt8 :=
  [':', 's', ' ', 'P', 'R', 'I', 'V', 'M', 'S', 'G', ' ', 'a', ' ', ':', 'x'].map byte

/-- A server's own PRIVMSG has no '!', and the length of the sender is computed from NULL. -/
theorem a_server_privmsg_copies_wildly :
    Named idle.conn ∧ (.wildCopy : Act) ∈ (processMessage (fun _ => ERR_OK) (serverPrivmsg ++ [0]) 0 idle).2.acts ∧
      ¬ Holds (fun _ => ERR_OK) (serverPrivmsg ++ [0]) 0 idle := by
  have hwild : (.wildCopy : Act) ∈ (processMessage (fun _ => ERR_OK) (serverPrivmsg ++ [0]) 0 idle).2.acts := by
    decide
  refine ⟨⟨by decide, by decide⟩, hwild, ?_⟩
  intro h
  obtain ⟨acts, hacts, hcont⟩ := h
  rw [hacts] at hwild
  exact (hcont .wildCopy (by simpa [idle] using hwild)).1

/-- ":b!u PRIVMSG c :x" -/
def userPrivmsg : List UInt8 :=
  [':', 'b', '!', 'u', ' ', 'P', 'R', 'I', 'V', 'M', 'S', 'G', ' ', 'c', ' ', ':', 'x'].map byte

/-- A user's PRIVMSG stays inside, and so is tame. -/
theorem a_user_privmsg_is_tame :
    Named idle.conn ∧ Holds (fun _ => ERR_OK) (userPrivmsg ++ [0]) 0 idle ∧ Tame (cstr (userPrivmsg ++ [0]) 0) := by
  have hnamed : Named idle.conn := ⟨by decide, by decide⟩
  have hholds : Holds (fun _ => ERR_OK) (userPrivmsg ++ [0]) 0 idle := by
    refine ⟨[.message userPrivmsg, .write .channel 0 1, .write .channel 1 1, .write .sender 0 1,
      .write .sender 1 1, .privmsg (['c'].map byte) (['b'].map byte) (['x'].map byte)], by decide, ?_⟩
    exact .message _ (.write (by decide) (.write (by decide) (.write (by decide) (.write (by decide)
      (.privmsg (by decide) .nil)))))
  exact ⟨hnamed, hholds, ((arrays_hold (fun _ => ERR_OK)).2 _ 0 idle hnamed).mp hholds⟩

end Nanotube.Irc
