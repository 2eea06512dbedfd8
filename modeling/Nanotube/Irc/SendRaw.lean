/-
  Nanotube.Irc.SendRaw — does `irc_send_raw` use only the bytes it is given? (src/irc.c
  `irc_send_raw` and its callers; src/main.c `irc_privmsg_callback`; src/log.c
  `custom_printf`)

  `irc_send_raw` gives lwIP `len` bytes of the message, and the log the message as a C
  string, formatted into the 1024 bytes of `logbuf`. Six callers make their message with
  `sprintf`, which puts a NUL behind it. The reply to a PING and the line that main's
  callback relays have no NUL, and whatever follows them in memory is logged too.

  `Caller` is a caller with the strings that reach it; `…_sent` says that the model's
  functions send as it says. Proved: for any two memories behind what a caller wrote the
  TCP bytes are the same; and the message fits the caller's array, and the log text is the
  same and fits `logbuf`, if and only if the caller terminates its message, has room for it,
  and the text, 28 characters longer than the message and its length in digits, has at most
  1023 characters (`send_raw_iff`).
-/

import Nanotube.Irc.Locality
import Nanotube.Log

namespace Nanotube.Irc

open Nanotube.Log (decimal)
open Nanotube.Device.Ecm (ErrT ERR_OK)

variable (lwip : Nat → ErrT)

/-- `sizeof(logbuf)` -/
def LOGBUF_SIZE : Nat := 1024

/-- The text that `irc_send_raw` has formatted into `logbuf`,
    "Sending message of length %u: %s"; `message` is the memory at the message. -/
def sendText (message : List UInt8) (len : Nat) : List UInt8 :=
  ['S', 'e', 'n', 'd', 'i', 'n', 'g', ' ', 'm', 'e', 's', 's', 'a', 'g', 'e', ' ', 'o', 'f', ' ',
    'l', 'e', 'n', 'g', 't', 'h', ' '].map byte ++ decimal len ++ [':', ' '].map byte ++ cstr message 0

/-! ## The callers -/

/-- A C string. -/
structure CStr where
  bytes : List UInt8
  nulFree : 0 ∉ bytes

/-- The calls of `irc_send_raw`: by `process_message` for the ident notice and for a PING
    that passes its length test, by the five functions that send a line, and by main's
    callback. -/
inductive Caller where
  | registration (conn : Conn) (nick : 0 ∉ conn.nick) (realname : 0 ∉ conn.realname)
  | pong (command : CStr) (ping : PING <+: command.bytes) (short : command.bytes.length % 256 ≤ 30)
  | send (channel message : CStr)
  | away (message : CStr)
  | join (channel : CStr)
  | part (channel : CStr)
  | nick (name : CStr)
  | relay (quoted : CStr)

namespace Caller

/-- `message[0..len-1]`. -/
def bytes : Caller → List UInt8
  | .registration conn _ _ => Irc.registration conn
  | .pong command _ _ => ((command.bytes.take (command.bytes.length % 256)).set 1 (byte 'O')) ++ [CR, LF]
  | .send channel message => privmsgLine channel.bytes message.bytes
  | .away message => ['A', 'W', 'A', 'Y', ' '].map byte ++ message.bytes ++ [CR, LF]
  | .join channel => ['J', 'O', 'I', 'N', ' '].map byte ++ channel.bytes ++ [CR, LF]
  | .part channel => ['P', 'A', 'R', 'T', ' '].map byte ++ channel.bytes ++ [CR, LF]
  | .nick name => ['N', 'I', 'C', 'K', ' '].map byte ++ name.bytes ++ [CR, LF]
  | .relay quoted => quoted.bytes ++ [CR, LF]

def len (c : Caller) : Nat := c.bytes.length

/-- `sprintf` has put a NUL behind the message. -/
def terminated : Caller → Bool
  | .pong _ _ _ | .relay _ => false
  | _ => true

/-- The array the message is made in; `main` relays a line where it was received. -/
def arr : Caller → Option Arr
  | .registration _ _ _ => some .buffer
  | .pong _ _ _ => some .response
  | .send _ _ | .away _ => some .text
  | .join _ | .part _ | .nick _ => some .line
  | .relay _ => none

/-- The message fits the array, with its NUL if it has one. -/
def HasRoom (c : Caller) : Prop := ∀ a ∈ c.arr, c.len + c.terminated.toNat ≤ a.size

instance (c : Caller) : Decidable c.HasRoom := inferInstanceAs (Decidable (∀ a ∈ c.arr, _))

/-- The memory at the message; `behind` is what follows what the caller wrote. -/
def mem (c : Caller) (behind : List UInt8) : List UInt8 := c.bytes ++ if c.terminated then 0 :: behind else behind

theorem nulFree (c : Caller) : 0 ∉ c.bytes := by
  have hset : ∀ (l : List UInt8) (n : Nat), 0 ∉ l → 0 ∉ (l.take n).set 1 (byte 'O') := by
    intro l n hl hmem
    rcases List.mem_or_eq_of_mem_set hmem with h | h
    · exact hl (List.mem_of_mem_take h)
    · exact absurd h (by decide)
  have hcrlf : 0 ∉ [CR, LF] := by decide
  cases c with
  | registration conn nick realname =>
    simp only [bytes, Irc.registration, List.mem_append, not_or]
    exact ⟨⟨⟨⟨⟨⟨⟨by decide, nick⟩, by decide⟩, realname⟩, hcrlf⟩, by decide⟩, nick⟩, hcrlf⟩
  | pong command ping short =>
    simp only [bytes, List.mem_append, not_or]
    exact ⟨hset _ _ command.nulFree, hcrlf⟩
  | send channel message =>
    simp only [bytes, privmsgLine, List.mem_append, not_or]
    exact ⟨⟨⟨⟨by decide, channel.nulFree⟩, by decide⟩, message.nulFree⟩, hcrlf⟩
  | away s | join s | part s | nick s =>
    simp only [bytes, List.mem_append, not_or]
    exact ⟨⟨by decide, s.nulFree⟩, hcrlf⟩
  | relay quoted =>
    simp only [bytes, List.mem_append, not_or]
    exact ⟨quoted.nulFree, hcrlf⟩

theorem take_mem (c : Caller) (behind : List UInt8) : (c.mem behind).take c.len = c.bytes := List.take_left

theorem take_bytes (c : Caller) (behind : List UInt8) : c.bytes.take c.len = (c.mem behind).take c.len := by
  rw [take_mem]
  exact List.take_length

/-- Where the C string at the message ends. -/
theorem cstr_mem (c : Caller) (behind : List UInt8) :
    cstr (c.mem behind) 0 = c.bytes ++ if c.terminated then [] else cstr behind 0 := by
  have hall : ∀ x ∈ c.bytes, decide (x ≠ 0) = true := by
    intro x hx
    rw [decide_eq_true_iff]
    intro e
    exact c.nulFree (e ▸ hx)
  rw [cstr, mem, List.drop_zero, List.takeWhile_append_of_pos hall]
  cases c.terminated with
  | false => rfl
  | true => simp

end Caller

/-! ## What the model's functions send -/

section Sent

variable {lwip} (behind : List UInt8) (s : St)

theorem sendLine_sent (arr : Arr) {c : Caller} :
    sendLine lwip arr c.bytes s = ircSendRaw lwip (c.mem behind) c.len (s.act (.write arr 0 (c.len + 1))) :=
  sendRaw_take lwip (c.take_bytes behind) _

theorem registration_sent (message : List UInt8) (nick : 0 ∉ s.conn.nick) (realname : 0 ∉ s.conn.realname) :
    let c := Caller.registration s.conn nick realname
    let s' := (ircSendRaw lwip (c.mem behind) c.len ((s.act (.message message)).act (.write .buffer 0 (c.len + 1)))).2
    registered lwip message s = { s' with conn := { s'.conn with identified := true } } := by
  intro c
  simp only [registered]
  exact congrArg (fun r : ErrT × St => { r.2 with conn := { r.2.conn with identified := true } })
    (sendRaw_take lwip (c.take_bytes behind) _)

theorem pong_sent (command : CStr) (ping : PING <+: command.bytes) (short : command.bytes.length % 256 ≤ 30) :
    ∃ acts, processPing lwip command.bytes s =
      (ircSendRaw lwip ((Caller.pong command ping short).mem behind) (Caller.pong command ping short).len
        { s with acts := s.acts ++ acts }).2 := by
  have hfits : ¬ command.bytes.length % 256 + 2 > Arr.response.size := by
    simp only [Arr.size]
    omega
  have hle : command.bytes.length % 256 ≤ command.bytes.length := Nat.mod_le _ _
  have hlen : (Caller.pong command ping short).len = command.bytes.length % 256 + 2 := by
    simp [Caller.len, Caller.bytes, Nat.min_eq_left hle]
  refine ⟨[.write .response 0 (command.bytes.length % 256), .write .response 1 1,
    .write .response (command.bytes.length % 256) 1, .write .response (command.bytes.length % 256 + 1) 1], ?_⟩
  simp only [processPing, if_neg hfits]
  rw [← hlen, ← sendRaw_take lwip ((Caller.pong command ping short).take_bytes behind)]
  simp [St.act, Caller.bytes]

theorem relay_sent {mem : List UInt8} {i : Nat} (quoted : CStr)
    (h : Ends mem i (['>', ' '].map byte ++ quoted.bytes)) :
    (ircPrivmsgCallback lwip mem commandz i s).2 =
      (ircSendRaw lwip ((Caller.relay quoted).mem behind) (Caller.relay quoted).len s).2 := by
  have hlen : (['>', ' '].map byte ++ quoted.bytes).length = (Caller.relay quoted).len := by
    simp [Caller.len, Caller.bytes]
  rw [privmsgCallback_text lwip h, if_pos ⟨rfl, List.prefix_append _ _⟩, hlen]
  exact congrArg Prod.snd (sendRaw_take lwip ((Caller.relay quoted).take_bytes behind) s)

end Sent

/-! ## Two memories -/

/-- The caller's message fits its array, and `irc_send_raw` does the same with any two
    memories behind what the caller wrote, and formats a text that fits. -/
structure UsesGiven (c : Caller) : Prop where
  room : c.HasRoom
  tcp : ∀ behind behind' s, ircSendRaw lwip (c.mem behind) c.len s = ircSendRaw lwip (c.mem behind') c.len s
  log : ∀ behind behind', sendText (c.mem behind) c.len = sendText (c.mem behind') c.len
  fits : ∀ behind, (sendText (c.mem behind) c.len).length + 1 ≤ LOGBUF_SIZE

theorem length_sendText (c : Caller) (behind : List UInt8) :
    (sendText (c.mem behind) c.len).length =
      28 + (decimal c.len).length + c.len + if c.terminated then 0 else (cstr behind 0).length := by
  simp only [sendText, List.length_append, List.length_map, List.length_cons, List.length_nil, c.cstr_mem]
  cases c.terminated with
  | false => simp [Caller.len]; omega
  | true => simp [Caller.len]; omega

/-- lwIP always gets the same bytes. The log gets the given bytes, in a text that fits, if
    and only if the caller has terminated the message and it is too long neither for the
    caller's array nor for the log. -/
theorem send_raw_iff (c : Caller) :
    (∀ behind behind' s, ircSendRaw lwip (c.mem behind) c.len s = ircSendRaw lwip (c.mem behind') c.len s) ∧
      (UsesGiven lwip c ↔
        c.terminated = true ∧ c.HasRoom ∧ 28 + (decimal c.len).length + c.len + 1 ≤ LOGBUF_SIZE) := by
  have htcp : ∀ behind behind' s,
      ircSendRaw lwip (c.mem behind) c.len s = ircSendRaw lwip (c.mem behind') c.len s := by
    intro behind behind' s
    exact sendRaw_take lwip (by rw [c.take_mem, c.take_mem]) s
  refine ⟨htcp, ?_⟩
  constructor
  · intro h
    have hterm : c.terminated = true := by
      by_contra hn
      -- an empty memory behind the message, and one with a character
      have hlen := congrArg List.length (h.log [] [1])
      rw [length_sendText, length_sendText, if_neg hn, if_neg hn] at hlen
      simp [cstr] at hlen
    have hfits := h.fits []
    rw [length_sendText, if_pos hterm] at hfits
    exact ⟨hterm, h.room, hfits⟩
  · rintro ⟨hterm, hroom, hfits⟩
    refine ⟨hroom, htcp, fun behind behind' => ?_, fun behind => ?_⟩
    · simp only [sendText, c.cstr_mem, if_pos hterm]
    · rw [length_sendText, if_pos hterm]
      exact hfits

/-- The reply to a bare PING. -/
def pingCaller : Caller := .pong ⟨PING, by decide⟩ (List.prefix_refl _) (by decide)

/-- The line "hi" of commandz. -/
def relayCaller : Caller := .relay ⟨['h', 'i'].map byte, by decide⟩

theorem a_joined_channel_is_logged :
    UsesGiven (fun _ => ERR_OK) (.join ⟨['#', 'c'].map byte, by decide⟩) :=
  (send_raw_iff (fun _ => ERR_OK) (.join ⟨['#', 'c'].map byte, by decide⟩)).2.mpr (by decide)

/-- A character behind the reply is logged, and 2000 behind the relayed line overflow
    `logbuf`. -/
theorem a_pong_logs_the_stack :
    sendText (pingCaller.mem [byte 'x', 0]) pingCaller.len =
        sendText (pingCaller.mem [0]) pingCaller.len ++ [byte 'x'] ∧
      LOGBUF_SIZE < (sendText (relayCaller.mem (List.replicate 2000 1)) relayCaller.len).length ∧
      ¬ UsesGiven (fun _ => ERR_OK) pingCaller ∧ ¬ UsesGiven (fun _ => ERR_OK) relayCaller := by
  refine ⟨by decide, by decide +kernel, fun h => ?_, fun h => ?_⟩
  · exact absurd (h.log [byte 'x', 0] [0]) (by decide)
  · exact absurd (h.log [byte 'x', 0] [0]) (by decide)

end Nanotube.Irc
