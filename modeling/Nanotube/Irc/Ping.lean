/-
  Nanotube.Irc.Ping — the answer to a PING (src/irc.c `process_message`, `irc_send_raw`).

  The reply is the command with its second letter changed, put together in an array of 32
  bytes; a command that does not fit with its CRLF is not answered ("Ping too long"). The
  length that is tested, copied and sent is a `uint8_t`.

  Proved: in every state, with a prefix or without, a PING is answered with its own text
  or, if it has more than 30 characters, not at all, if and only if it is not one of more
  than 30 characters whose length modulo 256 is at most 30 (`ping_iff`). Those are answered
  with the start of their text (`a_long_ping_is_answered`).
-/

import Nanotube.Irc.Grammar

namespace Nanotube.Irc

open Nanotube.Device.Ecm (ErrT ERR_OK)

variable (lwip : Nat → ErrT)

def PONG : List UInt8 := ['P', 'O', 'N', 'G'].map byte

/-- The message is the command `c`, or has it behind a ":prefix ". -/
def HasCommand (message c : List UInt8) : Prop :=
  message = c ∨ ∃ user, SPACE ∉ user ∧ message = byte ':' :: user ++ SPACE :: c

/-- From `s` to `s'` the PING `c` was answered as it should be. -/
def Pongs (c : List UInt8) (s s' : St) : Prop :=
  if c.length ≤ 30 then writes s' = writes s ++ [PONG ++ c.drop 4 ++ [CR, LF]] else s'.calls = s.calls

instance (c : List UInt8) (s s' : St) : Decidable (Pongs c s s') := inferInstanceAs (Decidable (ite _ _ _))

/-! ## Finding the command -/

theorem ping_head {c : List UInt8} (h : PING <+: c) : c.head? = some (byte 'P') := by
  obtain ⟨t, rfl⟩ := h
  rfl

/-- `process_message` finds the command behind the prefix, whether identified or not. -/
theorem processMessage_ping {mem : List UInt8} {base : Nat} {c : List UInt8} (hc : HasCommand (cstr mem base) c)
    (hping : PING <+: c) (s : St) :
    processMessage lwip mem base s = (mem, processPing lwip c (s.act (.message (cstr mem base)))) := by
  rcases hc with hc | ⟨user, hfree, hc⟩
  · have hhead : (cstr mem base).head? = some (byte 'P') := by
      rw [hc]
      exact ping_head hping
    have hident : ¬ checkingIdent <+: cstr mem base := not_ident_of_head (by rw [hhead]; decide)
    have hcolon : (cstr mem base).head? ≠ some (byte ':') := by
      rw [hhead]
      decide
    simp only [processMessage]
    rw [if_neg fun h => hident h.2, if_neg hcolon, processCommand, List.drop_zero, hc, if_pos hping]
  · have hhead : (cstr mem base).head? = some (byte ':') := by rw [hc]; rfl
    have hident : ¬ checkingIdent <+: cstr mem base := not_ident_of_head (by rw [hhead]; decide)
    have hspace : SPACE ∉ byte ':' :: user := by
      rw [List.mem_cons, not_or]
      exact ⟨by decide, hfree⟩
    have hsearch : strchr (cstr mem base) SPACE = some (byte ':' :: user).length := by
      rw [hc]
      exact strchr_append hspace _
    have hdrop : (cstr mem base).drop ((byte ':' :: user).length + 1) = c := by
      rw [hc, ← List.drop_drop, List.drop_left]
      rfl
    simp only [processMessage]
    rw [if_neg fun h => hident h.2, if_pos hhead]
    simp only [hsearch]
    rw [processCommand, hdrop, if_pos hping]

/-! ## The reply -/

/-- Up to 30 characters `len` is the length, and the reply is the whole command. -/
theorem processPing_short {c : List UInt8} (hping : PING <+: c) (hlen : c.length ≤ 30) (s : St) :
    writes (processPing lwip c s) = writes s ++ [PONG ++ c.drop 4 ++ [CR, LF]] := by
  have hmod : c.length % 256 = c.length := Nat.mod_eq_of_lt (by omega)
  have hfits : ¬ c.length + 2 > Arr.response.size := by
    simp only [Arr.size]
    omega
  have hpong : c.set 1 (byte 'O') = PONG ++ c.drop 4 := by
    obtain ⟨t, rfl⟩ := hping
    rfl
  have htotal : (PONG ++ c.drop 4 ++ [CR, LF]).length = c.length + 2 := by
    rw [← hpong]
    simp
  simp only [processPing, hmod, if_neg hfits, List.take_length, writes_sendRaw, writes_act, hpong]
  rw [← htotal, List.take_length]

theorem processPing_refused {c : List UInt8} (h : 30 < c.length % 256) (s : St) : processPing lwip c s = s := by
  have hlong : c.length % 256 + 2 > Arr.response.size := by
    simp only [Arr.size]
    omega
  simp only [processPing, if_pos hlong]

/-- Whatever its length, a command that passes the test has something sent. -/
theorem processPing_sends {c : List UInt8} (h : c.length % 256 ≤ 30) (s : St) :
    (processPing lwip c s).calls ≠ s.calls := by
  have hfits : ¬ c.length % 256 + 2 > Arr.response.size := by
    simp only [Arr.size]
    omega
  intro hcalls
  have hw : writes (processPing lwip c s) = writes s := by
    unfold writes
    rw [hcalls]
  simp only [processPing, if_neg hfits, writes_sendRaw, writes_act] at hw
  have hl := congrArg List.length hw
  simp at hl

/-- Pings are answered exactly or not at all, apart from long ones whose length modulo 256
    is short. -/
theorem ping_iff (mem : List UInt8) (base : Nat) (s : St) {c : List UInt8} (hc : HasCommand (cstr mem base) c)
    (hping : PING <+: c) :
    Pongs c s (processMessage lwip mem base s).2 ↔ ¬ (30 < c.length ∧ c.length % 256 ≤ 30) := by
  rw [processMessage_ping lwip hc hping]
  unfold Pongs
  by_cases hlen : c.length ≤ 30
  · rw [if_pos hlen, processPing_short lwip hping hlen]
    simp only [writes_act, true_iff]
    omega
  · rw [if_neg hlen]
    by_cases hmod : c.length % 256 ≤ 30
    · have hsends := processPing_sends lwip hmod (s.act (.message (cstr mem base)))
      exact ⟨fun h => absurd h hsends, fun h => absurd ⟨by omega, hmod⟩ h⟩
    · rw [processPing_refused lwip (by omega)]
      simp [hmod, St.act]

/-- "PING" and `n` more characters. -/
def pingOf (n : Nat) : List UInt8 := PING ++ List.replicate n (byte 'x')

/-- Behind a prefix, at the greatest length that is answered and the first that is not. -/
theorem a_ping_is_answered_exactly :
    Pongs (pingOf 26) idle
        (processMessage (fun _ => ERR_OK) ([byte ':', byte 's', SPACE] ++ pingOf 26 ++ [0]) 0 idle).2 ∧
      Pongs (pingOf 27) idle
        (processMessage (fun _ => ERR_OK) ([byte ':', byte 's', SPACE] ++ pingOf 27 ++ [0]) 0 idle).2 :=
  ⟨(ping_iff (fun _ => ERR_OK) _ 0 idle (c := pingOf 26) (Or.inr ⟨[byte 's'], by decide, by decide⟩)
      ⟨_, rfl⟩).mpr (by decide),
    (ping_iff (fun _ => ERR_OK) _ 0 idle (c := pingOf 27) (Or.inr ⟨[byte 's'], by decide, by decide⟩)
      ⟨_, rfl⟩).mpr (by decide)⟩

/-- 260 characters, of which 4 are answered. -/
theorem a_long_ping_is_answered :
    (pingOf 256).length = 260 ∧
      writes (processMessage (fun _ => ERR_OK) (pingOf 256 ++ [0]) 0 idle).2 = [PONG ++ [CR, LF]] ∧
      ¬ Pongs (pingOf 256) idle (processMessage (fun _ => ERR_OK) (pingOf 256 ++ [0]) 0 idle).2 := by
  decide +kernel

end Nanotube.Irc
