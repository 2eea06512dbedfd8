/-
  Nanotube.Irc.Locality — does `recv_func` look only at what it received? (src/irc.c
  `recv_func`, `process_message`; src/main.c `irc_privmsg_callback`)

  lwIP does not put a NUL behind a payload, and the search for CRLF stops at a NUL only.
  Where a string ends with a NUL that has another byte behind it, what `process_message`
  does depends on the string alone (`processMessage_text`), main's callback included,
  which overwrites just these two bytes and puts them back.

  Proved: on any connection that `irc_init` has set up, `recv_func` does the same for every
  memory behind the payload, and leaves that memory and what is behind its arrays alone, if
  and only if the payload itself holds a NUL, with no PRIVMSG in front of it that does not
  fit the arrays, or the call brings an error (`received_bytes_only`).
-/

import Nanotube.Irc.Framing

namespace Nanotube.Irc

open Nanotube.Lib.Frames
open Nanotube.Device.Ecm (ErrT ERR_OK)

variable (lwip : Nat → ErrT)

/-- The string at `i` is `text`, and its NUL is not the last byte of the memory. -/
structure Ends (mem : List UInt8) (i : Nat) (text : List UInt8) : Prop where
  nulFree : 0 ∉ text
  drop : ∃ b rest, mem.drop i = text ++ 0 :: b :: rest

theorem takeWhile_nulFree {text : List UInt8} (h : 0 ∉ text) (rest : List UInt8) :
    (text ++ 0 :: rest).takeWhile (· ≠ 0) = text := by
  have hall : ∀ x ∈ text, decide (x ≠ 0) = true := by
    intro x hx
    rw [decide_eq_true_iff]
    intro e
    exact h (e ▸ hx)
  rw [List.takeWhile_append_of_pos hall]
  simp

namespace Ends

variable {mem : List UInt8} {i : Nat} {text : List UInt8}

theorem cstr_eq (h : Ends mem i text) : cstr mem i = text := by
  obtain ⟨b, rest, hdrop⟩ := h.drop
  rw [cstr, hdrop]
  exact takeWhile_nulFree h.nulFree _

theorem suffix (h : Ends mem i text) {k : Nat} (hk : k ≤ text.length) : Ends mem (i + k) (text.drop k) := by
  obtain ⟨b, rest, hdrop⟩ := h.drop
  refine ⟨fun h0 => h.nulFree (List.mem_of_mem_drop h0), b, rest, ?_⟩
  rw [← List.drop_drop, hdrop, List.drop_append_of_le_length hk]

end Ends

/-- The line in front of a CRLF, once its CR has been overwritten, has the LF behind it. -/
theorem ends_of_crlf {mem : List UInt8} {i k : Nat} (h : k + 2 ≤ (cstr mem i).length) :
    Ends (mem.set (i + k) 0) i ((cstr mem i).take k) := by
  have hpre : cstr mem i <+: mem.drop i := List.takeWhile_prefix _
  have hlen : k + 2 ≤ (mem.drop i).length := h.trans hpre.length_le
  have htake : (cstr mem i).take k = (mem.drop i).take k := by
    obtain ⟨t, ht⟩ := hpre
    rw [← ht, List.take_append_of_le_length (by omega)]
  have htail : (mem.drop i).drop (k + 1) = (mem.drop i)[k + 1] :: (mem.drop i).drop (k + 2) :=
    List.drop_eq_getElem_cons (by omega)
  refine ⟨fun h0 => ?_, (mem.drop i)[k + 1], (mem.drop i).drop (k + 2), ?_⟩
  · have hall : (cstr mem i).all (· ≠ 0) = true := List.all_takeWhile
    simpa using List.all_eq_true.mp hall 0 (List.mem_of_mem_take h0)
  · rw [List.drop_set, if_neg (by omega), Nat.add_sub_cancel_left, List.set_eq_take_append_cons_drop,
      if_pos (by omega), htake, htail]

/-! ## The callback -/

/-- lwIP gets the first `len` bytes of the message. -/
theorem sendRaw_take {message message' : List UInt8} {len : Nat} (h : message.take len = message'.take len) (s : St) :
    ircSendRaw lwip message len s = ircSendRaw lwip message' len s := by
  simp only [ircSendRaw, h]

/-- What main's callback sends depends on the message alone. -/
theorem privmsgCallback_text {mem : List UInt8} {i : Nat} {text : List UInt8} (h : Ends mem i text)
    (sender : List UInt8) (s : St) :
    (ircPrivmsgCallback lwip mem sender i s).2 =
      if sender = commandz ∧ ['>', ' '].map byte <+: text then
        (ircSendRaw lwip (text.drop 2 ++ [CR, LF]) text.length s).2
      else s := by
  unfold ircPrivmsgCallback
  rw [h.cstr_eq]
  split
  next hquote =>
    have hlen : 2 ≤ text.length := hquote.2.length_le
    have hq := h.suffix hlen
    obtain ⟨b, rest, hdrop⟩ := hq.drop
    -- the NUL and the byte behind it become the CRLF
    have hset : (set2 mem (i + 2 + (text.drop 2).length) CR LF).drop (i + 2) = text.drop 2 ++ CR :: LF :: rest := by
      unfold set2
      rw [List.drop_set, if_neg (by omega), List.drop_set, if_neg (by omega), hdrop, Nat.add_sub_cancel_left,
        show i + 2 + (text.drop 2).length + 1 - (i + 2) = (text.drop 2).length + 1 by omega]
      simp
    have hn : (text.drop 2).length + 2 = text.length := by
      rw [List.length_drop]
      omega
    have htake : (text.drop 2 ++ CR :: LF :: rest).take text.length =
        (text.drop 2 ++ [CR, LF]).take text.length := by
      rw [← hn, show text.drop 2 ++ CR :: LF :: rest = (text.drop 2 ++ [CR, LF]) ++ rest by simp]
      exact List.take_append_of_le_length (by simp)
    simp only [hq.cstr_eq, hset, hn]
    rw [sendRaw_take lwip htake]
  next => rfl

/-! ## process_message -/

section Text

variable {mem mem' : List UInt8} {base base' : Nat} {text : List UInt8} (h : Ends mem base text)
  (h' : Ends mem' base' text)

include h h'

theorem callback_text (sender : List UInt8) {k : Nat} (hk : k ≤ text.length) (s : St) :
    (ircPrivmsgCallback lwip mem sender (base + k) s).2 = (ircPrivmsgCallback lwip mem' sender (base' + k) s).2 := by
  rw [privmsgCallback_text lwip (h.suffix hk), privmsgCallback_text lwip (h'.suffix hk)]

theorem processPrivmsg_text (cmd userLen : Nat) (s : St) :
    (processPrivmsg lwip mem base text cmd userLen s).2 = (processPrivmsg lwip mem' base' text cmd userLen s).2 := by
  unfold processPrivmsg
  cases strchr (text.drop cmd) SPACE with
  | none => rfl
  | some i =>
    dsimp only
    cases hj : strchr (text.drop (cmd + i + 1)) SPACE with
    | none => rfl
    | some targetLen =>
      -- the content starts inside the message
      have hcontent : cmd + i + 1 + targetLen + 1 ≤ text.length := by
        obtain ⟨a, b, hab, -, hlen⟩ := strchr_some hj
        have hl := congrArg List.length hab
        simp only [List.length_drop, List.length_append, List.length_cons] at hl
        omega
      have hstart : (if (text.drop (cmd + i + 1 + targetLen + 1)).head? = some (byte ':') then
          cmd + i + 1 + targetLen + 1 + 1 else cmd + i + 1 + targetLen + 1) ≤ text.length := by
        split
        next hcolon =>
          by_contra hlt
          rw [List.drop_eq_nil_of_le (by omega)] at hcolon
          cases hcolon
        next => exact hcontent
      dsimp only
      split
      · rfl
      · exact callback_text lwip h h' _ hstart _

theorem processCommand_text (cmd userLen : Nat) (s : St) :
    (processCommand lwip mem base text cmd userLen s).2 = (processCommand lwip mem' base' text cmd userLen s).2 := by
  unfold processCommand
  split
  · rfl
  · split
    · rfl
    · exact processPrivmsg_text lwip h h' cmd userLen s

/-- What `process_message` does depends on the string alone. -/
theorem processMessage_text (s : St) :
    (processMessage lwip mem base s).2 = (processMessage lwip mem' base' s).2 := by
  simp only [processMessage, h.cstr_eq, h'.cstr_eq]
  split
  · rfl
  · split
    · cases strchr text SPACE with
      | none => rfl
      | some userLen => exact processCommand_text lwip h h' _ _ _
    · exact processCommand_text lwip h h' _ _ _

end Text

/-! ## recv_func -/

section Payload

/-! `first` is the payload, and `text` the string at `current` in it, which ends there. -/

variable {first : List UInt8} {current : Nat} {text rest : List UInt8} (h0 : 0 ∉ text)
  (hdrop : first.drop current = text ++ 0 :: rest)

include hdrop

theorem nul_lt : current + text.length < first.length := by
  have hlen := congrArg List.length hdrop
  simp only [List.length_drop, List.length_append, List.length_cons] at hlen
  omega

/-- What is left of the text behind a line. -/
theorem drop_cut {i : Nat} (hi : i + 2 ≤ text.length) :
    (first.set (current + i) 0).drop (current + i + 2) = text.drop (i + 2) ++ 0 :: rest := by
  rw [List.drop_set_of_lt (by omega), show current + i + 2 = current + (i + 2) by omega, ← List.drop_drop, hdrop,
    List.drop_append_of_le_length hi]

include h0

theorem cstr_nul (after : List UInt8) : cstr (first ++ after) current = text := by
  have hlt := nul_lt hdrop
  rw [cstr, List.drop_append_of_le_length (by omega), hdrop, List.append_assoc]
  exact takeWhile_nulFree h0 _

theorem ends_cut {i : Nat} (hi : i + 2 ≤ text.length) (after : List UInt8) :
    Ends (first.set (current + i) 0 ++ after) current (text.take i) := by
  have hlt := nul_lt hdrop
  have hstr := cstr_nul h0 hdrop after
  rw [← List.set_append_left _ _ (by omega), ← hstr]
  rw [← hstr] at hi
  exact ends_of_crlf hi

end Payload

/-- The first round of the loop ends inside `first`, and so does each further round: the
    loop works on `first` alone, in any memory that starts with it. -/
theorem recvLoop_local (n : Nat) {first : List UInt8} {current : Nat} {text rest : List UInt8} (h0 : 0 ∉ text)
    (hdrop : first.drop current = text ++ 0 :: rest) (hn : text.length ≤ n) (s : St) :
    ∃ first' s', first'.length = first.length ∧
      ∀ after fuel, n ≤ fuel → recvLoop lwip fuel (first ++ after) current s = (first' ++ after, s') := by
  induction n generalizing first current text s with
  | zero =>
    obtain rfl : text = [] := List.eq_nil_of_length_eq_zero (by omega)
    refine ⟨first, s, rfl, ?_⟩
    intro after fuel _
    cases fuel with
    | zero => rfl
    | succ fuel => simp [recvLoop, strstrCrlf, cstr_nul h0 hdrop after, find]
  | succ n ih =>
    cases hfind : find CR LF text with
    | none =>
      refine ⟨first, s, rfl, ?_⟩
      intro after fuel _
      cases fuel with
      | zero => rfl
      | succ fuel => simp [recvLoop, strstrCrlf, cstr_nul h0 hdrop after, hfind]
    | some i =>
      have hi := find_lt CR LF hfind
      have hlt := nul_lt hdrop
      have hnext := drop_cut hdrop hi
      obtain ⟨first', s', hlen', hrun⟩ := ih (fun hm => h0 (List.mem_of_mem_drop hm)) hnext
        (by rw [List.length_drop]; omega) (processMessage lwip (first.set (current + i) 0 ++ []) current s).2
      refine ⟨first', s', by simpa using hlen', ?_⟩
      intro after fuel hfuel
      obtain ⟨fuel, rfl⟩ : ∃ k, fuel = k + 1 := ⟨fuel - 1, by omega⟩
      have hstr : strstrCrlf (first ++ after) current = some (current + i) := by
        simp [strstrCrlf, cstr_nul h0 hdrop after, hfind]
      have hmem : (first ++ after).set (current + i) 0 = first.set (current + i) 0 ++ after :=
        List.set_append_left _ _ (by omega)
      simp only [recvLoop, hstr, hmem, (processMessage_frame lwip _ current s).1]
      rw [processMessage_text lwip (ends_cut h0 hdrop hi after) (ends_cut h0 hdrop hi [])]
      exact hrun after fuel (by omega)

/-- The memory that starts at the payload, after `recv_func`. -/
def recvMem (p : Segment) (err : ErrT) (s : St) : List UInt8 :=
  if err ≠ ERR_OK then p.mem else (recvLoop lwip p.mem.length p.mem 0 s).1

/-- For any two memories behind the payload `first` of a single pbuf, `recv_func` passes on
    the same strings and makes the same calls; and it changes no byte behind the payload, or
    behind the arrays it copies to. -/
def Local (tpcb : Nat) (first : List UInt8) (err : ErrT) (s : St) : Prop :=
  ∀ after after' : List UInt8,
    messages (recvFunc lwip tpcb (some ⟨first, [], after⟩) err s).2 =
        messages (recvFunc lwip tpcb (some ⟨first, [], after'⟩) err s).2 ∧
      (recvFunc lwip tpcb (some ⟨first, [], after⟩) err s).2.calls =
        (recvFunc lwip tpcb (some ⟨first, [], after'⟩) err s).2.calls ∧
      (recvMem lwip ⟨first, [], after⟩ err s).drop first.length = after ∧
      Intact s (recvFunc lwip tpcb (some ⟨first, [], after⟩) err s).2

/-- A NUL in the payload ends the text that is seen, whatever is behind the payload. -/
theorem visible_of_nul {first : List UInt8} (h : 0 ∈ first) (after : List UInt8) :
    (⟨first, [], after⟩ : Segment).visible = cstr first 0 := by
  obtain ⟨text, rest, rfl, h0⟩ := List.eq_append_cons_of_mem h
  have hdrop : (text ++ 0 :: rest).drop 0 = text ++ 0 :: rest := rfl
  have hself := cstr_nul h0 hdrop []
  rw [List.append_nil] at hself
  exact (cstr_nul h0 hdrop after).trans hself.symm

theorem intact_of_nul (tpcb : Nat) {first : List UInt8} (h : 0 ∈ first) {s : St} (hnamed : Named s.conn)
    (after : List UInt8) :
    Intact s (recvFunc lwip tpcb (some ⟨first, [], after⟩) ERR_OK s).2 ↔
      ∀ line ∈ frames CR LF (cstr first 0), Harmless line := by
  rw [← visible_of_nul h after]
  exact (recvFunc_intact lwip tpcb _ s hnamed).2

theorem local_of_nul (tpcb : Nat) {first : List UInt8} (h : 0 ∈ first) {s : St} (hnamed : Named s.conn)
    (hharm : ∀ line ∈ frames CR LF (cstr first 0), Harmless line) : Local lwip tpcb first ERR_OK s := by
  have hintact := fun after => (intact_of_nul lwip tpcb h hnamed after).mpr hharm
  obtain ⟨text, rest, rfl, h0⟩ := List.eq_append_cons_of_mem h
  have hdrop : (text ++ 0 :: rest).drop 0 = text ++ 0 :: rest := rfl
  obtain ⟨first', s', hlen, hrun⟩ := recvLoop_local lwip text.length h0 hdrop (Nat.le_refl _) s
  have hloop : ∀ after, recvLoop lwip (text ++ 0 :: rest ++ after).length (text ++ 0 :: rest ++ after) 0 s =
      (first' ++ after, s') := by
    intro after
    apply hrun after
    simp only [List.length_append]
    omega
  intro after after'
  have hdone : ∀ after, (recvFunc lwip tpcb (some ⟨text ++ 0 :: rest, [], after⟩) ERR_OK s).2 =
      s'.call (.recved (text ++ 0 :: rest).length) (some tpcb) := by
    intro after
    simp only [recvFunc, Segment.mem, ne_eq, not_true_eq_false, if_false, hloop, Segment.bytes, List.flatten_nil,
      List.append_nil]
  refine ⟨by rw [hdone, hdone], by rw [hdone, hdone], ?_, hintact after⟩
  simp only [recvMem, Segment.mem, ne_eq, not_true_eq_false, if_false, hloop]
  rw [← hlen]
  exact List.drop_left

/-- Without a NUL in the payload, a CRLF in the memory behind it is one more line. -/
theorem nul_of_local (tpcb : Nat) {first : List UInt8} {s : St} (h : Local lwip tpcb first ERR_OK s) : 0 ∈ first := by
  by_contra h0
  have hmsg := (h [0] [CR, LF, 0]).1
  rw [recvFunc_messages, recvFunc_messages, List.append_cancel_left_eq, visible_eq h0, visible_eq h0] at hmsg
  have hnil : cstr [0] 0 = [] := by decide
  have hcrlf : cstr [CR, LF, 0] 0 = [CR, LF] := by decide
  simp only [hnil, hcrlf, List.append_nil] at hmsg
  have hle := covered_le CR LF first
  have hall := (whole_iff_covered CR LF (first ++ [CR, LF])).mp (whole_snoc CR LF cr_ne_lf first)
  rw [← hmsg, List.length_append] at hall
  simp only [List.length_cons, List.length_nil] at hall
  omega

/-- Two lines and a NUL: ":b!u PRIVMSG c :x", "x", and a rest without its CRLF. -/
def endedPayload : List UInt8 := userPrivmsg ++ [CR, LF] ++ ['x'].map byte ++ [CR, LF] ++ ['y'].map byte ++ [0]

/-- "PING\r\n", which lwIP delivers without a NUL. -/
def pingPayload : List UInt8 := ['P', 'I', 'N', 'G'].map byte ++ [CR, LF]

end Nanotube.Irc
