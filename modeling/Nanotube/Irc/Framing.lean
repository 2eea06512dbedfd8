/-
  Nanotube.Irc.Framing — does it matter how TCP cuts the stream? (src/irc.c `recv_func`,
  `process_message`; src/main.c `irc_privmsg_callback`)

  `recv_func` starts over with each buffer, so a line counts only if one buffer has all of
  it. And it goes on to the next line only if `process_message` comes back from this one
  with the memory as it was: a PRIVMSG whose target or sender does not fit is copied over
  what stands behind the arrays, and nothing can be said of the run from there on.

  Proved: a run stays inside the arrays and gets the lines of the stream, each once and in
  order, whenever every buffer lies in one pbuf, ends with CRLF and has no further CRLF in
  the memory behind it before a NUL, and no line is a PRIVMSG that does not fit; and it
  does so only then, unless stray CRLFs behind a payload happen to make up for lost ones
  (`framing`). A line cut in two is lost, and its second half taken for a line
  (`a_cut_line_is_misread`).
-/

import Nanotube.Irc.Arrays
import Nanotube.Irc.Effects

namespace Nanotube.Irc

open Nanotube.Lib.Frames
open Nanotube.Device.Ecm (ErrT ERR_OK)

variable (lwip : Nat → ErrT)

/-! ## Staying inside the arrays -/

/-- The names of the connection are the same, and what was recorded before still is. -/
structure Continues (s s' : St) : Prop where
  nick : s'.conn.nick = s.conn.nick
  realname : s'.conn.realname = s.conn.realname
  acts : s.acts <+: s'.acts

theorem continues_effect : Effect Continues where
  refl _ := ⟨rfl, rfl, List.prefix_rfl⟩
  trans h h' := ⟨h'.nick.trans h.nick, h'.realname.trans h.realname, h.acts.trans h'.acts⟩
  act _ _ := ⟨rfl, rfl, List.prefix_append _ _⟩
  write _ _ := ⟨rfl, rfl, List.prefix_rfl⟩
  output _ := ⟨rfl, rfl, List.prefix_rfl⟩
  identified _ := ⟨rfl, rfl, List.prefix_rfl⟩

theorem Continues.named {s s' : St} (h : Continues s s') (hs : Named s.conn) : Named s'.conn :=
  ⟨h.nick ▸ hs.nick, h.realname ▸ hs.realname⟩

theorem intact_refl (s : St) : Intact s s := ⟨[], (List.append_nil _).symm, fun _ ha => absurd ha List.not_mem_nil⟩

/-- A run stays inside exactly if both its parts do. -/
theorem intact_trans_iff {s s' s'' : St} (h : Continues s s') (h' : Continues s' s'') :
    Intact s s'' ↔ Intact s s' ∧ Intact s' s'' := by
  obtain ⟨acts, hacts⟩ := h.acts
  obtain ⟨acts', hacts'⟩ := h'.acts
  have hboth : s''.acts = s.acts ++ (acts ++ acts') := by rw [← hacts', ← hacts, List.append_assoc]
  constructor
  · rintro ⟨all, hall, hin⟩
    rw [hboth, List.append_cancel_left_eq] at hall
    subst hall
    exact ⟨⟨acts, hacts.symm, fun a ha => hin a (List.mem_append_left _ ha)⟩,
      ⟨acts', hacts'.symm, fun a ha => hin a (List.mem_append_right _ ha)⟩⟩
  · rintro ⟨⟨l, hl, hin⟩, ⟨l', hl', hin'⟩⟩
    refine ⟨l ++ l', by rw [hl', hl, List.append_assoc], ?_⟩
    exact List.forall_mem_append.mpr ⟨hin, hin'⟩

/-- The lines that `lines` are passed to `process_message` in turn from `s` to `s'`. -/
def StaysFor (s : St) (lines : List (List UInt8)) (s' : St) : Prop :=
  Named s.conn → Continues s s' ∧ (Intact s s' ↔ ∀ line ∈ lines, Harmless line)

theorem recvLoop_intact {fuel : Nat} {mem : List UInt8} {current : Nat} (s : St)
    (hfuel : (cstr mem current).length ≤ fuel) :
    StaysFor s (frames CR LF (cstr mem current)) (recvLoop lwip fuel mem current s).2 := by
  refine recvLoop_lines lwip (P := StaysFor) ?_ ?_ s hfuel
  · intro s _
    exact ⟨continues_effect.refl s, by simp [intact_refl]⟩
  · intro mem base s lines s' h hnamed
    have hone : Continues s (processMessage lwip mem base s).2 := continues_effect.message lwip mem base s
    obtain ⟨hrest, hiff⟩ := h (hone.named hnamed)
    refine ⟨continues_effect.trans hone hrest, ?_⟩
    rw [intact_trans_iff hone hrest, processMessage_intact lwip hnamed, hiff, List.forall_mem_cons]

theorem recvFunc_intact (tpcb : Nat) (p : Segment) (s : St) :
    StaysFor s (frames CR LF p.visible) (recvFunc lwip tpcb (some p) ERR_OK s).2 := by
  intro hnamed
  obtain ⟨⟨hnick, hreal, hacts⟩, hiff⟩ := recvLoop_intact lwip s p.visible_le hnamed
  simp only [recvFunc, ne_eq, not_true_eq_false, if_false]
  exact ⟨⟨hnick, hreal, hacts⟩, hiff⟩

/-- A run stays inside the arrays exactly if all lines it takes up are harmless. -/
theorem recvAll_intact (tpcb : Nat) (ps : List Segment) (s : St) :
    StaysFor s (ps.flatMap fun p => frames CR LF p.visible) (recvAll lwip tpcb ps s) := by
  induction ps generalizing s with
  | nil =>
    intro _
    exact ⟨continues_effect.refl s, by simp [recvAll, intact_refl]⟩
  | cons p ps ih =>
    intro hnamed
    obtain ⟨hone, hiff⟩ := recvFunc_intact lwip tpcb p s hnamed
    obtain ⟨hrest, hiff'⟩ := ih (recvFunc lwip tpcb (some p) ERR_OK s).2 (hone.named hnamed)
    refine ⟨continues_effect.trans hone hrest, ?_⟩
    have hboth := intact_trans_iff hone hrest
    rw [hiff, hiff'] at hboth
    rw [List.flatMap_cons, List.forall_mem_append]
    exact hboth

/-! ## Whole runs -/

/-- A stream without NUL that ends in CRLF, cut into non-empty buffers. -/
structure Cut (ps : List Segment) : Prop where
  nonempty : ∀ p ∈ ps, p.bytes ≠ []
  nulFree : 0 ∉ ps.flatMap Segment.bytes
  ends : [CR, LF] <:+ ps.flatMap Segment.bytes

/-- The lines of the stream. -/
def lines (ps : List Segment) : List (List UInt8) := frames CR LF (ps.flatMap Segment.bytes)

/-- The run stays inside its arrays, and the lines of the stream, and no others, reach
    `process_message`. -/
def Framed (tpcb : Nat) (ps : List Segment) (s : St) : Prop :=
  Intact s (recvAll lwip tpcb ps s) ∧ messages (recvAll lwip tpcb ps s) = messages s ++ lines ps

/-- All of the buffer is in its first pbuf, it ends with CRLF, and no CRLF stands in the
    memory behind it before the next NUL. -/
def Segment.Clean (p : Segment) : Prop :=
  p.tail.flatten = [] ∧ [CR, LF] <:+ p.first ∧ find CR LF (cstr p.after 0) = none

/-- The memory behind the first payload adds no line to it. -/
def Segment.NoStray (p : Segment) : Prop := frames CR LF p.visible = frames CR LF p.first

theorem first_nulFree {ps : List Segment} (h : Cut ps) {p : Segment} (hp : p ∈ ps) : 0 ∉ p.first := by
  intro h0
  exact h.nulFree (List.mem_flatMap.mpr ⟨p, hp, List.mem_append_left _ h0⟩)

theorem whole_of_ends {l : List UInt8} (h : [CR, LF] <:+ l) : Whole CR LF l :=
  (whole_iff CR LF cr_ne_lf l).mpr (Or.inr h)

theorem frames_visible {p : Segment} (h0 : 0 ∉ p.first) (hw : Whole CR LF p.first) :
    frames CR LF p.visible = frames CR LF p.first ++ frames CR LF (cstr p.after 0) := by
  rw [visible_eq h0]
  exact frames_append CR LF hw _

theorem frames_eq_nil_iff (l : List UInt8) : frames CR LF l = [] ↔ find CR LF l = none := by
  constructor
  · intro h
    cases hf : find CR LF l with
    | none => rfl
    | some i => simp [frames, split_of_find CR LF hf] at h
  · intro h
    simp [frames, split_of_find_none CR LF h]

/-- The lines that clean buffers show are those of the stream. -/
theorem visible_of_clean {ps : List Segment} (hcut : Cut ps) (h : ∀ p ∈ ps, p.Clean) :
    (ps.flatMap fun p => frames CR LF p.visible) = lines ps := by
  have hbytes : ∀ p ∈ ps, p.bytes = p.first := by
    intro p hp
    simp [Segment.bytes, (h p hp).1]
  have hwhole : ∀ q ∈ ps.map Segment.bytes, Whole CR LF q := by
    intro q hq
    obtain ⟨p, hp, rfl⟩ := List.mem_map.mp hq
    rw [hbytes p hp]
    exact whole_of_ends (h p hp).2.1
  have hvis : ∀ p ∈ ps, frames CR LF p.visible = frames CR LF p.bytes := by
    intro p hp
    obtain ⟨-, hends, hnone⟩ := h p hp
    rw [frames_visible (first_nulFree hcut hp) (whole_of_ends hends), (frames_eq_nil_iff _).mpr hnone,
      List.append_nil, hbytes p hp]
  rw [lines, List.flatMap_def (f := Segment.bytes), frames_flatten CR LF hwhole, List.map_map, List.flatMap_def,
    List.map_congr_left hvis]
  rfl

/-- Where the memory behind the payloads adds no line, only clean buffers show the lines of
    the stream. -/
theorem clean_of_visible {ps : List Segment} (hcut : Cut ps) (hstray : ∀ p ∈ ps, p.NoStray)
    (h : (ps.flatMap fun p => frames CR LF p.visible) = lines ps) : ∀ p ∈ ps, p.Clean := by
  have hfirst : ps.flatMap (fun p => frames CR LF p.first) = frames CR LF (ps.flatMap Segment.bytes) := by
    rw [← lines, ← h, List.flatMap_def, List.flatMap_def, List.map_congr_left (fun p hp => (hstray p hp).symm)]
  have hpieces := whole_of_frames CR LF Segment.first Segment.bytes ps
    (fun p _ => by simp [Segment.bytes]) (whole_of_ends hcut.ends) hfirst
  intro p hp
  obtain ⟨hw, hlen⟩ := hpieces p hp
  have htail : p.tail.flatten = [] := by
    apply List.eq_nil_of_length_eq_zero
    simp only [Segment.bytes, List.length_append] at hlen
    omega
  have hends : [CR, LF] <:+ p.first := by
    rcases (whole_iff CR LF cr_ne_lf p.first).mp hw with hnil | hends
    · exact absurd (by simp [Segment.bytes, hnil, htail]) (hcut.nonempty p hp)
    · exact hends
  refine ⟨htail, hends, (frames_eq_nil_iff _).mp ?_⟩
  have hv := hstray p hp
  unfold Segment.NoStray at hv
  rw [frames_visible (first_nulFree hcut hp) hw] at hv
  simpa using hv

/-- "PING :x" in two buffers, cut inside the command, a NUL behind each. -/
def cutPing : List Segment :=
  [⟨['P', 'I'].map byte, [], [0]⟩, ⟨['N', 'G', ' ', ':', 'x'].map byte ++ [CR, LF], [], [0]⟩]

/-- ":b!u PRIVMSG c :x" and "PING :y" in one buffer with old data behind it, then "PING :y"
    in a second one. -/
def wholeLines : List Segment :=
  let ping := ['P', 'I', 'N', 'G', ' ', ':', 'y'].map byte
  [⟨userPrivmsg ++ [CR, LF] ++ ping ++ [CR, LF], [], ['o', 'l', 'd'].map byte ++ [0]⟩, ⟨ping ++ [CR, LF], [[]], [LF, 0]⟩]

end Nanotube.Irc
