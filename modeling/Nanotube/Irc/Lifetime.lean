/-
  Nanotube.Irc.Lifetime — does the IRC layer use its pcb only while lwIP has it?

  `conn->pcb` is set by `irc_init`, cleared by `irc_close`, and passed to lwIP by every
  entry point in between. lwIP frees a pcb it gives up on and reports it through
  `tcp_err`, where the layer has registered nothing.

  Proved: as long as lwIP does not free the pcb that `conn->pcb` points to, no entry point
  passes on a freed pcb, in any order of events (`safe_of_kept`). Once it does, the
  pointer stays until `irc_init` or `irc_close` (`dangling_stays`), and each use of it is
  of a freed pcb, `irc_close` included (`dangling_used`).
-/

import Nanotube.Irc.Effects
import Nanotube.Lib.Runs

namespace Nanotube.Irc

open Nanotube.Lib.Runs
open Nanotube.Device.Ecm (ErrT ERR_OK)

variable (lwip : Nat → ErrT)

/-- No lwIP function has been given a pcb that was freed. -/
def Safe (s : St) : Prop := ∀ c ∈ s.calls, c.freed = false

/-- The connection's pcb is not freed. -/
def Live (s : St) : Prop := ∀ x, s.conn.pcb = some x → x ∉ s.freed

/-- lwIP does not free, by itself, the pcb the connection has. -/
def KeepsPcb (s : St) : Ev → Prop
  | .lwipFree pcb => s.conn.pcb ≠ some pcb
  | _ => True

/-! ## Functions that keep the connection's pcb -/

/-- From `s` to `s'` the pcbs are the same, and on a live pcb only safe calls were made. -/
structure Keeps (s s' : St) : Prop where
  pcb : s'.conn.pcb = s.conn.pcb
  freed : s'.freed = s.freed
  nextPcb : s'.nextPcb = s.nextPcb
  safe : Live s → Safe s → Safe s'

theorem Keeps.live {s s' : St} (h : Keeps s s') (hl : Live s) : Live s' := by
  intro x hx
  rw [h.freed]
  exact hl x (h.pcb ▸ hx)

theorem Keeps.refl (s : St) : Keeps s s := ⟨rfl, rfl, rfl, fun _ h => h⟩

theorem Keeps.trans {s s' s'' : St} (h : Keeps s s') (h' : Keeps s' s'') : Keeps s s'' :=
  ⟨h'.pcb.trans h.pcb, h'.freed.trans h.freed, h'.nextPcb.trans h.nextPcb,
    fun hl hs => h'.safe (h.live hl) (h.safe hl hs)⟩

theorem keeps_act (s : St) (a : Act) : Keeps s (s.act a) := ⟨rfl, rfl, rfl, fun _ h => h⟩

theorem safe_call {s : St} (hs : Safe s) (fn : TcpFn) {pcb : Option Nat} (hp : ∀ x, pcb = some x → x ∉ s.freed) :
    Safe (s.call fn pcb) := by
  intro c hc
  rcases List.mem_append.mp hc with hc | hc
  · exact hs c hc
  · rw [List.mem_singleton] at hc
    subst hc
    cases pcb with
    | none => rfl
    | some x => simpa using hp x rfl

theorem keeps_call (s : St) (fn : TcpFn) : Keeps s (s.call fn s.conn.pcb) :=
  ⟨rfl, rfl, rfl, fun hl hs => safe_call hs fn hl⟩

theorem keeps_effect : Effect Keeps where
  refl := Keeps.refl
  trans h h' := h.trans h'
  act := keeps_act
  write s _ := keeps_call s _
  output s := keeps_call s .output
  identified _ := ⟨rfl, rfl, rfl, fun _ h => h⟩

/-- `tcp_recved` gets the pcb lwIP passed in, which is not freed. -/
theorem keeps_recv {tpcb : Nat} (p : Option Segment) (err : ErrT) {s : St} (ht : tpcb ∉ s.freed) :
    Keeps s (recvFunc lwip tpcb p err s).2 := by
  cases p with
  | none => exact Keeps.refl s
  | some p =>
    simp only [recvFunc]
    split
    · exact Keeps.refl s
    · have hloop := keeps_effect.recvLoop lwip p.mem.length p.mem 0 s
      refine ⟨hloop.pcb, hloop.freed, hloop.nextPcb, fun hl hs => safe_call (hloop.safe hl hs) _ ?_⟩
      intro x hx
      rw [Option.some.injEq] at hx
      rw [hloop.freed, ← hx]
      exact ht

theorem keeps_nameResolved (ipaddr : Option Nat) (s : St) : Keeps s (nameResolved ipaddr s) := by
  simp only [nameResolved]
  split
  · exact ((keeps_act s _).trans (keeps_call _ _)).trans (keeps_call _ _)
  · exact (keeps_call _ _).trans (keeps_call _ _)

/-! ## The invariant -/

structure Inv (s : St) : Prop where
  live : Live s
  known : ∀ x, s.conn.pcb = some x → x < s.nextPcb
  freedOld : ∀ x ∈ s.freed, x < s.nextPcb
  safe : Safe s

theorem Keeps.inv {s s' : St} (h : Keeps s s') (hi : Inv s) : Inv s' := by
  refine ⟨h.live hi.live, ?_, ?_, h.safe hi.live hi.safe⟩
  · rw [h.pcb, h.nextPcb]
    exact hi.known
  · rw [h.freed, h.nextPcb]
    exact hi.freedOld

/-- A connection without a pcb has nothing to be wrong about. -/
theorem inv_of_none {s : St} (hp : s.conn.pcb = none) (hf : ∀ x ∈ s.freed, x < s.nextPcb) (hs : Safe s) : Inv s := by
  refine ⟨?_, ?_, hf, hs⟩
  · intro x hx
    rw [hp] at hx
    cases hx
  · intro x hx
    rw [hp] at hx
    cases hx

/-- A pcb fresh from `tcp_new` is not among the freed ones. -/
theorem inv_of_new {s s' : St} (hi : Inv s) (hp : s'.conn.pcb = some s.nextPcb) (hn : s'.nextPcb = s.nextPcb + 1)
    (hf : s'.freed = s.freed) (hc : s'.calls = s.calls) : Inv s' := by
  refine ⟨?_, ?_, ?_, ?_⟩
  · intro x hx hm
    rw [hp, Option.some.injEq] at hx
    have := hi.freedOld x (hf ▸ hm)
    omega
  · intro x hx
    rw [hp, Option.some.injEq] at hx
    omega
  · intro x hx
    have := hi.freedOld x (hf ▸ hx)
    omega
  · intro c hc'
    exact hi.safe c (hc ▸ hc')

theorem init_inv (port : UInt16) (nick realname : List UInt8) (tcpNew : Bool) (dns : DnsOutcome) {s : St} (hi : Inv s) :
    Inv (ircInit port nick realname tcpNew dns s).2 := by
  simp only [ircInit]
  split
  · exact ⟨hi.live, hi.known, hi.freedOld, hi.safe⟩
  · split
    · exact ⟨hi.live, hi.known, hi.freedOld, hi.safe⟩
    · split
      · exact inv_of_none rfl hi.freedOld hi.safe
      · split
        · exact inv_of_new hi rfl rfl rfl rfl
        · exact inv_of_new hi rfl rfl rfl rfl

theorem close_inv (now : Bool) {s : St} (hi : Inv s) : Inv (ircClose now s).2 := by
  have hcall := (keeps_call s .close).inv hi
  refine inv_of_none rfl ?_ hcall.safe
  cases now with
  | false => exact hi.freedOld
  | true =>
    intro x hx
    rcases List.mem_append.mp hx with hx | hx
    · exact hi.freedOld x hx
    · exact hi.known x (Option.mem_toList.mp hx)

theorem free_inv {pcb : Nat} {s : St} (hi : Inv s) (hne : s.conn.pcb ≠ some pcb) (hlt : pcb < s.nextPcb) :
    Inv { s with freed := s.freed ++ [pcb] } := by
  refine ⟨?_, hi.known, ?_, hi.safe⟩
  · intro x hx hm
    rcases List.mem_append.mp hm with hm | hm
    · exact hi.live x hx hm
    · rw [List.mem_singleton] at hm
      exact hne (hm ▸ hx)
  · intro x hx
    rcases List.mem_append.mp hx with hx | hx
    · exact hi.freedOld x hx
    · rw [List.mem_singleton] at hx
      exact hx ▸ hlt

/-- What a step does: it keeps the pcbs, or it is an init, a close, or lwIP freeing one. -/
theorem step_cases (s : St) (e : Ev) :
    Keeps s (step lwip s e) ∨
      (∃ port nick realname tcpNew dns, e = .init port nick realname tcpNew dns) ∨
      (∃ now, e = .close now) ∨
      ∃ pcb, e = .lwipFree pcb := by
  cases e with
  | init port nick realname tcpNew dns => exact Or.inr (Or.inl ⟨port, nick, realname, tcpNew, dns, rfl⟩)
  | nameResolved ipaddr => exact Or.inl (keeps_nameResolved ipaddr s)
  | connected => exact Or.inl (keeps_call s .recv)
  | recv tpcb p err =>
    left
    simp only [step]
    split
    · exact Keeps.refl s
    · exact keeps_recv lwip p err ‹_›
  | send channel message => exact Or.inl (keeps_effect.sendLine lwip _ _ s)
  | sendRaw message len => exact Or.inl (keeps_effect.sendRaw lwip message len s)
  | away message => exact Or.inl (keeps_effect.sendLine lwip _ _ s)
  | join channel => exact Or.inl (keeps_effect.sendLine lwip _ _ s)
  | part channel => exact Or.inl (keeps_effect.sendLine lwip _ _ s)
  | nick nick => exact Or.inl (keeps_effect.sendLine lwip _ _ s)
  | close now => exact Or.inr (Or.inr (Or.inl ⟨now, rfl⟩))
  | lwipFree pcb => exact Or.inr (Or.inr (Or.inr ⟨pcb, rfl⟩))

theorem step_inv (s : St) (e : Ev) (hi : Inv s) (hc : KeepsPcb s e) : Inv (step lwip s e) := by
  rcases step_cases lwip s e with h | ⟨port, nick, realname, tcpNew, dns, rfl⟩ | ⟨now, rfl⟩ | ⟨pcb, rfl⟩
  · exact h.inv hi
  · exact init_inv port nick realname tcpNew dns hi
  · exact close_inv now hi
  · simp only [step]
    split
    · exact free_inv hi hc ‹_›
    · exact hi

theorem start_inv : Inv start := by
  refine inv_of_none rfl ?_ ?_
  · intro x hx
    cases hx
  · intro c hc
    cases hc

theorem safe_of_kept (es : List Ev) (h : Along (step lwip) KeepsPcb start es) : Always (step lwip) Safe start es :=
  always_mono _ (fun _ hi => hi.safe) (always_of_along _ (step_inv lwip) start_inv h)

/-! ## The dangling pointer -/

/-- `conn->pcb` points to a pcb lwIP has freed. -/
def Dangling (s : St) : Prop := ∃ x, s.conn.pcb = some x ∧ x ∈ s.freed

/-- The events that always pass `conn->pcb` to lwIP. -/
def Uses : Ev → Prop
  | .nameResolved _ | .connected | .send _ _ | .sendRaw _ _ | .away _ | .join _ | .part _ | .nick _ | .close _ => True
  | _ => False

theorem safe_of_call {s : St} {fn : TcpFn} {pcb : Option Nat} (h : Safe (s.call fn pcb)) : Safe s :=
  fun c hc => h c (List.mem_append_left _ hc)

theorem not_safe_call {s : St} (h : Dangling s) (fn : TcpFn) : ¬ Safe (s.call fn s.conn.pcb) := by
  intro hs
  obtain ⟨x, hx, hm⟩ := h
  have hlast := hs _ (List.mem_append_right _ (List.mem_singleton.mpr rfl))
  rw [hx] at hlast
  simp [hm] at hlast

theorem not_safe_sendRaw {s : St} (h : Dangling s) (message : List UInt8) (len : Nat) :
    ¬ Safe (ircSendRaw lwip message len s).2 := by
  have hw := not_safe_call h (.write (message.take len))
  simp only [ircSendRaw]
  split
  · exact hw
  · split <;> exact fun hs => hw (safe_of_call hs)

theorem not_safe_sendLine {s : St} (h : Dangling s) (arr : Arr) (text : List UInt8) :
    ¬ Safe (sendLine lwip arr text s).2 :=
  not_safe_sendRaw lwip (s := s.act _) h _ _

theorem dangling_used {s : St} (h : Dangling s) {e : Ev} (he : Uses e) : ¬ Safe (step lwip s e) := by
  cases e with
  | nameResolved ipaddr =>
    simp only [step, nameResolved]
    split
    · exact fun hs => not_safe_call (s := s.act _) h .arg (safe_of_call hs)
    · exact fun hs => not_safe_call h .arg (safe_of_call hs)
  | connected => exact not_safe_call h .recv
  | send channel message => exact not_safe_sendLine lwip h _ _
  | sendRaw message len => exact not_safe_sendRaw lwip h message len
  | away message => exact not_safe_sendLine lwip h _ _
  | join channel => exact not_safe_sendLine lwip h _ _
  | part channel => exact not_safe_sendLine lwip h _ _
  | nick nick => exact not_safe_sendLine lwip h _ _
  | close now => exact not_safe_call h .close
  | init port nick realname tcpNew dns => cases he
  | recv tpcb p err => cases he
  | lwipFree pcb => cases he

/-- Only `irc_init` and `irc_close` change `conn->pcb`, and lwIP takes no pcb back. -/
theorem dangling_stays {s : St} (h : Dangling s) {e : Ev}
    (hinit : ∀ port nick realname tcpNew dns, e ≠ .init port nick realname tcpNew dns)
    (hclose : ∀ now, e ≠ .close now) :
    Dangling (step lwip s e) := by
  obtain ⟨x, hx, hm⟩ := h
  rcases step_cases lwip s e with hk | ⟨port, nick, realname, tcpNew, dns, rfl⟩ | ⟨now, rfl⟩ | ⟨pcb, rfl⟩
  · exact ⟨x, hk.pcb ▸ hx, hk.freed ▸ hm⟩
  · exact absurd rfl (hinit port nick realname tcpNew dns)
  · exact absurd rfl (hclose now)
  · simp only [step]
    split
    · exact ⟨x, hx, List.mem_append_left _ hm⟩
    · exact ⟨x, hx, hm⟩

/-- In every run in which lwIP does not by itself free the pcb that `conn->pcb` points to,
    no lwIP function is ever given a freed pcb. Where it does free it, the next event that
    uses the pcb gives lwIP a freed one. -/
theorem pcb_lifetime (es : List Ev) :
    (Along (step lwip) KeepsPcb start es → Always (step lwip) Safe start es) ∧
      ∀ e, Dangling (run (step lwip) start es) → Uses e → ¬ Always (step lwip) Safe start (es ++ [e]) := by
  refine ⟨safe_of_kept lwip es, ?_⟩
  intro e hd hu hall
  have hlast := (always_iff_runs _).mp hall (es ++ [e]) List.prefix_rfl
  rw [run_snoc] at hlast
  exact dangling_used lwip hd hu hlast

/-- The server resets the connection, lwIP frees the pcb, and `irc_send` writes to it. -/
def resetRun : List Ev :=
  [.init 0 [] [] true ⟨ERR_INPROGRESS, 0⟩, .nameResolved (some 7), .connected, .lwipFree 0, .send [] []]

theorem a_reset_pcb_is_written_to :
    ¬ Always (step fun _ => ERR_OK) Safe start resetRun ∧
      (run (step fun _ => ERR_OK) start resetRun).calls.map (fun c => (c.pcb, c.freed)) =
        [(some 0, false), (some 0, false), (some 0, false), (some 0, true), (some 0, true)] := by
  refine ⟨?_, by decide⟩
  intro h
  have hd : Dangling (run (step fun _ => ERR_OK) start (resetRun.take 4)) := ⟨0, by decide, by decide⟩
  have hlast := (always_iff_runs _).mp h resetRun List.prefix_rfl
  exact dangling_used (fun _ => ERR_OK) hd (e := .send [] []) trivial hlast

/-- With the pcb closed before lwIP lets go of it, the same calls are safe. -/
theorem a_closed_pcb_is_forgotten :
    Always (step fun _ => ERR_OK) Safe start
      [.init 0 [] [] true ⟨ERR_INPROGRESS, 0⟩, .nameResolved (some 7), .connected, .close false, .lwipFree 0, .send [] []] :=
  (pcb_lifetime (fun _ => ERR_OK) _).1 (by simp [Along, KeepsPcb, step, ircInit, nameResolved, onConnect, ircClose,
    St.call])

end Nanotube.Irc
