/-
  Nanotube.Irc.Setup — does connecting follow every outcome of the name lookup?
  (src/irc.c `irc_init`, `name_resolved`; src/lwIP/core/dns.c `dns_gethostbyname`,
  `dns_call_found`)

  `dns_gethostbyname` knows the address at once and stores it (a cached name or a numeric
  address), or asks for it and calls back later, with the address or with NULL, or fails
  without a callback. `irc_init` returns its result and does nothing else about it: the
  only `tcp_connect` is in the callback, which does not look whether it got an address.

  Proved: set-up does what the outcome calls for exactly if `irc_init` gave up before the
  lookup, the answer is still out, or the callback brought an address (`setup_iff`).
-/

import Nanotube.Irc.Client
import Nanotube.Lib.Runs

namespace Nanotube.Irc

open Nanotube.Lib.Runs
open Nanotube.Device.Ecm (ErrT ERR_OK)

variable (lwip : Nat → ErrT)

/-- The outcomes of `dns_gethostbyname`, with the callback that follows. -/
inductive Lookup where
  /-- ERR_OK, the address stored, no callback. -/
  | known (addr : Nat)
  /-- ERR_INPROGRESS, the callback still to come. -/
  | pending
  /-- ERR_INPROGRESS, then the callback, with NULL if `none`. -/
  | answered (addr : Option Nat)
  | failed (err : ErrT) (h : err ≠ ERR_OK ∧ err ≠ ERR_INPROGRESS)

namespace Lookup

def outcome : Lookup → DnsOutcome
  | .known addr => ⟨ERR_OK, addr⟩
  | .pending => ⟨ERR_INPROGRESS, 0⟩
  | .answered _ => ⟨ERR_INPROGRESS, 0⟩
  | .failed err _ => ⟨err, 0⟩

/-- The address that became known. -/
def addr : Lookup → Option Nat
  | .known addr => some addr
  | .answered addr => addr
  | _ => none

/-- It is known that there will be no address. -/
def Failed : Lookup → Prop
  | .answered none => True
  | .failed _ _ => True
  | _ => False

def callback : Lookup → List Ev
  | .answered addr => [.nameResolved addr]
  | _ => []

end Lookup

/-- The arguments of `irc_init`, and what `tcp_new` and the lookup come to. -/
structure Setup where
  port : UInt16
  nick : List UInt8
  realname : List UInt8
  tcpNew : Bool
  lookup : Lookup

namespace Setup

variable (c : Setup)

/-- The checks pass and there is a pcb, so the lookup is made. -/
def Asks : Prop := c.nick.length < 10 ∧ c.realname.length < 32 ∧ c.tcpNew = true

instance : Decidable c.Asks := inferInstanceAs (Decidable (_ ∧ _ ∧ _))

/-- `irc_init`, and the callback if the lookup was made and makes one. -/
def events : List Ev :=
  .init c.port c.nick c.realname c.tcpNew c.lookup.outcome :: if c.Asks then c.lookup.callback else []

/-- The port connected to. -/
def port' : UInt16 := if c.port = 0 then 6667 else c.port

end Setup

/-- The addresses and ports given to `tcp_connect`. -/
def connects (calls : List TcpCall) : List (Option Nat × UInt16) :=
  calls.filterMap fun c =>
    match c.fn with
    | .connect ipaddr port => some (ipaddr, port)
    | _ => none

/-- What set-up, from `s`, is to do: one connect to the address that became known; if
    there is none, no connect, no use of a NULL address, and, once that is known, the new
    pcb closed. -/
def Follows (c : Setup) (s : St) : Prop :=
  ∃ calls acts, (run (step lwip) s c.events).calls = s.calls ++ calls ∧
    (run (step lwip) s c.events).acts = s.acts ++ acts ∧ (.nullRead : Act) ∉ acts ∧
    if c.Asks ∧ c.lookup.addr.isSome then connects calls = [(c.lookup.addr, c.port')]
    else connects calls = [] ∧
      (c.Asks → c.lookup.Failed → ∃ x ∈ calls, x.fn = .close ∧ x.pcb = some s.nextPcb)

/-! ## What irc_init and the callback do -/

/-- `irc_init` calls nothing on a pcb, and sets the port at any of its exits. -/
theorem init_spec (c : Setup) (s : St) :
    (step lwip s (.init c.port c.nick c.realname c.tcpNew c.lookup.outcome)).calls = s.calls ∧
      (step lwip s (.init c.port c.nick c.realname c.tcpNew c.lookup.outcome)).acts = s.acts ∧
      (step lwip s (.init c.port c.nick c.realname c.tcpNew c.lookup.outcome)).conn.port = c.port' := by
  simp only [step, ircInit, Setup.port']
  split
  · exact ⟨rfl, rfl, rfl⟩
  · split
    · exact ⟨rfl, rfl, rfl⟩
    · split
      · exact ⟨rfl, rfl, rfl⟩
      · split <;> exact ⟨rfl, rfl, rfl⟩

theorem nameResolved_calls (ipaddr : Option Nat) (s : St) :
    (nameResolved ipaddr s).calls = s.calls ++
      [⟨.arg, s.conn.pcb, s.conn.pcb.any (s.freed.contains ·)⟩,
        ⟨.connect ipaddr s.conn.port, s.conn.pcb, s.conn.pcb.any (s.freed.contains ·)⟩] := by
  cases ipaddr with
  | none => simp [nameResolved, St.call, St.act]
  | some addr => simp [nameResolved, St.call]

/-- Without a callback set-up calls nothing. -/
theorem run_of_no_callback {c : Setup} (h : c.Asks → c.lookup.callback = []) (s : St) :
    (run (step lwip) s c.events).calls = s.calls ∧ (run (step lwip) s c.events).acts = s.acts := by
  have hnil : (if c.Asks then c.lookup.callback else []) = [] := by
    split
    · exact h ‹_›
    · rfl
  obtain ⟨hcalls, hacts, -⟩ := init_spec lwip c s
  rw [Setup.events, hnil]
  exact ⟨hcalls, hacts⟩

/-- With a callback it is `irc_init`, then the callback. -/
theorem run_of_answered {c : Setup} (hasks : c.Asks) {addr : Option Nat} (h : c.lookup = .answered addr) (s : St) :
    run (step lwip) s c.events =
      nameResolved addr (step lwip s (.init c.port c.nick c.realname c.tcpNew c.lookup.outcome)) := by
  rw [Setup.events, if_pos hasks, h]
  rfl

theorem follows_of_addr {c : Setup} (hasks : c.Asks) {addr : Nat} (h : c.lookup = .answered (some addr)) (s : St) :
    Follows lwip c s := by
  obtain ⟨hcalls, hacts, hport⟩ := init_spec lwip c s
  have hrun := run_of_answered lwip hasks h s
  generalize step lwip s (.init c.port c.nick c.realname c.tcpNew c.lookup.outcome) = t at hcalls hacts hport hrun
  have hcalls' := nameResolved_calls (some addr) t
  rw [hcalls, ← hrun] at hcalls'
  refine ⟨_, [], hcalls', ?_, List.not_mem_nil, ?_⟩
  · rw [hrun, List.append_nil]
    exact hacts
  · rw [if_pos ⟨hasks, by rw [h]; rfl⟩, h, ← hport]
    rfl

theorem follows_of_quiet {c : Setup} (hcallback : c.Asks → c.lookup.callback = [])
    (hquiet : c.Asks → c.lookup.addr = none ∧ ¬ c.lookup.Failed) (s : St) : Follows lwip c s := by
  obtain ⟨hcalls, hacts⟩ := run_of_no_callback lwip hcallback s
  refine ⟨[], [], by simpa using hcalls, by simpa using hacts, List.not_mem_nil, ?_⟩
  rw [if_neg]
  · exact ⟨rfl, fun hasks hfailed => absurd hfailed (hquiet hasks).2⟩
  · rintro ⟨hasks, haddr⟩
    rw [(hquiet hasks).1] at haddr
    cases haddr

/-- An outcome without a callback, whose address or failure nobody acts on. -/
theorem not_follows_of_silent {c : Setup} (hasks : c.Asks) (hcallback : c.lookup.callback = [])
    (h : c.lookup.addr.isSome ∨ c.lookup.Failed) (s : St) : ¬ Follows lwip c s := by
  rintro ⟨calls, acts, hcalls, -, -, hdone⟩
  rw [(run_of_no_callback lwip (fun _ => hcallback) s).1, List.self_eq_append_right] at hcalls
  subst hcalls
  split at hdone
  · cases hdone
  next hnot =>
    rcases h with haddr | hfailed
    · exact hnot ⟨hasks, haddr⟩
    · obtain ⟨x, hx, -⟩ := hdone.2 hasks hfailed
      cases hx

/-- The callback reads through the NULL it is given. -/
theorem not_follows_of_null {c : Setup} (hasks : c.Asks) (h : c.lookup = .answered none) (s : St) :
    ¬ Follows lwip c s := by
  rintro ⟨calls, acts, -, hacts, hnull, -⟩
  have hacts' : (run (step lwip) s c.events).acts = s.acts ++ [.nullRead] := by
    obtain ⟨-, hinit, -⟩ := init_spec lwip c s
    rw [run_of_answered lwip hasks h s]
    simp only [nameResolved, Option.isNone_none, if_true, St.call, St.act, hinit]
  rw [hacts', List.append_cancel_left_eq] at hacts
  exact hnull (hacts ▸ List.mem_singleton.mpr rfl)

/-- Set-up follows the outcome of `tcp_new` and the lookup, from any state, if and only if
    the lookup was not made, has not been answered yet, or was answered with an address. -/
theorem setup_iff (c : Setup) (s : St) :
    Follows lwip c s ↔ (c.Asks → c.lookup = .pending ∨ ∃ addr, c.lookup = .answered (some addr)) := by
  by_cases hasks : c.Asks
  · cases hl : c.lookup with
    | known addr =>
      have hnot := not_follows_of_silent lwip hasks (by rw [hl]; rfl) (Or.inl (by rw [hl]; rfl)) s
      simp [hnot, hasks]
    | pending =>
      have hyes := follows_of_quiet lwip (c := c) (fun _ => by rw [hl]; rfl)
        (fun _ => ⟨by rw [hl]; rfl, by rw [hl]; exact id⟩) s
      simp [hyes]
    | answered addr =>
      cases addr with
      | none =>
        have hnot := not_follows_of_null lwip hasks hl s
        simp [hnot, hasks]
      | some addr =>
        have hyes := follows_of_addr lwip hasks hl s
        simp [hyes]
    | failed err h =>
      have hnot := not_follows_of_silent lwip hasks (by rw [hl]; rfl) (Or.inr (by rw [hl]; trivial)) s
      simp [hnot, hasks]
  · have hyes := follows_of_quiet lwip (fun h => absurd h hasks) (fun h => absurd h hasks) s
    exact ⟨fun _ h => absurd h hasks, fun _ => hyes⟩

/-- A server given by its address, which lwIP resolves at once. -/
def numericServer : Setup := ⟨6667, ['a'].map byte, ['b'].map byte, true, .known 7⟩

/-- The address is stored, and nobody connects to it. -/
theorem a_known_address_is_not_connected_to :
    numericServer.Asks ∧ (run (step fun _ => ERR_OK) start numericServer.events).conn.server = 7 ∧
      (run (step fun _ => ERR_OK) start numericServer.events).calls = [] ∧
      ¬ Follows (fun _ => ERR_OK) numericServer start := by
  refine ⟨by decide, by decide, by decide, ?_⟩
  exact not_follows_of_silent _ (by decide) rfl (Or.inl rfl) start

end Nanotube.Irc
