/-
  Nanotube.Device.Bounds — does parsing a configuration descriptor stay inside it?

  The guards of the walks are too weak: `current < end` lets in a descriptor of which only
  the first byte was sent, and nothing compares the list of a Union with `end`. So the
  reads stay inside only for some descriptors. Which ones is a question of the bytes:
  everything that can be looked at has to be complete as far as it is read (`Safe`).

  Proved: whatever the calls answer and however long it runs, only bytes below
  `config_length` are read if and only if the bytes are `Safe` (`reads_inside_iff`). They
  are when every descriptor on the chain of lengths from offset 0 is complete
  (`Complete`), and also when there is no interface to look for (`safe_of_no_interfaces`).
-/

import Nanotube.Device.Scripted

namespace Nanotube.Device.Usb

open Nanotube.Lib.Loops
open Nanotube.Lib.Scripts
open Nanotube.Lib.Steering

variable {m : Mem} {configEnd : Nat}

/-! ## A complete descriptor -/

/-- The offsets that are reached by going from length to length. -/
inductive Chain (m : Mem) (configEnd : Nat) : Nat → Prop
  | start : Chain m configEnd 0
  | next {p : Nat} : Chain m configEnd p → p < configEnd → Chain m configEnd (p + (m p).toNat)

/-- How far a descriptor may be read by any walk. -/
def extent (m : Mem) (p : Nat) : Nat :=
  if m (p + 1) = USB_INTERFACE_DESCRIPTOR ∨ m (p + 1) = USB_ENDPOINT_DESCRIPTOR then 4
  else if m (p + 1) = USB_CS_INTERFACE_DESCRIPTOR then
    if m (p + 2) = CDC_ETHERNET_NETWORKING_SUBTYPE then 10
    else if m (p + 2) = CDC_UNION_SUBTYPE then 4 + (m p - 4).toNat
    else 3
  else 2

theorem extent_functional {p : Nat} (ht : m (p + 1) = USB_CS_INTERFACE_DESCRIPTOR) :
    extent m p =
      if m (p + 2) = CDC_ETHERNET_NETWORKING_SUBTYPE then 10
      else if m (p + 2) = CDC_UNION_SUBTYPE then 4 + (m p - 4).toNat
      else 3 := by
  simp [extent, ht, USB_INTERFACE_DESCRIPTOR, USB_ENDPOINT_DESCRIPTOR, USB_CS_INTERFACE_DESCRIPTOR]

structure Complete (m : Mem) (configEnd : Nat) : Prop where
  header : 5 ≤ configEnd
  fits : ∀ p, Chain m configEnd p → p < configEnd → p + extent m p ≤ configEnd

/-- A descriptor on the chain. -/
structure OnChain (m : Mem) (configEnd p : Nat) : Prop where
  chain : Chain m configEnd p
  inside : p < configEnd

section Complete

variable (hm : Complete m configEnd)

include hm

theorem Complete.type {p : Nat} (hp : OnChain m configEnd p) : p + 1 < configEnd := by
  have := hm.fits p hp.chain hp.inside
  unfold extent at this
  split at this
  · omega
  · split at this
    · split at this
      · omega
      · split at this <;> omega
    · omega

theorem Complete.interface {p : Nat} (hp : OnChain m configEnd p) (ht : m (p + 1) = USB_INTERFACE_DESCRIPTOR) :
    p + 3 < configEnd := by
  have := hm.fits p hp.chain hp.inside
  simp only [extent, ht, true_or, if_true] at this
  omega

theorem Complete.endpoint {p : Nat} (hp : OnChain m configEnd p) (ht : m (p + 1) = USB_ENDPOINT_DESCRIPTOR) :
    p + 3 < configEnd := by
  have := hm.fits p hp.chain hp.inside
  simp only [extent, ht, or_true, if_true] at this
  omega

theorem Complete.functional {p : Nat} (hp : OnChain m configEnd p) (ht : m (p + 1) = USB_CS_INTERFACE_DESCRIPTOR) :
    p + 2 < configEnd := by
  have := hm.fits p hp.chain hp.inside
  rw [extent_functional ht] at this
  split at this
  · omega
  · split at this <;> omega

theorem Complete.ethernet {p : Nat} (hp : OnChain m configEnd p)
    (ht : IsFunctional m CDC_ETHERNET_NETWORKING_SUBTYPE p) :
    p + 9 < configEnd := by
  have := hm.fits p hp.chain hp.inside
  rw [extent_functional ht.1, if_pos ht.2] at this
  omega

theorem Complete.union {p : Nat} (hp : OnChain m configEnd p) (ht : IsFunctional m CDC_UNION_SUBTYPE p) :
    p + 4 + (m p - 4).toNat ≤ configEnd := by
  have := hm.fits p hp.chain hp.inside
  have hne : m (p + 2) ≠ CDC_ETHERNET_NETWORKING_SUBTYPE := by rw [ht.2]; decide
  rw [extent_functional ht.1, if_neg hne, if_pos ht.2] at this
  omega

end Complete

/-! ## Complete is safe -/

theorem chain_comes {α β : Type} {body : α → Prog World (Turn α β)} {f : α → Turn α β} {pos : α → Nat}
    (h : Advances m configEnd body f pos) {a a' : α} (hc : Comes f a a') (ha : Chain m configEnd (pos a)) :
    Chain m configEnd (pos a') := by
  induction hc with
  | refl => exact ha
  | tail _ hturn ih =>
    obtain ⟨hlt, hnext⟩ := h.next _ _ hturn
    rw [hnext]
    exact .next ih hlt

theorem chain_interface {n : UInt8} {s p : Nat} (hs : Chain m configEnd s)
    (h : Comes (interfaceNext m configEnd n) s p) : Chain m configEnd p := chain_comes (interface_advances n) h hs

theorem finds_onChain {n : UInt8} {s p : Nat} (hs : Chain m configEnd s) (h : Finds m configEnd n s (some p)) :
    OnChain m configEnd p ∧ m (p + 1) = USB_INTERFACE_DESCRIPTOR := by
  obtain ⟨-, hlt, hint⟩ := leads_interface h p rfl
  obtain ⟨q, hc, hleave⟩ := h.comes
  obtain rfl : q = p := by
    simp only [interfaceNext] at hleave
    split at hleave
    · split at hleave <;> simp_all
    · cases hleave
  exact ⟨⟨chain_interface hs hc, hlt⟩, hint.1⟩

section Block

variable {α β : Type} {f : Nat → α → Turn α β} {exit : α → β} {body : Nat → α → Prog World (Turn α β)}
  (hb : Computes f body) {p q : Nat} {a a' : α} (hp : OnChain m configEnd p)

include hb hp

theorem chain_block (h : Comes (blockNext f exit m configEnd) (nextOf m p, a) (q, a')) : Chain m configEnd q :=
  chain_comes (block_advances exit .functional hb) h (.next hp.chain hp.inside)

/-- A walk over a block is left at its end, or by its body at a descriptor on the chain. -/
theorem block_left {b : β} (h : Leads (blockNext f exit m configEnd) (nextOf m p, a) b) :
    (∃ a', b = exit a') ∨ ∃ q a', OnChain m configEnd q ∧ f q a' = .leave b := by
  obtain ⟨⟨q, a'⟩, hc, hleave⟩ := h.comes
  simp only [blockNext] at hleave
  split at hleave
  · rename_i hin
    cases hf : f q a' with
    | leave b' =>
      rw [hf] at hleave
      cases hleave
      exact .inr ⟨q, a', ⟨chain_block hb hp hc, hin.1⟩, hf⟩
    | again a₁ =>
      rw [hf] at hleave
      cases hleave
  · cases hleave
    exact .inl ⟨a', rfl⟩

end Block

theorem etherOf_inside {p e : Nat} (hp : OnChain m configEnd p) (h : EtherOf m configEnd p (some e)) :
    OnChain m configEnd e ∧ IsFunctional m CDC_ETHERNET_NETWORKING_SUBTYPE e := by
  rcases block_left ether_computes hp h with ⟨_, hnone⟩ | ⟨q, _, hq, hf⟩
  · cases hnone
  · by_cases hfun : IsFunctional m CDC_ETHERNET_NETWORKING_SUBTYPE q
    · simp only [etherNext, hfun, if_true] at hf
      cases hf
      exact ⟨hq, hfun⟩
    · simp only [etherNext, hfun, if_false] at hf
      cases hf

section Complete

variable (hm : Complete m configEnd)

include hm

theorem Complete.search {p : Nat} (hp : OnChain m configEnd p) : Fits m configEnd ⟨.search, p⟩ := by
  simp only [Fits, need]
  split
  · have := hm.interface hp ‹_›
    omega
  · exact hm.type hp

theorem Complete.walk {p : Nat} (hp : OnChain m configEnd p) : Fits m configEnd ⟨.functional, p⟩ := by
  simp only [Fits, need]
  split
  · exact hm.functional hp ‹_›
  · exact hm.type hp

theorem Complete.endpoints {p : Nat} (hp : OnChain m configEnd p) : Fits m configEnd ⟨.endpoints, p⟩ := by
  simp only [Fits, need]
  split
  · exact hm.endpoint hp ‹_›
  · exact hm.type hp

theorem Complete.listed {p ints : Nat} {subs : Subs} (hp : OnChain m configEnd p) (h : UnionOf m configEnd p subs)
    (hints : subs.ints = some ints) : ints + subs.length.toNat ≤ configEnd := by
  rcases block_left union_computes hp h with ⟨_, hnone⟩ | ⟨q, _, hq, hf⟩
  · rw [hnone] at hints
    cases hints
  · by_cases hfun : IsFunctional m CDC_UNION_SUBTYPE q
    · simp only [unionNext, hfun, if_true] at hf
      cases hf
      cases hints
      exact hm.union hq hfun
    · simp only [unionNext, hfun, if_false] at hf
      cases hf

omit hm in
theorem tries_chain {n : UInt8} {s : Nat} {eps : Eps} (h : Tries m configEnd n s eps) : Chain m configEnd s := by
  induction h with
  | start => exact .start
  | next _ hp _ _ ih =>
    obtain ⟨hon, -⟩ := finds_onChain ih hp
    exact .next hon.chain hon.inside

omit hm in
theorem examines_chain {n : UInt8} {s : Nat} (h : Examines m configEnd n s) : Chain m configEnd s := by
  induction h with
  | first _ | bound | missed => exact .start
  | plain _ hp _ ih =>
    obtain ⟨hon, -⟩ := finds_onChain ih hp
    exact .next hon.chain hon.inside
  | short _ hp _ _ ih =>
    obtain ⟨hon, -⟩ := finds_onChain ih hp.found
    exact .next hon.chain hon.inside

theorem Complete.tried {n : UInt8} {l : Look} (h : Tried m configEnd n l) : Fits m configEnd l := by
  cases h with
  | search h hp hlt => exact hm.search ⟨chain_interface (tries_chain h) hp, hlt⟩
  | setting h hp =>
    obtain ⟨hon, hint⟩ := finds_onChain (tries_chain h) hp
    exact hm.interface hon hint
  | endpoints h hp hq hlt =>
    obtain ⟨hon, -⟩ := finds_onChain (tries_chain h) hp
    exact hm.endpoints ⟨chain_block endpoint_computes hon hq, hlt⟩

/-- Everything that can be looked at is on the chain. -/
theorem safe_of_complete : Safe m configEnd := by
  intro l h
  cases h with
  | count => exact hm.header
  | next hlt => exact hlt
  | search h hp hlt => exact hm.search ⟨chain_interface (examines_chain h) hp, hlt⟩
  | setting h hp =>
    obtain ⟨hon, hint⟩ := finds_onChain (examines_chain h) hp
    exact hm.interface hon hint
  | ether h hp hq hlt =>
    obtain ⟨hon, -⟩ := finds_onChain (examines_chain h) hp
    exact hm.walk ⟨chain_block ether_computes hon hq, hlt⟩
  | union h hp he hq hlt =>
    obtain ⟨hon, -⟩ := finds_onChain (examines_chain h) hp
    exact hm.walk ⟨chain_block union_computes hon hq, hlt⟩
  | @element n s p e subs i ret ints h hp hl hi hints =>
    obtain ⟨hon, -⟩ := finds_onChain (examines_chain h) hp.found
    have hend := hm.listed hon hp.union hints
    have hlt := UInt8.lt_iff_toNat_lt.mp hi
    show ints + i.toNat + 1 ≤ configEnd
    omega
  | tried h hp hl hi hints ht => exact hm.tried ht
  | endpoints h hp hret hq hlt =>
    obtain ⟨hon, -⟩ := finds_onChain (examines_chain h) hp.found
    exact hm.endpoints ⟨chain_block endpoint_computes hon hq, hlt⟩
  | ethernet h hp heps hboth =>
    obtain ⟨hon, -⟩ := finds_onChain (examines_chain h) hp.found
    obtain ⟨he, hfun⟩ := etherOf_inside hon hp.ether
    exact hm.ethernet he hfun

end Complete

/-- Without interfaces only the header is looked at. -/
theorem safe_of_no_interfaces (hzero : m 4 = 0) (hheader : 5 ≤ configEnd) : Safe m configEnd := by
  have hnone : ∀ n s, ¬ Examines m configEnd n s := by
    intro n s h
    induction h with
    | first hlt =>
      rw [hzero] at hlt
      exact absurd hlt (by decide)
    | plain _ _ _ ih | short _ _ _ _ ih | bound _ _ _ _ _ ih | missed _ _ _ ih => exact ih
  intro l h
  cases h with
  | count => exact hheader
  | next hlt => exact hlt
  | search h | setting h | ether h | union h | element h | tried h | endpoints h | ethernet h => exact absurd h (hnone _ _)

/-- One byte of a second descriptor was sent, and nothing reads on from it. -/
example : Safe (ofBytes [9, 2, 10, 0, 0, 1, 0, 0x80, 50, 9]) 10 := safe_of_no_interfaces (by decide) (by decide)

/-! ## A configuration -/

/-- The device hands out the `configEnd` bytes of `m` as this configuration. -/
structure HandsOut (env : Env) (config : UInt8) (m : Mem) (configEnd : Nat) : Prop where
  length : env.totalLength [] (config - 1) = configEnd
  bytes : env.configDescriptor [] (config - 1) = some m

/-- What `process_config_descriptor` has done so far, with `fuel` turns for each loop. -/
def parsed (env : Env) (fuel : Nat) (config : UInt8) : World := (processConfigDescriptor env fuel config World.start).2

/-- The configuration is selected, and nothing is read yet. -/
def World.selected (config : UInt8) : World := ⟨[], [], [], [.setConfiguration config .success], []⟩

theorem parsed_selected {env : Env} {config : UInt8} (h : HandsOut env config m configEnd)
    (hle : configEnd ≤ MAX_CONFIG_LENGTH) (hok : env.setConfiguration [] config = .success) (fuel : Nat) :
    parsed env fuel config = (bindInterfaces env m fuel config configEnd (World.selected config)).2 := by
  unfold parsed processConfigDescriptor
  simp only [bind, peek, World.start, h.length, h.bytes, Nat.not_lt.mpr hle, hok]
  rfl

/-- Nothing is read before the interfaces are gone through. -/
theorem parsed_cases {env : Env} {config : UInt8} (h : HandsOut env config m configEnd) (fuel : Nat) :
    (parsed env fuel config).reads = [] ∨ configEnd ≤ MAX_CONFIG_LENGTH ∧
      parsed env fuel config = (bindInterfaces env m fuel config configEnd (World.selected config)).2 := by
  by_cases hle : configEnd ≤ MAX_CONFIG_LENGTH
  · by_cases hok : env.setConfiguration [] config = .success
    · exact .inr ⟨hle, parsed_selected h hle hok fuel⟩
    · refine .inl ?_
      unfold parsed processConfigDescriptor
      simp only [bind, peek, World.start, h.length, h.bytes, Nat.not_lt.mpr hle, ne_eq, hok,
        not_false_eq_true, if_true]
      rfl
  · refine .inl ?_
    unfold parsed processConfigDescriptor
    simp only [bind, peek, World.start, h.length, Nat.not_le.mp hle, if_true]
    rfl

/-- The reads of a run lie inside if and only if what it looked at is complete. -/
theorem inside_iff_fits (env : Env) (fuel : Nat) (config : UInt8) :
    let w := (bindInterfaces env m fuel config configEnd (World.selected config)).2
    (∀ o ∈ w.reads, o < configEnd) ↔ ∀ l ∈ w.looks, Fits m configEnd l := by
  intro w
  have hmoves : Moves (Tally m configEnd) (bindInterfaces env m fuel config configEnd) :=
    moves_bindInterfaces tally_calls (tally_units m configEnd) fun _ _ => ⟨[], [], by simp, by simp, by simp⟩
  obtain ⟨ls, os, hl, ho, hiff⟩ := hmoves (World.selected config)
  rw [show w.reads = os from ho, show w.looks = ls from hl]
  exact hiff

theorem reads_inside_of_safe {env : Env} {config : UInt8} (h : HandsOut env config m configEnd)
    (hsafe : configEnd ≤ MAX_CONFIG_LENGTH → Safe m configEnd) (fuel : Nat) :
    ∀ o ∈ (parsed env fuel config).reads, o < configEnd := by
  rcases parsed_cases h fuel with hnone | ⟨hle, hrun⟩
  · rw [hnone]
    exact fun o ho => absurd ho List.not_mem_nil
  · rw [hrun]
    refine (inside_iff_fits env fuel config).mpr fun l hl => hsafe hle l ?_
    have hseen : SeenBy m configEnd (bindInterfaces env m fuel config configEnd (World.selected config)).2 :=
      stays_bindInterfaces.after fun l hl => absurd hl List.not_mem_nil
    exact hseen l hl

theorem handsOut_scripted (S : Script) : HandsOut (scripted m configEnd S) 1 m configEnd := ⟨rfl, rfl⟩

theorem safe_of_reads_inside (hle : configEnd ≤ MAX_CONFIG_LENGTH)
    (h : ∀ fuel S, ∀ o ∈ (parsed (scripted m configEnd S) fuel 1).reads, o < configEnd) : Safe m configEnd := by
  intro l hl
  rcases visited_shows hl with ⟨huse, hlt⟩ | ⟨N, hN⟩
  · simp only [Fits, need, huse]
    exact hlt
  · obtain ⟨S, hlooked⟩ := hN N (Nat.le_refl _) (World.selected 1)
    have hinside := h N S
    rw [parsed_selected (handsOut_scripted S) hle rfl N] at hinside
    exact (inside_iff_fits (scripted m configEnd S) N 1).mp hinside l hlooked

/-- Parsing reads only below `config_length`, whatever the calls answer and however long it
    runs, if and only if the bytes are safe; and they are when every descriptor on the
    chain is complete. -/
theorem reads_inside_iff (m : Mem) (configEnd : Nat) :
    ((∀ env fuel config, HandsOut env config m configEnd → ∀ o ∈ (parsed env fuel config).reads, o < configEnd) ↔
      (configEnd ≤ MAX_CONFIG_LENGTH → Safe m configEnd)) ∧
    (Complete m configEnd → Safe m configEnd) := by
  refine ⟨⟨fun h hle => ?_, fun hsafe env fuel config h => ?_⟩, safe_of_complete⟩
  · exact safe_of_reads_inside hle fun fuel S => h _ fuel 1 (handsOut_scripted S)
  · exact reads_inside_of_safe h hsafe fuel

/-- A configuration descriptor of nine bytes and one byte of the next descriptor. -/
def cutShort : Env := deviceOf [[9, 2, 10, 0, 1, 1, 0, 0x80, 50, 9]]

/-- The search reads the type of a descriptor of which only the length was sent. -/
theorem a_cut_descriptor_is_read_on :
    cutShort.totalLength [] 0 = 10 ∧ 10 ∈ (parsed cutShort 2 1).reads := by decide

end Nanotube.Device.Usb
