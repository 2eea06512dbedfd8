/-
  Nanotube.Device.Looks — which descriptors can be looked at?

  The walks test `current < end` for the start of a descriptor and then read its fields.
  How far they read depends on the descriptor's type and on the walk (`need`). Which
  descriptors they come to depends on the bytes, and on what `usb_SetInterface` and
  `malloc` answer: a setting that gets a netif ends the search for its interface.
  `Visited` says it by the bytes alone: for every interface number below bNumInterfaces
  whose turn can come, the settings its search can come to (`Examines`), the endpoints
  their Unions can give (`UnionGives`), and what is looked at on the way.

  Proved: the bytes a run reads lie below `config_length` if and only if what it looks at
  is complete as far as it is read (`Tally`), and every run looks only at what is `Visited`
  (`stays_bindInterfaces`).
-/

import Nanotube.Device.Enumeration

namespace Nanotube.Device.Usb

open Nanotube.Lib.Loops

variable {env : Env} {m : Mem} {fuel configEnd : Nat} {config : UInt8}

/-- How many of its bytes a use of a descriptor needs. -/
def need (m : Mem) (l : Look) : Nat :=
  match l.use with
  | .next | .subordinate => 1
  | .configuration => 5
  | .setting => 4
  | .ethernet => 10
  | .search => if m (l.pos + 1) = USB_INTERFACE_DESCRIPTOR then 3 else 2
  | .functional => if m (l.pos + 1) = USB_CS_INTERFACE_DESCRIPTOR then 3 else 2
  | .endpoints => if m (l.pos + 1) = USB_ENDPOINT_DESCRIPTOR then 4 else 2

def Fits (m : Mem) (configEnd : Nat) (l : Look) : Prop := l.pos + need m l ≤ configEnd

/-- Every offset read lies in the descriptor. -/
def Inside (configEnd : Nat) (w : World) : Prop := ∀ o ∈ w.reads, o < configEnd

/-! ## Reads and looks -/

/-- What was read on the way lies inside if and only if what was looked at is complete. -/
def Tally (m : Mem) (configEnd : Nat) (w w' : World) : Prop :=
  ∃ ls os, w'.looks = w.looks ++ ls ∧ w'.reads = w.reads ++ os ∧
    ((∀ o ∈ os, o < configEnd) ↔ ∀ l ∈ ls, Fits m configEnd l)

instance : IsPreorder World (Tally m configEnd) where
  refl w := ⟨[], [], by simp, by simp, by simp⟩
  trans a b c h h' := by
    obtain ⟨ls, os, hl, ho, hiff⟩ := h
    obtain ⟨ls', os', hl', ho', hiff'⟩ := h'
    refine ⟨ls ++ ls', os ++ os', by rw [hl', hl, List.append_assoc], by rw [ho', ho, List.append_assoc], ?_⟩
    rw [List.forall_mem_append, List.forall_mem_append, hiff, hiff']

/-- A look that reads one byte, the last it needs. -/
theorem fits_one {l : Look} {o : Nat} (h : l.pos + need m l = o + 1) :
    (∀ o' ∈ [o], o' < configEnd) ↔ ∀ l' ∈ [l], Fits m configEnd l' := by
  rw [List.forall_mem_singleton, List.forall_mem_singleton, Fits, h]
  exact Nat.lt_iff_add_one_le

theorem tally_next (p : Nat) : Moves (Tally m configEnd) (nextDescriptor m p) :=
  fun _ => ⟨[⟨.next, p⟩], [p], rfl, rfl, fits_one rfl⟩

theorem tally_search (n : UInt8) (p : Nat) : Moves (Tally m configEnd) (isInterface m n p) := by
  apply moves_of_wp
  intro w
  by_cases ht : m (p + 1) = USB_INTERFACE_DESCRIPTOR
  · simp only [isInterface, look, bDescriptorType, bInterfaceNumber, byte, wp_bind, wp_update, wp_pure, ht, if_true]
    exact ⟨[⟨.search, p⟩], [p + 1, p + 2], by simp, by simp, by simp [Fits, need, ht]; omega⟩
  · simp only [isInterface, look, bDescriptorType, byte, wp_bind, wp_update, wp_pure, ht, if_false]
    exact ⟨[⟨.search, p⟩], [p + 1], by simp, by simp, by simp [Fits, need, ht]; omega⟩

theorem tally_setting (p : Nat) : Moves (Tally m configEnd) (bAlternateSetting m p) :=
  fun _ => ⟨[⟨.setting, p⟩], [p + 3], rfl, rfl, fits_one rfl⟩

theorem tally_print (p : Nat) : Moves (Tally m configEnd) (printSetting m p) := by
  apply moves_of_wp
  intro w
  simp only [printSetting, bAlternateSetting, bInterfaceNumber, look, byte, wp_bind, wp_update, wp_pure]
  exact ⟨[⟨.setting, p⟩], [p + 3, p + 2], by simp, by simp, by simp [Fits, need]; omega⟩

theorem tally_count : Moves (Tally m configEnd) (bNumInterfaces m) :=
  fun _ => ⟨[⟨.configuration, 0⟩], [4], rfl, rfl, fits_one rfl⟩

theorem tally_sub (p : Nat) : Moves (Tally m configEnd) (subordinate m p) :=
  fun _ => ⟨[⟨.subordinate, p⟩], [p], rfl, rfl, fits_one rfl⟩

theorem tally_fields (p : Nat) : Moves (Tally m configEnd) (etherFields m p) := by
  apply moves_of_wp
  intro w
  simp only [etherFields, look, byte, wp_bind, wp_update, wp_pure]
  exact ⟨[⟨.ethernet, p⟩], [p + 3, p + 8, p + 9], by simp, by simp, by simp [Fits, need]; omega⟩

/-- What a walk's body reads behind the type, at a descriptor that is not an interface. -/
def BodyReads (m : Mem) (configEnd : Nat) (use : Use) {α β : Type} (body : Nat → α → Prog World (Turn α β)) : Prop :=
  ∀ p a w, m (p + 1) ≠ USB_INTERFACE_DESCRIPTOR →
    wp (body p a) (fun _ w' => w'.looks = w.looks ∧ ∃ os, w'.reads = w.reads ++ os ∧
      ((p + 1 < configEnd ∧ ∀ o ∈ os, o < configEnd) ↔ Fits m configEnd ⟨use, p⟩)) (fun _ => False) w

theorem tally_block {α β : Type} {use : Use} {body : Nat → α → Prog World (Turn α β)} {exit : α → β}
    (hinterface : ∀ p, m (p + 1) = USB_INTERFACE_DESCRIPTOR → need m ⟨use, p⟩ = 2)
    (hbody : BodyReads m configEnd use body) (c : Nat × α) :
    Moves (Tally m configEnd) (blockTurn m use configEnd body exit c) := by
  obtain ⟨p, a⟩ := c
  apply moves_of_wp
  intro w
  simp only [blockTurn, wp_ite]
  split
  · by_cases ht : m (p + 1) = USB_INTERFACE_DESCRIPTOR
    · simp only [look, bDescriptorType, byte, wp_bind, wp_update, wp_pure, ht, if_true]
      exact ⟨[⟨use, p⟩], [p + 1], by simp, by simp, by simp [Fits, hinterface p ht]; omega⟩
    · simp only [look, bDescriptorType, byte, wp_bind, wp_update, wp_pure, ht, if_false]
      refine wp_mono (hbody p a _ ht) ?_ (fun _ hf => hf.elim)
      intro t w' h
      obtain ⟨hl, os, ho, hfit⟩ := h
      have hbefore : Tally m configEnd w w' := by
        refine ⟨[⟨use, p⟩], [p + 1] ++ os, by rw [hl], by rw [ho]; simp, ?_⟩
        rw [List.forall_mem_append]
        simpa using hfit
      cases t with
      | leave b => exact hbefore
      | again a' =>
        rw [wp_bind]
        refine wp_mono ((tally_next p).wp w') ?_ (fun _ hn => trans_of (Tally m configEnd) hbefore hn)
        exact fun next w'' hn => trans_of (Tally m configEnd) hbefore hn
  · exact refl_of (Tally m configEnd) w

theorem reads_endpoint : BodyReads m configEnd .endpoints (endpointBody m) := by
  intro p eps w hint
  by_cases ht : m (p + 1) = USB_ENDPOINT_DESCRIPTOR
  · by_cases ha : m (p + 3) = USB_BULK_TRANSFER ∨ m (p + 3) = USB_INTERRUPT_TRANSFER
    · simp only [endpointBody, bDescriptorType, bmAttributes, bEndpointAddress, byte, wp_bind, wp_update, wp_pure,
        ht, ha,
        if_true]
      exact ⟨trivial, [p + 1, p + 3, p + 2], by simp, by simp [Fits, need, ht]; omega⟩
    · simp only [endpointBody, bDescriptorType, bmAttributes, byte, wp_bind, wp_update, wp_pure, ht, ha, if_true,
        if_false]
      exact ⟨trivial, [p + 1, p + 3], by simp, by simp [Fits, need, ht]; omega⟩
  · simp only [endpointBody, bDescriptorType, byte, wp_bind, wp_update, wp_pure, ht, if_false]
    exact ⟨trivial, [p + 1], by simp, by simp [Fits, need, ht]; omega⟩

theorem reads_ether : BodyReads m configEnd .functional (etherBody m) := by
  intro p u w hint
  by_cases ht : m (p + 1) = USB_CS_INTERFACE_DESCRIPTOR
  · simp only [etherBody, isFunctional, bDescriptorType, bDescriptorSubtype, byte, wp_bind, wp_update, wp_pure, ht,
      if_true,
      wp_ite, ite_self]
    exact ⟨trivial, [p + 1, p + 2], by simp, by simp [Fits, need, ht]; omega⟩
  · simp only [etherBody, isFunctional, bDescriptorType, byte, wp_bind, wp_update, wp_pure, ht, if_false, wp_ite,
      ite_self]
    exact ⟨trivial, [p + 1], by simp, by simp [Fits, need, ht]; omega⟩

theorem reads_union : BodyReads m configEnd .functional (unionBody m) := by
  intro p u w hint
  by_cases ht : m (p + 1) = USB_CS_INTERFACE_DESCRIPTOR
  · simp only [unionBody, isFunctional, bDescriptorType, bDescriptorSubtype, byte, wp_bind, wp_update, wp_pure, ht,
      if_true,
      wp_ite]
    split
    · exact ⟨trivial, [p + 1, p + 2, p], by simp, by simp [Fits, need, ht]; omega⟩
    · exact ⟨trivial, [p + 1, p + 2], by simp, by simp [Fits, need, ht]; omega⟩
  · simp only [unionBody, isFunctional, bDescriptorType, byte, wp_bind, wp_update, wp_pure, ht, if_false, wp_ite,
      Bool.false_eq_true]
    exact ⟨trivial, [p + 1], by simp, by simp [Fits, need, ht]; omega⟩

theorem tally_units (m : Mem) (configEnd : Nat) : Units (Tally m configEnd) m configEnd where
  count := tally_count
  next := tally_next
  search := tally_search
  setting := tally_setting
  print := tally_print
  endpoints := tally_block (fun p ht => by simp [need, ht, USB_INTERFACE_DESCRIPTOR, USB_ENDPOINT_DESCRIPTOR])
    reads_endpoint
  ether := tally_block (fun p ht => by simp [need, ht, USB_INTERFACE_DESCRIPTOR, USB_CS_INTERFACE_DESCRIPTOR])
    reads_ether
  union := tally_block (fun p ht => by simp [need, ht, USB_INTERFACE_DESCRIPTOR, USB_CS_INTERFACE_DESCRIPTOR])
    reads_union
  sub := tally_sub
  fields := tally_fields

theorem tally_calls : Allows (Tally m configEnd) (OfConfig config) :=
  fun _ _ _ => ⟨[], [], by simp, by simp, by simp⟩

/-! ## What the bytes lead to -/

section Static

variable (m : Mem) (configEnd : Nat)

/-- NEXT_DESCRIPTOR -/
def nextOf (p : Nat) : Nat := p + (m p).toNat

/-- `get_interface_descriptor` from `s` returns `r`. -/
abbrev Finds (n : UInt8) (s : Nat) (r : Option Nat) : Prop := Leads (interfaceNext m configEnd n) s r

/-- The walks over the block of a setting. -/
abbrev etherWalk : Nat × Unit → Turn (Nat × Unit) (Option Nat) := blockNext (etherNext m) (fun _ => none) m configEnd

abbrev unionWalk : Nat × Unit → Turn (Nat × Unit) Subs := blockNext (unionNext m) (fun _ => ⟨none, 0⟩) m configEnd

abbrev endpointWalk : Nat × Eps → Turn (Nat × Eps) Eps :=
  blockNext (fun p eps => .again (epsAt m p eps)) id m configEnd

/-- `get_ether_desc`, `get_subordinate_ints` and `get_endpoints` of the setting at `p` return
    this. -/
abbrev EtherOf (p : Nat) (r : Option Nat) : Prop := Leads (etherWalk m configEnd) (nextOf m p, ()) r

abbrev UnionOf (p : Nat) (subs : Subs) : Prop := Leads (unionWalk m configEnd) (nextOf m p, ()) subs

abbrev EndpointsOf (p : Nat) (eps eps' : Eps) : Prop := Leads (endpointWalk m configEnd) (nextOf m p, eps) eps'

/-- `get_eps_any_setting` of interface `n` comes to look for a setting from `s` on, with
    these endpoint variables. -/
inductive Tries (n : UInt8) : Nat → Eps → Prop
  | start : Tries n 0 Eps.none
  | next {s p : Nat} {eps eps' : Eps} (h : Tries n s eps) (hp : Finds m configEnd n s (some p))
      (heps : EndpointsOf m configEnd p eps eps') (hnot : ¬ eps'.Both) : Tries n (nextOf m p) eps'

/-- The endpoints it finds; none when it comes to the end. -/
inductive Gives (n : UInt8) : Option Eps → Prop
  | none {s : Nat} {eps : Eps} (h : Tries m configEnd n s eps) (hp : Finds m configEnd n s none) : Gives n none
  | some {s p : Nat} {eps eps' : Eps} (h : Tries m configEnd n s eps) (hp : Finds m configEnd n s (some p))
      (heps : EndpointsOf m configEnd p eps eps') (hboth : eps'.Both) : Gives n (some eps')

/-- What it looks at. -/
inductive Tried (n : UInt8) : Look → Prop
  | search {s p : Nat} {eps : Eps} (h : Tries m configEnd n s eps) (hp : Comes (interfaceNext m configEnd n) s p)
      (hlt : p < configEnd) : Tried n ⟨.search, p⟩
  | setting {s p : Nat} {eps : Eps} (h : Tries m configEnd n s eps) (hp : Finds m configEnd n s (some p)) :
      Tried n ⟨.setting, p⟩
  | endpoints {s p q : Nat} {eps eps' : Eps} (h : Tries m configEnd n s eps) (hp : Finds m configEnd n s (some p))
      (hq : Comes (endpointWalk m configEnd) (nextOf m p, eps) (q, eps')) (hlt : q < configEnd) : Tried n ⟨.endpoints, q⟩

/-- The loop over the listed interfaces can come to the `i`-th with the endpoints `ret`. An
    interface above 0 may be refused its setting, and then its endpoints are not taken. -/
inductive Listing (subs : Subs) : UInt8 → UInt8 × UInt8 → Prop
  | start : Listing subs 0 (0, 0)
  | taken {i : UInt8} {ret : UInt8 × UInt8} {ints : Nat} {eps : Eps} (h : Listing subs i ret) (hi : i < subs.length)
      (hints : subs.ints = some ints) (hg : Gives m configEnd (m (ints + i.toNat)) (some eps)) :
      Listing subs (i + 1) (eps.inEp, eps.outEp)
  | kept {i : UInt8} {ret : UInt8 × UInt8} {ints : Nat} {r : Option Eps} (h : Listing subs i ret) (hi : i < subs.length)
      (hints : subs.ints = some ints) (hg : Gives m configEnd (m (ints + i.toNat)) r)
      (hr : r.isSome → 0 < m (ints + i.toNat)) : Listing subs (i + 1) ret

/-- The endpoints that all listed interfaces together can give. -/
def UnionGives (subs : Subs) (ret : UInt8 × UInt8) : Prop :=
  ∃ i, Listing m configEnd subs i ret ∧ (i < subs.length → subs.ints = none)

/-- The setting of `n` next from `s` is at `p`, with an Ethernet descriptor at `e`. -/
structure EtherAt (n : UInt8) (s p e : Nat) (subs : Subs) : Prop where
  found : Finds m configEnd n s (some p)
  ether : EtherOf m configEnd p (some e)
  union : UnionOf m configEnd p subs

/-- The endpoint variables the setting at `p` can end with. -/
def SettingEps (p : Nat) (subs : Subs) (eps : Eps) : Prop :=
  ∃ ret, UnionGives m configEnd subs ret ∧ EndpointsOf m configEnd p ⟨ret.1, ret.2, 0⟩ eps

/-- The search for interface `n` can come to look for a setting from `s` on. -/
inductive Examines : UInt8 → Nat → Prop
  | first (h : 0 < m 4) : Examines 0 0
  | plain {n : UInt8} {s p : Nat} (h : Examines n s) (hp : Finds m configEnd n s (some p))
      (he : EtherOf m configEnd p none) : Examines n (nextOf m p)
  | short {n : UInt8} {s p e : Nat} {subs : Subs} {eps : Eps} (h : Examines n s) (hp : EtherAt m configEnd n s p e subs)
      (heps : SettingEps m configEnd p subs eps) (hnot : ¬ eps.Both) : Examines n (nextOf m p)
  | bound {n : UInt8} {s p e : Nat} {subs : Subs} {eps : Eps} (h : Examines n s) (hp : EtherAt m configEnd n s p e subs)
      (heps : SettingEps m configEnd p subs eps) (hboth : eps.Both) (hn : n + 1 < m 4) : Examines (n + 1) 0
  | missed {n : UInt8} {s : Nat} (h : Examines n s) (hp : Finds m configEnd n s none) (hn : n + 1 < m 4) :
      Examines (n + 1) 0

/-- What can be looked at. -/
inductive Visited : Look → Prop
  | count : Visited ⟨.configuration, 0⟩
  | next {p : Nat} (hlt : p < configEnd) : Visited ⟨.next, p⟩
  | search {n : UInt8} {s p : Nat} (h : Examines m configEnd n s) (hp : Comes (interfaceNext m configEnd n) s p)
      (hlt : p < configEnd) : Visited ⟨.search, p⟩
  | setting {n : UInt8} {s p : Nat} (h : Examines m configEnd n s) (hp : Finds m configEnd n s (some p)) :
      Visited ⟨.setting, p⟩
  | ether {n : UInt8} {s p q : Nat} (h : Examines m configEnd n s) (hp : Finds m configEnd n s (some p))
      (hq : Comes (etherWalk m configEnd) (nextOf m p, ()) (q, ())) (hlt : q < configEnd) : Visited ⟨.functional, q⟩
  | union {n : UInt8} {s p e q : Nat} (h : Examines m configEnd n s) (hp : Finds m configEnd n s (some p))
      (he : EtherOf m configEnd p (some e)) (hq : Comes (unionWalk m configEnd) (nextOf m p, ()) (q, ()))
      (hlt : q < configEnd) : Visited ⟨.functional, q⟩
  | element {n : UInt8} {s p e : Nat} {subs : Subs} {i : UInt8} {ret : UInt8 × UInt8} {ints : Nat}
      (h : Examines m configEnd n s) (hp : EtherAt m configEnd n s p e subs) (hl : Listing m configEnd subs i ret)
      (hi : i < subs.length) (hints : subs.ints = some ints) : Visited ⟨.subordinate, ints + i.toNat⟩
  | tried {n : UInt8} {s p e : Nat} {subs : Subs} {i : UInt8} {ret : UInt8 × UInt8} {ints : Nat} {l : Look}
      (h : Examines m configEnd n s) (hp : EtherAt m configEnd n s p e subs) (hl : Listing m configEnd subs i ret)
      (hi : i < subs.length) (hints : subs.ints = some ints) (ht : Tried m configEnd (m (ints + i.toNat)) l) : Visited l
  | endpoints {n : UInt8} {s p e q : Nat} {subs : Subs} {ret : UInt8 × UInt8} {eps : Eps} (h : Examines m configEnd n s)
      (hp : EtherAt m configEnd n s p e subs) (hret : UnionGives m configEnd subs ret)
      (hq : Comes (endpointWalk m configEnd) (nextOf m p, ⟨ret.1, ret.2, 0⟩) (q, eps)) (hlt : q < configEnd) :
      Visited ⟨.endpoints, q⟩
  | ethernet {n : UInt8} {s p e : Nat} {subs : Subs} {eps : Eps} (h : Examines m configEnd n s)
      (hp : EtherAt m configEnd n s p e subs) (heps : SettingEps m configEnd p subs eps) (hboth : eps.Both) :
      Visited ⟨.ethernet, e⟩

/-- Everything that can be looked at is complete as far as it is read. -/
def Safe : Prop := ∀ l, Visited m configEnd l → Fits m configEnd l

end Static

/-! ## What a walk looks at -/

section Walk

variable {α β : Type}

/-- What a turn at `p` looks at. -/
def turnLooks (use : Use) (configEnd p : Nat) (t : Turn α β) : List Look :=
  if p < configEnd then
    match t with
    | .again _ => [⟨use, p⟩, ⟨.next, p⟩]
    | .leave _ => [⟨use, p⟩]
  else []

/-- The turns of `body` are those of `f`, and look at the descriptor they are at. -/
def Watches (configEnd : Nat) (use : Use) (body : α → Prog World (Turn α β)) (f : α → Turn α β) (pos : α → Nat) : Prop :=
  ∀ a w, wp (body a) (fun t w' => t = f a ∧ w'.looks = w.looks ++ turnLooks use configEnd (pos a) t)
    (fun _ => False) w

theorem interface_watches (n : UInt8) :
    Watches configEnd .search (interfaceTurn m configEnd n) (interfaceNext m configEnd n) id := by
  intro p w
  by_cases hlt : p < configEnd
  · by_cases ht : m (p + 1) = USB_INTERFACE_DESCRIPTOR
    · by_cases hn : m (p + 2) = n
      · simp [interfaceTurn, interfaceNext, isInterface, IsInterface, look, bDescriptorType, bInterfaceNumber, byte,
          turnLooks, hlt, ht, hn]
      · simp [interfaceTurn, interfaceNext, isInterface, IsInterface, look, bDescriptorType, bInterfaceNumber, byte,
          nextDescriptor, turnLooks, hlt, ht, hn]
    · simp [interfaceTurn, interfaceNext, isInterface, IsInterface, look, bDescriptorType, byte, nextDescriptor,
        turnLooks, hlt, ht]
  · simp [interfaceTurn, interfaceNext, turnLooks, hlt]

theorem block_watches {use : Use} {f : Nat → α → Turn α β} {body : Nat → α → Prog World (Turn α β)} (exit : α → β)
    (hb : Computes f body) (hreads : BodyReads m configEnd use body) :
    Watches configEnd use (blockTurn m use configEnd body exit) (blockNext f exit m configEnd) Prod.fst := by
  intro c w
  obtain ⟨p, a⟩ := c
  by_cases hlt : p < configEnd
  · by_cases ht : m (p + 1) = USB_INTERFACE_DESCRIPTOR
    · simp [blockTurn, blockNext, look, bDescriptorType, byte, turnLooks, hlt, ht]
    · simp only [blockTurn, blockNext, hlt, ht, if_true, if_false, look, bDescriptorType, byte, wp_bind, wp_update,
        wp_pure, ne_eq, not_false_eq_true, and_self]
      refine wp_mono (wp_and (hb.turn p a _) (hreads p a _ ht)) ?_ (fun _ hf => hf.1)
      intro t w' h
      obtain ⟨⟨rfl, -⟩, hlooks, -⟩ := h
      cases f p a with
      | leave b => simp [hlooks, turnLooks, hlt]
      | again a' => simp [nextDescriptor, look, byte, hlooks, turnLooks, hlt]
  · simp [blockTurn, blockNext, turnLooks, hlt]

theorem endpoint_watches :
    Watches configEnd .endpoints (blockTurn m .endpoints configEnd (endpointBody m) id) (endpointWalk m configEnd)
      Prod.fst := block_watches id endpoint_computes reads_endpoint

theorem ether_watches :
    Watches configEnd .functional (blockTurn m .functional configEnd (etherBody m) fun _ => none) (etherWalk m configEnd)
      Prod.fst := block_watches _ ether_computes reads_ether

theorem union_watches :
    Watches configEnd .functional (blockTurn m .functional configEnd (unionBody m) fun _ => ⟨none, 0⟩)
      (unionWalk m configEnd) Prod.fst := block_watches _ union_computes reads_union

end Walk

/-! ## What a run looks at -/

/-- Only what is in `V` was looked at. -/
def Seen (V : Look → Prop) (w : World) : Prop := ∀ l ∈ w.looks, V l

section Seen

variable {V : Look → Prop}

theorem stays_look {use : Use} {p : Nat} (h : V ⟨use, p⟩) : Stays (Seen V) (look use p) fun _ => True :=
  stays_update fun _ hw => List.forall_mem_append.mpr ⟨hw, List.forall_mem_singleton.mpr h⟩

theorem stays_byte (o : Nat) : Stays (Seen V) (byte m o) fun b => b = m o :=
  stays_bind (stays_update fun _ hw => hw) fun _ _ => stays_pure rfl

theorem stays_nextDescriptor {p : Nat} (h : V ⟨.next, p⟩) :
    Stays (Seen V) (nextDescriptor m p) fun q => q = nextOf m p := by
  refine stays_bind (stays_look h) fun _ _ => stays_bind (stays_byte p) fun b hb => ?_
  exact stays_bind (stays_update fun _ hw => hw) fun _ _ => stays_pure (hb ▸ rfl)

theorem stays_call (c : Call) : Stays (Seen V) (call c) fun _ => True := stays_update fun _ hw => hw

theorem stays_usbSetInterface (p : Nat) : Stays (Seen V) (usbSetInterface env m p) fun _ => True :=
  stays_bind stays_peek fun _ _ => stays_bind (stays_call _) fun _ _ => stays_pure trivial

theorem stays_malloc : Stays (Seen V) (malloc env) fun _ => True :=
  stays_bind stays_peek fun _ _ => stays_bind (stays_call _) fun _ _ => stays_pure trivial

theorem stays_bAlternateSetting {p : Nat} (h : V ⟨.setting, p⟩) : Stays (Seen V) (bAlternateSetting m p) fun _ => True :=
  stays_bind (stays_look h) fun _ _ => stays_mono (stays_byte _) fun _ _ => trivial

variable (hnext : ∀ p, p < configEnd → V ⟨.next, p⟩)

include hnext

theorem stays_walk {α β : Type} {use : Use} {body : α → Prog World (Turn α β)} {f : α → Turn α β} {pos : α → Nat}
    (h : Watches configEnd use body f pos) {a : α}
    (hV : ∀ a', Comes f a a' → pos a' < configEnd → V ⟨use, pos a'⟩) (fuel : Nat) :
    Stays (Seen V) (loop body fuel a) (Leads f a) := by
  refine stays_loop (I := Comes f a) (fun c hc w hw => ?_) fuel .refl
  refine wp_mono (h c w) ?_ (fun _ hf => hf.elim)
  intro t w' ht
  obtain ⟨rfl, hlooks⟩ := ht
  refine ⟨?_, ?_⟩
  · cases hf : f c with
    | again c' => exact hc.tail hf
    | leave b => exact hc.leads (.leave hf)
  · unfold Seen
    rw [hlooks]
    refine List.forall_mem_append.mpr ⟨hw, ?_⟩
    unfold turnLooks
    split
    · rename_i hlt
      cases f c with
      | again c' => simpa using ⟨hV c hc hlt, hnext _ hlt⟩
      | leave b => simpa using hV c hc hlt
    · simp

theorem stays_blockWalk {α β : Type} {use : Use} {body : Nat → α → Prog World (Turn α β)} {f : Nat → α → Turn α β}
    {exit : α → β} (h : Watches configEnd use (blockTurn m use configEnd body exit) (blockNext f exit m configEnd) Prod.fst)
    {p : Nat} (hp : p < configEnd) {a : α}
    (hV : ∀ q a', Comes (blockNext f exit m configEnd) (nextOf m p, a) (q, a') → q < configEnd → V ⟨use, q⟩) :
    Stays (Seen V) (blockWalk m fuel use configEnd body exit p a)
      (Leads (blockNext f exit m configEnd) (nextOf m p, a)) := by
  refine stays_bind (stays_nextDescriptor (hnext p hp)) fun q hq => ?_
  rw [hq]
  exact stays_walk hnext h (fun c hc hlt => hV c.1 c.2 hc hlt) fuel

/-! ## The endpoints of an interface -/

theorem stays_getEpsAnySetting {n : UInt8} (hV : ∀ l, Tried m configEnd n l → V l) (ret : UInt8 × UInt8) :
    Stays (Seen V) (getEpsAnySetting env m fuel configEnd n ret) fun r =>
      ∃ g, Gives m configEnd n g ∧ (r = ret ∧ (g.isSome → 0 < n) ∨ ∃ eps, g = some eps ∧ r = (eps.inEp, eps.outEp)) := by
  refine stays_loop (I := fun c => Tries m configEnd n c.1 c.2) (fun c hc => ?_) fuel .start
  refine stays_bind (stays_walk hnext (interface_watches n) (fun p hp hlt => hV _ (.search hc hp hlt)) fuel) fun r hr => ?_
  cases r with
  | none => exact stays_pure ⟨none, .none hc hr, .inl ⟨rfl, fun h => by cases h⟩⟩
  | some p =>
    have hlt := (leads_interface hr p rfl).2.1
    refine stays_bind (stays_bAlternateSetting (hV _ (.setting hc hr))) fun _ _ => ?_
    refine stays_bind (stays_blockWalk hnext endpoint_watches hlt fun q eps hq hq' => hV _ (.endpoints hc hr hq hq'))
      fun eps heps => ?_
    refine stays_ite (fun hboth => ?_) fun hnot => ?_
    · refine stays_ite (fun hpos => ?_) fun hpos => stays_pure ⟨some eps, .some hc hr heps hboth, .inr ⟨eps, rfl, rfl⟩⟩
      refine stays_bind (stays_usbSetInterface p) fun e _ => stays_pure ?_
      refine ⟨some eps, .some hc hr heps hboth, ?_⟩
      split
      · exact .inr ⟨eps, rfl, rfl⟩
      · exact .inl ⟨rfl, fun _ => hpos⟩
    · refine stays_bind (stays_nextDescriptor (hnext p hlt)) fun q hq => stays_pure ?_
      rw [hq]
      exact .next hc hr heps hnot

theorem stays_subordinateEps {subs : Subs}
    (helement : ∀ i ret ints, Listing m configEnd subs i ret → i < subs.length → subs.ints = some ints →
      V ⟨.subordinate, ints + i.toNat⟩ ∧ ∀ l, Tried m configEnd (m (ints + i.toNat)) l → V l) :
    Stays (Seen V) (subordinateEps env m fuel configEnd subs) (UnionGives m configEnd subs) := by
  refine stays_loop (I := fun c => Listing m configEnd subs c.1 c.2) (fun c hc => ?_) fuel .start
  refine stays_ite (fun hi => ?_) fun hi => stays_pure ⟨c.1, hc, fun h => absurd h hi⟩
  cases hints : subs.ints with
  | none => exact stays_pure ⟨c.1, hc, fun _ => hints⟩
  | some ints =>
    obtain ⟨hsub, htried⟩ := helement c.1 c.2 ints hc hi hints
    refine stays_bind (stays_bind (stays_look hsub) fun _ _ => stays_byte _) fun sub hsub => ?_
    subst hsub
    refine stays_bind (stays_getEpsAnySetting hnext htried c.2) fun r hr => stays_pure ?_
    obtain ⟨g, hg, ⟨rfl, hpos⟩ | ⟨eps, rfl, rfl⟩⟩ := hr
    · exact .kept hc hi hints hg hpos
    · exact .taken hc hi hints hg

end Seen

/-! ## The settings of an interface -/

abbrev SeenBy (m : Mem) (configEnd : Nat) : World → Prop := Seen (Visited m configEnd)

theorem stays_addNetif {n : UInt8} {s p e : Nat} {subs : Subs} {eps : Eps} (h : Examines m configEnd n s)
    (hp : EtherAt m configEnd n s p e subs) (heps : SettingEps m configEnd p subs eps) (hboth : eps.Both) :
    Stays (SeenBy m configEnd) (addNetif env m config n p e eps.inEp eps.outEp) fun _ => True := by
  have hselect : Stays (SeenBy m configEnd) (selectSetting env m p) fun _ => True :=
    stays_bind (stays_bAlternateSetting (.setting h hp.found)) fun _ _ =>
      stays_ite (fun _ => stays_usbSetInterface p) fun _ => stays_pure trivial
  have hfields : Stays (SeenBy m configEnd) (etherFields m e) fun _ => True := by
    refine stays_bind (stays_look (.ethernet h hp heps hboth)) fun _ _ => stays_bind (stays_byte _) fun _ _ => ?_
    exact stays_bind (stays_byte _) fun _ _ => stays_bind (stays_byte _) fun _ _ => stays_pure trivial
  have hask : ∀ address, Stays (SeenBy m configEnd) (usbGetDeviceEndpoint env address) fun _ => True := fun address =>
    stays_bind stays_peek fun _ _ => stays_bind (stays_update fun _ h => h) fun _ _ => stays_pure trivial
  have hfill : ∀ netif state, Stays (SeenBy m configEnd)
      (fillAndAdd env m config n e eps.inEp eps.outEp netif state) fun _ => True := by
    intro netif state
    refine stays_bind (hask _) fun _ _ => stays_bind (hask _) fun _ _ => ?_
    refine stays_bind (Q := fun _ => True) ?_ fun _ _ => ?_
    · exact stays_ite (fun _ => stays_pure trivial) fun _ => stays_bind (stays_call _) fun _ _ => stays_call _
    · exact stays_bind hfields fun _ _ => stays_call _
  refine stays_bind hselect fun error _ => stays_ite (fun _ => stays_pure trivial) fun _ => ?_
  refine stays_bind stays_malloc fun netif? _ => ?_
  cases netif? with
  | none => exact stays_pure trivial
  | some netif =>
    refine stays_bind stays_malloc fun state? _ => ?_
    cases state? with
    | none => exact stays_bind (stays_call _) fun _ _ => stays_pure trivial
    | some state => exact stays_bind (hfill netif state) fun _ _ => stays_pure trivial

/-- The search goes on from a setting, or it is over and the next interface follows. -/
abbrev GoesOn (m : Mem) (configEnd : Nat) (n : UInt8) : Turn Nat Bool → Prop :=
  Turn.Meets (Examines m configEnd n) fun _ => n + 1 < m 4 → Examines m configEnd (n + 1) 0

theorem stays_etherSetting {n : UInt8} {s p e : Nat} (h : Examines m configEnd n s)
    (hp : Finds m configEnd n s (some p)) (he : EtherOf m configEnd p (some e)) :
    Stays (SeenBy m configEnd) (etherSetting env m fuel config configEnd n p e) (GoesOn m configEnd n) := by
  have hnext : ∀ q, q < configEnd → Visited m configEnd ⟨.next, q⟩ := fun _ => .next
  have hlt := (leads_interface hp p rfl).2.1
  refine stays_bind (stays_blockWalk hnext union_watches hlt fun q _ hq hq' => .union h hp he hq hq') fun subs hsubs => ?_
  have hat : EtherAt m configEnd n s p e subs := ⟨hp, he, hsubs⟩
  refine stays_bind (stays_subordinateEps hnext fun i ret ints hl hi hints =>
    ⟨.element h hat hl hi hints, fun l ht => .tried h hat hl hi hints ht⟩) fun ret hret => ?_
  refine stays_bind (stays_blockWalk hnext endpoint_watches hlt fun q eps hq hq' => .endpoints h hat hret hq hq')
    fun eps heps => ?_
  have hsetting : SettingEps m configEnd p subs eps := ⟨ret, hret, heps⟩
  refine stays_ite (fun hnot => ?_) fun hboth => ?_
  · refine stays_bind (stays_nextDescriptor (hnext p hlt)) fun q hq => stays_pure ?_
    rw [hq]
    exact .short h hat hsetting hnot
  · have hboth := not_not.mp hboth
    refine stays_bind (stays_addNetif h hat hsetting hboth) fun _ _ => stays_pure ?_
    exact .bound h hat hsetting hboth

theorem stays_searchInterface {n : UInt8} (h : Examines m configEnd n 0) :
    Stays (SeenBy m configEnd) (searchInterface env m fuel config configEnd n) fun _ =>
      n + 1 < m 4 → Examines m configEnd (n + 1) 0 := by
  have hnext : ∀ q, q < configEnd → Visited m configEnd ⟨.next, q⟩ := fun _ => .next
  refine stays_loop (I := Examines m configEnd n) (fun s hs => ?_) fuel h
  refine stays_bind (stays_walk hnext (interface_watches n) (fun p hp hlt => .search hs hp hlt) fuel) fun r hr => ?_
  cases r with
  | none => exact stays_pure (.missed hs hr)
  | some p =>
    have hlt := (leads_interface hr p rfl).2.1
    have hprint : Stays (SeenBy m configEnd) (printSetting m p) fun _ => True :=
      stays_bind (stays_bAlternateSetting (.setting hs hr)) fun _ _ =>
        stays_bind (stays_byte _) fun _ _ => stays_pure trivial
    refine stays_bind hprint fun _ _ => ?_
    refine stays_bind (stays_blockWalk hnext ether_watches hlt fun q _ hq hq' => .ether hs hr hq hq') fun e he => ?_
    cases e with
    | none =>
      refine stays_bind (stays_nextDescriptor (hnext p hlt)) fun q hq => stays_pure ?_
      rw [hq]
      exact .plain hs hr he
    | some e => exact stays_etherSetting hs hr he

/-- Whatever the calls answer, only what is `Visited` is looked at. -/
theorem stays_bindInterfaces :
    Stays (SeenBy m configEnd) (bindInterfaces env m fuel config configEnd) fun _ => True := by
  refine stays_loop (I := fun c => c.1 < m 4 → Examines m configEnd c.1 0) (fun c hc => ?_) fuel fun h => .first h
  refine stays_bind (stays_bind (stays_look .count) fun _ _ => stays_byte 4) fun count hcount => ?_
  subst hcount
  refine stays_ite (fun hlt => ?_) fun _ => stays_pure trivial
  exact stays_bind (stays_searchInterface (hc hlt)) fun _ h => stays_pure h

end Nanotube.Device.Usb
