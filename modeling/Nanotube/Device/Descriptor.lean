/-
  Nanotube.Device.Descriptor — the walks over a configuration descriptor: NEXT_DESCRIPTOR
  and `get_interface_descriptor`, `get_endpoints` (src/device/usb.c), `get_ether_desc`,
  `get_subordinate_ints` (src/device/ecm.c).

  A descriptor pointer is an offset into `conf_desc_buf`, and the memory gives a byte at
  every offset: those the device sent, below `config_length`, and whatever lies behind
  them. Nothing is assumed of either. A walk starts from a pointer, stops at `end` or at
  what it looks for, and goes from one descriptor to the next by the length byte it finds
  there, so it need not end; `fuel` bounds the turns of each loop.

  The walks record the offsets they read, which descriptors they let in and for what, and
  the lengths they advanced by.
-/

import Nanotube.Device.Ecm
import Nanotube.Lib.Loops

namespace Nanotube.Device.Usb

open Nanotube.Lib.Loops
open Nanotube.Device.Ecm (UsbError)

def USB_INTERFACE_DESCRIPTOR : UInt8 := 4
def USB_ENDPOINT_DESCRIPTOR : UInt8 := 5
def USB_CS_INTERFACE_DESCRIPTOR : UInt8 := 0x24
def CDC_ETHERNET_NETWORKING_SUBTYPE : UInt8 := 0x0F
def CDC_UNION_SUBTYPE : UInt8 := 6
def USB_BULK_TRANSFER : UInt8 := 2
def USB_INTERRUPT_TRANSFER : UInt8 := 3

/-- The bytes from `conf_desc_buf` on. -/
abbrev Mem := Nat → UInt8

/-- What a descriptor is used for. -/
inductive Use where
  /-- `conf_desc->bNumInterfaces` -/
  | configuration
  /-- NEXT_DESCRIPTOR -/
  | next
  /-- let in by the loop of `get_interface_descriptor` -/
  | search
  /-- an interface descriptor that was found -/
  | setting
  /-- let in by the loop of `get_endpoints` -/
  | endpoints
  /-- let in by the loop of `get_ether_desc` or `get_subordinate_ints` -/
  | functional
  /-- an element of `subs` -/
  | subordinate
  /-- the fields of `eth_desc` -/
  | ethernet
  deriving DecidableEq, Repr

structure Look where
  use : Use
  pos : Nat
  deriving DecidableEq, Repr

/-- A netif given to `netif_add`. -/
structure Added where
  /-- The configuration and the interface it was made for. -/
  config : UInt8
  interface : UInt8
  /-- The heap blocks of the netif and of its state. -/
  netif : Nat
  state : Nat
  inAddr : UInt8
  outAddr : UInt8
  /-- Whether `state->in` and `state->out` are endpoints, not NULL. -/
  inFound : Bool
  outFound : Bool
  macIndex : UInt8
  mtu : UInt16
  deriving DecidableEq, Repr

/-- The calls that change something outside. -/
inductive Call where
  | resetDevice
  | setConfiguration (config : UInt8) (error : UsbError)
  | setInterface (number alternate : UInt8) (error : UsbError)
  | malloc (block : Option Nat)
  | free (block : Nat)
  | netifAdd (n : Added)
  deriving DecidableEq, Repr

/-- A call of `usb_GetDeviceEndpoint`, and whether the answer is an endpoint, not NULL. -/
structure Asked where
  address : UInt8
  found : Bool
  deriving DecidableEq, Repr

structure World where
  looks : List Look
  /-- Offsets read through a descriptor pointer. -/
  reads : List Nat
  /-- The `bLength` of each NEXT_DESCRIPTOR. -/
  lengths : List UInt8
  calls : List Call
  asked : List Asked

def World.start : World := ⟨[], [], [], [], []⟩

/-! ## Fields -/

variable (m : Mem)

def look (use : Use) (pos : Nat) : Prog World Unit := update fun w => { w with looks := w.looks ++ [⟨use, pos⟩] }

def byte (offset : Nat) : Prog World UInt8 := do
  update fun w => { w with reads := w.reads ++ [offset] }
  pure (m offset)

def bDescriptorType (desc : Nat) : Prog World UInt8 := byte m (desc + 1)
def bDescriptorSubtype (desc : Nat) : Prog World UInt8 := byte m (desc + 2)
def bInterfaceNumber (desc : Nat) : Prog World UInt8 := byte m (desc + 2)
def bEndpointAddress (desc : Nat) : Prog World UInt8 := byte m (desc + 2)
def bmAttributes (desc : Nat) : Prog World UInt8 := byte m (desc + 3)

def bNumInterfaces : Prog World UInt8 := do
  look .configuration 0
  byte m 4

def bAlternateSetting (desc : Nat) : Prog World UInt8 := do
  look .setting desc
  byte m (desc + 3)

/-- An element of `subs`. -/
def subordinate (element : Nat) : Prog World UInt8 := do
  look .subordinate element
  byte m element

/-- `iMACAddress` and `wMaxSegmentSize`. -/
def etherFields (desc : Nat) : Prog World (UInt8 × UInt16) := do
  look .ethernet desc
  let iMACAddress ← byte m (desc + 3)
  let lo ← byte m (desc + 8)
  let hi ← byte m (desc + 9)
  pure (iMACAddress, lo.toUInt16 + 256 * hi.toUInt16)

/-- The log line about a setting: its alternate setting and its interface number. -/
def printSetting (desc : Nat) : Prog World Unit := do
  let _ ← bAlternateSetting m desc
  let _ ← bInterfaceNumber m desc
  pure ()

def nextDescriptor (desc : Nat) : Prog World Nat := do
  look .next desc
  let bLength ← byte m desc
  update fun w => { w with lengths := w.lengths ++ [bLength] }
  pure (desc + bLength.toNat)

/-! ## The walks -/

variable (fuel : Nat)

def isInterface (n : UInt8) (current : Nat) : Prog World Bool := do
  look .search current
  let type ← bDescriptorType m current
  if type = USB_INTERFACE_DESCRIPTOR then do
    let number ← bInterfaceNumber m current
    pure (decide (number = n))
  else pure false

def interfaceTurn (configEnd : Nat) (n : UInt8) (current : Nat) : Prog World (Turn Nat (Option Nat)) :=
  if current < configEnd then do
    let found ← isInterface m n current
    if found then pure (.leave (some current))
    else do
      let next ← nextDescriptor m current
      pure (.again next)
  else pure (.leave none)

def getInterfaceDescriptor (start configEnd : Nat) (n : UInt8) : Prog World (Option Nat) :=
  loop (interfaceTurn m configEnd n) fuel start

section Block

variable {α β : Type} (use : Use) (configEnd : Nat) (body : Nat → α → Prog World (Turn α β)) (exit : α → β)

/-- A turn over the descriptors that belong to an interface: up to the next interface
    descriptor. -/
def blockTurn (c : Nat × α) : Prog World (Turn (Nat × α) β) :=
  if c.1 < configEnd then do
    look use c.1
    let type ← bDescriptorType m c.1
    if type = USB_INTERFACE_DESCRIPTOR then pure (.leave (exit c.2))
    else do
      let t ← body c.1 c.2
      match t with
      | .leave b => pure (.leave b)
      | .again a => do
        let next ← nextDescriptor m c.1
        pure (.again (next, a))
  else pure (.leave (exit c.2))

def blockWalk (intDesc : Nat) (a : α) : Prog World β := do
  let first ← nextDescriptor m intDesc
  loop (blockTurn m use configEnd body exit) fuel (first, a)

end Block

/-- The endpoint variables; 0 is none. -/
structure Eps where
  inEp : UInt8
  outEp : UInt8
  inter : UInt8
  deriving DecidableEq, Repr

def Eps.none : Eps := ⟨0, 0, 0⟩

/-- What an endpoint descriptor does to the endpoint variables. -/
def Eps.take (attributes address : UInt8) (eps : Eps) : Eps :=
  if attributes = USB_BULK_TRANSFER then
    if address &&& 0x80 ≠ 0 then { eps with inEp := address } else { eps with outEp := address }
  else if attributes = USB_INTERRUPT_TRANSFER ∧ address &&& 0x80 ≠ 0 then { eps with inter := address }
  else eps

def endpointBody (current : Nat) (eps : Eps) : Prog World (Turn Eps Eps) := do
  let type ← bDescriptorType m current
  if type = USB_ENDPOINT_DESCRIPTOR then do
    let attributes ← bmAttributes m current
    if attributes = USB_BULK_TRANSFER ∨ attributes = USB_INTERRUPT_TRANSFER then do
      let address ← bEndpointAddress m current
      pure (.again (eps.take attributes address))
    else pure (.again eps)
  else pure (.again eps)

def getEndpoints (intDesc configEnd : Nat) (eps : Eps) : Prog World Eps :=
  blockWalk m fuel .endpoints configEnd (endpointBody m) id intDesc eps

/-- `get_ether_desc` and `get_subordinate_ints` look for a class-specific descriptor of one
    subtype. -/
def isFunctional (subtype : UInt8) (current : Nat) : Prog World Bool := do
  let type ← bDescriptorType m current
  if type = USB_CS_INTERFACE_DESCRIPTOR then do
    let sub ← bDescriptorSubtype m current
    pure (decide (sub = subtype))
  else pure false

def etherBody (current : Nat) (_ : Unit) : Prog World (Turn Unit (Option Nat)) := do
  let found ← isFunctional m CDC_ETHERNET_NETWORKING_SUBTYPE current
  if found then pure (.leave (some current)) else pure (.again ())

def getEtherDesc (intDesc configEnd : Nat) : Prog World (Option Nat) :=
  blockWalk m fuel .functional configEnd (etherBody m) (fun _ => none) intDesc ()

/-- `subs` and `num_subs`; `length` is a `uint8_t`. -/
structure Subs where
  ints : Option Nat
  length : UInt8
  deriving DecidableEq, Repr

def unionBody (current : Nat) (_ : Unit) : Prog World (Turn Unit Subs) := do
  let found ← isFunctional m CDC_UNION_SUBTYPE current
  if found then do
    let bLength ← byte m current
    pure (.leave ⟨some (current + 4), bLength - 4⟩)
  else pure (.again ())

def getSubordinateInts (intDesc configEnd : Nat) : Prog World Subs :=
  blockWalk m fuel .functional configEnd (unionBody m) (fun _ => ⟨none, 0⟩) intDesc ()

/-! ## What the tests decide -/

/-- Nothing but the reads and the looks is recorded. -/
structure Quiet (w w' : World) : Prop where
  lengths : w'.lengths = w.lengths
  calls : w'.calls = w.calls

def IsInterface (n : UInt8) (p : Nat) : Prop := m (p + 1) = USB_INTERFACE_DESCRIPTOR ∧ m (p + 2) = n

def IsFunctional (subtype : UInt8) (p : Nat) : Prop := m (p + 1) = USB_CS_INTERFACE_DESCRIPTOR ∧ m (p + 2) = subtype

instance (n : UInt8) (p : Nat) : Decidable (IsInterface m n p) := inferInstanceAs (Decidable (_ ∧ _))

instance (subtype : UInt8) (p : Nat) : Decidable (IsFunctional m subtype p) := inferInstanceAs (Decidable (_ ∧ _))

/-- The endpoint variables after the descriptor at `p`. -/
def epsAt (p : Nat) (eps : Eps) : Eps :=
  if m (p + 1) = USB_ENDPOINT_DESCRIPTOR then eps.take (m (p + 3)) (m (p + 2)) else eps

variable {m} {w : World}

theorem isInterface_spec (n : UInt8) (p : Nat) :
    wp (isInterface m n p) (fun found w' => found = decide (IsInterface m n p) ∧ Quiet w w') (fun _ => False) w := by
  by_cases ht : m (p + 1) = USB_INTERFACE_DESCRIPTOR
  · simpa [isInterface, look, bDescriptorType, bInterfaceNumber, byte, IsInterface, ht] using ⟨rfl, rfl⟩
  · simpa [isInterface, look, bDescriptorType, byte, IsInterface, ht] using ⟨rfl, rfl⟩

theorem isFunctional_spec (subtype : UInt8) (p : Nat) :
    wp (isFunctional m subtype p) (fun found w' => found = decide (IsFunctional m subtype p) ∧ Quiet w w')
      (fun _ => False) w := by
  by_cases ht : m (p + 1) = USB_CS_INTERFACE_DESCRIPTOR
  · simpa [isFunctional, bDescriptorType, bDescriptorSubtype, byte, IsFunctional, ht] using ⟨rfl, rfl⟩
  · simpa [isFunctional, bDescriptorType, byte, IsFunctional, ht] using ⟨rfl, rfl⟩

theorem Eps.take_other {attributes : UInt8}
    (h : ¬ (attributes = USB_BULK_TRANSFER ∨ attributes = USB_INTERRUPT_TRANSFER)) (address : UInt8) (eps : Eps) :
    eps.take attributes address = eps := by
  rw [not_or] at h
  simp [Eps.take, h.1, h.2]

theorem endpointBody_spec (p : Nat) (eps : Eps) :
    wp (endpointBody m p eps) (fun t w' => t = .again (epsAt m p eps) ∧ Quiet w w') (fun _ => False) w := by
  by_cases ht : m (p + 1) = USB_ENDPOINT_DESCRIPTOR
  · by_cases ha : m (p + 3) = USB_BULK_TRANSFER ∨ m (p + 3) = USB_INTERRUPT_TRANSFER
    · simpa [endpointBody, bDescriptorType, bmAttributes, bEndpointAddress, byte, epsAt, ht, ha] using ⟨rfl, rfl⟩
    · simpa [endpointBody, bDescriptorType, bmAttributes, byte, epsAt, ht, ha, Eps.take_other ha] using ⟨rfl, rfl⟩
  · simpa [endpointBody, bDescriptorType, byte, epsAt, ht] using ⟨rfl, rfl⟩

theorem etherBody_spec (p : Nat) (u : Unit) :
    wp (etherBody m p u)
      (fun t w' => t = (if IsFunctional m CDC_ETHERNET_NETWORKING_SUBTYPE p then .leave (some p) else .again ()) ∧
        Quiet w w')
      (fun _ => False) w := by
  simp only [etherBody, wp_bind]
  refine wp_mono (isFunctional_spec _ p) ?_ (fun _ h => h)
  intro found w' h
  obtain ⟨rfl, hq⟩ := h
  by_cases hf : IsFunctional m CDC_ETHERNET_NETWORKING_SUBTYPE p
  · simpa [hf] using hq
  · simpa [hf] using hq

theorem unionBody_spec (p : Nat) (u : Unit) :
    wp (unionBody m p u)
      (fun t w' => t = (if IsFunctional m CDC_UNION_SUBTYPE p then .leave ⟨some (p + 4), m p - 4⟩ else .again ()) ∧
        Quiet w w')
      (fun _ => False) w := by
  simp only [unionBody, wp_bind]
  refine wp_mono (isFunctional_spec _ p) ?_ (fun _ h => h)
  intro found w' h
  obtain ⟨rfl, hq⟩ := h
  by_cases hf : IsFunctional m CDC_UNION_SUBTYPE p
  · simpa [hf, byte] using ⟨hq.lengths, hq.calls⟩
  · simpa [hf] using hq

theorem bAlternateSetting_spec (p : Nat) :
    wp (bAlternateSetting m p) (fun a w' => a = m (p + 3) ∧ Quiet w w') (fun _ => False) w := by
  simpa [bAlternateSetting, look, byte] using ⟨rfl, rfl⟩

theorem printSetting_spec (p : Nat) : wp (printSetting m p) (fun _ w' => Quiet w w') (fun _ => False) w := by
  simpa [printSetting, bAlternateSetting, bInterfaceNumber, look, byte] using ⟨rfl, rfl⟩

theorem subordinate_spec (p : Nat) :
    wp (subordinate m p) (fun sub w' => sub = m p ∧ Quiet w w') (fun _ => False) w := by
  simpa [subordinate, look, byte] using ⟨rfl, rfl⟩

/-- NEXT_DESCRIPTOR cannot fail, so what follows it is all there is to show. -/
theorem wp_nextDescriptor {p : Nat} {Q : Nat → World → Prop} {F : World → Prop}
    (h : ∀ w', w'.lengths = w.lengths ++ [m p] → w'.calls = w.calls → Q (p + (m p).toNat) w') :
    wp (nextDescriptor m p) Q F w := by
  simp only [nextDescriptor, look, byte, wp_bind, wp_update, wp_pure]
  exact h _ rfl rfl

end Nanotube.Device.Usb
