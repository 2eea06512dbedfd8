/-
  Nanotube.Device.Usb — what happens when a device is connected: `usb_handle_connect`,
  `process_config_descriptor` and `get_eps_any_setting` (src/device/usb.c).

  `process_config_descriptor` fetches a configuration descriptor, selects the
  configuration, and for each interface number looks for a setting with an Ethernet
  functional descriptor. The endpoints come from the interfaces its Union lists
  (`get_eps_any_setting`) and from the setting itself; when both are found a netif is
  added, whatever `usb_GetDeviceEndpoint` says.

  What usbdrvce and `malloc` answer is given by `Env`, each answer from the calls made so
  far. A heap block is the number of its allocation, not an address, so a number stands for
  one block only, also when `malloc` hands out the same memory again. `netif_add` is taken
  to return; that it does not always is looked at in `Enumeration`.
-/

import Nanotube.Device.Descriptor

namespace Nanotube.Device.Usb

open Nanotube.Lib.Loops
open Nanotube.Device.Ecm (UsbError)

def MAX_CONFIG_LENGTH : Nat := 256

structure Env where
  /-- `usb_GetDeviceFlags(dev) & USB_IS_ENABLED` -/
  enabled : Bool
  /-- `bNumConfigurations`, when the device descriptor can be read. -/
  numConfigurations : Option UInt8
  /-- `usb_GetConfiguration`, when it succeeds. -/
  configuration : Option UInt8
  totalLength : List Call → UInt8 → Nat
  /-- The memory after `usb_GetDescriptor`, when it succeeds. -/
  configDescriptor : List Call → UInt8 → Option Mem
  setConfiguration : List Call → UInt8 → UsbError
  setInterface : List Call → UInt8 → UInt8 → UsbError
  malloc : List Call → Bool
  /-- Whether `usb_GetDeviceEndpoint` finds an endpoint. -/
  deviceEndpoint : List Call → UInt8 → Bool

variable (env : Env) (m : Mem) (fuel : Nat)

/-! ## Calls -/

def call (c : Call) : Prog World Unit := update fun w => { w with calls := w.calls ++ [c] }

/-- usbdrvce takes the interface number and the alternate setting from the descriptor. -/
def usbSetInterface (intDesc : Nat) : Prog World UsbError := do
  let w ← peek
  let number := m (intDesc + 2)
  let alternate := m (intDesc + 3)
  let error := env.setInterface w.calls number alternate
  call (.setInterface number alternate error)
  pure error

def isMalloc : Call → Bool
  | .malloc _ => true
  | _ => false

/-- Heap blocks are numbered by the calls of `malloc`. -/
def malloc : Prog World (Option Nat) := do
  let w ← peek
  let block := if env.malloc w.calls then some (w.calls.countP isMalloc) else none
  call (.malloc block)
  pure block

def usbGetDeviceEndpoint (address : UInt8) : Prog World Bool := do
  let w ← peek
  let found := env.deviceEndpoint w.calls address
  update fun w => { w with asked := w.asked ++ [⟨address, found⟩] }
  pure found

/-! ## The settings of an interface -/

/-- A turn of the two loops that search the settings of interface `n`, from `pos a` on. -/
def eachSetting {α β : Type} (configEnd : Nat) (n : UInt8) (pos : α → Nat) (miss : α → β)
    (visit : α → Nat → Prog World (Turn α β)) (a : α) : Prog World (Turn α β) := do
  let intDesc? ← getInterfaceDescriptor m fuel (pos a) configEnd n
  match intDesc? with
  | none => pure (.leave (miss a))
  | some intDesc => visit a intDesc

def Eps.Both (eps : Eps) : Prop := eps.inEp ≠ 0 ∧ eps.outEp ≠ 0

instance (eps : Eps) : Decidable eps.Both := inferInstanceAs (Decidable (_ ∧ _))

/-- `get_eps_any_setting` at a setting: the endpoint variables go on from the settings
    before it. -/
def trySetting (configEnd : Nat) (interface : UInt8) (ret : UInt8 × UInt8) (c : Nat × Eps) (intDesc : Nat) :
    Prog World (Turn (Nat × Eps) (UInt8 × UInt8)) := do
  let _ ← bAlternateSetting m intDesc
  let eps ← getEndpoints m fuel intDesc configEnd c.2
  if eps.Both then
    if 0 < interface then do
      let error ← usbSetInterface env m intDesc
      pure (.leave (if error = .success then (eps.inEp, eps.outEp) else ret))
    else pure (.leave (eps.inEp, eps.outEp))
  else do
    let next ← nextDescriptor m intDesc
    pure (.again (next, eps))

def getEpsAnySetting (configEnd : Nat) (interface : UInt8) (ret : UInt8 × UInt8) : Prog World (UInt8 × UInt8) :=
  loop (eachSetting m fuel configEnd interface Prod.fst (fun _ => ret)
    (trySetting env m fuel configEnd interface ret)) fuel
    (0, Eps.none)

def subTurn (configEnd : Nat) (subs : Subs) (c : UInt8 × UInt8 × UInt8) :
    Prog World (Turn (UInt8 × UInt8 × UInt8) (UInt8 × UInt8)) :=
  if c.1 < subs.length then
    match subs.ints with
    | none => pure (.leave c.2)
    | some ints => do
      let sub ← subordinate m (ints + c.1.toNat)
      let ret ← getEpsAnySetting env m fuel configEnd sub c.2
      pure (.again (c.1 + 1, ret))
  else pure (.leave c.2)

/-- The loop over the subordinate interfaces. -/
def subordinateEps (configEnd : Nat) (subs : Subs) : Prog World (UInt8 × UInt8) :=
  loop (subTurn env m fuel configEnd subs) fuel (0, 0, 0)

/-! ## The netif -/

def selectSetting (intDesc : Nat) : Prog World UsbError := do
  let alternate ← bAlternateSetting m intDesc
  if alternate ≠ 0 then usbSetInterface env m intDesc else pure .success

/-- `if(!state->in || !state->out)`: both blocks are freed. -/
def freeUnless (found : Bool) (netif state : Nat) : Prog World Unit :=
  if found then pure ()
  else do
    call (.free netif)
    call (.free state)

/-- From `malloc` of the state to `netif_add`. The netif is added also when an endpoint was
    not found and both blocks were just freed. -/
def fillAndAdd (config currentInt : UInt8) (ethDesc : Nat) (inEp outEp : UInt8) (netif state : Nat) :
    Prog World Unit := do
  let inFound ← usbGetDeviceEndpoint env inEp
  let outFound ← usbGetDeviceEndpoint env outEp
  freeUnless (inFound && outFound) netif state
  let fields ← etherFields m ethDesc
  call (.netifAdd ⟨config, currentInt, netif, state, inEp, outEp, inFound, outFound, fields.1, fields.2⟩)

def addNetif (config currentInt : UInt8) (intDesc ethDesc : Nat) (inEp outEp : UInt8) : Prog World Bool := do
  let error ← selectSetting env m intDesc
  if error ≠ .success then pure false
  else do
    let netif? ← malloc env
    match netif? with
    | none => pure false
    | some netif => do
      let state? ← malloc env
      match state? with
      | none => do
        call (.free netif)
        pure false
      | some state => do
        fillAndAdd env m config currentInt ethDesc inEp outEp netif state
        pure true

/-! ## The interfaces of a configuration -/

/-- The Ethernet descriptor of this setting is `ethDesc`; the result of the search is
    whether a netif was added. -/
def etherSetting (config : UInt8) (configEnd : Nat) (currentInt : UInt8) (intDesc ethDesc : Nat) :
    Prog World (Turn Nat Bool) := do
  let subs ← getSubordinateInts m fuel intDesc configEnd
  let ret ← subordinateEps env m fuel configEnd subs
  let eps ← getEndpoints m fuel intDesc configEnd ⟨ret.1, ret.2, 0⟩
  if ¬ eps.Both then do
    let next ← nextDescriptor m intDesc
    pure (.again next)
  else do
    let added ← addNetif env m config currentInt intDesc ethDesc eps.inEp eps.outEp
    pure (.leave added)

def examineSetting (config : UInt8) (configEnd : Nat) (currentInt : UInt8) (intDesc : Nat) :
    Prog World (Turn Nat Bool) := do
  printSetting m intDesc
  let ethDesc? ← getEtherDesc m fuel intDesc configEnd
  match ethDesc? with
  | none => do
    let next ← nextDescriptor m intDesc
    pure (.again next)
  | some ethDesc => etherSetting env m fuel config configEnd currentInt intDesc ethDesc

def searchInterface (config : UInt8) (configEnd : Nat) (currentInt : UInt8) : Prog World Bool :=
  loop (eachSetting m fuel configEnd currentInt id (fun _ => false) fun _ =>
    examineSetting env m fuel config configEnd currentInt)
    fuel 0

def intTurn (config : UInt8) (configEnd : Nat) (c : UInt8 × Bool) : Prog World (Turn (UInt8 × Bool) Bool) := do
  let count ← bNumInterfaces m
  if c.1 < count then do
    let added ← searchInterface env m fuel config configEnd c.1
    pure (.again (c.1 + 1, c.2 || added))
  else pure (.leave c.2)

/-- The loop of `process_config_descriptor` over the interface numbers; the result is
    `netif_found`. -/
def bindInterfaces (config : UInt8) (configEnd : Nat) : Prog World Bool :=
  loop (intTurn env m fuel config configEnd) fuel (0, false)

/-! ## Configurations -/

def processConfigDescriptor (configNum : UInt8) : Prog World Bool := do
  let w ← peek
  let configLength := env.totalLength w.calls (configNum - 1)
  if MAX_CONFIG_LENGTH < configLength then pure false
  else
    match env.configDescriptor w.calls (configNum - 1) with
    | none => pure false
    | some m => do
      let error := env.setConfiguration w.calls configNum
      call (.setConfiguration configNum error)
      if error ≠ .success then pure false else bindInterfaces env m fuel configNum configLength

def configTurn (bNumConfigurations : UInt8) (config : UInt8) : Prog World (Turn UInt8 Unit) :=
  if config ≤ bNumConfigurations then do
    let _ ← processConfigDescriptor env fuel config
    pure (.again (config + 1))
  else pure (.leave ())

def enable : Prog World Unit := if env.enabled then pure () else call .resetDevice

/-- The two "todo: fix" defaults: two configurations, and no current one. -/
def usbHandleConnect : Prog World UsbError := do
  enable env
  let bNumConfigurations := env.numConfigurations.getD 2
  let config := env.configuration.getD 0
  if config ≠ 0 then do
    let _ ← processConfigDescriptor env fuel config
    pure .success
  else do
    loop (configTurn env fuel bNumConfigurations) fuel 1
    pure .success

/-- The memory that holds `bytes`, with zeros behind them. -/
def ofBytes (bytes : List UInt8) : Mem := fun o => bytes.getD o 0

/-- A device with these configuration descriptors and none selected, all of whose calls
    succeed. -/
def deviceOf (configs : List (List UInt8)) : Env :=
  { enabled := true
    numConfigurations := some configs.length.toUInt8
    configuration := some 0
    totalLength := fun _ i => (configs.getD i.toNat []).length
    configDescriptor := fun _ i => some (ofBytes (configs.getD i.toNat []))
    setConfiguration := fun _ _ => .success
    setInterface := fun _ _ _ => .success
    malloc := fun _ => true
    deviceEndpoint := fun _ _ => true }

/-! ## What the calls record -/

variable {env m} {w : World}

theorem usbSetInterface_spec (p : Nat) :
    wp (usbSetInterface env m p)
      (fun e w' => e = env.setInterface w.calls (m (p + 2)) (m (p + 3)) ∧ w'.lengths = w.lengths ∧
        w'.calls = w.calls ++ [.setInterface (m (p + 2)) (m (p + 3)) e]) (fun _ => False) w := by
  simp [usbSetInterface, call]

def Call.isHeap : Call → Bool
  | .malloc _ | .free _ => true
  | _ => false

theorem malloc_spec :
    wp (malloc env) (fun block w' => (env.malloc w.calls = true → block.isSome) ∧ w'.lengths = w.lengths ∧
      w'.calls = w.calls ++ [.malloc block]) (fun _ => False) w := by
  simp only [malloc, call, wp_bind, wp_peek, wp_update, wp_pure, and_true]
  intro h
  rw [if_pos h]
  rfl

/-- The SetInterface that a setting other than 0 needs. -/
def selects (m : Mem) (p : Nat) (e : UsbError) : List Call :=
  if m (p + 3) ≠ 0 then [.setInterface (m (p + 2)) (m (p + 3)) e] else []

theorem selectSetting_spec (p : Nat) :
    wp (selectSetting env m p)
      (fun e w' => (m (p + 3) ≠ 0 → e = env.setInterface w.calls (m (p + 2)) (m (p + 3))) ∧
        (m (p + 3) = 0 → e = .success) ∧
        w'.lengths = w.lengths ∧ w'.calls = w.calls ++ selects m p e) (fun _ => False) w := by
  simp only [selectSetting, wp_bind]
  refine wp_mono (bAlternateSetting_spec p) ?_ (fun _ hf => hf)
  intro a w₁ h
  obtain ⟨rfl, hq⟩ := h
  by_cases ha : m (p + 3) = 0
  · simp [ha, selects, hq.lengths, hq.calls]
  · simp only [if_pos ha, selects]
    refine wp_mono (usbSetInterface_spec p) ?_ (fun _ hf => hf)
    intro e w₂ h
    obtain ⟨he, hl, hc⟩ := h
    rw [hq.calls] at he hc
    exact ⟨fun _ => he, fun h0 => absurd h0 ha, hl.trans hq.lengths, hc⟩

/-- The fields that a netif takes from its descriptors. -/
structure Describes (m : Mem) (config currentInt : UInt8) (ethDesc : Nat) (inEp outEp : UInt8) (n : Added) : Prop where
  config : n.config = config
  interface : n.interface = currentInt
  inAddr : n.inAddr = inEp
  outAddr : n.outAddr = outEp
  macIndex : n.macIndex = m (ethDesc + 3)
  mtu : n.mtu = (m (ethDesc + 8)).toUInt16 + 256 * (m (ethDesc + 9)).toUInt16

theorem fillAndAdd_spec (config currentInt : UInt8) (ethDesc : Nat) (inEp outEp : UInt8) (netif state : Nat) :
    wp (fillAndAdd env m config currentInt ethDesc inEp outEp netif state)
      (fun _ w' => w'.lengths = w.lengths ∧ ∃ hs n, (∀ c ∈ hs, c.isHeap) ∧
        w'.calls = w.calls ++ hs ++ [.netifAdd n] ∧ Describes m config currentInt ethDesc inEp outEp n)
      (fun _ => False) w := by
  simp only [fillAndAdd, usbGetDeviceEndpoint, freeUnless, etherFields, look, byte, call, wp_bind, wp_peek, wp_update, wp_pure, wp_ite]
  split
  · have hcalls : w.calls = w.calls ++ [] := (List.append_nil _).symm
    exact ⟨trivial, [], _, by simp, congrArg (· ++ _) hcalls, ⟨rfl, rfl, rfl, rfl, rfl, rfl⟩⟩
  · have hcalls : w.calls ++ [Call.free netif] ++ [.free state] = w.calls ++ [.free netif, .free state] := by simp
    exact ⟨trivial, _, _, by simp [Call.isHeap], congrArg (· ++ _) hcalls, ⟨rfl, rfl, rfl, rfl, rfl, rfl⟩⟩

/-- `addNetif` selects the setting, allocates and adds; it returns whether it added. -/
theorem addNetif_spec (config currentInt : UInt8) (p ethDesc : Nat) (inEp outEp : UInt8) :
    wp (addNetif env m config currentInt p ethDesc inEp outEp)
      (fun added w' => w'.lengths = w.lengths ∧ ∃ e hs, (∀ c ∈ hs, c.isHeap) ∧
        ((added = false ∧ w'.calls = w.calls ++ selects m p e ++ hs) ∨
          (added = true ∧ e = .success ∧ ∃ n, Describes m config currentInt ethDesc inEp outEp n ∧
            w'.calls = w.calls ++ selects m p e ++ hs ++ [.netifAdd n]))) (fun _ => False) w := by
  simp only [addNetif, wp_bind]
  refine wp_mono (selectSetting_spec p) ?_ (fun _ hf => hf)
  intro e w₁ h
  obtain ⟨-, -, hl₁, hc₁⟩ := h
  simp only [wp_ite]
  by_cases he : e = .success
  · simp only [he, ne_eq, not_true_eq_false, if_false, wp_bind]
    refine wp_mono malloc_spec ?_ (fun _ hf => hf)
    intro netif? w₂ h
    obtain ⟨-, hl₂, hc₂⟩ := h
    rw [hl₁] at hl₂
    rw [hc₁] at hc₂
    cases netif? with
    | none => exact ⟨hl₂, .success, [.malloc none], by simp [Call.isHeap], Or.inl ⟨rfl, by rw [hc₂, he]⟩⟩
    | some netif =>
      simp only [wp_bind]
      refine wp_mono malloc_spec ?_ (fun _ hf => hf)
      intro state? w₃ h
      obtain ⟨-, hl₃, hc₃⟩ := h
      rw [hl₂] at hl₃
      rw [hc₂] at hc₃
      cases state? with
      | none =>
        simp only [call, wp_bind, wp_update, wp_pure]
        refine ⟨hl₃, .success, [.malloc (some netif), .malloc none, .free netif], by simp [Call.isHeap],
          Or.inl ⟨trivial, ?_⟩⟩
        rw [hc₃, he]
        simp
      | some state =>
        simp only [wp_bind]
        refine wp_mono (fillAndAdd_spec config currentInt ethDesc inEp outEp netif state) ?_ (fun _ hf => hf)
        intro _ w₄ h
        obtain ⟨hl₄, hs, n, hheap, hc₄, hn⟩ := h
        rw [hl₃] at hl₄
        rw [hc₃] at hc₄
        refine ⟨hl₄, .success, [.malloc (some netif), .malloc (some state)] ++ hs,
          List.forall_mem_append.mpr ⟨by simp [Call.isHeap], hheap⟩, Or.inr ⟨rfl, rfl, n, hn, ?_⟩⟩
        rw [hc₄, he]
        simp
  · simp only [ne_eq, he, not_false_eq_true, if_true, wp_pure]
    exact ⟨hl₁, e, [], by simp, Or.inl ⟨trivial, by simpa using hc₁⟩⟩

end Nanotube.Device.Usb
