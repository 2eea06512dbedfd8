/-
  Nanotube.Device.Control — which interface does the packet filter go to? (src/device/ecm.c
  `ecm_set_packet_filer`, `ecm_init_netif`; src/device/usb.c `process_config_descriptor`)

  A SetEthernetPacketFilter is for the interface in its wIndex. A netif is made from the
  Ethernet descriptor of a control interface (`MadeFrom`), whose number
  `process_config_descriptor` knows and `netif_state_t` has no field for; the request is
  built with the constant 1.

  Proved: for every configuration descriptor and whatever the device answers, each netif is
  made from the control interface of its number, and the filter requests reach these
  interfaces if and only if they all have the number 1 (`filter_index_iff`). A device with
  its control interface at 0 and its data interface at 1 has its filter set on the wrong
  one (`a_filter_goes_to_the_data_interface`).
-/

import Nanotube.Device.Binding
import Nanotube.Device.Configurations
import Nanotube.Device.ReadPath

namespace Nanotube.Device.Usb

open Nanotube.Lib.Loops
open Nanotube.Device.Ecm (UsbError Netif ControlSetup InitOutcome ecmInitNetif)

variable {env : Env} {m : Mem} {fuel configEnd : Nat} {config : UInt8} {w : World}

/-! ## Where a netif comes from -/

/-- `e` is reached from `p` by NEXT_DESCRIPTOR inside the configuration, with no interface
    descriptor on the way. -/
inductive InBlock (m : Mem) (configEnd : Nat) : Nat → Nat → Prop
  | here {p : Nat} : p < configEnd → m (p + 1) ≠ USB_INTERFACE_DESCRIPTOR → InBlock m configEnd p p
  | next {p e : Nat} : p < configEnd → m (p + 1) ≠ USB_INTERFACE_DESCRIPTOR → InBlock m configEnd (p + (m p).toNat) e →
    InBlock m configEnd p e

/-- The netif was made from the Ethernet descriptor at `e`, in the setting at `p` of the
    interface of its number. -/
def MadeFromAt (m : Mem) (configEnd : Nat) (n : Added) (p e : Nat) : Prop :=
  p < configEnd ∧ IsInterface m n.interface p ∧ InBlock m configEnd (p + (m p).toNat) e ∧
    IsFunctional m CDC_ETHERNET_NETWORKING_SUBTYPE e ∧ n.macIndex = m (e + 3) ∧
    n.mtu = (m (e + 8)).toUInt16 + 256 * (m (e + 9)).toUInt16

/-- The netif was made from the Ethernet descriptor of an interface of its number. -/
def MadeFrom (m : Mem) (configEnd : Nat) (n : Added) : Prop := ∃ p e, MadeFromAt m configEnd n p e

theorem leads_ether {c : Nat × Unit} {r : Option Nat}
    (h : Leads (blockNext (etherNext m) (fun _ => none) m configEnd) c r) :
    ∀ e, r = some e → InBlock m configEnd c.1 e ∧ IsFunctional m CDC_ETHERNET_NETWORKING_SUBTYPE e := by
  induction h with
  | @leave c b hl =>
    intro e he
    subst he
    simp only [blockNext] at hl
    split at hl
    next hin =>
      by_cases hf : IsFunctional m CDC_ETHERNET_NETWORKING_SUBTYPE c.1
      · simp only [etherNext, if_pos hf] at hl
        cases hl
        exact ⟨.here hin.1 hin.2, hf⟩
      · simp only [etherNext, if_neg hf] at hl
        cases hl
    next => cases hl
  | @again c c' b ha _ ih =>
    intro e he
    obtain ⟨hblock, hf⟩ := ih e he
    simp only [blockNext] at ha
    split at ha
    next hin =>
      by_cases hc : IsFunctional m CDC_ETHERNET_NETWORKING_SUBTYPE c.1
      · simp only [etherNext, if_pos hc] at ha
        cases ha
      · simp only [etherNext, if_neg hc] at ha
        cases ha
        exact ⟨.next hin.1 hin.2 hblock, hf⟩
    next => cases ha

theorem getInterfaceDescriptor_finds (start : Nat) (n : UInt8) :
    wp (getInterfaceDescriptor m fuel start configEnd n)
      (fun r _ => ∀ p, r = some p → p < configEnd ∧ IsInterface m n p) (fun _ => True) w := by
  refine wp_mono (walk_leads (interface_advances n) w start) ?_ (fun _ h => h)
  intro r w' h p hp
  exact (leads_interface h.1 p hp).2

theorem getEtherDesc_finds (p : Nat) :
    wp (getEtherDesc m fuel p configEnd)
      (fun r _ => ∀ e, r = some e →
        InBlock m configEnd (p + (m p).toNat) e ∧ IsFunctional m CDC_ETHERNET_NETWORKING_SUBTYPE e)
      (fun _ => True) w := by
  rw [getEtherDesc, blockWalk, wp_bind]
  refine wp_nextDescriptor fun w' _ _ => ?_
  refine wp_mono (walk_leads (block_advances (fun _ => none) .functional ether_computes) w' _) ?_ (fun _ h => h)
  exact fun r w'' hr => leads_ether hr.1

/-! ## Every netif -/

/-- The netifs added from `w` to `w'` are made from their control interfaces. -/
def Makes (m : Mem) (configEnd : Nat) (w w' : World) : Prop :=
  ∃ cs, w'.calls = w.calls ++ cs ∧ ∀ n ∈ netifs cs, MadeFrom m configEnd n

instance : IsPreorder World (Makes m configEnd) where
  refl w := ⟨[], by simp, by simp [netifs]⟩
  trans a b c h h' := by
    obtain ⟨cs, hc, hn⟩ := h
    obtain ⟨cs', hc', hn'⟩ := h'
    refine ⟨cs ++ cs', by rw [hc', hc, List.append_assoc], ?_⟩
    rw [netifs_append]
    exact List.forall_mem_append.mpr ⟨hn, hn'⟩

theorem makes_of_calls {w w' : World} (h : w'.calls = w.calls) : Makes m configEnd w w' :=
  ⟨[], by simp [h], by simp [netifs]⟩

theorem makes_units : Units (Makes m configEnd) m configEnd :=
  Logs.units (S := Makes m configEnd) ⟨fun _ _ => makes_of_calls rfl, fun _ _ => makes_of_calls rfl,
    fun _ _ => makes_of_calls rfl⟩ m configEnd

theorem makes_selects : Allows (Makes m configEnd) Selects := by
  intro w c hc
  cases c with
  | setInterface number alternate error => exact ⟨[_], rfl, by simp [netifs, Call.added?]⟩
  | _ => cases hc

theorem addNetif_makes {currentInt : UInt8} {p e : Nat} (hp : p < configEnd) (hi : IsInterface m currentInt p)
    (hb : InBlock m configEnd (p + (m p).toNat) e) (hf : IsFunctional m CDC_ETHERNET_NETWORKING_SUBTYPE e)
    (inEp outEp : UInt8) : Moves (Makes m configEnd) (addNetif env m config currentInt p e inEp outEp) := by
  refine moves_of_wp fun w => wp_mono (addNetif_spec config currentInt p e inEp outEp) ?_ (fun _ h => h.elim)
  intro added w' h
  obtain ⟨-, err, hs, hheap, ⟨-, hc⟩ | ⟨-, -, n, hn, hc⟩⟩ := h
  · refine ⟨selects m p err ++ hs, by rw [hc, List.append_assoc], ?_⟩
    simp [netifs_heap hheap, netifs_selects]
  · have hone : netifs (selects m p err ++ hs ++ [.netifAdd n]) = [n] := by
      rw [netifs_append, netifs_append, netifs_selects, netifs_heap hheap]
      rfl
    refine ⟨selects m p err ++ hs ++ [.netifAdd n], by rw [hc]; simp, ?_⟩
    rw [hone, List.forall_mem_singleton]
    refine ⟨p, e, hp, ?_, hb, hf, hn.macIndex, hn.mtu⟩
    rw [hn.interface]
    exact hi

theorem examineSetting_makes {currentInt : UInt8} {p : Nat} (hp : p < configEnd) (hi : IsInterface m currentInt p) :
    Moves (Makes m configEnd) (examineSetting env m fuel config configEnd currentInt p) := by
  refine moves_bind (makes_units.print p) fun _ => ?_
  refine moves_bind_of (moves_getEtherDesc makes_units p) (fun w => getEtherDesc_finds p) fun e? he => ?_
  cases e? with
  | none => exact moves_bind (makes_units.next p) fun _ => moves_pure _
  | some e =>
    obtain ⟨hb, hf⟩ := he e rfl
    exact moves_etherSetting makes_selects makes_units (addNetif_makes hp hi hb hf)

theorem searchInterface_makes (currentInt : UInt8) :
    Moves (Makes m configEnd) (searchInterface env m fuel config configEnd currentInt) := by
  refine moves_loop (fun pos => ?_) fuel 0
  refine moves_bind_of (moves_getInterfaceDescriptor makes_units pos currentInt)
    (fun w => getInterfaceDescriptor_finds pos currentInt) fun p? hp => ?_
  cases p? with
  | none => exact moves_pure _
  | some p =>
    obtain ⟨hlt, hi⟩ := hp p rfl
    exact examineSetting_makes hlt hi

theorem bindInterfaces_makes : Moves (Makes m configEnd) (bindInterfaces env m fuel config configEnd) := by
  refine moves_loop (fun c => moves_bind makes_units.count fun count => ?_) fuel _
  exact moves_ite (moves_bind (searchInterface_makes c.1) fun _ => moves_pure _) (moves_pure _)

/-- Nothing is added before the interfaces are gone through. -/
theorem process_cases (env : Env) (fuel : Nat) (config : UInt8) (w : World) :
    (∃ cs, (processConfigDescriptor env fuel config w).2.calls = w.calls ++ cs ∧ netifs cs = []) ∨
      ∃ m, env.configDescriptor w.calls (config - 1) = some m ∧ (processConfigDescriptor env fuel config w).2 =
        (bindInterfaces env m fuel config (env.totalLength w.calls (config - 1))
          { w with calls := w.calls ++ [.setConfiguration config .success] }).2 := by
  unfold processConfigDescriptor
  simp only [bind, peek]
  split
  · exact Or.inl ⟨[], by simp [pure], rfl⟩
  · cases hm : env.configDescriptor w.calls (config - 1) with
    | none => exact Or.inl ⟨[], by simp [pure], rfl⟩
    | some m =>
      simp only [call, update]
      split
      · exact Or.inl ⟨[_], rfl, rfl⟩
      next he =>
        rw [not_not] at he
        exact Or.inr ⟨m, rfl, by rw [he]⟩

/-- The netif was made from an Ethernet descriptor of the configuration that was fetched
    after the calls `calls`. -/
def FromConfig (env : Env) (config : UInt8) (calls : List Call) (n : Added) : Prop :=
  ∃ m, env.configDescriptor calls (config - 1) = some m ∧ MadeFrom m (env.totalLength calls (config - 1)) n

theorem process_makes (env : Env) (fuel : Nat) (config : UInt8) (w : World) :
    ∃ cs, (processConfigDescriptor env fuel config w).2.calls = w.calls ++ cs ∧
      ∀ n ∈ netifs cs, FromConfig env config w.calls n := by
  rcases process_cases env fuel config w with ⟨cs, hcs, hnone⟩ | ⟨m, hm, hrun⟩
  · exact ⟨cs, hcs, by simp [hnone]⟩
  · have hmoves : Moves (Makes m (env.totalLength w.calls (config - 1)))
        (bindInterfaces env m fuel config (env.totalLength w.calls (config - 1))) := bindInterfaces_makes
    obtain ⟨cs, hcs, hmade⟩ := hmoves { w with calls := w.calls ++ [.setConfiguration config .success] }
    refine ⟨.setConfiguration config .success :: cs, ?_, fun n hn => ⟨m, hm, hmade n hn⟩⟩
    rw [hrun, hcs]
    simp

/-! ## The requests -/

/-- The netif that `netif_add` passes to `ecm_init_netif`; the fields that
    `process_config_descriptor` does not set hold what the two blocks held. -/
def Added.toNetif (n : Added) (raw : Netif) : Netif := { raw with stateMtu := n.mtu, macIndex := n.macIndex }

/-- The control requests that bringing up the netif sends. -/
def Added.requests (o : InitOutcome) (raw : Netif) (n : Added) : List ControlSetup :=
  (ecmInitNetif o (n.toNetif { raw with requests := [] })).2.requests

/-- `ecm_init_netif` sends one request, with the constant index. -/
theorem requests_eq (o : InitOutcome) (raw : Netif) (n : Added) : n.requests o raw = [⟨0x21, 0x43, 12, 1, 0⟩] := by
  obtain ⟨-, -, -, -, hsent⟩ := Ecm.initNetif_sets o (n.toNetif { raw with requests := [] })
  rw [Added.requests, hsent]
  rfl

/-- The requests of the netif are for the interface it was made from. -/
def RightIndex (o : InitOutcome) (raw : Netif) (n : Added) : Prop :=
  ∀ r ∈ n.requests o raw, r.wIndex = n.interface.toUInt16

instance (o : InitOutcome) (raw : Netif) (n : Added) : Decidable (RightIndex o raw n) :=
  inferInstanceAs (Decidable (∀ r ∈ n.requests o raw, _))

theorem rightIndex_iff (o : InitOutcome) (raw : Netif) (n : Added) : RightIndex o raw n ↔ n.interface = 1 := by
  rw [RightIndex, requests_eq, List.forall_mem_singleton]
  constructor
  · intro h
    have h8 := congrArg UInt16.toUInt8 h
    rw [UInt8.toUInt8_toUInt16] at h8
    exact h8.symm
  · intro h
    rw [h]
    rfl

/-- For every configuration descriptor, whatever the device answers and the heap held: each
    netif is made from the control interface of its number, and the filter requests are for
    these interfaces if and only if all of them have the number 1. -/
theorem filter_index_iff (env : Env) (fuel : Nat) (config : UInt8) (w : World) (o : Added → InitOutcome)
    (raw : Added → Netif) :
    ∃ cs, (processConfigDescriptor env fuel config w).2.calls = w.calls ++ cs ∧
      (∀ n ∈ netifs cs, FromConfig env config w.calls n) ∧
      ((∀ n ∈ netifs cs, RightIndex (o n) (raw n) n) ↔ ∀ n ∈ netifs cs, n.interface = 1) := by
  obtain ⟨cs, hcs, hmade⟩ := process_makes env fuel config w
  refine ⟨cs, hcs, hmade, ?_⟩
  exact forall₂_congr fun n _ => rightIndex_iff (o n) (raw n) n

/-- The control interface is 0, the data interface 1. -/
theorem a_filter_goes_to_the_data_interface :
    let calls := (processConfigDescriptor (deviceOf [ecmDevice.flatMap Desc.bytes]) 257 1 World.start).2.calls
    (netifs calls).map Added.interface = [0] ∧
      (netifs calls).map (fun n => (n.requests Ecm.goodInit (Ecm.malloced none)).map ControlSetup.wIndex) = [[1]] ∧
      ¬ ∀ n ∈ netifs calls, RightIndex Ecm.goodInit (Ecm.malloced none) n := by
  decide +kernel

end Nanotube.Device.Usb
