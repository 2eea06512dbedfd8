/-
  Nanotube.Device.Conforming — devices as the ECM class has them.

  An Ethernet interface (a block with an Ethernet functional descriptor) has one setting,
  without bulk endpoints, and a Union; the interfaces the Union lists have settings with
  no bulk endpoint, or with one bulk IN and one bulk OUT endpoint.

  Proved: for such a configuration, when all calls succeed, `process_config_descriptor`
  adds one netif for each Ethernet interface, in increasing number, with the MAC index and
  the MTU of its Ethernet descriptor and the endpoints of the first setting that has some
  of the last listed interface that has one; and it returns whether there is any
  (`conforming_binds`).
-/

import Mathlib.Data.List.Forall2
import Nanotube.Device.Binding
import Nanotube.Device.Configurations

namespace Nanotube.Device.Usb

open Nanotube.Lib.Loops
open Nanotube.Lib.Tiling
open Nanotube.Device.Ecm (UsbError)

/-! ## What a setting lists -/

namespace Block

def hasBulk (b : Block) : Bool := b.body.any Desc.isBulk

/-- Exactly one bulk IN and one bulk OUT endpoint, with nonzero endpoint numbers. -/
def OneEach (b : Block) : Prop :=
  (b.body.filter Desc.isBulkIn).length = 1 ∧ (b.body.filter Desc.isBulkOut).length = 1 ∧
    ∀ d ∈ b.body, d.isBulk → d.byte 2 &&& 0x0F ≠ 0

instance (b : Block) : Decidable b.OneEach := inferInstanceAs (Decidable (_ ∧ _))

end Block

/-- The first setting of interface `n` with bulk endpoints. -/
def firstBulk? (ds : List Desc) (n : UInt8) : Option Block := (settings n ds).find? Block.hasBulk

/-- The setting the endpoints come from: that of the last listed interface that has one. -/
def Block.data? (ds : List Desc) (b : Block) : Option Block := (b.subs.filterMap (firstBulk? ds)).getLast?

theorem lastOf_none {f : Desc → Bool} {ds : List Desc} (h : ds.filter f = []) (x : UInt8) : lastOf f ds x = x := by
  simp [lastOf, h]

theorem noBulk {f : Desc → Bool} (hf : ∀ d, f d → d.isBulk) {b : Block} (h : ¬ b.hasBulk) : b.body.filter f = [] :=
  List.filter_eq_nil_iff.mpr fun d hd hfd => h (List.any_eq_true.mpr ⟨d, hd, hf d hfd⟩)

theorem oneEach_hasBulk {b : Block} (h : b.OneEach) : b.hasBulk := by
  obtain ⟨i, hi⟩ := List.length_eq_one_iff.mp h.1
  obtain ⟨hb, hin⟩ := List.mem_filter.mp (hi ▸ List.mem_singleton_self i)
  exact List.any_eq_true.mpr ⟨i, hb, bulkIn_bulk i hin⟩

/-- The address of the only descriptor picked is not 0 when its endpoint number is not. -/
theorem lastOf_ne_zero {f : Desc → Bool} (hf : ∀ d, f d → d.isBulk) {ds : List Desc} (hlen : (ds.filter f).length = 1)
    (hnum : ∀ d ∈ ds, d.isBulk → d.byte 2 &&& 0x0F ≠ 0) (x : UInt8) : lastOf f ds x ≠ 0 := by
  obtain ⟨d, hd⟩ := List.length_eq_one_iff.mp hlen
  obtain ⟨hmem, hfd⟩ := List.mem_filter.mp (hd ▸ List.mem_singleton_self d)
  rw [show lastOf f ds x = d.byte 2 by simp [lastOf, hd]]
  intro h0
  have := hnum d hmem (hf d hfd)
  rw [h0] at this
  exact this rfl

theorem oneEach_addrs {b : Block} (h : b.OneEach) : b.inAddr ≠ 0 ∧ b.outAddr ≠ 0 :=
  ⟨lastOf_ne_zero bulkIn_bulk h.1 h.2.2 0, lastOf_ne_zero bulkOut_bulk h.2.1 h.2.2 0⟩

/-! ## Picking endpoints -/

/-- `usb_SetInterface`, `malloc` and `usb_GetDeviceEndpoint` always succeed. -/
structure Succeeds (env : Env) : Prop where
  setInterface : ∀ calls n a, env.setInterface calls n a = .success
  malloc : ∀ calls, env.malloc calls = true
  deviceEndpoint : ∀ calls a, env.deviceEndpoint calls a = true

variable {env : Env} {config : UInt8} {ds : List Desc}

theorem pick_conforming {bs : List Block} (hbs : ∀ s ∈ bs, ¬ s.hasBulk ∨ s.OneEach) {eps : Eps}
    (hin : eps.inEp = 0) (hout : eps.outEp = 0) :
    (pick? bs eps).map (fun p => (p.2.inEp, p.2.outEp)) =
      (bs.find? Block.hasBulk).map fun s => (s.inAddr, s.outAddr) := by
  induction bs generalizing eps with
  | nil => rfl
  | cons b bs ih =>
    have heIn : (b.endpoints eps).inEp = b.inAddr := by rw [b.endpoints_inEp, hin]; rfl
    have heOut : (b.endpoints eps).outEp = b.outAddr := by rw [b.endpoints_outEp, hout]; rfl
    rcases hbs b (List.mem_cons_self ..) with hno | hone
    · have hin0 : b.inAddr = 0 := lastOf_none (noBulk bulkIn_bulk hno) 0
      have hout0 : b.outAddr = 0 := lastOf_none (noBulk bulkOut_bulk hno) 0
      have hnot : ¬ (b.endpoints eps).Both := fun h => h.1 (heIn.trans hin0)
      rw [pick?, if_neg hnot, List.find?_cons_of_neg hno]
      exact ih (fun s hs => hbs s (List.mem_cons_of_mem _ hs)) (heIn.trans hin0) (heOut.trans hout0)
    · obtain ⟨hi, ho⟩ := oneEach_addrs hone
      have hboth : (b.endpoints eps).Both := ⟨heIn ▸ hi, heOut ▸ ho⟩
      rw [pick?, if_pos hboth, List.find?_cons_of_pos (oneEach_hasBulk hone), Option.map_some, Option.map_some,
        heIn, heOut]

theorem pickSetting_conforming (hok : Succeeds env) (n : UInt8) (ret : UInt8 × UInt8)
    (hn : ∀ s ∈ settings n ds, ¬ s.hasBulk ∨ s.OneEach) (calls : List Call) :
    ∃ cs, netifs cs = [] ∧ pickSetting env n ret (settings n ds) Eps.none calls =
      (((firstBulk? ds n).map fun s => (s.inAddr, s.outAddr)).getD ret, calls ++ cs) := by
  have hpick := @pick_conforming _ hn Eps.none rfl rfl
  unfold firstBulk? pickSetting
  rw [← hpick]
  cases pick? (settings n ds) Eps.none with
  | none => exact ⟨[], rfl, by rw [List.append_nil]; rfl⟩
  | some p =>
    by_cases hpos : 0 < n
    · refine ⟨[.setInterface p.1.number p.1.alternate .success], rfl, ?_⟩
      simp [hok.setInterface, hpos]
    · exact ⟨[], rfl, by simp [hpos]⟩

theorem pickAll_conforming (hok : Succeeds env) {ns : List UInt8}
    (hns : ∀ n ∈ ns, ∀ s ∈ settings n ds, ¬ s.hasBulk ∨ s.OneEach) (ret : UInt8 × UInt8) (calls : List Call) :
    ∃ cs, netifs cs = [] ∧ pickAll env ds ns ret calls =
      (((ns.filterMap (firstBulk? ds)).getLast?.map fun s => (s.inAddr, s.outAddr)).getD ret, calls ++ cs) := by
  induction ns generalizing ret calls with
  | nil => exact ⟨[], rfl, by simp [pickAll]⟩
  | cons n ns ih =>
    obtain ⟨cs, hcs, hpick⟩ := pickSetting_conforming hok n ret (hns n (List.mem_cons_self ..)) calls
    obtain ⟨cs', hcs', hall⟩ := ih (fun n' hn' => hns n' (List.mem_cons_of_mem _ hn'))
      (((firstBulk? ds n).map fun s => (s.inAddr, s.outAddr)).getD ret) (calls ++ cs)
    refine ⟨cs ++ cs', by rw [netifs_append, hcs, hcs']; rfl, ?_⟩
    rw [pickAll, hpick, hall, List.append_assoc, List.filterMap_cons]
    cases firstBulk? ds n with
    | none => rfl
    | some s =>
      cases ns.filterMap (firstBulk? ds) with
      | nil => rfl
      | cons t ts => simp [List.getLast?_eq_some_getLast]

/-! ## Adding netifs -/

/-- The netif made for the Ethernet interface `b`. -/
structure Bound (ds : List Desc) (b : Block) (a : Added) : Prop where
  interface : a.interface = b.number
  ether : ∃ d, b.ether? = some d ∧ a.macIndex = d.byte 3 ∧ a.mtu = (d.byte 8).toUInt16 + 256 * (d.byte 9).toUInt16
  data : ∃ s, b.data? ds = some s ∧ a.inAddr = s.inAddr ∧ a.outAddr = s.outAddr
  found : a.inFound = true ∧ a.outFound = true

theorem addBlock_succeeds (hok : Succeeds env) (config n : UInt8) (b : Block) (d : Desc) (inEp outEp : UInt8)
    (calls : List Call) :
    ∃ cs netif state calls', netifs cs = [netifOf env config n d inEp outEp netif state calls'] ∧
      addBlock env config n b d inEp outEp calls = (true, calls ++ cs) := by
  have hadded : (addBlock env config n b d inEp outEp calls).1 = true := by
    simp [addBlock, selectOf, mallocOf, hok.setInterface, hok.malloc]
  have hnetifs : netifs (selectCalls env b calls) = [] := by
    unfold selectCalls
    split <;> rfl
  obtain ⟨cs, hcs, hadd | ⟨-, netif, state, calls', hadd⟩⟩ := addBlock_cases env config n b d inEp outEp calls
  · rw [hadd] at hadded
    cases hadded
  · let a := netifOf env config n d inEp outEp netif state calls'
    refine ⟨selectCalls env b calls ++ cs ++ [.netifAdd a], netif, state, calls', ?_, ?_⟩
    · rw [netifs_append, netifs_append, hnetifs, netifs_heap hcs]
      rfl
    · rw [hadd, List.append_assoc, List.append_assoc, List.append_assoc]

/-! ## Conforming configurations -/

/-- The Ethernet interfaces, in increasing number. -/
def ethernets (ds : List Desc) : List Block :=
  (List.range 256).flatMap fun n => (settings n.toUInt8 ds).filter Block.isEthernet

structure Conforming (ds : List Desc) : Prop where
  fits : total ds ≤ 256
  numbers : ∀ b ∈ blocks ds, b.number < count ds
  single : ∀ b ∈ blocks ds, b.isEthernet → settings b.number ds = [b]
  control : ∀ b ∈ blocks ds, b.isEthernet → ¬ b.hasBulk
  union : ∀ b ∈ blocks ds, b.isEthernet → b.union?.isSome
  listed : ∀ b ∈ blocks ds, b.isEthernet → ∀ n ∈ b.subs, ∀ s ∈ settings n ds, ¬ s.hasBulk ∨ s.OneEach
  data : ∀ b ∈ blocks ds, b.isEthernet → ∃ n ∈ b.subs, ∃ s ∈ settings n ds, s.OneEach

theorem data_isSome (hc : Conforming ds) {b : Block} (hb : b ∈ blocks ds) (he : b.isEthernet) :
    ∃ s, b.data? ds = some s ∧ s.OneEach := by
  obtain ⟨n, hn, s, hs, hone⟩ := hc.data b hb he
  have hsome : (b.subs.filterMap (firstBulk? ds)) ≠ [] := by
    obtain ⟨t, ht⟩ : ∃ t, firstBulk? ds n = some t :=
      Option.isSome_iff_exists.mp (List.find?_isSome.mpr ⟨s, hs, oneEach_hasBulk hone⟩)
    exact List.ne_nil_of_mem (List.mem_filterMap.mpr ⟨n, hn, ht⟩)
  refine ⟨_, List.getLast?_eq_some_getLast hsome, ?_⟩
  obtain ⟨n', hn', ht'⟩ := List.mem_filterMap.mp (List.getLast_mem hsome)
  have hbulk := List.find?_some ht'
  exact (hc.listed b hb he n' hn' _ (List.mem_of_find?_eq_some ht')).resolve_left fun h => h hbulk

theorem searchSettings_other {n : UInt8} {bs : List Block} (h : ∀ b ∈ bs, ¬ b.isEthernet) (calls : List Call) :
    searchSettings env ds config n bs calls = (false, calls) := by
  induction bs with
  | nil => rfl
  | cons b bs ih =>
    have hb : b.ether? = none := Option.not_isSome_iff_eq_none.mp (h b (List.mem_cons_self ..))
    rw [searchSettings]
    simp only [hb]
    exact ih fun b' hb' => h b' (List.mem_cons_of_mem _ hb')

theorem searchSettings_ethernet (hok : Succeeds env) (hc : Conforming ds) (config : UInt8) {b : Block}
    (hb : b ∈ blocks ds) (he : b.isEthernet) (calls : List Call) :
    ∃ cs a, netifs cs = [a] ∧ Bound ds b a ∧ searchSettings env ds config b.number [b] calls = (true, calls ++ cs) := by
  obtain ⟨d, hd⟩ := Option.isSome_iff_exists.mp he
  obtain ⟨s, hs, hone⟩ := data_isSome hc hb he
  obtain ⟨cs, hcs, hall⟩ := pickAll_conforming hok (hc.listed b hb he) (0, 0) calls
  have hall : pickAll env ds b.subs (0, 0) calls = ((s.inAddr, s.outAddr), calls ++ cs) := by
    rw [hall, show (b.subs.filterMap (firstBulk? ds)).getLast? = some s from hs]
    rfl
  have hin : (b.endpoints ⟨s.inAddr, s.outAddr, 0⟩).inEp = s.inAddr := by
    rw [b.endpoints_inEp, lastOf_none (noBulk bulkIn_bulk (hc.control b hb he))]
  have hout : (b.endpoints ⟨s.inAddr, s.outAddr, 0⟩).outEp = s.outAddr := by
    rw [b.endpoints_outEp, lastOf_none (noBulk bulkOut_bulk (hc.control b hb he))]
  obtain ⟨hi, ho⟩ := oneEach_addrs hone
  have hboth : (b.endpoints ⟨s.inAddr, s.outAddr, 0⟩).Both :=
    ⟨fun h => hi (hin.symm.trans h), fun h => ho (hout.symm.trans h)⟩
  obtain ⟨cs', netif, state, calls', hcs', hadd⟩ :=
    addBlock_succeeds hok config b.number b d s.inAddr s.outAddr (calls ++ cs)
  refine ⟨cs ++ cs', netifOf env config b.number d s.inAddr s.outAddr netif state calls', ?_, ?_, ?_⟩
  · rw [netifs_append, hcs, hcs']
    rfl
  · exact ⟨rfl, ⟨d, hd, rfl, rfl⟩, ⟨s, hs, rfl, rfl⟩, hok.deviceEndpoint _ _, hok.deviceEndpoint _ _⟩
  · simp only [searchSettings, hd, hall]
    rw [if_pos hboth, hin, hout, hadd, List.append_assoc]

/-- One interface number adds the netifs of its Ethernet settings. -/
theorem searchSettings_conforming (hok : Succeeds env) (hc : Conforming ds) (config n : UInt8) (calls : List Call) :
    ∃ cs, List.Forall₂ (Bound ds) ((settings n ds).filter Block.isEthernet) (netifs cs) ∧
      searchSettings env ds config n (settings n ds) calls = (!(netifs cs).isEmpty, calls ++ cs) := by
  by_cases h : ∃ b ∈ settings n ds, b.isEthernet
  · obtain ⟨b, hb, he⟩ := h
    obtain ⟨hmem, hn⟩ := List.mem_filter.mp hb
    obtain rfl : b.number = n := of_decide_eq_true hn
    obtain ⟨cs, a, hcs, hbound, hsearch⟩ := searchSettings_ethernet hok hc config hmem he calls
    refine ⟨cs, ?_, ?_⟩
    · rw [hc.single b hmem he, hcs, List.filter_cons_of_pos he]
      exact .cons hbound .nil
    · rw [hc.single b hmem he, hcs]
      exact hsearch
  · have hno : ∀ b ∈ settings n ds, ¬ b.isEthernet := fun b hb he => h ⟨b, hb, he⟩
    refine ⟨[], ?_, ?_⟩
    · rw [List.filter_eq_nil_iff.mpr hno]
      exact .nil
    · rw [searchSettings_other hno, List.append_nil]
      rfl

theorem bindNumbers_conforming (hok : Succeeds env) (hc : Conforming ds) (config : UInt8) (ns : List UInt8)
    (found : Bool) (calls : List Call) :
    ∃ cs, List.Forall₂ (Bound ds) (ns.flatMap fun n => (settings n ds).filter Block.isEthernet) (netifs cs) ∧
      bindNumbers env ds config ns found calls = (found || !(netifs cs).isEmpty, calls ++ cs) := by
  induction ns generalizing found calls with
  | nil => exact ⟨[], .nil, by simp [bindNumbers, netifs]⟩
  | cons n ns ih =>
    obtain ⟨cs, hbound, hsearch⟩ := searchSettings_conforming hok hc config n calls
    obtain ⟨cs', hbound', hrest⟩ := ih (found || !(netifs cs).isEmpty) (calls ++ cs)
    refine ⟨cs ++ cs', ?_, ?_⟩
    · rw [netifs_append, List.flatMap_cons]
      exact List.rel_append hbound hbound'
    · rw [bindNumbers, hsearch]
      simp only
      rw [hrest, netifs_append, List.append_assoc]
      cases netifs cs <;> simp

/-- Interface numbers are below `bNumInterfaces`, so no Ethernet interface is missed. -/
theorem ethernets_eq (hc : Conforming ds) :
    (numbersFrom 0 (count ds)).flatMap (fun n => (settings n ds).filter Block.isEthernet) = ethernets ds := by
  have hlt := (count ds).toNat_lt
  have hsplit : List.range 256 =
      List.range' 0 (count ds).toNat ++ List.range' (count ds).toNat (256 - (count ds).toNat) := by
    rw [List.range_eq_range', show 256 = (count ds).toNat + (256 - (count ds).toNat) by omega, ← List.range'_append_1]
    congr 2 <;> omega
  have hrest : (List.range' (count ds).toNat (256 - (count ds).toNat)).flatMap
      (fun n => (settings n.toUInt8 ds).filter Block.isEthernet) = [] := by
    apply List.flatMap_eq_nil_iff.mpr
    intro n hn
    obtain ⟨hge, hn⟩ := List.mem_range'_1.mp hn
    rw [show settings n.toUInt8 ds = [] from ?_]
    · rfl
    · apply List.filter_eq_nil_iff.mpr
      intro b hb hnum
      have := UInt8.lt_iff_toNat_lt.mp (hc.numbers b hb)
      rw [of_decide_eq_true hnum, Nat.toUInt8_eq, UInt8.toNat_ofNat'] at this
      omega
  unfold ethernets numbersFrom
  rw [hsplit, List.flatMap_append, hrest, List.append_nil, List.flatMap_map]
  rfl

/-- A conforming configuration gets one netif for each Ethernet interface, in increasing
    number, and the result says whether there is one. -/
theorem conforming_binds {fuel : Nat} {w : World} (hc : Conforming ds) (hdev : Attached env w.calls config ds)
    (haccept : ∀ calls, env.setConfiguration calls config = .success) (hok : Succeeds env) (hfuel : 256 < fuel) :
    ∃ w' cs, processConfigDescriptor env fuel config w = (some !(ethernets ds).isEmpty, w') ∧ w'.calls = w.calls ++ cs ∧
      List.Forall₂ (Bound ds) (ethernets ds) (netifs cs) := by
  obtain ⟨cs, hbound, hbind⟩ := bindNumbers_conforming hok hc config (numbersFrom 0 (count ds)) false
    (w.calls ++ [.setConfiguration config .success])
  rw [ethernets_eq hc] at hbound
  have hempty : (netifs cs).isEmpty = (ethernets ds).isEmpty := by
    generalize ethernets ds = bs, netifs cs = as at hbound
    cases hbound <;> rfl
  have hprocess : processConfig env ds config w.calls =
      (!(ethernets ds).isEmpty, w.calls ++ (.setConfiguration config .success :: cs)) := by
    have hfits : ¬ MAX_CONFIG_LENGTH < total ds := Nat.not_lt.mpr hc.fits
    simp only [processConfig, hfits, haccept, ne_eq, not_true_eq_false, if_false, hbind, hempty, Bool.false_or]
    rw [List.append_assoc]
    rfl
  have hrun := processConfigDescriptor_list hfuel hdev
  rw [hprocess] at hrun
  obtain ⟨found, w', hret, h⟩ := wp_total hrun
  obtain ⟨rfl, hcalls⟩ := Prod.mk.inj h
  exact ⟨w', _, hret, hcalls, hbound⟩

theorem an_ecm_device_is_bound :
    ∃ w' cs, processConfigDescriptor (deviceOf [ecmDevice.flatMap Desc.bytes]) 257 1 World.start = (some true, w') ∧
      w'.calls = cs ∧ List.Forall₂ (Bound ecmDevice) (ethernets ecmDevice) (netifs cs) ∧ (netifs cs).length = 1 := by
  have hconf : Conforming ecmDevice :=
    ⟨by decide, by decide, by decide +kernel, by decide, by decide, by decide +kernel, by decide⟩
  have hok : Succeeds (deviceOf [ecmDevice.flatMap Desc.bytes]) := ⟨fun _ _ _ => rfl, fun _ => rfl, fun _ _ => rfl⟩
  have hone : (ethernets ecmDevice).length = 1 := by decide +kernel
  obtain ⟨w', cs, hrun, hcalls, hbound⟩ := conforming_binds hconf (w := World.start) (attached_deviceOf (by decide) [])
    (fun _ => rfl) hok (by decide : 256 < 257)
  refine ⟨w', cs, ?_, hcalls, hbound, hbound.length_eq.symm.trans hone⟩
  rw [hrun]
  congr 1

end Nanotube.Device.Usb
