/-
  Nanotube.Device.Agreement — the walks over the bytes and the list of descriptors say the
  same (src/device/usb.c `get_interface_descriptor`, `get_endpoints`; src/device/ecm.c
  `get_ether_desc`, `get_subordinate_ints`).

  The buffer is the concatenation of a list of descriptors. The four walks are then four
  functions of the list (`Listed`): the place of the first interface descriptor with a
  number, the last endpoint of each kind in a block, the place of its first Ethernet
  descriptor, and the tail of its first Union. Each walk also returns.

  Proved: for every list, from every boundary and at every interface descriptor
  (`walks_agree`), whatever lies behind the buffer.
-/

import Nanotube.Device.Binding

namespace Nanotube.Device.Usb

open Nanotube.Lib.Loops
open Nanotube.Lib.Tiling

variable {m : Mem} {fuel configEnd : Nat} {w : World}

/-! ## Functions of the list -/

def Desc.isNumber (n : UInt8) (d : Desc) : Bool := d.isInterface && d.byte 2 == n

def Desc.isInterruptIn (d : Desc) : Bool :=
  (d.byte 1 = USB_ENDPOINT_DESCRIPTOR ∧ d.byte 3 = USB_INTERRUPT_TRANSFER) && d.byte 2 &&& 0x80 != 0

/-- The last endpoint of each kind among `ds`; a variable with none is left as it is. -/
def lastEps (ds : List Desc) (eps : Eps) : Eps :=
  ⟨lastOf Desc.isBulkIn ds eps.inEp, lastOf Desc.isBulkOut ds eps.outEp, lastOf Desc.isInterruptIn ds eps.inter⟩

/-- What stands behind the fixed part of the first Union among `ds`. -/
def unionTail (ds : List Desc) : List UInt8 :=
  ((ds.find? (Desc.isFunctional CDC_UNION_SUBTYPE)).map fun d => d.bytes.drop 4).getD []

/-- The walks from the descriptors `pre` on, in the memory that holds `pre ++ post`. -/
structure Listed (m : Mem) (fuel : Nat) (w : World) (pre post : List Desc) : Prop where
  interface : ∀ n, (getInterfaceDescriptor m fuel (total pre) (total (pre ++ post)) n w).1 =
    some (place Desc.bytes (Desc.isNumber n) (total pre) post)
  endpoints : ∀ d rest, post = d :: rest → d.isInterface → ∀ eps,
    (getEndpoints m fuel (total pre) (total (pre ++ post)) eps w).1 = some (lastEps (bodyOf rest) eps)
  ethernet : ∀ d rest, post = d :: rest → d.isInterface →
    (getEtherDesc m fuel (total pre) (total (pre ++ post)) w).1 =
      some (place Desc.bytes (Desc.isFunctional CDC_ETHERNET_NETWORKING_SUBTYPE) (total (pre ++ [d])) (bodyOf rest))
  subordinates : ∀ d rest, post = d :: rest → d.isInterface → ∃ subs,
    (getSubordinateInts m fuel (total pre) (total (pre ++ post)) w).1 = some subs ∧
      subs.ints =
        (place Desc.bytes (Desc.isFunctional CDC_UNION_SUBTYPE) (total (pre ++ [d])) (bodyOf rest)).map (· + 4) ∧
      Lists m subs (unionTail (bodyOf rest))

/-! ## Endpoints -/

theorem Desc.apply_inter (d : Desc) (eps : Eps) :
    (d.apply eps).inter = if d.isInterruptIn then d.byte 2 else eps.inter := by
  have hne : USB_INTERRUPT_TRANSFER ≠ USB_BULK_TRANSFER := by decide
  unfold Desc.apply Desc.isInterruptIn Eps.take
  by_cases ht : d.byte 1 = USB_ENDPOINT_DESCRIPTOR
  · by_cases hb : d.byte 3 = USB_INTERRUPT_TRANSFER
    · by_cases hi : d.byte 2 &&& 0x80 = 0 <;> simp [ht, hb, hi, hne]
    · simp only [ht, hb, if_true, false_and, and_false, if_false, decide_false, Bool.false_and, Bool.false_eq_true]
      split
      · split <;> rfl
      · rfl
  · simp [ht]

theorem foldl_apply (ds : List Desc) (eps : Eps) : ds.foldl (fun eps d => d.apply eps) eps = lastEps ds eps := by
  induction ds generalizing eps with
  | nil => rfl
  | cons d ds ih =>
    obtain ⟨hin, hout⟩ := d.apply_eps eps
    simp only [List.foldl_cons, ih, lastEps, lastOf_cons, hin, hout, d.apply_inter]

/-! ## The walks -/

theorem leads_place {n : UInt8} {p : Nat} {ds : List Desc} {r : Option Nat} (ht : Tiled m configEnd p ds)
    (h : Leads (interfaceNext m configEnd n) p r) : r = place Desc.bytes (Desc.isNumber n) p ds := by
  induction ds generalizing p with
  | nil => exact h.of_leave (interfaceNext_nil ht)
  | cons d ds ih =>
    have hnext := interfaceNext_cons (n := n) ht
    have hiff : d.isNumber n ↔ d.isInterface ∧ d.byte 2 = n := by simp [Desc.isNumber]
    by_cases hd : d.isNumber n
    · rw [if_pos (hiff.mp hd)] at hnext
      rw [place_cons_of_pos hd]
      exact h.of_leave hnext
    · rw [if_neg (fun hi => hd (hiff.mpr hi))] at hnext
      rw [place_cons_of_neg hd]
      exact ih ht.2 (h.of_again hnext)

theorem returns_of_wp {α : Type} {p : Prog World α} {r : α} (h : wp p (fun a _ => a = r) (fun _ => False) w) :
    (p w).1 = some r := by
  obtain ⟨a, w', hp, rfl⟩ := wp_total h
  rw [hp]

section Listed

variable (hfuel : configEnd < fuel) {p : Nat}

include hfuel

theorem getInterfaceDescriptor_place {ds : List Desc} (ht : Tiled m configEnd p ds) (n : UInt8) :
    (getInterfaceDescriptor m fuel p configEnd n w).1 = some (place Desc.bytes (Desc.isNumber n) p ds) := by
  refine returns_of_wp (wp_mono (getInterfaceDescriptor_total hfuel ht n) ?_ (fun _ hf => hf))
  exact fun r w' h => leads_place ht h.1

variable {d : Desc} {rest : List Desc} (ht : Tiled m configEnd p (d :: rest))

include ht

theorem getEtherDesc_place :
    (getEtherDesc m fuel p configEnd w).1 =
      some (place Desc.bytes (Desc.isFunctional CDC_ETHERNET_NETWORKING_SUBTYPE) (p + d.bytes.length)
        (bodyOf rest)) := by
  refine returns_of_wp (wp_mono (blockWalk_total ether_computes hfuel ht ()) ?_ (fun _ hf => hf))
  intro r w' h
  rcases leads_find ht.2 h.1 with ⟨-, hplace, hr⟩ | ⟨e, q, -, hplace, -, hr⟩
  · rw [hr, hplace]
  · rw [hr, hplace]

theorem getSubordinateInts_place :
    wp (getSubordinateInts m fuel p configEnd)
      (fun r _ => r.ints =
        (place Desc.bytes (Desc.isFunctional CDC_UNION_SUBTYPE) (p + d.bytes.length) (bodyOf rest)).map (· + 4))
      (fun _ => False) w := by
  refine wp_mono (blockWalk_total union_computes hfuel ht ()) ?_ (fun _ hf => hf)
  intro r w' h
  rcases leads_find ht.2 h.1 with ⟨-, hplace, hr⟩ | ⟨e, q, -, hplace, -, hr⟩
  · rw [hr, hplace]
    rfl
  · rw [hr, hplace]
    rfl

end Listed

theorem total_append (as bs : List Desc) : total (as ++ bs) = total as + total bs := by
  simp [total]

/-- The buffer holds the descriptors `pre ++ post`, and what lies behind it does not matter:
    with enough fuel for it, the walks from the boundary in between return what the list
    says. -/
theorem walks_agree (m : Mem) (pre post : List Desc) (hmem : Begins m 0 ((pre ++ post).flatMap Desc.bytes))
    (fuel : Nat) (hfuel : total (pre ++ post) < fuel) (w : World) : Listed m fuel w pre post := by
  have hall : Tiled m (total (pre ++ post)) 0 (pre ++ post) := by
    have htiles := tiles_of_begins hmem
    rwa [Nat.zero_add] at htiles
  have ht : Tiled m (total (pre ++ post)) (total pre) post := by
    have hpost := tiles_append hall
    rwa [Nat.zero_add] at hpost
  have hnext : ∀ d : Desc, total (pre ++ [d]) = total pre + d.bytes.length := by
    intro d
    rw [total_append]
    simp [total]
  refine ⟨fun n => getInterfaceDescriptor_place hfuel ht n, ?_, ?_, ?_⟩
  · rintro d rest rfl hd eps
    have hb : BlockAt m (total (pre ++ d :: rest)) ⟨d, bodyOf rest⟩ (total pre) rest := ⟨ht, rfl, hd⟩
    refine returns_of_wp (wp_mono (getEndpoints_list hfuel hb eps) ?_ (fun _ hf => hf))
    intro r w' h
    rw [h.1, Block.endpoints, foldl_apply]
  · rintro d rest rfl hd
    rw [hnext]
    exact getEtherDesc_place hfuel ht
  · rintro d rest rfl hd
    have hb : BlockAt m (total (pre ++ d :: rest)) ⟨d, bodyOf rest⟩ (total pre) rest := ⟨ht, rfl, hd⟩
    obtain ⟨subs, w', hp, hlists, -⟩ := wp_total (getSubordinateInts_list (w := w) hfuel hb)
    obtain ⟨subs', w'', hp', hints⟩ := wp_total (getSubordinateInts_place (w := w) hfuel ht)
    rw [hp] at hp'
    cases hp'
    refine ⟨subs, by rw [hp], ?_, hlists⟩
    rw [hnext]
    exact hints

/-- At the control interface of an ECM device: the Ethernet descriptor behind it, the data
    interface that its Union lists, and its one endpoint, which is an interrupt endpoint. -/
theorem an_ecm_buffer_is_walked :
    Listed (ofBytes (ecmDevice.flatMap Desc.bytes)) 256 World.start (ecmDevice.take 1) (ecmDevice.drop 1) ∧
      place Desc.bytes (Desc.isFunctional CDC_ETHERNET_NETWORKING_SUBTYPE) 18 (bodyOf (ecmDevice.drop 2)) = some 18 ∧
      unionTail (bodyOf (ecmDevice.drop 2)) = [1] ∧ lastEps (bodyOf (ecmDevice.drop 2)) Eps.none = ⟨0, 0, 0x83⟩ :=
  ⟨walks_agree _ (ecmDevice.take 1) (ecmDevice.drop 1) (begins_ofBytes _) 256 (by decide) World.start, by decide,
    by decide, by decide⟩

end Nanotube.Device.Usb
