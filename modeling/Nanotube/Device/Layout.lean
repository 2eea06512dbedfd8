/-
  Nanotube.Device.Layout — a configuration descriptor as a list of descriptors, and what
  the walks find in it.

  A `Desc` is a descriptor whose length byte is its size and which has the fixed part of
  its type. An interface descriptor and the descriptors up to the next one are a block: a
  setting of the interface. Where the memory is tiled by descriptors, the walks return
  what the list says: `get_interface_descriptor` the next block of its number
  (`getInterfaceDescriptor_list`), and the walks over a block what its body holds
  (`getEndpoints_list`, `getEtherDesc_list`, `getSubordinateInts_list`).
-/

import Nanotube.Device.Walks
import Nanotube.Lib.Tiling

namespace Nanotube.Device.Usb

open Nanotube.Lib.Loops
open Nanotube.Lib.Tiling

/-- The fixed part of a descriptor, by type and subtype. -/
def fixedPart (type subtype : UInt8) : Nat :=
  if type = USB_INTERFACE_DESCRIPTOR then 9
  else if type = USB_ENDPOINT_DESCRIPTOR then 7
  else if type = USB_CS_INTERFACE_DESCRIPTOR then
    if subtype = CDC_ETHERNET_NETWORKING_SUBTYPE then 13 else if subtype = CDC_UNION_SUBTYPE then 4 else 3
  else 2

structure Desc where
  bytes : List UInt8
  size : (bytes.getD 0 0).toNat = bytes.length
  fixed : fixedPart (bytes.getD 1 0) (bytes.getD 2 0) ≤ bytes.length
deriving DecidableEq

namespace Desc

def byte (d : Desc) (k : Nat) : UInt8 := d.bytes.getD k 0

def isInterface (d : Desc) : Bool := d.byte 1 = USB_INTERFACE_DESCRIPTOR

def isFunctional (subtype : UInt8) (d : Desc) : Bool := d.byte 1 = USB_CS_INTERFACE_DESCRIPTOR ∧ d.byte 2 = subtype

/-- The endpoint variables after this descriptor. -/
def apply (d : Desc) (eps : Eps) : Eps :=
  if d.byte 1 = USB_ENDPOINT_DESCRIPTOR then eps.take (d.byte 3) (d.byte 2) else eps

theorem two_le (d : Desc) : 2 ≤ d.bytes.length := by
  refine Nat.le_trans ?_ d.fixed
  unfold fixedPart
  split
  · omega
  · split
    · omega
    · split
      · split
        · omega
        · split <;> omega
      · omega

theorem interface_length {d : Desc} (h : d.isInterface) : 9 ≤ d.bytes.length := by
  have hf := d.fixed
  have ht : d.bytes.getD 1 0 = USB_INTERFACE_DESCRIPTOR := of_decide_eq_true h
  rw [fixedPart, if_pos ht] at hf
  exact hf

theorem endpoint_length {d : Desc} (h : d.byte 1 = USB_ENDPOINT_DESCRIPTOR) : 7 ≤ d.bytes.length := by
  have hf := d.fixed
  have ht : d.bytes.getD 1 0 = USB_ENDPOINT_DESCRIPTOR := h
  rw [fixedPart, if_neg (by rw [ht]; decide), if_pos ht] at hf
  exact hf

theorem cs_length {d : Desc} (h : d.byte 1 = USB_CS_INTERFACE_DESCRIPTOR) : 3 ≤ d.bytes.length := by
  have hf := d.fixed
  have ht : d.bytes.getD 1 0 = USB_CS_INTERFACE_DESCRIPTOR := h
  rw [fixedPart, if_neg (by rw [ht]; decide), if_neg (by rw [ht]; decide), if_pos ht] at hf
  split at hf
  · omega
  · split at hf <;> omega

theorem ethernet_length {d : Desc} (h : d.isFunctional CDC_ETHERNET_NETWORKING_SUBTYPE) : 13 ≤ d.bytes.length := by
  have hf := d.fixed
  obtain ⟨ht, hs⟩ : d.bytes.getD 1 0 = USB_CS_INTERFACE_DESCRIPTOR ∧
      d.bytes.getD 2 0 = CDC_ETHERNET_NETWORKING_SUBTYPE :=
    of_decide_eq_true h
  rw [fixedPart, if_neg (by rw [ht]; decide), if_neg (by rw [ht]; decide), if_pos ht, if_pos hs] at hf
  exact hf

theorem union_length {d : Desc} (h : d.isFunctional CDC_UNION_SUBTYPE) : 4 ≤ d.bytes.length := by
  have hf := d.fixed
  obtain ⟨ht, hs⟩ : d.bytes.getD 1 0 = USB_CS_INTERFACE_DESCRIPTOR ∧ d.bytes.getD 2 0 = CDC_UNION_SUBTYPE :=
    of_decide_eq_true h
  rw [fixedPart, if_neg (by rw [ht]; decide), if_neg (by rw [ht]; decide), if_pos ht, if_neg (by rw [hs]; decide),
    if_pos hs] at hf
  exact hf

end Desc

/-- A setting of an interface: its descriptor and those up to the next interface. -/
structure Block where
  head : Desc
  body : List Desc
deriving DecidableEq

/-- The descriptors that belong to the interface descriptor before them. -/
def bodyOf (ds : List Desc) : List Desc := ds.takeWhile fun d => !d.isInterface

def blocks : List Desc → List Block
  | [] => []
  | d :: ds => if d.isInterface then ⟨d, bodyOf ds⟩ :: blocks ds else blocks ds

namespace Block

def number (b : Block) : UInt8 := b.head.byte 2

def alternate (b : Block) : UInt8 := b.head.byte 3

def endpoints (b : Block) (eps : Eps) : Eps := b.body.foldl (fun eps d => d.apply eps) eps

def ether? (b : Block) : Option Desc := b.body.find? (Desc.isFunctional CDC_ETHERNET_NETWORKING_SUBTYPE)

def isEthernet (b : Block) : Bool := b.ether?.isSome

def union? (b : Block) : Option Desc := b.body.find? (Desc.isFunctional CDC_UNION_SUBTYPE)

/-- The interfaces listed in the Union. -/
def subs (b : Block) : List UInt8 := (b.union?.map fun d => d.bytes.drop 4).getD []

end Block

/-- The settings of interface `n`, in order. -/
def settings (n : UInt8) (ds : List Desc) : List Block := (blocks ds).filter fun b => b.number = n

/-! ## Bulk endpoints -/

def Desc.isBulk (d : Desc) : Bool := d.byte 1 = USB_ENDPOINT_DESCRIPTOR ∧ d.byte 3 = USB_BULK_TRANSFER

def Desc.isBulkIn (d : Desc) : Bool := d.isBulk && d.byte 2 &&& 0x80 != 0

def Desc.isBulkOut (d : Desc) : Bool := d.isBulk && d.byte 2 &&& 0x80 == 0

theorem bulkIn_bulk (d : Desc) (h : d.isBulkIn) : d.isBulk := (Bool.and_eq_true_iff.mp h).1

theorem bulkOut_bulk (d : Desc) (h : d.isBulkOut) : d.isBulk := (Bool.and_eq_true_iff.mp h).1

/-- The address of the last of these descriptors that `f` picks; `x` when there is none. -/
def lastOf (f : Desc → Bool) (ds : List Desc) (x : UInt8) : UInt8 :=
  ((ds.filter f).getLast?.map fun d => d.byte 2).getD x

theorem lastOf_cons (f : Desc → Bool) (d : Desc) (ds : List Desc) (x : UInt8) :
    lastOf f (d :: ds) x = lastOf f ds (if f d then d.byte 2 else x) := by
  unfold lastOf
  by_cases hd : f d
  · rw [List.filter_cons_of_pos hd, if_pos hd]
    cases h : ds.filter f with
    | nil => rfl
    | cons e es =>
      rw [List.getLast?_cons_cons]
      cases hl : (e :: es).getLast? with
      | none => simp at hl
      | some y => rfl
  · rw [List.filter_cons_of_neg hd, if_neg hd]

/-- A descriptor sets the endpoint that it is a bulk endpoint for, and no other. -/
theorem Desc.apply_eps (d : Desc) (eps : Eps) :
    (d.apply eps).inEp = (if d.isBulkIn then d.byte 2 else eps.inEp) ∧
      (d.apply eps).outEp = if d.isBulkOut then d.byte 2 else eps.outEp := by
  unfold Desc.apply Desc.isBulkIn Desc.isBulkOut Desc.isBulk Eps.take
  by_cases ht : d.byte 1 = USB_ENDPOINT_DESCRIPTOR
  · by_cases hb : d.byte 3 = USB_BULK_TRANSFER
    · by_cases hi : d.byte 2 &&& 0x80 = 0 <;> simp [ht, hb, hi]
    · simp only [ht, hb, if_true, if_false, and_false, decide_false, Bool.false_and, Bool.false_eq_true]
      split <;> exact ⟨rfl, rfl⟩
  · simp [ht]

namespace Block

/-- The address of the last bulk IN endpoint, 0 for none; and of the last bulk OUT. -/
def inAddr (b : Block) : UInt8 := lastOf Desc.isBulkIn b.body 0

def outAddr (b : Block) : UInt8 := lastOf Desc.isBulkOut b.body 0

theorem endpoints_inEp (b : Block) (eps : Eps) : (b.endpoints eps).inEp = lastOf Desc.isBulkIn b.body eps.inEp := by
  unfold endpoints
  induction b.body generalizing eps with
  | nil => rfl
  | cons d ds ih => rw [List.foldl_cons, ih, lastOf_cons, (d.apply_eps eps).1]

theorem endpoints_outEp (b : Block) (eps : Eps) : (b.endpoints eps).outEp = lastOf Desc.isBulkOut b.body eps.outEp := by
  unfold endpoints
  induction b.body generalizing eps with
  | nil => rfl
  | cons d ds ih => rw [List.foldl_cons, ih, lastOf_cons, (d.apply_eps eps).2]

end Block

/-! ## A descriptor in memory -/

variable {m : Mem} {fuel configEnd : Nat} {w : World}

abbrev Tiled (m : Mem) (configEnd p : Nat) (ds : List Desc) : Prop := Tiles Desc.bytes m configEnd p ds

abbrev DescAt (m : Mem) (p : Nat) (d : Desc) : Prop := Begins m p d.bytes

theorem DescAt.byte {p k : Nat} {d : Desc} (h : DescAt m p d) (hk : k < d.bytes.length) : m (p + k) = d.byte k := by
  have := h k hk
  rw [Desc.byte, List.getD_eq_getElem?_getD, this]
  rfl

theorem DescAt.length {p : Nat} {d : Desc} (h : DescAt m p d) : (m p).toNat = d.bytes.length := by
  have := h.byte (k := 0) (by have := d.two_le; omega)
  rw [Nat.add_zero] at this
  rw [this]
  exact d.size

theorem DescAt.ne_zero {p : Nat} {d : Desc} (h : DescAt m p d) : m p ≠ 0 := by
  intro h0
  have hlen := h.length
  rw [h0] at hlen
  have := d.two_le
  simp at hlen
  omega

theorem DescAt.type {p : Nat} {d : Desc} (h : DescAt m p d) : m (p + 1) = d.byte 1 :=
  h.byte (by have := d.two_le; omega)

theorem DescAt.isInterface {p : Nat} {d : Desc} (h : DescAt m p d) (n : UInt8) :
    IsInterface m n p ↔ d.isInterface ∧ d.byte 2 = n := by
  unfold IsInterface
  rw [h.type]
  constructor
  · intro hi
    have hd : d.isInterface := decide_eq_true hi.1
    have := d.interface_length hd
    exact ⟨hd, by rw [← h.byte (k := 2) (by omega)]; exact hi.2⟩
  · intro hi
    have := d.interface_length hi.1
    exact ⟨of_decide_eq_true hi.1, by rw [h.byte (k := 2) (by omega)]; exact hi.2⟩

theorem DescAt.isFunctional {p : Nat} {d : Desc} (h : DescAt m p d) (subtype : UInt8) :
    IsFunctional m subtype p ↔ d.isFunctional subtype := by
  unfold IsFunctional Desc.isFunctional
  rw [h.type, decide_eq_true_iff]
  constructor
  · intro hf
    have := d.cs_length hf.1
    exact ⟨hf.1, by rw [← h.byte (k := 2) (by omega)]; exact hf.2⟩
  · intro hf
    have := d.cs_length hf.1
    exact ⟨hf.1, by rw [h.byte (k := 2) (by omega)]; exact hf.2⟩

theorem DescAt.epsAt {p : Nat} {d : Desc} (h : DescAt m p d) (eps : Eps) : epsAt m p eps = d.apply eps := by
  unfold Usb.epsAt Desc.apply
  rw [h.type]
  split
  · rename_i ht
    have := d.endpoint_length ht
    rw [h.byte (k := 3) (by omega), h.byte (k := 2) (by omega)]
  · rfl

theorem tiled_inside {p : Nat} {d : Desc} {ds : List Desc} (h : Tiled m configEnd p (d :: ds)) : p < configEnd := by
  have hle := tiles_le h.2
  have := d.two_le
  omega

/-! ## Walks over a tiled memory return -/

section Total

variable {α β : Type} {body : α → Prog World (Turn α β)} {f : α → Turn α β} {pos : α → Nat}

theorem walk_total (h : Advances m configEnd body f pos) {T : α → Prop}
    (hT : ∀ a a', T a → f a = .again a' → T a' ∧ m (pos a) ≠ 0) {a : α} (ha : T a) (hfuel : configEnd - pos a < fuel) :
    wp (loop body fuel a) (fun b w' => Leads f a b ∧ w'.calls = w.calls) (fun _ => False) w := by
  refine wp_loop_variant (I := fun c w' => T c ∧ w'.calls = w.calls ∧ ∀ b, Leads f c b → Leads f a b)
    (fun a => configEnd - pos a) ?_ hfuel ⟨ha, rfl, fun _ hb => hb⟩
  intro c w₁ hc
  obtain ⟨hTc, hcalls, hback⟩ := hc
  refine wp_mono (h.turn c w₁) ?_ (fun _ hf => hf)
  intro t w₂ ht
  obtain ⟨rfl, -, hcalls'⟩ := ht
  cases hc : f c with
  | leave b => exact ⟨hback b (.leave hc), hcalls'.trans hcalls⟩
  | again c' =>
    obtain ⟨hT', hne⟩ := hT c c' hTc hc
    obtain ⟨hlt, hpos⟩ := h.next c c' hc
    have hlen := toNat_pos hne
    exact ⟨⟨hT', hcalls'.trans hcalls, fun b hb => hback b (.again hc hb)⟩, by omega⟩

end Total

/-! ## The search -/

theorem interfaceNext_nil {n : UInt8} {p : Nat} (h : Tiled m configEnd p []) :
    interfaceNext m configEnd n p = .leave none := by
  have hp : p = configEnd := h
  simp [interfaceNext, hp]

theorem interfaceNext_cons {n : UInt8} {p : Nat} {d : Desc} {ds : List Desc} (h : Tiled m configEnd p (d :: ds)) :
    interfaceNext m configEnd n p =
      if d.isInterface ∧ d.byte 2 = n then .leave (some p) else .again (p + d.bytes.length) := by
  have hlt := tiled_inside h
  have hd : DescAt m p d := h.1
  simp only [interfaceNext, if_pos hlt, hd.isInterface n, hd.length]

/-- The block stands at `q`, with `rest` behind its interface descriptor. -/
structure BlockAt (m : Mem) (configEnd : Nat) (b : Block) (q : Nat) (rest : List Desc) : Prop where
  tiled : Tiled m configEnd q (b.head :: rest)
  body : b.body = bodyOf rest
  interface : b.head.isInterface

theorem BlockAt.byte {b : Block} {q k : Nat} {rest : List Desc} (h : BlockAt m configEnd b q rest) (hk : k < 9) :
    m (q + k) = b.head.byte k := by
  have hat : DescAt m q b.head := h.tiled.1
  have := b.head.interface_length h.interface
  exact hat.byte (by omega)

/-- What the search from `p` finds: nothing, or the first block of its number. -/
def Found (m : Mem) (configEnd p : Nat) (n : UInt8) (r : Option Nat) : List Block → Prop
  | [] => r = none
  | b :: bs => ∃ q rest, r = some q ∧ p ≤ q ∧ BlockAt m configEnd b q rest ∧ b.number = n ∧ settings n rest = bs

theorem Found.mono {n : UInt8} {p p' : Nat} {r : Option Nat} {bs : List Block} (h : Found m configEnd p n r bs)
    (hp : p' ≤ p) : Found m configEnd p' n r bs := by
  cases bs with
  | nil => exact h
  | cons b bs =>
    obtain ⟨q, rest, hr, hle, hq⟩ := h
    exact ⟨q, rest, hr, by omega, hq⟩

theorem leads_settings {n : UInt8} {p : Nat} {ds : List Desc} {r : Option Nat} (ht : Tiled m configEnd p ds)
    (h : Leads (interfaceNext m configEnd n) p r) : Found m configEnd p n r (settings n ds) := by
  induction ds generalizing p with
  | nil =>
    obtain rfl := h.of_leave (interfaceNext_nil (n := n) ht)
    rfl
  | cons d ds ih =>
    have hnext := interfaceNext_cons (n := n) ht
    by_cases hd : d.isInterface ∧ d.byte 2 = n
    · have hset : settings n (d :: ds) = ⟨d, bodyOf ds⟩ :: settings n ds := by
        simp [settings, blocks, hd.1, Block.number, hd.2]
      rw [if_pos hd] at hnext
      rw [hset]
      exact ⟨p, ds, h.of_leave hnext, Nat.le_refl _, ⟨ht, rfl, hd.1⟩, hd.2, rfl⟩
    · have hset : settings n (d :: ds) = settings n ds := by
        unfold settings
        rw [blocks]
        split
        · rename_i hi
          have hne : ¬ d.byte 2 = n := fun he => hd ⟨hi, he⟩
          simp [Block.number, hne]
        · rfl
      rw [if_neg hd] at hnext
      rw [hset]
      exact (ih ht.2 (h.of_again hnext)).mono (Nat.le_add_right _ _)

theorem getInterfaceDescriptor_total (hfuel : configEnd < fuel) {p : Nat} {ds : List Desc}
    (ht : Tiled m configEnd p ds) (n : UInt8) :
    wp (getInterfaceDescriptor m fuel p configEnd n)
      (fun r w' => Leads (interfaceNext m configEnd n) p r ∧ w'.calls = w.calls) (fun _ => False) w := by
  have hT : ∀ a a', (∃ ds, Tiled m configEnd a ds) → interfaceNext m configEnd n a = .again a' →
      (∃ ds, Tiled m configEnd a' ds) ∧ m a ≠ 0 := by
    intro a a' hds ha
    obtain ⟨ds, hds⟩ := hds
    cases ds with
    | nil =>
      rw [interfaceNext_nil hds] at ha
      cases ha
    | cons d ds =>
      rw [interfaceNext_cons hds] at ha
      split at ha
      · cases ha
      · cases ha
        have hd : DescAt m a d := hds.1
        exact ⟨⟨ds, hds.2⟩, hd.ne_zero⟩
  exact walk_total (interface_advances n) hT ⟨ds, ht⟩ (by simp only [id]; omega)

theorem getInterfaceDescriptor_list (hfuel : configEnd < fuel) {p : Nat} {ds : List Desc} (ht : Tiled m configEnd p ds)
    (n : UInt8) :
    wp (getInterfaceDescriptor m fuel p configEnd n)
      (fun r w' => Found m configEnd p n r (settings n ds) ∧ w'.calls = w.calls) (fun _ => False) w := by
  refine wp_mono (getInterfaceDescriptor_total hfuel ht n) ?_ (fun _ hf => hf)
  exact fun r w' h => ⟨leads_settings ht h.1, h.2⟩

/-! ## The block -/

section Block

variable {α β : Type} {f : Nat → α → Turn α β} {exit : α → β}

theorem blockNext_nil {p : Nat} (h : Tiled m configEnd p []) (a : α) :
    blockNext f exit m configEnd (p, a) = .leave (exit a) := by
  have hp : p = configEnd := h
  simp [blockNext, hp]

theorem blockNext_interface {p : Nat} {d : Desc} {ds : List Desc} (h : Tiled m configEnd p (d :: ds))
    (hd : d.isInterface) (a : α) : blockNext f exit m configEnd (p, a) = .leave (exit a) := by
  have ht : m (p + 1) = USB_INTERFACE_DESCRIPTOR := by
    have hat : DescAt m p d := h.1
    rw [hat.type]
    exact of_decide_eq_true hd
  simp [blockNext, ht]

theorem blockNext_other {p : Nat} {d : Desc} {ds : List Desc} (h : Tiled m configEnd p (d :: ds)) (hd : ¬ d.isInterface)
    (a : α) :
    blockNext f exit m configEnd (p, a) =
      match f p a with
      | .leave b => .leave b
      | .again a => .again (p + d.bytes.length, a) := by
  have hat : DescAt m p d := h.1
  have hne : m (p + 1) ≠ USB_INTERFACE_DESCRIPTOR := by
    rw [hat.type]
    exact fun he => hd (decide_eq_true he)
  have hin : p < configEnd ∧ m (p + 1) ≠ USB_INTERFACE_DESCRIPTOR := ⟨tiled_inside h, hne⟩
  cases hf : f p a with
  | leave r => simp only [blockNext, if_pos hin, hf]
  | again a' => simp only [blockNext, if_pos hin, hf, hat.length]

theorem bodyOf_interface {d : Desc} (hd : d.isInterface) (ds : List Desc) : bodyOf (d :: ds) = [] := by
  simp [bodyOf, hd]

theorem bodyOf_other {d : Desc} (hd : ¬ d.isInterface) (ds : List Desc) : bodyOf (d :: ds) = d :: bodyOf ds := by
  simp [bodyOf, hd]

variable {body : Nat → α → Prog World (Turn α β)} {use : Use}

theorem blockWalk_total (hb : Computes f body) (hfuel : configEnd < fuel) {p : Nat} {d : Desc} {ds : List Desc}
    (ht : Tiled m configEnd p (d :: ds)) (a : α) :
    wp (blockWalk m fuel use configEnd body exit p a)
      (fun r w' => Leads (blockNext f exit m configEnd) (p + d.bytes.length, a) r ∧ w'.calls = w.calls)
        (fun _ => False) w := by
  have hat : DescAt m p d := ht.1
  have hT : ∀ c c' : Nat × α, (∃ ds, Tiled m configEnd c.1 ds) → blockNext f exit m configEnd c = .again c' →
      (∃ ds, Tiled m configEnd c'.1 ds) ∧ m c.1 ≠ 0 := by
    intro c c' hds hc
    obtain ⟨p, a⟩ := c
    obtain ⟨ds, hds⟩ := hds
    cases ds with
    | nil =>
      rw [blockNext_nil hds] at hc
      cases hc
    | cons d ds =>
      by_cases hd : d.isInterface
      · rw [blockNext_interface hds hd] at hc
        cases hc
      · rw [blockNext_other hds hd] at hc
        have hat : DescAt m p d := hds.1
        split at hc
        · cases hc
        · cases hc
          exact ⟨⟨ds, hds.2⟩, hat.ne_zero⟩
  rw [blockWalk, wp_bind]
  refine wp_nextDescriptor fun w₁ _ hc => ?_
  rw [hat.length]
  refine wp_mono (walk_total (block_advances exit use hb) hT ⟨ds, ht.2⟩ (by simp only; omega)) ?_ (fun _ hf => hf)
  exact fun r w₂ h₂ => ⟨h₂.1, h₂.2.trans hc⟩

end Block

theorem leads_endpoints {p : Nat} {ds : List Desc} (ht : Tiled m configEnd p ds) {eps r : Eps}
    (h : Leads (blockNext (fun p eps => .again (epsAt m p eps)) id m configEnd) (p, eps) r) :
    r = (bodyOf ds).foldl (fun eps d => d.apply eps) eps := by
  induction ds generalizing p eps with
  | nil => exact h.of_leave (blockNext_nil ht eps)
  | cons d ds ih =>
    by_cases hd : d.isInterface
    · rw [bodyOf_interface hd]
      exact h.of_leave (blockNext_interface ht hd eps)
    · have hat : DescAt m p d := ht.1
      rw [bodyOf_other hd, List.foldl_cons, ← hat.epsAt]
      exact ih ht.2 (h.of_again (blockNext_other ht hd eps))

theorem leads_find {β : Type} {subtype : UInt8} {g : Nat → β} {e : β} {p : Nat} {ds : List Desc}
    (ht : Tiled m configEnd p ds) {r : β}
    (h : Leads (blockNext (fun p (_ : Unit) => if IsFunctional m subtype p then .leave (g p) else .again ())
      (fun _ => e) m configEnd) (p, ()) r) :
    ((bodyOf ds).find? (Desc.isFunctional subtype) = none ∧
        place Desc.bytes (Desc.isFunctional subtype) p (bodyOf ds) = none ∧ r = e) ∨
      ∃ d q, (bodyOf ds).find? (Desc.isFunctional subtype) = some d ∧
        place Desc.bytes (Desc.isFunctional subtype) p (bodyOf ds) = some q ∧ DescAt m q d ∧ r = g q := by
  induction ds generalizing p with
  | nil => exact Or.inl ⟨rfl, rfl, h.of_leave (blockNext_nil ht ())⟩
  | cons d ds ih =>
    by_cases hd : d.isInterface
    · rw [bodyOf_interface hd]
      exact Or.inl ⟨rfl, rfl, h.of_leave (blockNext_interface ht hd ())⟩
    · have hat : DescAt m p d := ht.1
      have hnext : blockNext (fun p (_ : Unit) => if IsFunctional m subtype p then .leave (g p) else .again ())
          (fun _ => e) m configEnd (p, ()) = _ := blockNext_other ht hd ()
      rw [bodyOf_other hd]
      by_cases hf : d.isFunctional subtype
      · simp only [(hat.isFunctional subtype).mpr hf, if_true] at hnext
        exact Or.inr ⟨d, p, by simp [hf], place_cons_of_pos hf p _, hat, h.of_leave hnext⟩
      · have hnf : ¬ IsFunctional m subtype p := fun hi => hf ((hat.isFunctional subtype).mp hi)
        simp only [hnf, if_false] at hnext
        rw [List.find?_cons_of_neg hf, place_cons_of_neg hf]
        exact ih ht.2 (h.of_again hnext)

/-! ## The block walks -/

/-- `subs` points to the bytes `l`. -/
def Lists (m : Mem) (subs : Subs) (l : List UInt8) : Prop :=
  subs.length.toNat = l.length ∧ ∀ i, i < l.length → ∃ ints, subs.ints = some ints ∧ m (ints + i) = l.getD i 0

section List

variable (hfuel : configEnd < fuel) {p : Nat} {b : Block} {rest : List Desc} (hb : BlockAt m configEnd b p rest)

include hfuel hb

theorem getEndpoints_list (eps : Eps) :
    wp (getEndpoints m fuel p configEnd eps) (fun r w' => r = b.endpoints eps ∧ w'.calls = w.calls)
      (fun _ => False) w := by
  refine wp_mono (blockWalk_total endpoint_computes hfuel hb.tiled eps) ?_ (fun _ hf => hf)
  intro r w' h
  refine ⟨?_, h.2⟩
  rw [Block.endpoints, hb.body]
  exact leads_endpoints hb.tiled.2 h.1

/-- The Ethernet descriptor that is found is the first of the block. -/
theorem getEtherDesc_list :
    wp (getEtherDesc m fuel p configEnd)
      (fun r w' => ((b.ether? = none ∧ r = none) ∨ ∃ d q, b.ether? = some d ∧ DescAt m q d ∧ r = some q) ∧
        w'.calls = w.calls)
      (fun _ => False) w := by
  refine wp_mono (blockWalk_total ether_computes hfuel hb.tiled ()) ?_ (fun _ hf => hf)
  intro r w' h
  refine ⟨?_, h.2⟩
  rw [Block.ether?, hb.body]
  rcases leads_find hb.tiled.2 h.1 with ⟨hnone, -, hr⟩ | ⟨d, q, hsome, -, hat, hr⟩
  · exact Or.inl ⟨hnone, hr⟩
  · exact Or.inr ⟨d, q, hsome, hat, hr⟩

/-- The interfaces listed are the bytes of the first Union behind its fixed part. -/
theorem getSubordinateInts_list :
    wp (getSubordinateInts m fuel p configEnd) (fun r w' => Lists m r b.subs ∧ w'.calls = w.calls)
      (fun _ => False) w := by
  refine wp_mono (blockWalk_total union_computes hfuel hb.tiled ()) ?_ (fun _ hf => hf)
  intro r w' h
  refine ⟨?_, h.2⟩
  rw [Block.subs, Block.union?, hb.body]
  rcases leads_find hb.tiled.2 h.1 with ⟨hnone, -, rfl⟩ | ⟨d, q, hsome, -, hat, rfl⟩
  · rw [hnone]
    exact ⟨rfl, by simp⟩
  · have hu : d.isFunctional CDC_UNION_SUBTYPE := List.find?_some hsome
    have h4 := d.union_length hu
    have hlt := (m q).toNat_lt
    have hlen := hat.length
    rw [hsome]
    refine ⟨?_, ?_⟩
    · have hle : (4 : UInt8) ≤ m q := UInt8.le_iff_toNat_le.mpr (by show 4 ≤ (m q).toNat; omega)
      rw [UInt8.toNat_sub_of_le _ _ hle, hlen]
      simp
    · intro i hi
      simp only [Option.map_some, Option.getD_some, List.length_drop] at hi
      refine ⟨q + 4, rfl, ?_⟩
      rw [Nat.add_assoc, hat.byte (k := 4 + i) (by omega)]
      simp [Desc.byte, List.getD_eq_getElem?_getD]

end List

end Nanotube.Device.Usb
