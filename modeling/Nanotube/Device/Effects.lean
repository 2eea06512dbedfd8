/-
  Nanotube.Device.Effects — what a connect can do to the world, function by function.

  The walks only record; `process_config_descriptor` makes, after selecting its
  configuration, only calls of that configuration, and asks for endpoints. So any preorder on
  worlds that allows what the walks are made of (`Units`), those calls (`Allows`) and the
  asking (`Asks`) holds between the world before and after, also when a loop is still running (`moves_bindInterfaces`). And more
  fuel never changes what was done, only how far it got (`approx_usbHandleConnect`).
-/

import Nanotube.Device.Usb

namespace Nanotube.Device.Usb

open Nanotube.Lib.Loops
open Nanotube.Device.Ecm (UsbError)

/-- The order allows what the walks record. -/
structure Logs (S : World → World → Prop) : Prop where
  look : ∀ w l, S w { w with looks := w.looks ++ [l] }
  read : ∀ w o, S w { w with reads := w.reads ++ [o] }
  length : ∀ w l, S w { w with lengths := w.lengths ++ [l] }

/-- What the walks over one memory are made of moves along the order. -/
structure Units (S : World → World → Prop) (m : Mem) (configEnd : Nat) : Prop where
  count : Moves S (bNumInterfaces m)
  next : ∀ p, Moves S (nextDescriptor m p)
  search : ∀ n p, Moves S (isInterface m n p)
  setting : ∀ p, Moves S (bAlternateSetting m p)
  print : ∀ p, Moves S (printSetting m p)
  endpoints : ∀ c, Moves S (blockTurn m .endpoints configEnd (endpointBody m) id c)
  ether : ∀ c, Moves S (blockTurn m .functional configEnd (etherBody m) (fun _ => none) c)
  union : ∀ c, Moves S (blockTurn m .functional configEnd (unionBody m) (fun _ => ⟨none, 0⟩) c)
  sub : ∀ p, Moves S (subordinate m p)
  fields : ∀ p, Moves S (etherFields m p)

/-- The order allows the calls in `ok`. -/
def Allows (S : World → World → Prop) (ok : Call → Prop) : Prop := ∀ w c, ok c → S w { w with calls := w.calls ++ [c] }

/-- The order allows asking for endpoints. -/
def Asks (S : World → World → Prop) : Prop := ∀ w a, S w { w with asked := w.asked ++ [a] }

/-- A SetInterface. -/
def Selects : Call → Prop
  | .setInterface _ _ _ => True
  | _ => False

/-- A call that `process_config_descriptor` makes once the configuration is selected. -/
def OfConfig (config : UInt8) : Call → Prop
  | .setInterface _ _ _ | .malloc _ | .free _ => True
  | .netifAdd n => n.config = config
  | .setConfiguration _ _ | .resetDevice => False

variable {S : World → World → Prop} {env : Env} {m : Mem} {fuel : Nat}

/-! ## The walks -/

section Logs

variable (h : Logs S)

include h

theorem moves_look (use : Use) (pos : Nat) : Moves S (look use pos) := moves_update fun w => h.look w _

variable [IsPreorder World S]

theorem moves_byte (offset : Nat) : Moves S (byte m offset) :=
  moves_bind (moves_update fun w => h.read w offset) fun _ => moves_pure _

theorem moves_nextDescriptor (desc : Nat) : Moves S (nextDescriptor m desc) := by
  refine moves_bind (moves_look h .next desc) fun _ => moves_bind (moves_byte h desc) fun bLength => ?_
  exact moves_bind (moves_update fun w => h.length w bLength) fun _ => moves_pure _

theorem moves_blockTurn {α β : Type} {use : Use} {configEnd : Nat} {body : Nat → α → Prog World (Turn α β)}
    {exit : α → β} (hbody : ∀ current a, Moves S (body current a)) (c : Nat × α) :
    Moves S (blockTurn m use configEnd body exit c) := by
  refine moves_ite (moves_bind (moves_look h _ _) fun _ => moves_bind (moves_byte h _) fun type => ?_) (moves_pure _)
  refine moves_ite (moves_pure _) (moves_bind (hbody _ _) fun t => ?_)
  cases t with
  | leave b => exact moves_pure _
  | again a => exact moves_bind (moves_nextDescriptor h _) fun _ => moves_pure _

theorem moves_endpointBody (current : Nat) (eps : Eps) : Moves S (endpointBody m current eps) := by
  refine moves_bind (moves_byte h _) fun type => moves_ite (moves_bind (moves_byte h _) fun attributes => ?_)
    (moves_pure _)
  exact moves_ite (moves_bind (moves_byte h _) fun _ => moves_pure _) (moves_pure _)

theorem moves_isFunctional (subtype : UInt8) (current : Nat) : Moves S (isFunctional m subtype current) :=
  moves_bind (moves_byte h _) fun _ => moves_ite (moves_bind (moves_byte h _) fun _ => moves_pure _) (moves_pure _)

/-- An order that allows the recording allows everything the walks do. -/
theorem Logs.units (m : Mem) (configEnd : Nat) : Units S m configEnd where
  count := moves_bind (moves_look h _ _) fun _ => moves_byte h _
  next := moves_nextDescriptor h
  search _ _ := moves_bind (moves_look h _ _) fun _ => moves_bind (moves_byte h _) fun _ =>
    moves_ite (moves_bind (moves_byte h _) fun _ => moves_pure _) (moves_pure _)
  setting _ := moves_bind (moves_look h _ _) fun _ => moves_byte h _
  print _ := moves_bind (moves_bind (moves_look h _ _) fun _ => moves_byte h _) fun _ =>
    moves_bind (moves_byte h _) fun _ => moves_pure _
  endpoints := moves_blockTurn h (moves_endpointBody h)
  ether := moves_blockTurn h fun _ _ => moves_bind (moves_isFunctional h _ _) fun _ =>
    moves_ite (moves_pure _) (moves_pure _)
  union := moves_blockTurn h fun _ _ => moves_bind (moves_isFunctional h _ _) fun _ =>
    moves_ite (moves_bind (moves_byte h _) fun _ => moves_pure _) (moves_pure _)
  sub _ := moves_bind (moves_look h _ _) fun _ => moves_byte h _
  fields _ := moves_bind (moves_look h _ _) fun _ => moves_bind (moves_byte h _) fun _ =>
    moves_bind (moves_byte h _) fun _ =>
    moves_bind (moves_byte h _) fun _ => moves_pure _

end Logs

section Units

variable {configEnd : Nat} [IsPreorder World S] (h : Units S m configEnd)

include h

theorem moves_interfaceTurn (n : UInt8) (current : Nat) : Moves S (interfaceTurn m configEnd n current) := by
  refine moves_ite (moves_bind (h.search n current) fun found => ?_) (moves_pure _)
  exact moves_ite (moves_pure _) (moves_bind (h.next current) fun _ => moves_pure _)

theorem moves_getInterfaceDescriptor (start : Nat) (n : UInt8) :
    Moves S (getInterfaceDescriptor m fuel start configEnd n) :=
  moves_loop (moves_interfaceTurn h n) fuel start

theorem moves_eachSetting {α β : Type} {n : UInt8} {pos : α → Nat} {miss : α → β}
    {visit : α → Nat → Prog World (Turn α β)} (hvisit : ∀ a intDesc, Moves S (visit a intDesc)) (a : α) :
    Moves S (eachSetting m fuel configEnd n pos miss visit a) := by
  refine moves_bind (moves_getInterfaceDescriptor h _ _) fun intDesc? => ?_
  cases intDesc? with
  | none => exact moves_pure _
  | some intDesc => exact hvisit a intDesc

theorem moves_getEndpoints (intDesc : Nat) (eps : Eps) : Moves S (getEndpoints m fuel intDesc configEnd eps) :=
  moves_bind (h.next intDesc) fun _ => moves_loop h.endpoints fuel _

theorem moves_getEtherDesc (intDesc : Nat) : Moves S (getEtherDesc m fuel intDesc configEnd) :=
  moves_bind (h.next intDesc) fun _ => moves_loop h.ether fuel _

theorem moves_getSubordinateInts (intDesc : Nat) : Moves S (getSubordinateInts m fuel intDesc configEnd) :=
  moves_bind (h.next intDesc) fun _ => moves_loop h.union fuel _

end Units

/-! ## The calls -/

section Selects

variable {configEnd : Nat} [IsPreorder World S] (hs : Allows S Selects)

include hs

theorem moves_usbSetInterface (intDesc : Nat) : Moves S (usbSetInterface env m intDesc) :=
  moves_bind moves_peek fun _ => moves_bind (moves_update fun w => hs w _ trivial) fun _ => moves_pure _

variable (h : Units S m configEnd)

include h

theorem moves_trySetting (interface : UInt8) (ret : UInt8 × UInt8) (c : Nat × Eps) (intDesc : Nat) :
    Moves S (trySetting env m fuel configEnd interface ret c intDesc) := by
  refine moves_bind (h.setting _) fun _ => moves_bind (moves_getEndpoints h _ _) fun eps => ?_
  refine moves_ite (moves_ite ?_ (moves_pure _)) (moves_bind (h.next _) fun _ => moves_pure _)
  exact moves_bind (moves_usbSetInterface hs _) fun _ => moves_pure _

theorem moves_getEpsAnySetting (interface : UInt8) (ret : UInt8 × UInt8) :
    Moves S (getEpsAnySetting env m fuel configEnd interface ret) :=
  moves_loop (moves_eachSetting h (moves_trySetting hs h interface ret)) fuel _

theorem moves_subTurn (subs : Subs) (c : UInt8 × UInt8 × UInt8) : Moves S (subTurn env m fuel configEnd subs c) := by
  refine moves_ite ?_ (moves_pure _)
  rcases subs with ⟨_ | ints, length⟩
  · exact moves_pure _
  · apply moves_bind (h.sub _)
    intro sub
    exact moves_bind (moves_getEpsAnySetting hs h _ _) fun _ => moves_pure _

theorem moves_subordinateEps (subs : Subs) : Moves S (subordinateEps env m fuel configEnd subs) :=
  moves_loop (moves_subTurn hs h subs) fuel _

end Selects

section Registering

/- What a preorder has to say about adding a netif, it says about the whole search. -/
variable {configEnd : Nat} {config : UInt8} [IsPreorder World S] (hs : Allows S Selects) (h : Units S m configEnd)

include hs h

theorem moves_etherSetting {currentInt : UInt8} {intDesc ethDesc : Nat}
    (ha : ∀ inEp outEp, Moves S (addNetif env m config currentInt intDesc ethDesc inEp outEp)) :
    Moves S (etherSetting env m fuel config configEnd currentInt intDesc ethDesc) := by
  refine moves_bind (moves_getSubordinateInts h _) fun subs =>
    moves_bind (moves_subordinateEps hs h _) fun ret => ?_
  refine moves_bind (moves_getEndpoints h _ _) fun eps => moves_ite ?_ ?_
  · exact moves_bind (h.next _) fun _ => moves_pure _
  · exact moves_bind (ha _ _) fun _ => moves_pure _

variable (ha : ∀ currentInt intDesc ethDesc inEp outEp,
    Moves S (addNetif env m config currentInt intDesc ethDesc inEp outEp))

include ha

theorem moves_examineSetting (currentInt : UInt8) (intDesc : Nat) :
    Moves S (examineSetting env m fuel config configEnd currentInt intDesc) := by
  refine moves_bind (h.print _) fun _ => moves_bind (moves_getEtherDesc h _) fun ethDesc? => ?_
  cases ethDesc? with
  | none => exact moves_bind (h.next _) fun _ => moves_pure _
  | some ethDesc => exact moves_etherSetting hs h (ha _ _ _)

theorem moves_searchInterface (currentInt : UInt8) : Moves S (searchInterface env m fuel config configEnd currentInt) :=
  moves_loop (moves_eachSetting h fun _ => moves_examineSetting hs h ha currentInt) fuel 0

theorem moves_intTurn (c : UInt8 × Bool) : Moves S (intTurn env m fuel config configEnd c) := by
  apply moves_bind h.count
  intro count
  exact moves_ite (moves_bind (moves_searchInterface hs h ha _) fun _ => moves_pure _) (moves_pure _)

theorem moves_registering : Moves S (bindInterfaces env m fuel config configEnd) :=
  moves_loop (moves_intTurn hs h ha) fuel _

end Registering

section Calls

variable {configEnd : Nat} {config : UInt8} (hc : Allows S (OfConfig config))

include hc

theorem Allows.selects : Allows S Selects := by
  intro w c h
  cases c with
  | setInterface number alternate error => exact hc w _ trivial
  | _ => exact h.elim

theorem moves_call {c : Call} (h : OfConfig config c) : Moves S (call c) := moves_update fun w => hc w c h

variable [IsPreorder World S]

theorem moves_malloc : Moves S (malloc env) :=
  moves_bind moves_peek fun _ => moves_bind (moves_call hc trivial) fun _ => moves_pure _

variable (h : Units S m configEnd)

include h

theorem moves_selectSetting (intDesc : Nat) : Moves S (selectSetting env m intDesc) :=
  moves_bind (h.setting _) fun _ => moves_ite (moves_usbSetInterface hc.selects _) (moves_pure _)

variable (ha : Asks S)

include ha

theorem moves_fillAndAdd (currentInt : UInt8) (ethDesc : Nat) (inEp outEp : UInt8) (netif state : Nat) :
    Moves S (fillAndAdd env m config currentInt ethDesc inEp outEp netif state) := by
  have hask : ∀ address, Moves S (usbGetDeviceEndpoint env address) := fun address =>
    moves_bind moves_peek fun _ => moves_bind (moves_update fun w => ha w _) fun _ => moves_pure _
  refine moves_bind (hask inEp) fun _ => moves_bind (hask outEp) fun _ => ?_
  refine moves_bind (moves_ite (moves_pure _) ?_) fun _ => ?_
  · exact moves_bind (moves_call hc trivial) fun _ => moves_call hc trivial
  · exact moves_bind (h.fields _) fun _ => moves_call hc rfl

theorem moves_addNetif (currentInt : UInt8) (intDesc ethDesc : Nat) (inEp outEp : UInt8) :
    Moves S (addNetif env m config currentInt intDesc ethDesc inEp outEp) := by
  refine moves_bind (moves_selectSetting hc h intDesc) fun error => moves_ite (moves_pure _) (moves_bind (moves_malloc hc) fun netif? => ?_)
  cases netif? with
  | none => exact moves_pure _
  | some netif =>
    refine moves_bind (moves_malloc hc) fun state? => ?_
    cases state? with
    | none => exact moves_bind (moves_call hc trivial) fun _ => moves_pure _
    | some state => exact moves_bind (moves_fillAndAdd hc h ha _ _ _ _ _ _) fun _ => moves_pure _

theorem moves_bindInterfaces : Moves S (bindInterfaces env m fuel config configEnd) :=
  moves_registering hc.selects h (moves_addNetif hc h ha)

end Calls

/-! ## More fuel -/

section Fuel

variable [IsPreorder World S] {fuel' : Nat} (hn : fuel ≤ fuel')

include hn

section Units

variable {configEnd : Nat} (h : Units S m configEnd)

include h

theorem approx_eachSetting {α β : Type} {n : UInt8} {pos : α → Nat} {miss : α → β}
    {visit visit' : α → Nat → Prog World (Turn α β)}
    (hvisit : ∀ a intDesc, Approx S (visit a intDesc) (visit' a intDesc)) (a : α) :
    Approx S (eachSetting m fuel configEnd n pos miss visit a) (eachSetting m fuel' configEnd n pos miss visit' a) := by
  refine approx_bind (approx_loop (fun current => (moves_interfaceTurn h n current).approx) hn _) fun intDesc? => ?_
  cases intDesc? with
  | none => exact approx_pure _
  | some intDesc => exact hvisit a intDesc

theorem approx_getEndpoints (intDesc : Nat) (eps : Eps) :
    Approx S (getEndpoints m fuel intDesc configEnd eps) (getEndpoints m fuel' intDesc configEnd eps) :=
  approx_bind (h.next intDesc).approx fun _ => approx_loop (fun c => (h.endpoints c).approx) hn _

theorem approx_getEtherDesc (intDesc : Nat) :
    Approx S (getEtherDesc m fuel intDesc configEnd) (getEtherDesc m fuel' intDesc configEnd) :=
  approx_bind (h.next intDesc).approx fun _ => approx_loop (fun c => (h.ether c).approx) hn _

theorem approx_getSubordinateInts (intDesc : Nat) :
    Approx S (getSubordinateInts m fuel intDesc configEnd) (getSubordinateInts m fuel' intDesc configEnd) :=
  approx_bind (h.next intDesc).approx fun _ => approx_loop (fun c => (h.union c).approx) hn _

variable {config : UInt8} (hc : Allows S (OfConfig config))

include hc

theorem approx_getEpsAnySetting (interface : UInt8) (ret : UInt8 × UInt8) :
    Approx S (getEpsAnySetting env m fuel configEnd interface ret)
      (getEpsAnySetting env m fuel' configEnd interface ret) := by
  refine approx_loop (approx_eachSetting hn h fun c intDesc => ?_) hn _
  refine approx_bind (h.setting _).approx fun _ => approx_bind (approx_getEndpoints hn h _ _) fun eps => Moves.approx ?_
  refine moves_ite (moves_ite ?_ (moves_pure _)) (moves_bind (h.next _) fun _ => moves_pure _)
  exact moves_bind (moves_usbSetInterface hc.selects _) fun _ => moves_pure _

theorem approx_subordinateEps (subs : Subs) :
    Approx S (subordinateEps env m fuel configEnd subs) (subordinateEps env m fuel' configEnd subs) := by
  refine approx_loop (fun c => approx_ite ?_ (approx_pure _)) hn _
  rcases subs with ⟨_ | ints, length⟩
  · exact approx_pure _
  · apply approx_bind (h.sub _).approx
    intro sub
    exact approx_bind (approx_getEpsAnySetting hn h hc _ _) fun _ => approx_pure _

variable (ha : Asks S)

include ha

theorem approx_etherSetting (currentInt : UInt8) (intDesc ethDesc : Nat) :
    Approx S (etherSetting env m fuel config configEnd currentInt intDesc ethDesc)
      (etherSetting env m fuel' config configEnd currentInt intDesc ethDesc) := by
  apply approx_bind (approx_getSubordinateInts hn h _)
  intro subs
  apply approx_bind (approx_subordinateEps hn h hc _)
  intro ret
  refine approx_bind (approx_getEndpoints hn h _ _) fun eps => Moves.approx (moves_ite ?_ ?_)
  · exact moves_bind (h.next _) fun _ => moves_pure _
  · exact moves_bind (moves_addNetif hc h ha _ _ _ _ _) fun _ => moves_pure _

theorem approx_searchInterface (currentInt : UInt8) :
    Approx S (searchInterface env m fuel config configEnd currentInt)
      (searchInterface env m fuel' config configEnd currentInt) := by
  refine approx_loop (approx_eachSetting hn h fun _ intDesc => ?_) hn 0
  refine approx_bind (h.print _).approx fun _ => approx_bind (approx_getEtherDesc hn h _) fun ethDesc? => ?_
  cases ethDesc? with
  | none => exact (moves_bind (h.next _) fun _ => moves_pure _).approx
  | some ethDesc => exact approx_etherSetting hn h hc ha _ _ _

theorem approx_bindInterfaces :
    Approx S (bindInterfaces env m fuel config configEnd) (bindInterfaces env m fuel' config configEnd) := by
  refine approx_loop (fun c => approx_bind h.count.approx fun count => ?_) hn _
  exact approx_ite (approx_bind (approx_searchInterface hn h hc ha _) fun _ => approx_pure _) (approx_pure _)

end Units

theorem approx_processConfigDescriptor (h : Logs S) (hc : Allows S fun _ => True) (ha : Asks S) (config : UInt8) :
    Approx S (processConfigDescriptor env fuel config) (processConfigDescriptor env fuel' config) := by
  refine approx_bind moves_peek.approx fun w => approx_ite (approx_pure _) ?_
  cases env.configDescriptor w.calls (config - 1) with
  | none => exact approx_pure _
  | some m =>
    refine approx_bind (Moves.approx (moves_update fun w => hc w _ trivial)) fun _ => approx_ite (approx_pure _) ?_
    exact approx_bindInterfaces hn (h.units m _) (fun w c _ => hc w c trivial) ha

/-- A connect followed further does what it did, and goes on. -/
theorem approx_usbHandleConnect (h : Logs S) (hc : Allows S fun _ => True) (ha : Asks S) :
    Approx S (usbHandleConnect env fuel) (usbHandleConnect env fuel') := by
  refine approx_bind (Moves.approx (moves_ite (moves_pure _) (moves_update fun w => hc w _ trivial))) fun _ => ?_
  refine approx_ite ?_ ?_
  · exact approx_bind (approx_processConfigDescriptor hn h hc ha _) fun _ => approx_pure _
  · refine approx_bind (approx_loop (fun config => approx_ite ?_ (approx_pure _)) hn 1) fun _ => approx_pure _
    exact approx_bind (approx_processConfigDescriptor hn h hc ha config) fun _ => approx_pure _

end Fuel

end Nanotube.Device.Usb
