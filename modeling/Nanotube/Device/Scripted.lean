/-
  Nanotube.Device.Scripted — is everything that can be looked at looked at in some run?

  A device whose answers to `usb_SetInterface` are given by a script is steered, setting
  after setting: an interface that is listed in a Union may be refused its setting, and
  everything else succeeds. Each function of the search is taken apart into what it does
  in a row, and a script for each part gives one for the whole.

  Proved: every setting that `Examines` allows is come to (`examines_reaches`), and
  everything that is `Visited` is looked at in some run (`visited_shows`).
-/

import Nanotube.Device.Looks
import Nanotube.Lib.Steering

namespace Nanotube.Device.Usb

open Nanotube.Lib.Loops
open Nanotube.Lib.Scripts
open Nanotube.Lib.Steering
open Nanotube.Device.Ecm (UsbError)

/-- The script says for each `usb_SetInterface`, by the number of calls before it, whether it
    succeeds. -/
def answering (env : Env) (S : Script) : Env :=
  { env with setInterface := fun calls _ _ => if S calls.length then .success else .failed }

/-- A device that hands out the `configEnd` bytes of `m`. -/
def handing (m : Mem) (configEnd : Nat) : Env :=
  { deviceOf [] with
    totalLength := fun _ _ => configEnd
    configDescriptor := fun _ _ => some m }

def scripted (m : Mem) (configEnd : Nat) (S : Script) : Env := answering (handing m configEnd) S

variable {m : Mem} {configEnd : Nat}

/-! ## Parts of a run -/

def callCount (w : World) : Nat := w.calls.length

/-- Calls and looks are only added. -/
structure Grow (w w' : World) : Prop where
  calls : w.calls <+: w'.calls
  looks : w.looks ⊆ w'.looks

instance : IsPreorder World Grow where
  refl _ := ⟨List.prefix_rfl, List.Subset.refl _⟩
  trans _ _ _ h h' := ⟨h.calls.trans h'.calls, List.Subset.trans h.looks h'.looks⟩

theorem grow_units (m : Mem) (configEnd : Nat) : Units Grow m configEnd :=
  (⟨fun _ _ => ⟨List.prefix_rfl, List.subset_append_left ..⟩, fun _ _ => ⟨List.prefix_rfl, List.Subset.refl _⟩,
    fun _ _ => ⟨List.prefix_rfl, List.Subset.refl _⟩⟩ : Logs Grow).units m configEnd

theorem grow_calls : Allows Grow (OfConfig 1) := fun _ _ _ => ⟨List.prefix_append .., List.Subset.refl _⟩

theorem grow_asks : Asks Grow := fun _ _ => ⟨List.prefix_rfl, List.Subset.refl _⟩

def Looked (l : Look) (w : World) : Prop := l ∈ w.looks

theorem looked_grows {l : Look} (w w' : World) (h : Grow w w') (hl : Looked l w) : Looked l w' := h.looks hl

/-- A part of the run that a script can steer. -/
abbrev Steers {α : Type} (P : Steered World α) : Prop := Steerable callCount Grow P

theorem steers_of_moves {α : Type} {p : Nat → Prog World α} (h : ∀ fuel, Moves Grow (p fuel)) :
    Steers fun fuel _ => p fuel :=
  steerable_of_moves (fun _ _ hg => hg.calls.length_le) h

theorem steers_usbSetInterface (p : Nat) : Steers fun _ S => usbSetInterface (scripted m configEnd S) m p := by
  refine ⟨fun _ => ⟨fun S w => ?_, fun S S' w h => ?_⟩, fun _ _ => moves_usbSetInterface grow_calls.selects p⟩
  · exact (moves_usbSetInterface grow_calls.selects p w).calls.length_le
  · have hsame : S' w.calls.length = S w.calls.length := by
      refine h _ (Nat.le_refl _) ?_
      simp [usbSetInterface, call, peek, update, callCount, bind, pure]
    simp [usbSetInterface, call, peek, update, bind, pure, scripted, answering, hsame]

theorem steers_next (p : Nat) : Steers fun _ _ => nextDescriptor m p := steers_of_moves fun _ => (grow_units m 0).next p

theorem next_returns (p : Nat) : CanReturn (fun _ _ => nextDescriptor m p : Steered World Nat) (nextOf m p) :=
  canReturn_of_wp (fun _ => false) fun _ _ => wp_nextDescriptor fun _ _ _ => rfl

/-! ## The walks -/

section Walks

variable {α β : Type} {use : Use} {body : α → Prog World (Turn α β)} {f : α → Turn α β} {pos : α → Nat}
  (h : Watches configEnd use body f pos) (hmoves : ∀ a, Moves Grow (body a))

include h

theorem walk_turn (a : α) : CanReturn (fun _ _ => body a : Steered World (Turn α β)) (f a) :=
  canReturn_of_wp (fun _ => false) fun _ w => wp_mono (h a w) (fun _ _ ht => ht.1) (fun _ hf => hf)

include hmoves

theorem walk_returns {a : α} {b : β} (hb : Leads f a b) :
    CanReturn (fun fuel _ => loop body fuel a : Steered World β) b :=
  CanReturn.leads (B := fun a _ _ => body a) (fun a => steers_of_moves fun _ => hmoves a) (walk_turn h) hb

theorem walk_shows {a a' : α} (hc : Comes f a a') (hlt : pos a' < configEnd) :
    CanShow (Looked ⟨use, pos a'⟩) (fun fuel _ => loop body fuel a : Steered World β) := by
  refine CanShow.loop (B := fun a _ _ => body a) looked_grows (fun a => steers_of_moves fun _ => hmoves a)
    (Comes.reaches (walk_turn h) hc) (canShow_of_wp (fun _ => false) fun _ w => ?_)
  refine wp_mono (h a' w) (fun t w' ht => ?_) fun _ hf => hf
  obtain ⟨-, hadded⟩ := ht
  rw [Looked, hadded]
  refine List.mem_append_right _ ?_
  unfold turnLooks
  rw [if_pos hlt]
  cases t <;> simp

end Walks

section BlockWalks

variable {α β : Type} {use : Use} {body : Nat → α → Prog World (Turn α β)} {f : Nat → α → Turn α β} {exit : α → β}
  (h : Watches configEnd use (blockTurn m use configEnd body exit) (blockNext f exit m configEnd) Prod.fst)
  (hmoves : ∀ c, Moves Grow (blockTurn m use configEnd body exit c)) {p : Nat}

include h hmoves

theorem block_returns {a : α} {b : β} (hb : Leads (blockNext f exit m configEnd) (nextOf m p, a) b) :
    CanReturn (fun fuel _ => blockWalk m fuel use configEnd body exit p a : Steered World β) b :=
  CanReturn.inRow (Q := fun q fuel _ => loop (blockTurn m use configEnd body exit) fuel (q, a)) (steers_next p)
    (fun q => steers_of_moves fun fuel => moves_loop hmoves fuel (q, a)) (next_returns p) (walk_returns h hmoves hb)

theorem block_shows {a a' : α} {q : Nat} (hc : Comes (blockNext f exit m configEnd) (nextOf m p, a) (q, a'))
    (hlt : q < configEnd) :
    CanShow (Looked ⟨use, q⟩) (fun fuel _ => blockWalk m fuel use configEnd body exit p a : Steered World β) :=
  CanShow.second (Q := fun q fuel _ => loop (blockTurn m use configEnd body exit) fuel (q, a)) (steers_next p)
    (fun q => steers_of_moves fun fuel => moves_loop hmoves fuel (q, a)) (next_returns p)
    (walk_shows h hmoves hc hlt)

end BlockWalks

theorem steers_getEndpoints (p : Nat) (eps : Eps) : Steers fun fuel _ => getEndpoints m fuel p configEnd eps :=
  steers_of_moves fun _ => moves_getEndpoints (grow_units m configEnd) p eps

theorem endpoints_returns {p : Nat} {eps eps' : Eps} (h : EndpointsOf m configEnd p eps eps') :
    CanReturn (fun fuel _ => getEndpoints m fuel p configEnd eps : Steered World Eps) eps' :=
  block_returns endpoint_watches (grow_units m configEnd).endpoints h

theorem endpoints_shows {p q : Nat} {eps eps' : Eps}
    (hq : Comes (endpointWalk m configEnd) (nextOf m p, eps) (q, eps')) (hlt : q < configEnd) :
    CanShow (Looked ⟨.endpoints, q⟩) (fun fuel _ => getEndpoints m fuel p configEnd eps : Steered World Eps) :=
  block_shows endpoint_watches (grow_units m configEnd).endpoints hq hlt

/-! ## The settings of an interface -/

section Each

variable {α β : Type} (n : UInt8) (pos : α → Nat) (miss : α → β) (visit : α → Nat → Steered World (Turn α β))

/-- A turn of the two loops over settings. -/
def eachProg (m : Mem) (configEnd : Nat) (a : α) : Steered World (Turn α β) :=
  fun fuel S => eachSetting m fuel configEnd n pos miss (fun a p => visit a p fuel S) a

/-- A turn goes on here when the search for the setting has returned. -/
def eachRest (a : α) (r : Option Nat) : Steered World (Turn α β) :=
  match r with
  | none => fun _ _ => pure (.leave (miss a))
  | some p => visit a p

theorem eachProg_eq (a : α) : eachProg n pos miss visit m configEnd a =
    inRow (fun fuel _ => getInterfaceDescriptor m fuel (pos a) configEnd n) (eachRest miss visit a) := by
  funext fuel S
  unfold eachProg eachSetting inRow
  congr
  funext r
  cases r <;> rfl

theorem steers_find (s : Nat) : Steers fun fuel _ => getInterfaceDescriptor m fuel s configEnd n :=
  steers_of_moves fun _ => moves_getInterfaceDescriptor (grow_units m configEnd) s n

variable {n}

theorem find_returns {s : Nat} {r : Option Nat} (h : Finds m configEnd n s r) :
    CanReturn (fun fuel _ => getInterfaceDescriptor m fuel s configEnd n : Steered World (Option Nat)) r :=
  walk_returns (interface_watches n) (moves_interfaceTurn (grow_units m configEnd) n) h

variable {pos miss visit} (hvisit : ∀ a p, Steers (visit a p))

include hvisit

theorem steers_eachRest (a : α) (r : Option Nat) : Steers (eachRest miss visit a r) := by
  cases r with
  | none => exact steerable_pure _
  | some p => exact hvisit a p

theorem steers_each (a : α) : Steers (eachProg n pos miss visit m configEnd a) := by
  rw [eachProg_eq]
  exact (steers_find n (pos a)).inRow (steers_eachRest hvisit a)

theorem each_found {a : α} {p : Nat} (hp : Finds m configEnd n (pos a) (some p)) {t : Turn α β}
    (ht : CanReturn (visit a p) t) : CanReturn (eachProg n pos miss visit m configEnd a) t := by
  rw [eachProg_eq]
  exact CanReturn.inRow (steers_find n (pos a)) (steers_eachRest hvisit a) (find_returns hp) ht

theorem each_missed {a : α} (hp : Finds m configEnd n (pos a) none) :
    CanReturn (eachProg n pos miss visit m configEnd a) (.leave (miss a)) := by
  rw [eachProg_eq]
  exact CanReturn.inRow (steers_find n (pos a)) (steers_eachRest hvisit a) (find_returns hp) (canReturn_pure _)

theorem each_search {a : α} {p : Nat} (hp : Comes (interfaceNext m configEnd n) (pos a) p) (hlt : p < configEnd) :
    CanShow (Looked ⟨.search, p⟩) (eachProg n pos miss visit m configEnd a) := by
  rw [eachProg_eq]
  exact CanShow.first looked_grows (steers_eachRest hvisit a)
    (walk_shows (interface_watches n) (moves_interfaceTurn (grow_units m configEnd) n) hp hlt)

theorem each_shows {a : α} {p : Nat} (hp : Finds m configEnd n (pos a) (some p)) {l : Look}
    (h : CanShow (Looked l) (visit a p)) : CanShow (Looked l) (eachProg n pos miss visit m configEnd a) := by
  rw [eachProg_eq]
  exact CanShow.second (steers_find n (pos a)) (steers_eachRest hvisit a) (find_returns hp) h

end Each

/-! ## The endpoints of an interface -/

section Try

variable (m configEnd) (n : UInt8) (ret : UInt8 × UInt8)

def tryProg (c : Nat × Eps) (p : Nat) : Steered World (Turn (Nat × Eps) (UInt8 × UInt8)) :=
  fun fuel S => trySetting (scripted m configEnd S) m fuel configEnd n ret c p

/-- What follows when the endpoints of the setting are known. -/
def tryRest (p : Nat) (eps : Eps) : Steered World (Turn (Nat × Eps) (UInt8 × UInt8)) := fun _ S =>
  if eps.Both then
    if 0 < n then do
      let error ← usbSetInterface (scripted m configEnd S) m p
      pure (.leave (if error = .success then (eps.inEp, eps.outEp) else ret))
    else pure (.leave (eps.inEp, eps.outEp))
  else do
    let next ← nextDescriptor m p
    pure (.again (next, eps))

def tryEndpoints (p : Nat) (eps : Eps) : Steered World (Turn (Nat × Eps) (UInt8 × UInt8)) :=
  inRow (fun fuel _ => getEndpoints m fuel p configEnd eps) (tryRest m configEnd n ret p)

def epsTurn : Nat × Eps → Steered World (Turn (Nat × Eps) (UInt8 × UInt8)) :=
  eachProg n Prod.fst (fun _ => ret) (tryProg m configEnd n ret) m configEnd

def epsProg : Steered World (UInt8 × UInt8) :=
  fun fuel S => getEpsAnySetting (scripted m configEnd S) m fuel configEnd n ret

theorem tryProg_eq (s p : Nat) (eps : Eps) : tryProg m configEnd n ret (s, eps) p =
    inRow (fun _ _ => bAlternateSetting m p) fun _ => tryEndpoints m configEnd n ret p eps := rfl

theorem epsProg_eq : epsProg m configEnd n ret = looping (epsTurn m configEnd n ret) (0, Eps.none) := rfl

variable {m configEnd}

theorem steers_setting (p : Nat) : Steers fun _ _ => bAlternateSetting m p :=
  steers_of_moves fun _ => (grow_units m 0).setting p

theorem setting_returns (p : Nat) : CanReturn (fun _ _ => bAlternateSetting m p : Steered World UInt8) (m (p + 3)) :=
  canReturn_of_wp (fun _ => false) fun _ _ => wp_mono (bAlternateSetting_spec p) (fun _ _ h => h.1) fun _ h => h

theorem setting_shows (p : Nat) :
    CanShow (Looked ⟨.setting, p⟩) (fun _ _ => bAlternateSetting m p : Steered World UInt8) :=
  canShow_of_wp (fun _ => false) fun _ w => List.mem_append_right w.looks (List.mem_singleton_self _)

theorem steers_tryRest (p : Nat) (eps : Eps) : Steers (tryRest m configEnd n ret p eps) := by
  refine Steerable.ite (Steerable.ite ?_ (steerable_pure _)) ((steers_next p).inRow fun _ => steerable_pure _)
  exact (steers_usbSetInterface p).inRow fun _ => steerable_pure _

theorem steers_tryEndpoints (p : Nat) (eps : Eps) : Steers (tryEndpoints m configEnd n ret p eps) :=
  (steers_getEndpoints p eps).inRow (steers_tryRest n ret p)

theorem steers_try (c : Nat × Eps) (p : Nat) : Steers (tryProg m configEnd n ret c p) :=
  (steers_setting p).inRow fun _ => steers_tryEndpoints n ret p c.2

theorem steers_epsTurn (c : Nat × Eps) : Steers (epsTurn m configEnd n ret c) := steers_each (steers_try n ret) c

theorem steers_eps : Steers (epsProg m configEnd n ret) := steerable_looping (steers_epsTurn n ret) _

variable {n ret} {s p : Nat} {eps₀ eps : Eps} (heps : EndpointsOf m configEnd p eps₀ eps)

section Found

include heps

theorem try_returns {t : Turn (Nat × Eps) (UInt8 × UInt8)} (ht : CanReturn (tryRest m configEnd n ret p eps) t) :
    CanReturn (tryProg m configEnd n ret (s, eps₀) p) t := by
  rw [tryProg_eq]
  exact CanReturn.inRow (steers_setting p) (fun _ => steers_tryEndpoints n ret p eps₀) (setting_returns p)
    (CanReturn.inRow (steers_getEndpoints p eps₀) (steers_tryRest n ret p) (endpoints_returns heps) ht)

theorem try_next (hnot : ¬ eps.Both) : CanReturn (tryProg m configEnd n ret (s, eps₀) p) (.again (nextOf m p, eps)) := by
  refine try_returns heps ?_
  unfold tryRest
  simp only [hnot, if_false]
  exact (next_returns p).map fun q => Turn.again (q, eps)

/-- Both endpoints are there: they are taken when the setting is selected. -/
theorem try_taken (hboth : eps.Both) : CanReturn (tryProg m configEnd n ret (s, eps₀) p) (.leave (eps.inEp, eps.outEp)) := by
  refine try_returns heps (canReturn_of_wp (fun _ => true) fun _ w => ?_)
  by_cases hpos : 0 < n
  · simp [tryRest, hboth, hpos, usbSetInterface, call, scripted, answering]
  · simp [tryRest, hboth, hpos]

theorem try_refused (hboth : eps.Both) (hpos : 0 < n) : CanReturn (tryProg m configEnd n ret (s, eps₀) p) (.leave ret) := by
  refine try_returns heps (canReturn_of_wp (fun _ => false) fun _ w => ?_)
  simp [tryRest, hboth, hpos, usbSetInterface, call, scripted, answering]

end Found

theorem tries_reaches (h : Tries m configEnd n s eps) : Reaches (epsTurn m configEnd n ret) (0, Eps.none) (s, eps) := by
  induction h with
  | start => exact .refl
  | next _ hp heps hnot ih => exact ih.tail (each_found (steers_try n ret) hp (try_next heps hnot))

theorem gives_returns {r : Option Eps} (h : Gives m configEnd n r) :
    (∀ eps ∈ r, CanReturn (epsProg m configEnd n ret) (eps.inEp, eps.outEp)) ∧
      ((r.isSome → 0 < n) → CanReturn (epsProg m configEnd n ret) ret) := by
  rw [epsProg_eq]
  have hloop : ∀ {s eps r}, Tries m configEnd n s eps → CanReturn (epsTurn m configEnd n ret (s, eps)) (.leave r) →
      CanReturn (looping (epsTurn m configEnd n ret) (0, Eps.none)) r :=
    fun h => CanReturn.loop (steers_epsTurn n ret) (tries_reaches h)
  cases h with
  | none h hp =>
    refine ⟨fun _ hr => absurd hr (Option.not_mem_none _), fun _ => ?_⟩
    exact hloop h (each_missed (steers_try n ret) hp)
  | some h hp heps hboth =>
    refine ⟨fun eps hr => ?_, fun hpos => ?_⟩
    · rw [← Option.mem_some_iff.mp hr]
      exact hloop h (each_found (steers_try n ret) hp (try_taken heps hboth))
    · exact hloop h (each_found (steers_try n ret) hp (try_refused heps hboth (hpos rfl)))

theorem tried_shows {l : Look} (h : Tried m configEnd n l) : CanShow (Looked l) (epsProg m configEnd n ret) := by
  rw [epsProg_eq]
  have hloop : ∀ {s eps}, Tries m configEnd n s eps → CanShow (Looked l) (epsTurn m configEnd n ret (s, eps)) →
      CanShow (Looked l) (looping (epsTurn m configEnd n ret) (0, Eps.none)) :=
    fun h => CanShow.loop looked_grows (steers_epsTurn n ret) (tries_reaches h)
  cases h with
  | search h hp hlt => exact hloop h (each_search (steers_try n ret) hp hlt)
  | @setting s p eps h hp =>
    refine hloop h (each_shows (steers_try n ret) hp ?_)
    rw [tryProg_eq]
    exact CanShow.first looked_grows (fun _ => steers_tryEndpoints n ret p eps) (setting_shows p)
  | @endpoints s p q eps eps' h hp hq hlt =>
    refine hloop h (each_shows (steers_try n ret) hp ?_)
    rw [tryProg_eq]
    exact CanShow.second (steers_setting p) (fun _ => steers_tryEndpoints n ret p eps) (setting_returns p)
      (CanShow.first looked_grows (steers_tryRest n ret p) (endpoints_shows hq hlt))

end Try

/-! ## The listed interfaces -/

section List

variable (m configEnd) (subs : Subs)

def subProg (c : UInt8 × UInt8 × UInt8) : Steered World (Turn (UInt8 × UInt8 × UInt8) (UInt8 × UInt8)) :=
  fun fuel S => subTurn (scripted m configEnd S) m fuel configEnd subs c

/-- The endpoints of an element are looked for once its number is read. -/
def elementRest (i : UInt8) (ret : UInt8 × UInt8) (sub : UInt8) :
    Steered World (Turn (UInt8 × UInt8 × UInt8) (UInt8 × UInt8)) :=
  inRow (epsProg m configEnd sub ret) fun ret _ _ => pure (.again (i + 1, ret))

def listProg : Steered World (UInt8 × UInt8) :=
  fun fuel S => subordinateEps (scripted m configEnd S) m fuel configEnd subs

theorem listProg_eq : listProg m configEnd subs = looping (subProg m configEnd subs) (0, 0, 0) := rfl

variable {m configEnd subs} {i : UInt8} {ret : UInt8 × UInt8}

theorem subProg_element {ints : Nat} (hi : i < subs.length) (hints : subs.ints = some ints) :
    subProg m configEnd subs (i, ret) =
      inRow (fun _ _ => subordinate m (ints + i.toNat)) (elementRest m configEnd i ret) := by
  funext fuel S
  unfold subProg subTurn
  rw [if_pos (show (i, ret).1 < subs.length from hi), hints]
  rfl

/-- The loop is left at the end of the list, or at once when there is no Union. -/
theorem subProg_left (h : i < subs.length → subs.ints = none) :
    subProg m configEnd subs (i, ret) = fun _ _ => pure (.leave ret) := by
  funext fuel S
  unfold subProg subTurn
  by_cases hi : i < subs.length
  · rw [if_pos (show (i, ret).1 < subs.length from hi), h hi]
  · rw [if_neg (show ¬ (i, ret).1 < subs.length from hi)]

theorem steers_element (sub : UInt8) : Steers (elementRest m configEnd i ret sub) :=
  (steers_eps sub ret).inRow fun _ => steerable_pure _

theorem steers_number (o : Nat) : Steers fun _ _ => subordinate m o := steers_of_moves fun _ => (grow_units m 0).sub o

theorem number_returns (o : Nat) : CanReturn (fun _ _ => subordinate m o : Steered World UInt8) (m o) :=
  canReturn_of_wp (fun _ => false) fun _ _ => wp_mono (subordinate_spec _) (fun _ _ h => h.1) fun _ h => h

theorem steers_sub (c : UInt8 × UInt8 × UInt8) : Steers (subProg m configEnd subs c) := by
  obtain ⟨i, ret⟩ := c
  by_cases hi : i < subs.length
  · cases hints : subs.ints with
    | none =>
      rw [subProg_left fun _ => hints]
      exact steerable_pure _
    | some ints =>
      rw [subProg_element hi hints]
      exact (steers_number _).inRow steers_element
  · rw [subProg_left fun h => absurd h hi]
    exact steerable_pure _

theorem steers_list : Steers (listProg m configEnd subs) := steerable_looping steers_sub _

section Element

variable {ints : Nat} (hi : i < subs.length) (hints : subs.ints = some ints)

include hi hints

theorem element_returns {ret' : UInt8 × UInt8} (h : CanReturn (epsProg m configEnd (m (ints + i.toNat)) ret) ret') :
    CanReturn (subProg m configEnd subs (i, ret)) (.again (i + 1, ret')) := by
  rw [subProg_element hi hints]
  exact CanReturn.inRow (steers_number _) steers_element (number_returns _) (h.map fun ret => Turn.again (i + 1, ret))

theorem element_shows : CanShow (Looked ⟨.subordinate, ints + i.toNat⟩) (subProg m configEnd subs (i, ret)) := by
  rw [subProg_element hi hints]
  refine CanShow.first looked_grows steers_element (canShow_of_wp (fun _ => false) fun _ w => ?_)
  exact List.mem_append_right w.looks (List.mem_singleton_self _)

theorem element_tried {l : Look} (h : Tried m configEnd (m (ints + i.toNat)) l) :
    CanShow (Looked l) (subProg m configEnd subs (i, ret)) := by
  rw [subProg_element hi hints]
  exact CanShow.second (steers_number _) steers_element (number_returns _)
    ((tried_shows h).map fun ret => Turn.again (i + 1, ret))

end Element

theorem listing_reaches (h : Listing m configEnd subs i ret) : Reaches (subProg m configEnd subs) (0, 0, 0) (i, ret) := by
  induction h with
  | start => exact .refl
  | taken _ hi hints hg ih => exact ih.tail (element_returns hi hints ((gives_returns hg).1 _ rfl))
  | kept _ hi hints hg hr ih => exact ih.tail (element_returns hi hints ((gives_returns hg).2 hr))

theorem list_returns (h : UnionGives m configEnd subs ret) : CanReturn (listProg m configEnd subs) ret := by
  obtain ⟨i, hl, hdone⟩ := h
  rw [listProg_eq]
  refine CanReturn.loop steers_sub (listing_reaches hl) ?_
  rw [subProg_left hdone]
  exact canReturn_pure _

theorem list_shows (h : Listing m configEnd subs i ret) {l : Look}
    (hshow : CanShow (Looked l) (subProg m configEnd subs (i, ret))) : CanShow (Looked l) (listProg m configEnd subs) := by
  rw [listProg_eq]
  exact CanShow.loop looked_grows steers_sub (listing_reaches h) hshow

end List

/-! ## A setting with an Ethernet descriptor -/

section Ether

variable (m configEnd) (n : UInt8) (p e : Nat)

def netifProg (eps : Eps) : Steered World Bool :=
  fun _ S => addNetif (scripted m configEnd S) m 1 n p e eps.inEp eps.outEp

/-- What follows when both endpoint variables are known. -/
def etherRest (eps : Eps) : Steered World (Turn Nat Bool) := fun fuel S =>
  if ¬ eps.Both then do
    let next ← nextDescriptor m p
    pure (.again next)
  else do
    let added ← netifProg m configEnd n p e eps fuel S
    pure (.leave added)

def etherEndpoints (ret : UInt8 × UInt8) : Steered World (Turn Nat Bool) :=
  inRow (fun fuel _ => getEndpoints m fuel p configEnd ⟨ret.1, ret.2, 0⟩) (etherRest m configEnd n p e)

def etherList (subs : Subs) : Steered World (Turn Nat Bool) :=
  inRow (listProg m configEnd subs) (etherEndpoints m configEnd n p e)

def etherProg : Steered World (Turn Nat Bool) :=
  fun fuel S => etherSetting (scripted m configEnd S) m fuel 1 configEnd n p e

theorem etherProg_eq : etherProg m configEnd n p e =
    inRow (fun fuel _ => getSubordinateInts m fuel p configEnd) (etherList m configEnd n p e) := rfl

variable {m configEnd n p e}

theorem steers_select (p : Nat) : Steers fun _ S => selectSetting (scripted m configEnd S) m p :=
  (steers_setting p).inRow fun _ => (steers_usbSetInterface p).ite (steerable_pure _)

theorem steers_netif (eps : Eps) : Steers (netifProg m configEnd n p e eps) := by
  unfold netifProg addNetif
  refine Steerable.inRow (steers_select p) fun error => Steerable.ite (steerable_pure _) ?_
  -- from here on the script is not asked
  have hmalloc : ∀ S, malloc (scripted m configEnd S) = malloc (deviceOf []) := fun _ => rfl
  have hfill : ∀ S netif state, fillAndAdd (scripted m configEnd S) m 1 n e eps.inEp eps.outEp netif state =
      fillAndAdd (deviceOf []) m 1 n e eps.inEp eps.outEp netif state := fun _ _ _ => rfl
  simp only [hmalloc, hfill]
  refine steers_of_moves fun _ => moves_bind (moves_malloc grow_calls) fun netif? => ?_
  cases netif? with
  | none => exact moves_pure _
  | some netif =>
    refine moves_bind (moves_malloc grow_calls) fun state? => ?_
    cases state? with
    | none => exact moves_bind (moves_call grow_calls trivial) fun _ => moves_pure _
    | some state =>
      exact moves_bind (moves_fillAndAdd grow_calls (grow_units m configEnd) grow_asks n e eps.inEp eps.outEp netif state)
        fun _ => moves_pure _

/-- When every call succeeds the netif is added, and the Ethernet descriptor is read for it. -/
theorem netif_succeeds (eps : Eps) (fuel : Nat) (w : World) :
    wp (netifProg m configEnd n p e eps fuel fun _ => true) (fun added w' => added = true ∧ Looked ⟨.ethernet, e⟩ w')
      (fun _ => False) w := by
  simp [netifProg, addNetif, selectSetting, bAlternateSetting, usbSetInterface, look, byte, malloc, call, fillAndAdd,
    usbGetDeviceEndpoint, freeUnless, etherFields, scripted, answering, handing, deviceOf, Looked]

theorem netif_returns (eps : Eps) : CanReturn (netifProg m configEnd n p e eps) true :=
  canReturn_of_wp (fun _ => true) fun fuel w => wp_mono (netif_succeeds eps fuel w) (fun _ _ h => h.1) fun _ h => h

theorem netif_shows (eps : Eps) : CanShow (Looked ⟨.ethernet, e⟩) (netifProg m configEnd n p e eps) :=
  canShow_of_wp (fun _ => true) fun fuel w => wp_mono (netif_succeeds eps fuel w) (fun _ _ h => h.2) fun _ h => h

theorem etherRest_both {eps : Eps} (h : eps.Both) : etherRest m configEnd n p e eps =
    inRow (netifProg m configEnd n p e eps) fun added _ _ => pure (.leave added) := by
  funext fuel S
  exact if_neg (not_not.mpr h)

theorem etherRest_short {eps : Eps} (h : ¬ eps.Both) : etherRest m configEnd n p e eps =
    inRow (fun _ _ => nextDescriptor m p) fun next _ _ => pure (.again next) := by
  funext fuel S
  exact if_pos h

theorem steers_etherRest (eps : Eps) : Steers (etherRest m configEnd n p e eps) :=
  Steerable.ite ((steers_next p).inRow fun _ => steerable_pure _) ((steers_netif eps).inRow fun _ => steerable_pure _)

theorem steers_etherEndpoints (ret : UInt8 × UInt8) : Steers (etherEndpoints m configEnd n p e ret) :=
  (steers_getEndpoints p _).inRow steers_etherRest

theorem steers_etherList (subs : Subs) : Steers (etherList m configEnd n p e subs) :=
  steers_list.inRow steers_etherEndpoints

theorem steers_union : Steers fun fuel _ => getSubordinateInts m fuel p configEnd :=
  steers_of_moves fun _ => moves_getSubordinateInts (grow_units m configEnd) p

theorem steers_ether : Steers (etherProg m configEnd n p e) := steers_union.inRow steers_etherList

theorem ether_union {q : Nat} (hq : Comes (unionWalk m configEnd) (nextOf m p, ()) (q, ())) (hlt : q < configEnd) :
    CanShow (Looked ⟨.functional, q⟩) (etherProg m configEnd n p e) := by
  rw [etherProg_eq]
  exact CanShow.first looked_grows steers_etherList (block_shows union_watches (grow_units m configEnd).union hq hlt)

section Union

variable {subs : Subs} (hunion : UnionOf m configEnd p subs)

include hunion

theorem union_returns :
    CanReturn (fun fuel _ => getSubordinateInts m fuel p configEnd : Steered World Subs) subs :=
  block_returns union_watches (grow_units m configEnd).union hunion

theorem ether_list {l : Look} (h : CanShow (Looked l) (listProg m configEnd subs)) :
    CanShow (Looked l) (etherProg m configEnd n p e) := by
  rw [etherProg_eq]
  exact CanShow.second steers_union steers_etherList (union_returns hunion)
    (CanShow.first looked_grows steers_etherEndpoints h)

theorem ether_endpoints {ret : UInt8 × UInt8} (hret : UnionGives m configEnd subs ret) {q : Nat} {eps : Eps}
    (hq : Comes (endpointWalk m configEnd) (nextOf m p, ⟨ret.1, ret.2, 0⟩) (q, eps)) (hlt : q < configEnd) :
    CanShow (Looked ⟨.endpoints, q⟩) (etherProg m configEnd n p e) := by
  rw [etherProg_eq]
  exact CanShow.second steers_union steers_etherList (union_returns hunion)
    (CanShow.second steers_list steers_etherEndpoints (list_returns hret)
      (CanShow.first looked_grows steers_etherRest (endpoints_shows hq hlt)))

variable {eps : Eps} (heps : SettingEps m configEnd p subs eps)

include heps

theorem ether_returns {t : Turn Nat Bool} (ht : CanReturn (etherRest m configEnd n p e eps) t) :
    CanReturn (etherProg m configEnd n p e) t := by
  obtain ⟨ret, hret, hends⟩ := heps
  rw [etherProg_eq]
  exact CanReturn.inRow steers_union steers_etherList (union_returns hunion)
    (CanReturn.inRow steers_list steers_etherEndpoints (list_returns hret)
      (CanReturn.inRow (steers_getEndpoints p _) steers_etherRest (endpoints_returns hends) ht))

theorem ether_short (hnot : ¬ eps.Both) : CanReturn (etherProg m configEnd n p e) (.again (nextOf m p)) := by
  refine ether_returns hunion heps ?_
  rw [etherRest_short hnot]
  exact (next_returns p).map Turn.again

theorem ether_bound (hboth : eps.Both) : CanReturn (etherProg m configEnd n p e) (.leave true) := by
  refine ether_returns hunion heps ?_
  rw [etherRest_both hboth]
  exact (netif_returns eps).map Turn.leave

theorem ether_fields (hboth : eps.Both) : CanShow (Looked ⟨.ethernet, e⟩) (etherProg m configEnd n p e) := by
  obtain ⟨ret, hret, hends⟩ := heps
  rw [etherProg_eq]
  refine CanShow.second steers_union steers_etherList (union_returns hunion)
    (CanShow.second steers_list steers_etherEndpoints (list_returns hret)
      (CanShow.second (steers_getEndpoints p _) steers_etherRest (endpoints_returns hends) ?_))
  rw [etherRest_both hboth]
  exact (netif_shows eps).map Turn.leave

end Union

end Ether

/-! ## The settings of an interface number -/

section Search

variable (m configEnd) (n : UInt8) (p : Nat)

def examineProg : Steered World (Turn Nat Bool) :=
  fun fuel S => examineSetting (scripted m configEnd S) m fuel 1 configEnd n p

/-- What follows when it is known whether the setting has an Ethernet descriptor. -/
def examineRest (r : Option Nat) : Steered World (Turn Nat Bool) :=
  match r with
  | none => inRow (fun _ _ => nextDescriptor m p) fun next _ _ => pure (.again next)
  | some e => etherProg m configEnd n p e

def examineEther : Steered World (Turn Nat Bool) :=
  inRow (fun fuel _ => getEtherDesc m fuel p configEnd) (examineRest m configEnd n p)

theorem examineProg_eq :
    examineProg m configEnd n p = inRow (fun _ _ => printSetting m p) fun _ => examineEther m configEnd n p := by
  funext fuel S
  unfold examineProg examineSetting examineEther inRow
  congr
  funext _
  congr
  funext r
  cases r <;> rfl

def searchTurn : Nat → Steered World (Turn Nat Bool) :=
  eachProg n id (fun _ => false) (fun _ => examineProg m configEnd n) m configEnd

def searchProg : Steered World Bool :=
  fun fuel S => searchInterface (scripted m configEnd S) m fuel 1 configEnd n

variable {m configEnd n p}

theorem steers_examineRest (r : Option Nat) : Steers (examineRest m configEnd n p r) := by
  cases r with
  | none => exact (steers_next p).inRow fun _ => steerable_pure _
  | some e => exact steers_ether

theorem steers_etherDesc : Steers fun fuel _ => getEtherDesc m fuel p configEnd :=
  steers_of_moves fun _ => moves_getEtherDesc (grow_units m configEnd) p

theorem steers_examineEther : Steers (examineEther m configEnd n p) := steers_etherDesc.inRow steers_examineRest

theorem steers_print : Steers fun _ _ => printSetting m p := steers_of_moves fun _ => (grow_units m 0).print p

theorem steers_examine (p : Nat) : Steers (examineProg m configEnd n p) := by
  rw [examineProg_eq]
  exact steers_print.inRow fun _ => steers_examineEther

theorem print_returns : CanReturn (fun _ _ => printSetting m p : Steered World Unit) () :=
  canReturn_of_wp (fun _ => false) fun _ _ => wp_mono (printSetting_spec p) (fun _ _ _ => rfl) fun _ h => h

theorem examine_print : CanShow (Looked ⟨.setting, p⟩) (examineProg m configEnd n p) := by
  rw [examineProg_eq]
  refine CanShow.first looked_grows (fun _ => steers_examineEther) (canShow_of_wp (fun _ => false) fun _ w => ?_)
  exact List.mem_append_right w.looks (List.mem_singleton_self _)

theorem examine_ether {q : Nat} (hq : Comes (etherWalk m configEnd) (nextOf m p, ()) (q, ())) (hlt : q < configEnd) :
    CanShow (Looked ⟨.functional, q⟩) (examineProg m configEnd n p) := by
  rw [examineProg_eq]
  exact CanShow.second steers_print (fun _ => steers_examineEther) print_returns
    (CanShow.first looked_grows steers_examineRest (block_shows ether_watches (grow_units m configEnd).ether hq hlt))

theorem examine_returns {r : Option Nat} (he : EtherOf m configEnd p r) {t : Turn Nat Bool}
    (ht : CanReturn (examineRest m configEnd n p r) t) : CanReturn (examineProg m configEnd n p) t := by
  rw [examineProg_eq]
  exact CanReturn.inRow steers_print (fun _ => steers_examineEther) print_returns
    (CanReturn.inRow steers_etherDesc steers_examineRest
      (block_returns ether_watches (grow_units m configEnd).ether he) ht)

theorem examine_shows {e : Nat} (he : EtherOf m configEnd p (some e)) {l : Look}
    (h : CanShow (Looked l) (etherProg m configEnd n p e)) : CanShow (Looked l) (examineProg m configEnd n p) := by
  rw [examineProg_eq]
  exact CanShow.second steers_print (fun _ => steers_examineEther) print_returns
    (CanShow.second steers_etherDesc steers_examineRest
      (block_returns ether_watches (grow_units m configEnd).ether he) h)

theorem steers_searchTurn (s : Nat) : Steers (searchTurn m configEnd n s) := steers_each (fun _ => steers_examine) s

theorem steers_search : Steers (searchProg m configEnd n) := steerable_looping steers_searchTurn 0

end Search

/-! ## The interface numbers -/

section Ints

variable (m configEnd) (c : UInt8 × Bool)

def intProg : Steered World (Turn (UInt8 × Bool) Bool) :=
  fun fuel S => intTurn (scripted m configEnd S) m fuel 1 configEnd c

def intRest (count : UInt8) : Steered World (Turn (UInt8 × Bool) Bool) := fun fuel S =>
  if c.1 < count then do
    let added ← searchProg m configEnd c.1 fuel S
    pure (.again (c.1 + 1, c.2 || added))
  else pure (.leave c.2)

theorem intProg_eq : intProg m configEnd c = inRow (fun _ _ => bNumInterfaces m) (intRest m configEnd c) := rfl

def bindProg : Steered World Bool := fun fuel S => bindInterfaces (scripted m configEnd S) m fuel 1 configEnd

theorem bindProg_eq : bindProg m configEnd = looping (intProg m configEnd) (0, false) := rfl

variable {m configEnd c}

theorem steers_intRest (count : UInt8) : Steers (intRest m configEnd c count) :=
  Steerable.ite (steers_search.inRow fun _ => steerable_pure _) (steerable_pure _)

theorem steers_count : Steers fun _ _ => bNumInterfaces m := steers_of_moves fun _ => (grow_units m 0).count

theorem count_returns : CanReturn (fun _ _ => bNumInterfaces m : Steered World UInt8) (m 4) :=
  canReturn_of_wp (fun _ => false) fun _ _ => rfl

theorem steers_int (c : UInt8 × Bool) : Steers (intProg m configEnd c) := steers_count.inRow steers_intRest

theorem int_count : CanShow (Looked ⟨.configuration, 0⟩) (intProg m configEnd c) := by
  rw [intProg_eq]
  refine CanShow.first looked_grows steers_intRest (canShow_of_wp (fun _ => false) fun _ w => ?_)
  exact List.mem_append_right w.looks (List.mem_singleton_self _)

section Below

variable (hlt : c.1 < m 4)

include hlt

theorem intRest_below : intRest m configEnd c (m 4) =
    inRow (searchProg m configEnd c.1) fun added _ _ => pure (.again (c.1 + 1, c.2 || added)) := by
  funext fuel S
  exact if_pos hlt

theorem int_returns {added : Bool} (h : CanReturn (searchProg m configEnd c.1) added) :
    CanReturn (intProg m configEnd c) (.again (c.1 + 1, c.2 || added)) := by
  rw [intProg_eq]
  refine CanReturn.inRow steers_count steers_intRest count_returns ?_
  rw [intRest_below hlt]
  exact h.map fun added => Turn.again (c.1 + 1, c.2 || added)

theorem int_shows {l : Look} (h : CanShow (Looked l) (searchProg m configEnd c.1)) :
    CanShow (Looked l) (intProg m configEnd c) := by
  rw [intProg_eq]
  refine CanShow.second steers_count steers_intRest count_returns ?_
  rw [intRest_below hlt]
  exact h.map fun added => Turn.again (c.1 + 1, c.2 || added)

end Below

end Ints

/-! ## Everything that can be looked at -/

/-- The search for interface `n` can be brought to look for a setting from `s` on. -/
structure Brought (m : Mem) (configEnd : Nat) (n : UInt8) (s : Nat) : Prop where
  below : n < m 4
  number : ∃ found, Reaches (intProg m configEnd) (0, false) (n, found)
  setting : Reaches (searchTurn m configEnd n) 0 s

section Brought

variable {n : UInt8} {s : Nat}

theorem Brought.again {s' : Nat} (h : Brought m configEnd n s) (hturn : Turns (searchTurn m configEnd n) s s') :
    Brought m configEnd n s' := ⟨h.below, h.number, h.setting.tail hturn⟩

/-- A search that is over is followed by that for the next number. -/
theorem Brought.following {added : Bool} (h : Brought m configEnd n s)
    (hleave : CanReturn (searchTurn m configEnd n s) (.leave added)) (hn : n + 1 < m 4) :
    Brought m configEnd (n + 1) 0 := by
  obtain ⟨found, hnumber⟩ := h.number
  have hsearch : CanReturn (searchProg m configEnd n) added := CanReturn.loop steers_searchTurn h.setting hleave
  exact ⟨hn, ⟨_, hnumber.tail (int_returns (c := (n, found)) h.below hsearch)⟩, .refl⟩

theorem examines_reaches (h : Examines m configEnd n s) : Brought m configEnd n s := by
  have hvisit : ∀ n (_ : Nat) p, Steers (examineProg m configEnd n p) := fun _ _ => steers_examine
  induction h with
  | first h => exact ⟨h, ⟨false, .refl⟩, .refl⟩
  | @plain n _ p _ hp he ih =>
    exact ih.again (each_found (hvisit n) hp (examine_returns he ((next_returns p).map Turn.again)))
  | @short n _ _ _ _ _ _ hp heps hnot ih =>
    exact ih.again (each_found (hvisit n) hp.found (examine_returns hp.ether (ether_short hp.union heps hnot)))
  | @bound n _ _ _ _ _ _ hp heps hboth hn ih =>
    exact ih.following (each_found (hvisit n) hp.found (examine_returns hp.ether (ether_bound hp.union heps hboth))) hn
  | @missed n _ _ hp hn ih => exact ih.following (each_missed (hvisit n) hp) hn

section Shows

variable {l : Look} (h : Examines m configEnd n s)

include h

theorem shows_turn (hshow : CanShow (Looked l) (searchTurn m configEnd n s)) :
    CanShow (Looked l) (bindProg m configEnd) := by
  have hbrought := examines_reaches h
  obtain ⟨found, hnumber⟩ := hbrought.number
  have hsearch : CanShow (Looked l) (searchProg m configEnd n) :=
    CanShow.loop looked_grows steers_searchTurn hbrought.setting hshow
  rw [bindProg_eq]
  exact CanShow.loop looked_grows steers_int hnumber (int_shows (c := (n, found)) hbrought.below hsearch)

theorem shows_examined {p : Nat} (hp : Finds m configEnd n s (some p))
    (hshow : CanShow (Looked l) (examineProg m configEnd n p)) : CanShow (Looked l) (bindProg m configEnd) :=
  shows_turn h (each_shows (fun _ => steers_examine) hp hshow)

theorem shows_ether {p e : Nat} {subs : Subs} (hp : EtherAt m configEnd n s p e subs)
    (hshow : CanShow (Looked l) (etherProg m configEnd n p e)) : CanShow (Looked l) (bindProg m configEnd) :=
  shows_examined h hp.found (examine_shows hp.ether hshow)

end Shows

end Brought

/-- What is `Visited` is looked at in some run. (The length of a descriptor is its first
    byte, and `current < end` is enough for it.) -/
theorem visited_shows {l : Look} (h : Visited m configEnd l) :
    l.use = .next ∧ l.pos < configEnd ∨ CanShow (Looked l) (bindProg m configEnd) := by
  cases h with
  | next hlt => exact .inl ⟨rfl, hlt⟩
  | count =>
    rw [bindProg_eq]
    exact .inr (CanShow.loop looked_grows steers_int .refl int_count)
  | search h hp hlt => exact .inr (shows_turn h (each_search (fun _ => steers_examine) hp hlt))
  | setting h hp => exact .inr (shows_examined h hp examine_print)
  | ether h hp hq hlt => exact .inr (shows_examined h hp (examine_ether hq hlt))
  | union h hp he hq hlt => exact .inr (shows_examined h hp (examine_shows he (ether_union hq hlt)))
  | element h hp hl hi hints =>
    exact .inr (shows_ether h hp (ether_list hp.union (list_shows hl (element_shows hi hints))))
  | tried h hp hl hi hints ht =>
    exact .inr (shows_ether h hp (ether_list hp.union (list_shows hl (element_tried hi hints ht))))
  | endpoints h hp hret hq hlt => exact .inr (shows_ether h hp (ether_endpoints hp.union hret hq hlt))
  | ethernet h hp heps hboth => exact .inr (shows_ether h hp (ether_fields hp.union heps hboth))

end Nanotube.Device.Usb
