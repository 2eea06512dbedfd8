/-
  Nanotube.Device.Enumeration — does `usb_handle_connect` return?

  Every walk goes on by the length byte the device sent. With enough fuel, each function
  either returns having met no zero length, or has met one and is still running
  (`Decides`): a zero length keeps a walk at its descriptor, and a setting of length 0,
  which the block walks do stop at, is found again and again by the loop that searched
  for it.

  Proved: `usb_handle_connect` returns if and only if NEXT_DESCRIPTOR is never applied to
  a descriptor of length 0, the configuration loop is not run up to 255, where its 8-bit
  counter never gets past the bound, and every `netif_add` on the way returns
  (`connect_returns_iff`). The last is left open here: lwIP looks for a free number for the
  netif with a loop of its own (src/lwIP/core/netif.c), which does not end while 255 netifs
  are in its list, or when the block of the netif is in it already.
-/

import Nanotube.Device.Walks

namespace Nanotube.Device.Usb

open Nanotube.Lib.Loops
open Nanotube.Device.Ecm (UsbError)

variable {env : Env} {m : Mem} {fuel configEnd : Nat} {w : World}

/-- From a clean world it returns to a clean world, or is still running after a zero length. -/
def Decides {α : Type} (p : Prog World α) : Prop := ∀ w, Clean w → wp p (fun _ w' => Clean w') (fun w' => ¬ Clean w') w

/-! ## The two loops over the settings of an interface -/

section Settings

variable {α β : Type} {n : UInt8} {pos : α → Nat} {miss : α → β} {visit : α → Nat → Prog World (Turn α β)}
  {K : α → Prop}

/-- Visiting a setting of length 0 comes back to it, visiting another one goes on behind it. -/
structure Visits (m : Mem) (configEnd : Nat) (n : UInt8) (pos : α → Nat) (visit : α → Nat → Prog World (Turn α β))
    (K : α → Prop) : Prop where
  zero : ∀ a p w, K a → ZeroSetting m configEnd n p →
    wp (visit a p) (turn (fun a' w' => K a' ∧ pos a' = p ∧ ¬ Clean w') fun _ _ => False) (fun w' => ¬ Clean w') w
  next : ∀ a p w, K a → Clean w → m p ≠ 0 →
    wp (visit a p) (turn (fun a' w' => K a' ∧ pos a' = p + (m p).toNat ∧ Clean w') fun _ w' => Clean w')
      (fun w' => ¬ Clean w') w

theorem eachSetting_decides (hv : Visits m configEnd n pos visit K) (hfuel : configEnd < fuel) {a : α} (ha : K a)
    (hw : Clean w) :
    wp (loop (eachSetting m fuel configEnd n pos miss visit) fuel a) (fun _ w' => Clean w')
      (fun w' => ¬ Clean w') w := by
  refine wp_loop_decides (I := fun a w => K a ∧ Clean w)
    (J := fun a w => K a ∧ ZeroSetting m configEnd n (pos a) ∧ ¬ Clean w) (fun a => configEnd - pos a) ?_ ?_
    (fun _ _ hj => hj.2.2) (by omega) ⟨ha, hw⟩
  · intro a w hi
    obtain ⟨ha, hw⟩ := hi
    simp only [eachSetting, wp_bind]
    have hfuel' : configEnd - id (pos a) < fuel := by simp only [id]; omega
    refine wp_mono (walk_spec (interface_advances n) hw hfuel') ?_ (fun _ hn => hn)
    intro r w' h
    obtain ⟨hr, -, hw'⟩ := h
    cases r with
    | none => exact hw'
    | some p =>
      obtain ⟨hle, hlt, hint⟩ := leads_interface hr p rfl
      by_cases hz : m p = 0
      · have hzero : ZeroSetting m configEnd n p := ⟨hlt, hint, hz⟩
        refine wp_mono (hv.zero a p w' ha hzero) ?_ (fun _ hn => hn)
        intro t w'' ht
        cases t with
        | leave b => exact ht.elim
        | again a' =>
          obtain ⟨ha', hpos, hn⟩ := ht
          exact Or.inr ⟨ha', hpos ▸ hzero, hn⟩
      · refine wp_mono (hv.next a p w' ha hw' hz) ?_ (fun _ hn => hn)
        intro t w'' ht
        cases t with
        | leave b => exact ht
        | again a' =>
          obtain ⟨ha', hpos, hc⟩ := ht
          have hlen := toNat_pos hz
          exact Or.inl ⟨⟨ha', hc⟩, by omega⟩
  · intro a w hj
    obtain ⟨ha, hzero, hn⟩ := hj
    simp only [eachSetting, wp_bind]
    have hmoves : Moves Dirties (getInterfaceDescriptor m fuel (pos a) configEnd n) :=
      moves_getInterfaceDescriptor (dirties_logs.units m configEnd) _ _
    refine wp_mono (wp_and (walk_leads (interface_advances n) w (pos a)) (hmoves.wp w)) ?_ (fun _ hs => hs.2 hn)
    intro r w' h
    obtain rfl : r = some (pos a) := leads_interface_here h.1.1 hzero.inside hzero.interface
    refine wp_mono (hv.zero a (pos a) w' ha hzero) ?_ (fun _ hn => hn)
    intro t w'' ht
    cases t with
    | leave b => exact ht
    | again a' =>
      obtain ⟨ha', hpos, hn'⟩ := ht
      exact ⟨ha', hpos ▸ hzero, hn'⟩

end Settings

theorem trySetting_visits (hfuel : configEnd < fuel) (interface : UInt8) (ret : UInt8 × UInt8) :
    Visits m configEnd interface Prod.fst (trySetting env m fuel configEnd interface ret) fun c => ¬ c.2.Both := by
  refine ⟨?_, ?_⟩
  · intro c p w hc hz
    simp only [trySetting, wp_bind]
    refine wp_mono (bAlternateSetting_spec p) ?_ (fun _ hf => hf.elim)
    intro _ w₁ _
    refine wp_mono (blockWalk_zero endpoint_computes hz c.2) ?_ (fun _ hn => hn)
    intro eps w₂ h
    obtain ⟨rfl, hn⟩ := h
    simp only [id, if_neg hc, wp_bind]
    refine wp_nextDescriptor fun w₃ hl _ => ?_
    refine ⟨hc, ?_, fun hcl => hn (hcl.of_append hl)⟩
    rw [hz.zero]
    rfl
  · intro c p w hc hw hp
    simp only [trySetting, wp_bind]
    refine wp_mono (bAlternateSetting_spec p) ?_ (fun _ hf => hf.elim)
    intro _ w₁ h₁
    refine wp_mono (blockWalk_spec endpoint_computes (hw.congr h₁.2.lengths) hfuel hp c.2) ?_ (fun _ hn => hn)
    intro eps w₂ h
    obtain ⟨-, -, hw₂⟩ := h
    simp only [wp_ite]
    split
    · split
      · rw [wp_bind]
        exact wp_mono (usbSetInterface_spec p) (fun _ _ h => hw₂.congr h.2.1) (fun _ hf => hf.elim)
      · exact hw₂
    · rename_i hnb
      rw [wp_bind]
      refine wp_nextDescriptor fun w₃ hl _ => ?_
      exact ⟨hnb, rfl, clean_append hw₂ hl hp⟩

theorem getEpsAnySetting_decides (hfuel : configEnd < fuel) (interface : UInt8) (ret : UInt8 × UInt8) :
    Decides (getEpsAnySetting env m fuel configEnd interface ret) := by
  intro w hw
  exact eachSetting_decides (trySetting_visits hfuel interface ret) hfuel (fun h => h.1 rfl) hw

theorem subordinateEps_decides (hfuel : configEnd < fuel) (hfuel' : 256 < fuel) (subs : Subs) :
    Decides (subordinateEps env m fuel configEnd subs) := by
  intro w hw
  refine wp_loop_variant (I := fun _ w => Clean w) (fun c => 256 - c.1.toNat) ?_ (by omega) hw
  intro c w hw
  simp only [subTurn, wp_ite]
  split
  · rename_i hlt
    rcases subs with ⟨_ | ints, length⟩
    · exact hw
    · simp only [subordinate, look, byte, wp_bind, wp_update, wp_pure]
      refine wp_mono (getEpsAnySetting_decides hfuel _ _ _ hw) ?_ (fun _ hn => hn)
      intro ret w' hw'
      refine ⟨hw', ?_⟩
      have hs := toNat_succ hlt
      have hc := c.1.toNat_lt
      simp only [hs]
      omega
  · exact hw

theorem etherSetting_decides (hfuel : configEnd < fuel) (hfuel' : 256 < fuel) (config currentInt : UInt8) {p : Nat}
    (hp : m p ≠ 0) (ethDesc : Nat) (hw : Clean w) :
    wp (etherSetting env m fuel config configEnd currentInt p ethDesc)
      (turn (fun next w' => next = p + (m p).toNat ∧ Clean w') fun _ w' => Clean w') (fun w' => ¬ Clean w') w := by
  simp only [etherSetting, wp_bind]
  refine wp_mono (blockWalk_spec union_computes hw hfuel hp ()) ?_ (fun _ hn => hn)
  intro subs w₁ h₁
  refine wp_mono (subordinateEps_decides hfuel hfuel' subs w₁ h₁.2.2) ?_ (fun _ hn => hn)
  intro ret w₂ hw₂
  refine wp_mono (blockWalk_spec endpoint_computes hw₂ hfuel hp _) ?_ (fun _ hn => hn)
  intro eps w₃ h₃
  simp only [wp_ite]
  split
  · rw [wp_bind]
    refine wp_nextDescriptor fun w₄ hl _ => ?_
    exact ⟨rfl, clean_append h₃.2.2 hl hp⟩
  · rw [wp_bind]
    exact wp_mono (addNetif_spec config currentInt p ethDesc _ _) (fun _ _ h => h₃.2.2.congr h.1) (fun _ hf => hf.elim)

theorem examineSetting_visits (hfuel : configEnd < fuel) (hfuel' : 256 < fuel) (config currentInt : UInt8) :
    Visits m configEnd currentInt id (fun _ => examineSetting env m fuel config configEnd currentInt)
      fun _ => True := by
  refine ⟨?_, ?_⟩
  · intro a p w _ hz
    simp only [examineSetting, wp_bind]
    refine wp_mono (printSetting_spec p) ?_ (fun _ hf => hf.elim)
    intro _ w₁ _
    refine wp_mono (blockWalk_zero ether_computes hz ()) ?_ (fun _ hn => hn)
    intro r w₂ h
    obtain ⟨rfl, hn⟩ := h
    simp only [wp_bind]
    refine wp_nextDescriptor fun w₃ hl _ => ?_
    refine ⟨trivial, ?_, fun hcl => hn (hcl.of_append hl)⟩
    rw [hz.zero]
    rfl
  · intro a p w _ hw hp
    simp only [examineSetting, wp_bind]
    refine wp_mono (printSetting_spec p) ?_ (fun _ hf => hf.elim)
    intro _ w₁ h₁
    refine wp_mono (blockWalk_spec ether_computes (hw.congr h₁.lengths) hfuel hp ()) ?_ (fun _ hn => hn)
    intro r w₂ h₂
    cases r with
    | none =>
      simp only [wp_bind]
      refine wp_nextDescriptor fun w₃ hl _ => ?_
      exact ⟨trivial, rfl, clean_append h₂.2.2 hl hp⟩
    | some ethDesc =>
      refine wp_mono (etherSetting_decides hfuel hfuel' config currentInt hp ethDesc h₂.2.2) ?_ (fun _ hn => hn)
      intro t w₃ ht
      cases t with
      | leave b => exact ht
      | again a' => exact ⟨trivial, ht⟩

/-! ## The interface numbers and the configurations -/

theorem bindInterfaces_decides (hfuel : configEnd < fuel) (hfuel' : 256 < fuel) (config : UInt8) :
    Decides (bindInterfaces env m fuel config configEnd) := by
  intro w hw
  refine wp_loop_variant (I := fun _ w => Clean w) (fun c => 256 - c.1.toNat) ?_ (by omega) hw
  intro c w hw
  simp only [intTurn, bNumInterfaces, look, byte, wp_bind, wp_update, wp_pure, wp_ite]
  split
  · rename_i hlt
    refine wp_mono (eachSetting_decides (examineSetting_visits hfuel hfuel' config c.1) hfuel trivial hw) ?_
      (fun _ hn => hn)
    intro added w' hw'
    refine ⟨hw', ?_⟩
    have hs := toNat_succ hlt
    have hc := c.1.toNat_lt
    simp only [hs]
    omega
  · exact hw

theorem processConfigDescriptor_decides (hfuel : 256 < fuel) (config : UInt8) :
    Decides (processConfigDescriptor env fuel config) := by
  intro w hw
  simp only [processConfigDescriptor, wp_bind, wp_peek, wp_ite]
  split
  · exact hw
  · rename_i hlen
    cases env.configDescriptor w.calls (config - 1) with
    | none => exact hw
    | some m =>
      simp only [call, wp_bind, wp_update, wp_ite]
      split
      · exact hw
      · have hlen' : env.totalLength w.calls (config - 1) < fuel := by
          unfold MAX_CONFIG_LENGTH at hlen
          omega
        exact bindInterfaces_decides hlen' hfuel config _ hw

/-- The configuration loop ends unless its bound is 255. -/
theorem configLoop_decides (hfuel : 256 < fuel) {bNumConfigurations : UInt8} (hb : bNumConfigurations ≠ 255) :
    Decides (loop (configTurn env fuel bNumConfigurations) fuel 1) := by
  intro w hw
  refine wp_loop_variant (I := fun _ w => Clean w) (fun c => 256 - c.toNat) ?_
    (by show 256 - (1 : UInt8).toNat < fuel; omega) hw
  intro c w hw
  simp only [configTurn, wp_ite]
  split
  · rename_i hle
    rw [wp_bind]
    refine wp_mono (processConfigDescriptor_decides hfuel c w hw) ?_ (fun _ hn => hn)
    intro _ w' hw'
    refine ⟨hw', ?_⟩
    have hc := UInt8.le_iff_toNat_le.mp hle
    have hb' : bNumConfigurations.toNat ≠ 255 := fun h => hb (UInt8.toNat_inj.mp h)
    have hlt := bNumConfigurations.toNat_lt
    have hs : c < 255 := UInt8.lt_iff_toNat_lt.mpr (by show c.toNat < 255; omega)
    rw [toNat_succ hs]
    omega
  · exact hw

/-- An 8-bit counter is never above 255. -/
theorem configLoop_wraps (w : World) :
    wp (loop (configTurn env fuel 255) fuel 1) (fun _ _ => False) (fun _ => True) w := by
  refine wp_loop (I := fun _ _ => True) ?_ (fun _ _ _ => trivial) fuel trivial
  intro c w _
  have hle : c ≤ 255 := UInt8.le_iff_toNat_le.mpr (by have := c.toNat_lt; show c.toNat ≤ 255; omega)
  simp only [configTurn, if_pos hle, wp_bind]
  exact wp_mono (Moves.wp (S := fun _ _ => True) (fun _ => trivial) w) (fun _ _ _ => trivial) (fun _ _ => trivial)

/-! ## The connect -/

/-- The configuration loop is entered with the bound 255. -/
def Wraps (env : Env) : Prop := env.configuration.getD 0 = 0 ∧ env.numConfigurations.getD 2 = 255

theorem enable_spec : wp (enable env) (fun _ w' => w'.lengths = w.lengths) (fun _ => False) w := by
  by_cases he : env.enabled <;> simp [enable, he, call]

theorem connect_decides (hfuel : 256 < fuel) (hwrap : ¬ Wraps env) : Decides (usbHandleConnect env fuel) := by
  intro w hw
  simp only [usbHandleConnect, wp_bind]
  refine wp_mono enable_spec ?_ (fun _ hf => hf.elim)
  intro _ w₁ h₁
  have hw₁ : Clean w₁ := hw.congr h₁
  simp only [wp_ite]
  split
  · rw [wp_bind]
    exact wp_mono (processConfigDescriptor_decides hfuel _ w₁ hw₁) (fun _ _ h => h) (fun _ hn => hn)
  · rename_i hc
    rw [wp_bind]
    have hb : env.numConfigurations.getD 2 ≠ 255 := fun hb => hwrap ⟨not_not.mp hc, hb⟩
    exact wp_mono (configLoop_decides hfuel hb w₁ hw₁) (fun _ _ h => h) (fun _ hn => hn)

theorem connect_wraps (fuel : Nat) (hwrap : Wraps env) (w : World) :
    wp (usbHandleConnect env fuel) (fun _ _ => False) (fun _ => True) w := by
  simp only [usbHandleConnect, wp_bind]
  refine wp_mono enable_spec ?_ (fun _ _ => trivial)
  intro _ w₁ _
  simp only [hwrap.1, hwrap.2, ne_eq, not_true_eq_false, if_false, wp_bind]
  exact wp_mono (configLoop_wraps w₁) (fun _ _ hf => hf.elim) (fun _ h => h)

/-- What a connect has done so far, with `fuel` turns for each loop. -/
def connected (env : Env) (fuel : Nat) : World := (usbHandleConnect env fuel World.start).2

def Returns (env : Env) (fuel : Nat) : Prop := (usbHandleConnect env fuel World.start).1.isSome

instance (env : Env) (fuel : Nat) : Decidable (Returns env fuel) := inferInstanceAs (Decidable (_ = true))

theorem start_clean : Clean World.start := List.not_mem_nil

theorem connect_approx (env : Env) {fuel' : Nat} (hn : fuel ≤ fuel') :
    Approx Dirties (usbHandleConnect env fuel) (usbHandleConnect env fuel') :=
  approx_usbHandleConnect hn dirties_logs (fun _ _ _ h => h) fun _ _ h => h

theorem not_wraps_of_returns (h : Returns env fuel) : ¬ Wraps env := by
  intro hw
  obtain ⟨_, -, hno⟩ := wp_returned (connect_wraps fuel hw World.start) h
  exact hno

/-- A connect that returns has met no zero length, however far it is followed. -/
theorem clean_of_returns (h : Returns env fuel) (fuel' : Nat) : Clean (connected env fuel') := by
  let big := max (max fuel fuel') 257
  have hbig : Returns env big := (connect_approx env (by omega)).returns h
  have hclean : Clean (connected env big) := by
    have hdec := connect_decides (by omega : 256 < big) (not_wraps_of_returns h) World.start start_clean
    obtain ⟨_, -, hc⟩ := wp_returned hdec hbig
    exact hc
  refine (connect_approx env (by omega : fuel' ≤ big)).back (P := Clean) ?_ hclean
  exact fun s s' hs hc => not_not.mp fun hn => hs hn hc

theorem returns_of_clean (hfuel : 256 < fuel) (hwrap : ¬ Wraps env) (h : Clean (connected env fuel)) :
    Returns env fuel := by
  by_contra hr
  exact wp_running (connect_decides hfuel hwrap World.start start_clean) hr h

/-! ## netif_add -/

/-- There are more calls, if anything. -/
def CallsGrow (w w' : World) : Prop := w.calls <+: w'.calls

instance : IsPreorder World CallsGrow where
  refl _ := List.prefix_rfl
  trans _ _ _ h h' := List.IsPrefix.trans h h'

theorem callsGrow_logs : Logs CallsGrow :=
  ⟨fun _ _ => List.prefix_rfl, fun _ _ => List.prefix_rfl, fun _ _ => List.prefix_rfl⟩

/-- However far it is followed, a connect makes no more calls than by the time it returns. -/
theorem calls_of_returns (h : Returns env fuel) (fuel' : Nat) :
    (connected env fuel').calls <+: (connected env fuel).calls := by
  have happrox : ∀ {n n' : Nat}, n ≤ n' → Approx CallsGrow (usbHandleConnect env n) (usbHandleConnect env n') :=
    fun hn => approx_usbHandleConnect hn callsGrow_logs (fun _ _ _ => List.prefix_append _ _) fun _ _ => List.prefix_rfl
  have hdone : connected env fuel = connected env (max fuel fuel') := by
    rcases (happrox (Nat.le_max_left fuel fuel')).runs World.start with heq | ⟨hnone, -⟩
    · exact congrArg Prod.snd heq
    · rw [Returns, hnone] at h
      cases h
  rw [hdone]
  refine (happrox (Nat.le_max_right fuel fuel')).back (P := fun w => w.calls <+: (connected env (max fuel fuel')).calls)
    ?_ List.prefix_rfl
  exact fun s s' hs hc => List.IsPrefix.trans hs hc

/-- `netifAdd` says which `netif_add`s return, from the calls made before: all these do. -/
def AddsReturn (netifAdd : List Call → Added → Bool) (calls : List Call) : Prop :=
  ∀ before n after, calls = before ++ .netifAdd n :: after → netifAdd before n = true

theorem AddsReturn.of_prefix {netifAdd : List Call → Added → Bool} {calls calls' : List Call} (h : calls <+: calls')
    (hadds : AddsReturn netifAdd calls') : AddsReturn netifAdd calls := by
  obtain ⟨rest, rfl⟩ := h
  rintro before n after rfl
  exact hadds before n (after ++ rest) (by simp)

/-- The loops of `usb_handle_connect` end, and so does every `netif_add` it makes. -/
def ConnectReturns (netifAdd : List Call → Added → Bool) (env : Env) : Prop :=
  ∃ fuel, Returns env fuel ∧ AddsReturn netifAdd (connected env fuel).calls

/-- `usb_handle_connect` returns if and only if NEXT_DESCRIPTOR never meets a descriptor of
    length 0, the configuration loop is not run up to 255, and every `netif_add` returns. -/
theorem connect_returns_iff (netifAdd : List Call → Added → Bool) (env : Env) :
    ConnectReturns netifAdd env ↔
      ¬ Wraps env ∧ (∀ fuel, 0 ∉ (connected env fuel).lengths) ∧ ∀ fuel, AddsReturn netifAdd (connected env fuel).calls := by
  constructor
  · rintro ⟨fuel, h, hadds⟩
    exact ⟨not_wraps_of_returns h, clean_of_returns h, fun fuel' => hadds.of_prefix (calls_of_returns h fuel')⟩
  · rintro ⟨hwrap, hclean, hadds⟩
    exact ⟨257, returns_of_clean (by omega) hwrap (hclean 257), hadds 257⟩

/-- A configuration descriptor and, behind it, two zero bytes. -/
def zeroLength : Env := deviceOf [[9, 2, 11, 0, 1, 1, 0, 0x80, 50, 0, 0]]

/-- The search for interface 0 never gets past the two zero bytes; and a device with 255
    configurations, all unreadable, is enumerated forever. Neither gets to a `netif_add`. -/
theorem a_zero_length_is_walked_forever :
    (∀ netifAdd, ¬ ConnectReturns netifAdd zeroLength) ∧
      ∀ netifAdd, ¬ ConnectReturns netifAdd
        { zeroLength with numConfigurations := some 255, configDescriptor := fun _ _ => none } := by
  refine ⟨?_, ?_⟩
  · rintro netifAdd ⟨fuel, h, -⟩
    have hc : Clean (connected zeroLength 3) := clean_of_returns h 3
    exact hc (by decide)
  · rintro netifAdd ⟨fuel, h, -⟩
    exact not_wraps_of_returns h ⟨rfl, rfl⟩

end Nanotube.Device.Usb
