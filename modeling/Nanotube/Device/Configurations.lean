/-
  Nanotube.Device.Configurations — do the netifs belong to the configuration the device
  ends up in?

  `usb_handle_connect` goes through all configurations when the device reports none, and
  each `process_config_descriptor` first selects its own. Its result, whether it added a
  netif, is not looked at.

  Proved: when the connect returns, every netif is of the configuration selected last if
  and only if the device reported a configuration, or none was accepted when there was a
  netif already, i.e. after one whose result was true (`netifs_current_iff`).
-/

import Nanotube.Device.Enumeration

namespace Nanotube.Device.Usb

open Nanotube.Lib.Loops
open Nanotube.Device.Ecm (UsbError)

variable {env : Env} {m : Mem} {fuel configEnd : Nat} {config : UInt8} {w : World}

def Call.added? : Call → Option Added
  | .netifAdd n => some n
  | _ => none

/-- The configuration a call puts on the device. -/
def Call.selected? : Call → Option UInt8
  | .setConfiguration config .success => some config
  | _ => none

/-- The netifs added. -/
def netifs (calls : List Call) : List Added := calls.filterMap Call.added?

/-- The configuration that was selected last. -/
def current? (calls : List Call) : Option UInt8 := (calls.filterMap Call.selected?).getLast?

/-- Every netif is of the configuration the device is in. -/
def Current (calls : List Call) : Prop := ∀ n ∈ netifs calls, current? calls = some n.config

instance (calls : List Call) : Decidable (Current calls) := inferInstanceAs (Decidable (∀ n ∈ netifs calls, _))

@[simp] theorem netifs_append (a b : List Call) : netifs (a ++ b) = netifs a ++ netifs b := List.filterMap_append

theorem netifs_heap {cs : List Call} (h : ∀ c ∈ cs, c.isHeap) : netifs cs = [] := by
  apply List.filterMap_eq_nil_iff.mpr
  intro c hc
  have := h c hc
  cases c <;> first | rfl | cases this

theorem netifs_selects (m : Mem) (p : Nat) (e : UsbError) : netifs (selects m p e) = [] := by
  unfold selects
  split <;> rfl

theorem netifs_ofConfig {cs : List Call} (h : ∀ c ∈ cs, OfConfig config c) : ∀ n ∈ netifs cs, n.config = config := by
  intro n hn
  obtain ⟨c, hc, hadd⟩ := List.mem_filterMap.mp hn
  cases c with
  | netifAdd n' =>
    cases hadd
    exact h _ hc
  | _ => cases hadd

theorem current_ofConfig {cs : List Call} (h : ∀ c ∈ cs, OfConfig config c) : cs.filterMap Call.selected? = [] := by
  apply List.filterMap_eq_nil_iff.mpr
  intro c hc
  have := h c hc
  cases c <;> first | rfl | cases this

/-! ## One configuration -/

/-- No netif is added. -/
def SameNetifs (w w' : World) : Prop := netifs w'.calls = netifs w.calls

instance : IsPreorder World SameNetifs where
  refl _ := rfl
  trans _ _ _ h h' := h'.trans h

theorem sameNetifs_units (m : Mem) (configEnd : Nat) : Units SameNetifs m configEnd :=
  Logs.units (S := SameNetifs) ⟨fun _ _ => rfl, fun _ _ => rfl, fun _ _ => rfl⟩ m configEnd

theorem sameNetifs_selects : Allows SameNetifs Selects := by
  intro w c hc
  cases c with
  | setInterface number alternate error => simp [SameNetifs, netifs, Call.added?]
  | _ => cases hc

/-- The netifs are more by `ns`, and the result says whether by any. -/
def Adds (w : World) (added : Bool) (w' : World) : Prop :=
  ∃ ns, netifs w'.calls = netifs w.calls ++ ns ∧ (added = true ↔ ns ≠ [])

theorem addNetif_adds (currentInt : UInt8) (p ethDesc : Nat) (inEp outEp : UInt8) :
    wp (addNetif env m config currentInt p ethDesc inEp outEp) (Adds w) (fun _ => True) w := by
  refine wp_mono (addNetif_spec config currentInt p ethDesc inEp outEp) ?_ (fun _ _ => trivial)
  intro added w' h
  obtain ⟨-, e, hs, hheap, h | h⟩ := h
  · obtain ⟨rfl, hc⟩ := h
    refine ⟨[], ?_, by simp⟩
    simp [hc, netifs_heap hheap, netifs_selects]
  · obtain ⟨rfl, -, n, -, hc⟩ := h
    refine ⟨[n], ?_, by simp⟩
    simp [hc, netifs_heap hheap, netifs_selects]
    rfl

theorem etherSetting_adds (currentInt : UInt8) (p ethDesc : Nat) :
    wp (etherSetting env m fuel config configEnd currentInt p ethDesc) (turn (fun _ w' => SameNetifs w w') (Adds w))
      (fun _ => True) w := by
  have hu := sameNetifs_units m configEnd
  simp only [etherSetting, wp_bind]
  refine wp_mono ((moves_getSubordinateInts hu p).wp w) ?_ (fun _ _ => trivial)
  intro subs w₁ h₁
  refine wp_mono ((moves_subordinateEps sameNetifs_selects hu subs).wp w₁) ?_ (fun _ _ => trivial)
  intro ret w₂ h₂
  refine wp_mono ((moves_getEndpoints hu p _).wp w₂) ?_ (fun _ _ => trivial)
  intro eps w₃ h₃
  have h : SameNetifs w w₃ := h₃.trans (h₂.trans h₁)
  simp only [wp_ite]
  split
  · rw [wp_bind]
    exact wp_mono ((hu.next p).wp w₃) (fun _ _ h₄ => h₄.trans h) (fun _ _ => trivial)
  · rw [wp_bind]
    refine wp_mono (addNetif_adds currentInt p ethDesc _ _) ?_ (fun _ _ => trivial)
    intro added w₄ h₄
    obtain ⟨ns, hn, hb⟩ := h₄
    exact ⟨ns, by rw [hn, h], hb⟩

theorem searchInterface_adds (currentInt : UInt8) :
    wp (searchInterface env m fuel config configEnd currentInt) (Adds w) (fun _ => True) w := by
  have hu := sameNetifs_units m configEnd
  refine wp_loop (I := fun _ w' => SameNetifs w w') ?_ (fun _ _ _ => trivial) fuel rfl
  intro pos w₁ h₁
  simp only [eachSetting, wp_bind]
  refine wp_mono ((moves_getInterfaceDescriptor hu _ _).wp w₁) ?_ (fun _ _ => trivial)
  intro r w₂ h₂
  have h : SameNetifs w w₂ := h₂.trans h₁
  cases r with
  | none => exact ⟨[], by rw [h, List.append_nil], by simp⟩
  | some p =>
    simp only [examineSetting, wp_bind]
    refine wp_mono ((hu.print p).wp w₂) ?_ (fun _ _ => trivial)
    intro _ w₃ h₃
    refine wp_mono ((moves_getEtherDesc hu p).wp w₃) ?_ (fun _ _ => trivial)
    intro r w₄ h₄
    have h' : SameNetifs w w₄ := h₄.trans (h₃.trans h)
    cases r with
    | none =>
      simp only [wp_bind]
      exact wp_mono ((hu.next p).wp w₄) (fun _ _ h₅ => h₅.trans h') (fun _ _ => trivial)
    | some ethDesc =>
      refine wp_mono (etherSetting_adds currentInt p ethDesc) ?_ (fun _ _ => trivial)
      intro t w₅ h₅
      cases t with
      | again next => exact h₅.trans h'
      | leave added =>
        obtain ⟨ns, hn, hb⟩ := h₅
        exact ⟨ns, by rw [hn, h'], hb⟩

theorem bindInterfaces_adds : wp (bindInterfaces env m fuel config configEnd) (Adds w) (fun _ => True) w := by
  have hu := sameNetifs_units m configEnd
  refine wp_loop (I := fun c w' => Adds w c.2 w') ?_ (fun _ _ _ => trivial) fuel ⟨[], by simp, by simp⟩
  intro c w₁ h₁
  obtain ⟨ns, hn, hb⟩ := h₁
  simp only [intTurn, wp_bind]
  refine wp_mono (hu.count.wp w₁) ?_ (fun _ _ => trivial)
  intro count w₂ h₂
  simp only [wp_ite]
  split
  · rw [wp_bind]
    refine wp_mono (searchInterface_adds c.1) ?_ (fun _ _ => trivial)
    intro added w₃ h₃
    obtain ⟨ns', hn', hb'⟩ := h₃
    refine ⟨ns ++ ns', ?_, ?_⟩
    · rw [hn', h₂, hn, List.append_assoc]
    · simp only [Bool.or_eq_true, hb, hb', ne_eq, List.append_eq_nil_iff]
      tauto
  · exact ⟨ns, by rw [h₂, hn], hb⟩

/-- The calls are more by calls of the configuration. -/
def MoreOf (config : UInt8) (w w' : World) : Prop := ∃ cs, w'.calls = w.calls ++ cs ∧ ∀ c ∈ cs, OfConfig config c

instance : IsPreorder World (MoreOf config) where
  refl w := ⟨[], by simp, by simp⟩
  trans a b c h h' := by
    obtain ⟨cs, hc, ho⟩ := h
    obtain ⟨cs', hc', ho'⟩ := h'
    exact ⟨cs ++ cs', by rw [hc', hc, List.append_assoc], List.forall_mem_append.mpr ⟨ho, ho'⟩⟩

theorem bindInterfaces_calls (m : Mem) (configEnd : Nat) :
    Moves (MoreOf config) (bindInterfaces env m fuel config configEnd) := by
  have hlogs : Logs (MoreOf config) := ⟨fun _ _ => ⟨[], by simp, by simp⟩, fun _ _ => ⟨[], by simp, by simp⟩,
    fun _ _ => ⟨[], by simp, by simp⟩⟩
  exact moves_bindInterfaces (fun _ c hc => ⟨[c], rfl, by simpa using hc⟩) (hlogs.units m configEnd)
    fun _ _ => ⟨[], by simp, by simp⟩

/-- usbdrvce hands out the descriptor of the configuration and selects it. -/
def Accepts (env : Env) (calls : List Call) (config : UInt8) : Prop :=
  env.totalLength calls (config - 1) ≤ MAX_CONFIG_LENGTH ∧ (env.configDescriptor calls (config - 1)).isSome ∧
    env.setConfiguration calls config = .success

theorem processConfigDescriptor_spec :
    wp (processConfigDescriptor env fuel config)
      (fun found w' =>
        (¬ Accepts env w.calls config ∧ found = false ∧
          ∃ cs, w'.calls = w.calls ++ cs ∧ netifs cs = [] ∧ cs.filterMap Call.selected? = []) ∨
        (Accepts env w.calls config ∧ ∃ cs, w'.calls = w.calls ++ [.setConfiguration config .success] ++ cs ∧
          (∀ c ∈ cs, OfConfig config c) ∧ (found = true ↔ netifs cs ≠ []))) (fun _ => True) w := by
  simp only [processConfigDescriptor, wp_bind, wp_peek, wp_ite, Accepts]
  split
  · rename_i hlen
    exact Or.inl ⟨fun h => absurd h.1 (by omega), rfl, [], by simp, rfl, rfl⟩
  · rename_i hlen
    cases hd : env.configDescriptor w.calls (config - 1) with
    | none => exact Or.inl ⟨by simp, rfl, [], by simp, rfl, rfl⟩
    | some m =>
      simp only [call, wp_bind, wp_update, wp_ite]
      split
      · rename_i he
        refine Or.inl ⟨fun h => he h.2.2, rfl, [_], rfl, rfl, ?_⟩
        cases hs : env.setConfiguration w.calls config with
        | success => exact absurd hs he
        | _ => rfl
      · rename_i he
        rw [not_not] at he
        refine wp_mono (wp_and bindInterfaces_adds ((bindInterfaces_calls m _).wp _)) ?_ (fun _ _ => trivial)
        intro found w' h
        obtain ⟨⟨ns, hn, hb⟩, cs, hc, ho⟩ := h
        refine Or.inr ⟨⟨by omega, rfl, he⟩, cs, by rw [hc, he], ho, ?_⟩
        rw [hc, netifs_append, List.append_cancel_left_eq] at hn
        rw [hn]
        exact hb

/-! ## All configurations -/

theorem toNat_configNum {k : Nat} (hk : k < 255) : (k + 1).toUInt8.toNat = k + 1 := by
  rw [Nat.toUInt8_eq, UInt8.toNat_ofNat']
  exact Nat.mod_eq_of_lt (by omega)

/-- After the configurations up to `k`. -/
def after (env : Env) (fuel : Nat) : Nat → World
  | 0 => (enable env World.start).2
  | k + 1 => (processConfigDescriptor env fuel (k + 1).toUInt8 (after env fuel k)).2

/-- `process_config_descriptor` of configuration `k + 1` returns true: it added a netif. -/
def Binds (env : Env) (fuel k : Nat) : Prop :=
  (processConfigDescriptor env fuel (k + 1).toUInt8 (after env fuel k)).1 = some true

/-- Configuration `k + 1` is accepted by the device. -/
def Accepted (env : Env) (fuel k : Nat) : Prop := Accepts env (after env fuel k).calls (k + 1).toUInt8

def PassReturns (env : Env) (fuel k : Nat) : Prop :=
  (processConfigDescriptor env fuel (k + 1).toUInt8 (after env fuel k)).1.isSome

/-- What one configuration adds to the calls. -/
theorem pass_cases {k : Nat} (h : PassReturns env fuel k) :
    (¬ Accepted env fuel k ∧ ¬ Binds env fuel k ∧ ∃ cs,
      (after env fuel (k + 1)).calls = (after env fuel k).calls ++ cs ∧
      netifs cs = [] ∧ cs.filterMap Call.selected? = []) ∨
    (Accepted env fuel k ∧ ∃ cs,
      (after env fuel (k + 1)).calls = (after env fuel k).calls ++ [.setConfiguration (k + 1).toUInt8 .success] ++ cs ∧
      (∀ c ∈ cs, OfConfig (k + 1).toUInt8 c) ∧ (Binds env fuel k ↔ netifs cs ≠ [])) := by
  obtain ⟨found, hf, hspec⟩ := wp_returned processConfigDescriptor_spec h
  unfold Binds
  rw [hf, Option.some.injEq]
  rcases hspec with ⟨hn, hfound, hcs⟩ | hspec
  · exact Or.inl ⟨hn, by simp [hfound], hcs⟩
  · exact Or.inr hspec

/-- After `k` configurations: what was added, by which, and whether it is current. -/
structure Upto (env : Env) (fuel k : Nat) : Prop where
  none : netifs (after env fuel k).calls = [] ↔ ∀ i, i < k → ¬ Binds env fuel i
  configs : ∀ n ∈ netifs (after env fuel k).calls, n.config.toNat ≤ k
  current : Current (after env fuel k).calls ↔ ∀ i j, i < j → j < k → Binds env fuel i → ¬ Accepted env fuel j

theorem upto_zero (env : Env) (fuel : Nat) : Upto env fuel 0 := by
  have hnone : netifs (after env fuel 0).calls = [] := by
    by_cases he : env.enabled
    · simp [after, enable, he, World.start, netifs, pure]
    · simp [after, enable, he, World.start, netifs, call, update, Call.added?]
  refine ⟨by simp [hnone], by simp [hnone], ?_⟩
  simp [Current, hnone]

theorem current_selected (calls cs : List Call) (hc : ∀ c ∈ cs, OfConfig config c) :
    current? (calls ++ [.setConfiguration config .success] ++ cs) = some config := by
  unfold current?
  rw [List.filterMap_append, current_ofConfig hc, List.append_nil, List.filterMap_append]
  simp [Call.selected?]

theorem upto_skip {k : Nat} (hu : Upto env fuel k) (hna : ¬ Accepted env fuel k) (hnb : ¬ Binds env fuel k)
    {cs : List Call} (hcalls : (after env fuel (k + 1)).calls = (after env fuel k).calls ++ cs)
    (hn : netifs cs = []) (hs : cs.filterMap Call.selected? = []) : Upto env fuel (k + 1) := by
  have hnetifs : netifs (after env fuel (k + 1)).calls = netifs (after env fuel k).calls := by
    rw [hcalls, netifs_append, hn, List.append_nil]
  have hcur : current? (after env fuel (k + 1)).calls = current? (after env fuel k).calls := by
    unfold current?
    rw [hcalls, List.filterMap_append, hs, List.append_nil]
  refine ⟨?_, ?_, ?_⟩
  · rw [hnetifs, hu.none]
    constructor
    · intro h i hi
      rcases Nat.lt_succ_iff_lt_or_eq.mp hi with hi | rfl
      · exact h i hi
      · exact hnb
    · exact fun h i hi => h i (by omega)
  · rw [hnetifs]
    intro n hn
    have := hu.configs n hn
    omega
  · unfold Current
    rw [hnetifs, hcur]
    apply hu.current.trans
    constructor
    · intro h i j hij hj hb
      rcases Nat.lt_succ_iff_lt_or_eq.mp hj with hj | rfl
      · exact h i j hij hj hb
      · exact hna
    · exact fun h i j hij hj => h i j hij (by omega)

/-- Selecting a configuration leaves behind whatever was added before. -/
theorem upto_select {k : Nat} (hk : k < 255) (hu : Upto env fuel k) (ha : Accepted env fuel k) {cs : List Call}
    (hcalls : (after env fuel (k + 1)).calls =
      (after env fuel k).calls ++ [.setConfiguration (k + 1).toUInt8 .success] ++ cs)
    (hcs : ∀ c ∈ cs, OfConfig (k + 1).toUInt8 c) (hb : Binds env fuel k ↔ netifs cs ≠ []) : Upto env fuel (k + 1) := by
  have hnum : (k + 1).toUInt8.toNat = k + 1 := toNat_configNum (by omega)
  have hnetifs : netifs (after env fuel (k + 1)).calls = netifs (after env fuel k).calls ++ netifs cs := by
    rw [hcalls, netifs_append, netifs_append]
    exact congrArg (· ++ netifs cs) (List.append_nil _)
  have hnew := netifs_ofConfig hcs
  refine ⟨?_, ?_, ?_⟩
  · rw [hnetifs, List.append_eq_nil_iff, hu.none]
    constructor
    · intro h i hi
      rcases Nat.lt_succ_iff_lt_or_eq.mp hi with hi | rfl
      · exact h.1 i hi
      · exact fun hbi => hb.mp hbi h.2
    · refine fun h => ⟨fun i hi => h i (by omega), ?_⟩
      exact not_not.mp fun hne => h k (by omega) (hb.mpr hne)
  · rw [hnetifs]
    intro n hn
    rcases List.mem_append.mp hn with hn | hn
    · have := hu.configs n hn
      omega
    · rw [hnew n hn, hnum]
  · have hiff : Current (after env fuel (k + 1)).calls ↔ netifs (after env fuel k).calls = [] := by
      unfold Current
      rw [hnetifs, hcalls, current_selected _ _ hcs]
      constructor
      · intro h
        apply List.eq_nil_iff_forall_not_mem.mpr
        intro n hn
        have heq := Option.some.inj (h n (List.mem_append_left _ hn))
        have hle := hu.configs n hn
        rw [← heq, hnum] at hle
        omega
      · intro h n hn
        rw [h, List.nil_append] at hn
        rw [hnew n hn]
    rw [hiff, hu.none]
    constructor
    · intro h i j hij hj hbi
      exact absurd hbi (h i (by omega))
    · exact fun h i hi hbi => h i k hi (by omega) hbi ha

theorem upto {k : Nat} (hk : k ≤ 255) (h : ∀ i, i < k → PassReturns env fuel i) : Upto env fuel k := by
  induction k with
  | zero => exact upto_zero env fuel
  | succ k ih =>
    have hu := ih (by omega) fun i hi => h i (by omega)
    rcases pass_cases (h k (by omega)) with ⟨hna, hnb, cs, hcalls, hn, hs⟩ | ⟨ha, cs, hcalls, hcs, hb⟩
    · exact upto_skip hu hna hnb hcalls hn hs
    · exact upto_select (by omega) hu ha hcalls hcs hb

/-! ## The connect -/

theorem configLoop_after {b : UInt8} (hb : b ≠ 255) :
    wp (loop (configTurn env fuel b) fuel 1)
      (fun _ w' => w' = after env fuel b.toNat ∧ ∀ i, i < b.toNat → PassReturns env fuel i) (fun _ => True)
        (after env fuel 0) := by
  have hlt : b.toNat < 255 := by
    have hne : b.toNat ≠ 255 := fun h => hb (UInt8.toNat_inj.mp h)
    have := b.toNat_lt
    omega
  refine wp_loop (I := fun c w => ∃ k, c = (k + 1).toUInt8 ∧ k ≤ b.toNat ∧ w = after env fuel k ∧
    ∀ i, i < k → PassReturns env fuel i) ?_ (fun _ _ _ => trivial) fuel ⟨0, rfl, Nat.zero_le _, rfl, by simp⟩
  intro c w h
  obtain ⟨k, rfl, hk, rfl, hpass⟩ := h
  have hnum : (k + 1).toUInt8.toNat = k + 1 := toNat_configNum (by omega)
  simp only [configTurn, wp_ite, UInt8.le_iff_toNat_le, hnum]
  split
  · rw [wp_bind]
    refine wp_mono (wp_self _ _) ?_ (fun _ _ => trivial)
    intro found w' hrun
    refine ⟨k + 1, ?_, by omega, by rw [after, hrun], ?_⟩
    · simp [Nat.toUInt8_eq, UInt8.ofNat_add]
    · intro i hi
      rcases Nat.lt_succ_iff_lt_or_eq.mp hi with hi | rfl
      · exact hpass i hi
      · rw [PassReturns, hrun]
        rfl
  · obtain rfl : k = b.toNat := by omega
    exact ⟨rfl, hpass⟩

theorem current_of_one {config : UInt8} (hw : netifs w.calls = []) :
    wp (processConfigDescriptor env fuel config) (fun _ w' => Current w'.calls) (fun _ => True) w := by
  refine wp_mono processConfigDescriptor_spec ?_ (fun _ _ => trivial)
  intro found w' h
  rcases h with ⟨-, -, cs, hcalls, hn, -⟩ | ⟨-, cs, hcalls, hcs, -⟩
  · intro n hmem
    rw [hcalls, netifs_append, hw, hn] at hmem
    cases hmem
  · intro n hmem
    have hnetifs : netifs w'.calls = netifs cs := by
      rw [hcalls, netifs_append, netifs_append, hw]
      rfl
    rw [hnetifs] at hmem
    rw [hcalls, current_selected _ _ hcs, netifs_ofConfig hcs n hmem]

/-- No configuration is selected over a netif: the loop does not end at one that binds. -/
theorem accepted_first {n : Nat} (hn : n ≤ 255) (hpass : ∀ i, i < n → PassReturns env fuel i) :
    (∀ i j, i < j → j < n → Binds env fuel i → ¬ Accepted env fuel j) ↔
      ∀ k, k < n → Accepted env fuel k → netifs (after env fuel k).calls = [] := by
  have hnone : ∀ k, k < n → (netifs (after env fuel k).calls = [] ↔ ∀ i, i < k → ¬ Binds env fuel i) :=
    fun k hk => (upto (by omega) fun i hi => hpass i (by omega)).none
  constructor
  · intro h k hk ha
    exact (hnone k hk).mpr fun i hi hb => h i k hi hk hb ha
  · intro h i j hij hj hb ha
    exact (hnone j hj).mp (h j hj ha) i hij hb

/-- When `usb_handle_connect` has returned, every netif is of the configuration selected
    last if and only if the device reported a configuration, or whenever the device accepted
    one there was no netif yet. -/
theorem netifs_current_iff (h : Returns env fuel) :
    Current (connected env fuel).calls ↔
      env.configuration.getD 0 ≠ 0 ∨
        ∀ k, k < (env.numConfigurations.getD 2).toNat → Accepted env fuel k → netifs (after env fuel k).calls = [] := by
  have hstart : netifs (after env fuel 0).calls = [] := (upto_zero env fuel).none.mpr (by simp)
  have hb : env.configuration.getD 0 = 0 → env.numConfigurations.getD 2 ≠ 255 :=
    fun h0 h255 => not_wraps_of_returns h ⟨h0, h255⟩
  have hrun : wp (usbHandleConnect env fuel)
      (fun _ w' => (env.configuration.getD 0 ≠ 0 → Current w'.calls) ∧ (env.configuration.getD 0 = 0 →
        w' = after env fuel (env.numConfigurations.getD 2).toNat ∧
          ∀ i, i < (env.numConfigurations.getD 2).toNat → PassReturns env fuel i)) (fun _ => True) World.start := by
    simp only [usbHandleConnect, wp_bind]
    refine wp_mono (wp_self _ _) ?_ (fun _ _ => trivial)
    intro _ w₁ h₁
    obtain rfl : w₁ = after env fuel 0 := by simp [after, h₁]
    simp only [wp_ite]
    split
    · rename_i hc
      rw [wp_bind]
      exact wp_mono (current_of_one hstart) (fun _ _ hcur => ⟨fun _ => hcur, fun h0 => absurd h0 hc⟩) (fun _ h => h)
    · rename_i hc
      rw [not_not] at hc
      rw [wp_bind]
      exact wp_mono (configLoop_after (hb hc)) (fun _ _ hw => ⟨fun h0 => absurd hc h0, fun _ => hw⟩) (fun _ h => h)
  obtain ⟨_, -, hone, hall⟩ := wp_returned hrun h
  by_cases hc : env.configuration.getD 0 = 0
  · obtain ⟨hw, hpass⟩ := hall hc
    have hle : (env.numConfigurations.getD 2).toNat ≤ 255 := by
      have := (env.numConfigurations.getD 2).toNat_lt
      omega
    unfold connected
    rw [hw, (upto hle hpass).current, accepted_first hle hpass]
    simp [hc]
  · exact iff_of_true (hone hc) (Or.inl hc)

/-- An Ethernet function with its endpoints on the control interface. -/
def ethernetConfig : List UInt8 :=
  [9, 2, 45, 0, 1, 1, 0, 0x80, 50] ++ [9, 4, 0, 0, 2, 2, 6, 0, 0] ++
    [13, 0x24, 0x0F, 3, 0, 0, 0, 0, 0xEA, 0x05, 0, 0, 0] ++ [7, 5, 0x81, 2, 64, 0, 0] ++ [7, 5, 0x02, 2, 64, 0, 0]

/-- A device whose second configuration has no interface. -/
def twoConfigurations : Env := deviceOf [ethernetConfig, [9, 2, 9, 0, 0, 2, 0, 0x80, 50]]

/-- The netif is of configuration 1, and the device is left in configuration 2. -/
theorem an_accepted_configuration_unbinds :
    Returns twoConfigurations 8 ∧ ¬ Current (connected twoConfigurations 8).calls ∧
      (netifs (connected twoConfigurations 8).calls).map Added.config = [1] ∧
      current? (connected twoConfigurations 8).calls = some 2 := by
  decide +kernel

/-- The configuration without an interface comes first, and the netif stays current. -/
theorem the_last_configuration_stays :
    Returns (deviceOf [[9, 2, 9, 0, 0, 1, 0, 0x80, 50], ethernetConfig]) 8 ∧
      Current (connected (deviceOf [[9, 2, 9, 0, 0, 1, 0, 0x80, 50], ethernetConfig]) 8).calls ∧
      (netifs (connected (deviceOf [[9, 2, 9, 0, 0, 1, 0, 0x80, 50], ethernetConfig]) 8).calls).map Added.config = [2] := by
  have h : Returns (deviceOf [[9, 2, 9, 0, 0, 1, 0, 0x80, 50], ethernetConfig]) 8 := by decide +kernel
  refine ⟨h, (netifs_current_iff h).mpr (Or.inr fun k hk _ => ?_), by decide +kernel⟩
  obtain rfl | rfl : k = 0 ∨ k = 1 := Nat.le_one_iff_eq_zero_or_eq_one.mp (Nat.lt_succ_iff.mp hk)
  · rfl
  · decide +kernel

end Nanotube.Device.Usb
