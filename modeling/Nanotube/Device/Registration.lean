/-
  Nanotube.Device.Registration — what is left behind when a netif cannot be set up
  (src/device/usb.c `process_config_descriptor`).

  `ledger` follows the heap blocks through the calls: a block is live from its `malloc` on
  until it is freed or, with its endpoints found, handed to `netif_add`; a free of a block
  that is not live, and a `netif_add` of one, are errors. Every try to set up a netif is an
  `Attempt`, which says where it ended, and all the heap calls of
  `process_config_descriptor` are those of its attempts, one after the other
  (`process_attempts`).

  Proved: the books balance exactly if `usb_GetDeviceEndpoint` finds an endpoint every time
  it is asked for one (`registration_iff`). When it does not, both blocks are freed and
  there is no way out before `netif_add`, which gets them (`a_freed_netif_is_added`).
-/

import Nanotube.Device.Configurations

namespace Nanotube.Device.Usb

open Nanotube.Lib.Loops
open Nanotube.Device.Ecm (UsbError)

variable {env : Env} {m : Mem} {fuel : Nat} {config : UInt8} {w : World}

/-! ## The ledger -/

/-- Both endpoints of the netif are endpoints, not NULL. -/
def Added.Found (n : Added) : Prop := n.inFound = true ∧ n.outFound = true

instance (n : Added) : Decidable n.Found := inferInstanceAs (Decidable (_ ∧ _))

/-- The blocks live after a call, or an error. -/
def book (live : List Nat) : Call → Option (List Nat)
  | .malloc (some b) => some (b :: live)
  | .free b => if b ∈ live then some (live.erase b) else none
  | .netifAdd n =>
    if n.netif ∈ live ∧ n.state ∈ live.erase n.netif ∧ n.Found then some ((live.erase n.netif).erase n.state)
    else none
  | .malloc none | .resetDevice | .setConfiguration _ _ | .setInterface _ _ _ => some live

def ledger : List Nat → List Call → Option (List Nat)
  | live, [] => some live
  | live, c :: cs => (book live c).bind fun live' => ledger live' cs

theorem ledger_append (live : List Nat) (a b : List Call) :
    ledger live (a ++ b) = (ledger live a).bind fun live' => ledger live' b := by
  induction a generalizing live with
  | nil => rfl
  | cons c a ih =>
    simp only [List.cons_append, ledger]
    cases book live c with
    | none => rfl
    | some live' => exact ih live'

/-- The calls of the heap and of `netif_add`. -/
def Call.booked : Call → Bool
  | .malloc _ | .free _ | .netifAdd _ => true
  | _ => false

theorem ledger_booked (live : List Nat) (cs : List Call) : ledger live (cs.filter Call.booked) = ledger live cs := by
  induction cs generalizing live with
  | nil => rfl
  | cons c cs ih =>
    cases hc : c.booked with
    | true =>
      rw [List.filter_cons_of_pos hc]
      simp only [ledger]
      exact congrArg _ (funext ih)
    | false =>
      rw [List.filter_cons_of_neg (by simp [hc]), ih]
      cases c <;> first | rfl | cases hc

/-! ## Attempts -/

/-- How far setting up a netif got, once its setting was selected. -/
inductive Attempt where
  /-- No memory for the netif, or none for its state. -/
  | noNetif
  | noState (netif : Nat)
  /-- An endpoint was not found. -/
  | lost (n : Added) (h : ¬ n.Found)
  | added (n : Added) (h : n.Found)

namespace Attempt

def calls : Attempt → List Call
  | .noNetif => [.malloc none]
  | .noState netif => [.malloc (some netif), .malloc none, .free netif]
  | .lost n _ => [.malloc (some n.netif), .malloc (some n.state), .free n.netif, .free n.state, .netifAdd n]
  | .added n _ => [.malloc (some n.netif), .malloc (some n.state), .netifAdd n]

/-- What `usb_GetDeviceEndpoint` was asked for. -/
def asked : Attempt → List Asked
  | .noNetif | .noState _ => []
  | .lost n _ | .added n _ => [⟨n.inAddr, n.inFound⟩, ⟨n.outAddr, n.outFound⟩]

def Lost : Attempt → Prop
  | .lost _ _ => True
  | _ => False

theorem erase_pair (a b : Nat) : [b, a].erase a = [b] := by
  by_cases h : b = a
  · simp [h]
  · simp [h]

/-- An attempt that fails or succeeds leaves the books as they were. -/
theorem ledger_calls {a : Attempt} (h : ¬ a.Lost) : ledger [] a.calls = some [] := by
  cases a with
  | noNetif => rfl
  | noState netif => simp [calls, ledger, book]
  | lost n hn => exact absurd trivial h
  | added n hn => simp [calls, ledger, book, hn, erase_pair]

/-- An attempt that lost an endpoint adds what it has freed. -/
theorem ledger_lost {a : Attempt} (h : a.Lost) : ledger [] a.calls = none := by
  cases a with
  | lost n hn => simp [calls, ledger, book, erase_pair]
  | noNetif => exact h.elim
  | noState netif => exact h.elim
  | added n hn => exact h.elim

end Attempt

theorem ledger_attempts (as : List Attempt) :
    ledger [] (as.flatMap Attempt.calls) = some [] ↔ ∀ a ∈ as, ¬ a.Lost := by
  induction as with
  | nil => simp [ledger]
  | cons a as ih =>
    rw [List.flatMap_cons, ledger_append, List.forall_mem_cons]
    by_cases ha : a.Lost
    · simp [Attempt.ledger_lost ha, ha]
    · simp [Attempt.ledger_calls ha, ha, ih]

theorem found_attempts (as : List Attempt) :
    (∀ a ∈ as.flatMap Attempt.asked, a.found = true) ↔ ∀ a ∈ as, ¬ a.Lost := by
  induction as with
  | nil => simp
  | cons a as ih =>
    rw [List.flatMap_cons, List.forall_mem_append, List.forall_mem_cons, ih]
    cases a with
    | noNetif => simp [Attempt.asked, Attempt.Lost]
    | noState netif => simp [Attempt.asked, Attempt.Lost]
    | lost n hn =>
      have hnot : ¬ (n.inFound = true ∧ n.outFound = true) := hn
      simp [Attempt.asked, Attempt.Lost, hnot]
    | added n hn => simp [Attempt.asked, Attempt.Lost, hn.1, hn.2]

/-! ## All heap calls are those of attempts -/

/-- The calls from `w` to `w'` are, on the heap, those of a list of attempts, and so are the
    endpoints asked for; the answers are the environment's. -/
def Attempts (env : Env) (w w' : World) : Prop :=
  ∃ cs, w'.calls = w.calls ++ cs ∧ ∃ as : List Attempt, cs.filter Call.booked = as.flatMap Attempt.calls ∧
    w'.asked = w.asked ++ as.flatMap Attempt.asked ∧
    ∀ a ∈ as.flatMap Attempt.asked, ∃ before, before <+: w'.calls ∧ env.deviceEndpoint before a.address = a.found

instance : IsPreorder World (Attempts env) where
  refl w := ⟨[], by simp, [], rfl, by simp, by simp⟩
  trans a b c h h' := by
    obtain ⟨cs, hc, as, ha, hasked, hfound⟩ := h
    obtain ⟨cs', hc', as', ha', hasked', hfound'⟩ := h'
    refine ⟨cs ++ cs', by rw [hc', hc, List.append_assoc], as ++ as', ?_, ?_, ?_⟩
    · rw [List.filter_append, ha, ha', List.flatMap_append]
    · rw [hasked', hasked, List.flatMap_append, List.append_assoc]
    · rw [List.flatMap_append, List.forall_mem_append]
      refine ⟨fun a ha => ?_, hfound'⟩
      obtain ⟨before, hpre, heq⟩ := hfound a ha
      exact ⟨before, hpre.trans ⟨cs', hc'.symm⟩, heq⟩

theorem attempts_none {w w' : World} {cs : List Call} (hcalls : w'.calls = w.calls ++ cs)
    (hbooked : cs.filter Call.booked = []) (hasked : w'.asked = w.asked) : Attempts env w w' :=
  ⟨cs, hcalls, [], hbooked, by simp [hasked], by simp⟩

theorem attempts_units (m : Mem) (configEnd : Nat) : Units (Attempts env) m configEnd :=
  Logs.units (S := Attempts env) ⟨fun _ _ => attempts_none (List.append_nil _).symm rfl rfl,
    fun _ _ => attempts_none (List.append_nil _).symm rfl rfl, fun _ _ => attempts_none (List.append_nil _).symm rfl rfl⟩
    m configEnd

theorem attempts_selects : Allows (Attempts env) Selects := by
  intro w c hc
  cases c with
  | setInterface number alternate error => exact attempts_none rfl rfl rfl
  | _ => cases hc

/-- Nothing is asked for. -/
def SameAsked (w w' : World) : Prop := w'.asked = w.asked

instance : IsPreorder World SameAsked where
  refl _ := rfl
  trans _ _ _ h h' := Eq.trans h' h

theorem sameAsked_units (m : Mem) (configEnd : Nat) : Units SameAsked m configEnd :=
  Logs.units (S := SameAsked) ⟨fun _ _ => rfl, fun _ _ => rfl, fun _ _ => rfl⟩ m configEnd

theorem booked_selects (m : Mem) (p : Nat) (e : UsbError) : (selects m p e).filter Call.booked = [] := by
  unfold selects
  split <;> rfl

/-- From the second `malloc` on: the endpoints decide between the two ways to the end. -/
theorem fillAndAdd_calls (config currentInt : UInt8) (ethDesc : Nat) (inEp outEp : UInt8) (netif state : Nat) :
    wp (fillAndAdd env m config currentInt ethDesc inEp outEp netif state)
      (fun _ w' => ∃ n : Added, n.netif = netif ∧ n.state = state ∧
        n.inFound = env.deviceEndpoint w.calls n.inAddr ∧ n.outFound = env.deviceEndpoint w.calls n.outAddr ∧
        w'.asked = w.asked ++ [⟨n.inAddr, n.inFound⟩, ⟨n.outAddr, n.outFound⟩] ∧
        ((n.Found ∧ w'.calls = w.calls ++ [.netifAdd n]) ∨
          (¬ n.Found ∧ w'.calls = w.calls ++ [.free netif] ++ [.free state] ++ [.netifAdd n])))
      (fun _ => False) w := by
  simp only [fillAndAdd, usbGetDeviceEndpoint, freeUnless, etherFields, look, byte, call, wp_bind, wp_peek, wp_update,
    wp_pure, wp_ite]
  split
  next h =>
    rw [Bool.and_eq_true] at h
    refine ⟨_, ?_, ?_, ?_, ?_, ?_, Or.inl ⟨?_, rfl⟩⟩
    · rfl
    · rfl
    · rfl
    · rfl
    · simp
    · exact h
  next h =>
    rw [Bool.and_eq_true] at h
    refine ⟨_, ?_, ?_, ?_, ?_, ?_, Or.inr ⟨?_, rfl⟩⟩
    · rfl
    · rfl
    · rfl
    · rfl
    · simp
    · exact h

theorem addNetif_attempts (currentInt : UInt8) (p ethDesc : Nat) (inEp outEp : UInt8) :
    wp (addNetif env m config currentInt p ethDesc inEp outEp) (fun _ w' => Attempts env w w') (fun _ => False) w := by
  -- the calls of one attempt, behind those that select the setting
  have hone : ∀ (e : UsbError) (a : Attempt) {w' : World}, w'.calls = w.calls ++ selects m p e ++ a.calls →
      w'.asked = w.asked ++ a.asked →
      (∀ q ∈ a.asked, ∃ before, before <+: w'.calls ∧ env.deviceEndpoint before q.address = q.found) →
      Attempts env w w' := by
    intro e a w' hcalls hasked hfound
    refine ⟨selects m p e ++ a.calls, by rw [hcalls, List.append_assoc], [a], ?_, ?_, ?_⟩
    · rw [List.filter_append, booked_selects, List.nil_append, List.flatMap_singleton]
      cases a <;> rfl
    · rw [hasked, List.flatMap_singleton]
    · rw [List.flatMap_singleton]
      exact hfound
  have hcalls : Allows SameAsked (OfConfig config) := fun _ _ _ => rfl
  have hselect : Moves SameAsked (selectSetting env m p) := moves_selectSetting hcalls (sameAsked_units m 0) p
  have hmalloc : Moves SameAsked (malloc env) := moves_malloc hcalls
  simp only [addNetif, wp_bind]
  refine wp_mono (wp_and (selectSetting_spec p) (hselect.wp w)) ?_ (fun _ hf => hf.1)
  rintro e w₁ ⟨⟨-, -, -, hc₁⟩, ha₁⟩
  simp only [wp_ite]
  split
  · exact attempts_none hc₁ (booked_selects m p e) ha₁
  · simp only [wp_bind]
    refine wp_mono (wp_and malloc_spec (hmalloc.wp w₁)) ?_ (fun _ hf => hf.1)
    rintro netif? w₂ ⟨⟨-, -, hc₂⟩, ha₂⟩
    rw [hc₁] at hc₂
    replace ha₂ : w₂.asked = w.asked := Eq.trans ha₂ ha₁
    cases netif? with
    | none => exact hone e .noNetif hc₂ (by simpa [Attempt.asked] using ha₂) (by simp [Attempt.asked])
    | some netif =>
      simp only [wp_bind]
      refine wp_mono (wp_and malloc_spec (hmalloc.wp w₂)) ?_ (fun _ hf => hf.1)
      rintro state? w₃ ⟨⟨-, -, hc₃⟩, ha₃⟩
      rw [hc₂] at hc₃
      replace ha₃ : w₃.asked = w.asked := Eq.trans ha₃ ha₂
      cases state? with
      | none =>
        simp only [call, wp_bind, wp_update, wp_pure]
        refine hone e (.noState netif) ?_ (by simpa [Attempt.asked] using ha₃) (by simp [Attempt.asked])
        rw [hc₃]
        simp [Attempt.calls]
      | some state =>
        simp only [wp_bind]
        refine wp_mono (fillAndAdd_calls config currentInt ethDesc inEp outEp netif state) ?_ (fun _ hf => hf)
        rintro _ w₄ ⟨n, rfl, rfl, hin, hout, ha₄, hcases⟩
        rw [ha₃] at ha₄
        rw [wp_pure]
        have hfound : w₃.calls <+: w₄.calls → ∀ q ∈ [Asked.mk n.inAddr n.inFound, Asked.mk n.outAddr n.outFound],
            ∃ before, before <+: w₄.calls ∧ env.deviceEndpoint before q.address = q.found := by
          intro hpre
          simp only [List.forall_mem_cons]
          exact ⟨⟨w₃.calls, hpre, hin.symm⟩, ⟨w₃.calls, hpre, hout.symm⟩, fun _ h => absurd h List.not_mem_nil⟩
        rcases hcases with ⟨hn, hc₄⟩ | ⟨hn, hc₄⟩
        · refine hone e (.added n hn) ?_ ha₄ (hfound ⟨_, hc₄.symm⟩)
          rw [hc₄, hc₃]
          simp [Attempt.calls]
        · refine hone e (.lost n hn) ?_ ha₄ (hfound ⟨[.free n.netif, .free n.state, .netifAdd n], by rw [hc₄]; simp⟩)
          rw [hc₄, hc₃]
          simp [Attempt.calls]

theorem process_attempts : Moves (Attempts env) (processConfigDescriptor env fuel config) := by
  have hadd : ∀ m currentInt intDesc ethDesc inEp outEp,
      Moves (Attempts env) (addNetif env m config currentInt intDesc ethDesc inEp outEp) := by
    intro m currentInt intDesc ethDesc inEp outEp
    refine moves_of_wp fun w => ?_
    exact wp_mono (addNetif_attempts currentInt intDesc ethDesc inEp outEp) (fun _ _ h => h) (fun _ h => h.elim)
  refine moves_bind moves_peek fun w => moves_ite (moves_pure _) ?_
  cases env.configDescriptor w.calls (config - 1) with
  | none => exact moves_pure _
  | some m =>
    refine moves_bind (moves_update fun w => attempts_none rfl rfl rfl) fun _ => moves_ite (moves_pure _) ?_
    exact moves_registering attempts_selects (attempts_units m _) (hadd m)

/-! ## Registration -/

/-- `process_config_descriptor` made the calls `cs`, and returned `found?` if it returned:
    blocks are freed once and only while live, netifs added only live and with both
    endpoints, no block is left over, and the result says whether a netif was added. -/
structure Accounted (cs : List Call) (found? : Option Bool) : Prop where
  balanced : ledger [] cs = some []
  result : ∀ found, found? = some found → (found = true ↔ netifs cs ≠ [])

/-- For every descriptor, whatever fails: set-up leaves nothing behind if and only if
    `usb_GetDeviceEndpoint` answers none of the questions it is asked with NULL. The result
    is always right. -/
theorem registration_iff (env : Env) (fuel : Nat) (config : UInt8) (w : World) :
    ∃ cs asked, (processConfigDescriptor env fuel config w).2.calls = w.calls ++ cs ∧
      (processConfigDescriptor env fuel config w).2.asked = w.asked ++ asked ∧
      (∀ a ∈ asked, ∃ before, before <+: (processConfigDescriptor env fuel config w).2.calls ∧
        env.deviceEndpoint before a.address = a.found) ∧
      (Accounted cs (processConfigDescriptor env fuel config w).1 ↔ ∀ a ∈ asked, a.found = true) ∧
      ∀ found, (processConfigDescriptor env fuel config w).1 = some found → (found = true ↔ netifs cs ≠ []) := by
  have hmoves : Moves (Attempts env) (processConfigDescriptor env fuel config) := process_attempts
  obtain ⟨cs, hcalls, as, has, hasked, hanswers⟩ := hmoves w
  have hresult : ∀ found, (processConfigDescriptor env fuel config w).1 = some found →
      (found = true ↔ netifs cs ≠ []) := by
    intro found hfound
    have hreturns : (processConfigDescriptor env fuel config w).1.isSome := by
      rw [hfound]
      rfl
    obtain ⟨found', hf, hspec⟩ := wp_returned processConfigDescriptor_spec hreturns
    obtain rfl : found' = found := Option.some.inj (hf.symm.trans hfound)
    rw [hcalls] at hspec
    rcases hspec with ⟨-, hfalse, cs', hcs, hnone, -⟩ | ⟨-, cs', hcs, -, hiff⟩
    · rw [List.append_cancel_left_eq] at hcs
      simp [hcs, hfalse, hnone]
    · rw [List.append_assoc, List.append_cancel_left_eq] at hcs
      rw [hiff, hcs]
      rfl
  have hledger : ledger [] cs = some [] ↔ ∀ a ∈ as.flatMap Attempt.asked, a.found = true := by
    rw [← ledger_booked, has, ledger_attempts, found_attempts]
  refine ⟨cs, as.flatMap Attempt.asked, hcalls, hasked, hanswers, ?_, hresult⟩
  exact ⟨fun h => hledger.mp h.balanced, fun h => ⟨hledger.mpr h, hresult⟩⟩

/-- A device that has lost its endpoints by the time they are asked for. -/
def endpointless : Env := { deviceOf [ethernetConfig] with deviceEndpoint := fun _ _ => false }

/-- Both blocks are freed, and then added. -/
theorem a_freed_netif_is_added :
    (processConfigDescriptor endpointless 8 1 World.start).1 = some true ∧
      ¬ Accounted (processConfigDescriptor endpointless 8 1 World.start).2.calls (some true) ∧
      ((processConfigDescriptor endpointless 8 1 World.start).2.calls.filter Call.booked).dropLast =
        [.malloc (some 0), .malloc (some 1), .free 0, .free 1] ∧
      (netifs (processConfigDescriptor endpointless 8 1 World.start).2.calls).map (fun n => (n.netif, n.state)) =
        [(0, 1)] := by
  refine ⟨by decide +kernel, ?_, by decide +kernel, by decide +kernel⟩
  intro h
  have hbad : ledger [] (processConfigDescriptor endpointless 8 1 World.start).2.calls = none := by decide +kernel
  rw [h.balanced] at hbad
  cases hbad

end Nanotube.Device.Usb
