/-
  Nanotube.Device.Coherence — are the endpoints of a netif usable?

  The two endpoint variables are not cleared between the settings of a listed interface,
  nor before the control interface is read, and a listed interface is only told to use its
  setting when its number is not 0. What `usb_SetInterface` answers decides which listed
  interface's endpoints are kept and where the search stops. `CanBind` says for which
  settings, and with which endpoints, a netif can be added, and `MayBeIn` in which settings
  an interface can then be at the end; both are read off the descriptors alone.

  Proved: whatever the calls answer, every netif is one that `CanBind`, and every interface
  is in a setting it `MayBeIn` (`bindNumbers_run`). So when each of these netifs has an
  interface all of whose possible settings list both endpoints (`Settled`), the two
  endpoints are in one setting and the device is in that setting (`allLive_of_settled`).
-/

import Nanotube.Device.Conforming

namespace Nanotube.Device.Usb

open Nanotube.Lib.Loops
open Nanotube.Device.Ecm (UsbError)

/-! ## The setting the device is in -/

/-- The alternate setting of interface `n` after a call. -/
def Call.activate (n alternate : UInt8) : Call → UInt8
  | .resetDevice => 0
  | .setConfiguration _ .success => 0
  | .setInterface number a .success => if number = n then a else alternate
  | _ => alternate

def active (calls : List Call) (n : UInt8) : UInt8 := calls.foldl (fun a c => c.activate n a) 0

theorem active_append (calls cs : List Call) (n : UInt8) :
    active (calls ++ cs) n = cs.foldl (fun a c => c.activate n a) (active calls n) := List.foldl_append

theorem active_heap (calls : List Call) {cs : List Call} (h : ∀ c ∈ cs, c.isHeap) (n : UInt8) :
    active (calls ++ cs) n = active calls n := by
  rw [active_append]
  generalize active calls n = a
  induction cs with
  | nil => rfl
  | cons c cs ih =>
    have hc : c.activate n a = a := by
      have := h c (List.mem_cons_self ..)
      cases c <;> first | rfl | cases this
    rw [List.foldl_cons, hc]
    exact ih fun c' hc' => h c' (List.mem_cons_of_mem _ hc')

theorem active_netif (calls : List Call) (a : Added) (n : UInt8) :
    active (calls ++ [.netifAdd a]) n = active calls n := by
  rw [active_append]
  rfl

theorem active_select (calls : List Call) (number alternate : UInt8) (n : UInt8) :
    active (calls ++ [.setInterface number alternate .success]) n = if number = n then alternate else active calls n := by
  rw [active_append]
  rfl

theorem active_refused (calls : List Call) (number alternate : UInt8) {e : UsbError} (he : e ≠ .success) (n : UInt8) :
    active (calls ++ [.setInterface number alternate e]) n = active calls n := by
  rw [active_append]
  cases e with
  | success => exact absurd rfl he
  | _ => rfl

namespace Block

def Lists (f : Desc → Bool) (b : Block) (addr : UInt8) : Prop := ∃ d ∈ b.body, f d ∧ d.byte 2 = addr

instance (f : Desc → Bool) (b : Block) (addr : UInt8) : Decidable (b.Lists f addr) :=
  inferInstanceAs (Decidable (∃ d ∈ b.body, _))

end Block

/-- Both endpoints of the netif are in one setting, and the device is in it. -/
def Live (ds : List Desc) (calls : List Call) (a : Added) : Prop :=
  ∃ s ∈ blocks ds, s.Lists Desc.isBulkIn a.inAddr ∧ s.Lists Desc.isBulkOut a.outAddr ∧
    active calls s.number = s.alternate

instance (ds : List Desc) (calls : List Call) (a : Added) : Decidable (Live ds calls a) :=
  inferInstanceAs (Decidable (∃ s ∈ blocks ds, _))

/-- `process_config_descriptor` returns, and all netifs it added are live. -/
def AllLive (env : Env) (fuel : Nat) (config : UInt8) (ds : List Desc) (w : World) : Prop :=
  ∃ found w' cs, processConfigDescriptor env fuel config w = (some found, w') ∧ w'.calls = w.calls ++ cs ∧
    ∀ a ∈ netifs cs, Live ds w'.calls a

/-! ## The endpoints a Union can give -/

/-- The setting of a listed interface at which both endpoints are set, and what is set then. -/
def found? (ds : List Desc) (n : UInt8) : Option (Block × Eps) := pick? (settings n ds) Eps.none

/-- Interface 0 is not selected: where it is listed, its endpoints are taken whatever the
    calls answer. -/
def TakesZero (ds : List Desc) (ns : List UInt8) : Prop := 0 ∈ ns ∧ (found? ds 0).isSome

instance (ds : List Desc) (ns : List UInt8) : Decidable (TakesZero ds ns) := inferInstanceAs (Decidable (_ ∧ _))

/-- The endpoints taken last can be those of interface `n`, or none can be taken. -/
def Ends (ds : List Desc) (ns : List UInt8) : Option UInt8 → Prop
  | none => ¬ TakesZero ds ns
  | some n => (found? ds n).isSome ∧ ∃ before after, ns = before ++ n :: after ∧ ¬ TakesZero ds after

/-- The same, when the endpoints of `src` are there already. -/
def EndsFrom (ds : List Desc) (ns : List UInt8) (src src' : Option UInt8) : Prop :=
  (src' = src ∧ ¬ TakesZero ds ns) ∨ (src' ≠ none ∧ Ends ds ns src')

/-- Setting `a` of interface `m` is selected on a way that ends with the endpoints of `src`. -/
def Chosen (ds : List Desc) (ns : List UInt8) (src : Option UInt8) (m a : UInt8) : Prop :=
  0 < m ∧ (∃ p ∈ found? ds m, p.1.alternate = a) ∧
    ∃ before after, ns = before ++ m :: after ∧ EndsFrom ds after (some m) src

/-- The endpoints of `src`. -/
def taken (ds : List Desc) (src : Option UInt8) : UInt8 × UInt8 :=
  (src.bind (found? ds)).elim (0, 0) fun p => (p.2.inEp, p.2.outEp)

/-- The endpoints of a netif for the setting `b`, when its Union gave those of `src`. -/
def Block.pair (ds : List Desc) (b : Block) (src : Option UInt8) : Eps :=
  b.endpoints ⟨(taken ds src).1, (taken ds src).2, 0⟩

/-- What a Union gives when no setting can be selected. -/
def idle (ds : List Desc) (ns : List UInt8) : Option UInt8 := if TakesZero ds ns then some 0 else none

/-! ## Where the search comes -/

/-- The search goes on after this setting, at least when no setting can be selected. -/
def Passed (ds : List Desc) (b : Block) : Prop := b.isEthernet → ¬ (b.pair ds (idle ds b.subs)).Both

/-- The search can come to the Ethernet setting `b`, after the settings `before` of its
    interface. -/
structure Reached (ds : List Desc) (before : List Block) (b : Block) : Prop where
  number : b.number < count ds
  setting : before ++ [b] <+: settings b.number ds
  passed : ∀ b' ∈ before, Passed ds b'
  ethernet : b.isEthernet

/-- A netif can be added for `b`, with the endpoints of `src`. -/
structure CanBind (ds : List Desc) (before : List Block) (b : Block) (src : Option UInt8) : Prop
    extends Reached ds before b where
  ends : Ends ds b.subs src
  both : (b.pair ds src).Both

/-- Setting `a` of interface `m` can be selected while interface `j` is searched. -/
inductive SelectedAt (ds : List Desc) (j m : UInt8) : UInt8 → Prop
  | listed {before : List Block} {b : Block} {p : Block × Eps} (hb : Reached ds before b) (hj : b.number = j)
      (hm : m ∈ b.subs) (hpos : 0 < m) (hp : p ∈ found? ds m) : SelectedAt ds j m p.1.alternate
  | control {before : List Block} {b : Block} {src : Option UInt8} (hb : CanBind ds before b src) (hj : b.number = j)
      (hm : m = j) (halt : b.alternate ≠ 0) : SelectedAt ds j m b.alternate

/-- The settings interface `m` can be in when the search of interface `n` has passed
    `before`. -/
inductive Arrived (ds : List Desc) (n : UInt8) (before : List Block) (m : UInt8) : UInt8 → Prop
  | initial : Arrived ds n before m 0
  | earlier {j a : UInt8} (hj : j < n) (hsel : SelectedAt ds j m a) : Arrived ds n before m a
  | passed {b : Block} {src : Option UInt8} {a : UInt8} (hb : b ∈ before) (he : b.isEthernet)
      (hnot : ¬ (b.pair ds src).Both) (hsel : Chosen ds b.subs src m a) : Arrived ds n before m a

/-- The netif's own search selects a setting of `m` for certain. -/
def Fixes (b : Block) (src : Option UInt8) (m : UInt8) : Prop :=
  (m = b.number ∧ b.alternate ≠ 0) ∨ (src = some m ∧ 0 < m)

/-- The settings interface `m` can be in when the netif is added. -/
inductive AtNetif (ds : List Desc) (before : List Block) (b : Block) (src : Option UInt8) (m : UInt8) : UInt8 → Prop
  | control (hm : m = b.number) (halt : b.alternate ≠ 0) : AtNetif ds before b src m b.alternate
  | listed {a : UInt8} (hm : ¬ (m = b.number ∧ b.alternate ≠ 0)) (hsel : Chosen ds b.subs src m a) :
      AtNetif ds before b src m a
  | kept {a : UInt8} (hm : ¬ Fixes b src m) (ha : Arrived ds b.number before m a) : AtNetif ds before b src m a

/-- The settings interface `m` can be in at the end. -/
def MayBeIn (ds : List Desc) (before : List Block) (b : Block) (src : Option UInt8) (m a : UInt8) : Prop :=
  AtNetif ds before b src m a ∨ ∃ j, b.number < j ∧ SelectedAt ds j m a

/-- Some setting with this number and alternate setting lists both endpoints. -/
def HasBoth (ds : List Desc) (eps : Eps) (m a : UInt8) : Prop :=
  ∃ s ∈ blocks ds, (s.number = m ∧ s.alternate = a) ∧ s.Lists Desc.isBulkIn eps.inEp ∧ s.Lists Desc.isBulkOut eps.outEp

instance (ds : List Desc) (eps : Eps) (m a : UInt8) : Decidable (HasBoth ds eps m a) :=
  inferInstanceAs (Decidable (∃ s ∈ blocks ds, _))

/-- Each netif that can be added has an interface all of whose possible settings list both
    endpoints. -/
def Settled (ds : List Desc) : Prop :=
  total ds ≤ MAX_CONFIG_LENGTH → ∀ before b src, CanBind ds before b src →
    ∃ m, ∀ a, MayBeIn ds before b src m a → HasBoth ds (b.pair ds src) m a

variable {env : Env} {config : UInt8} {ds : List Desc}

/-! ## Listed interfaces in a row -/

theorem takesZero_append {ns ns' : List UInt8} : TakesZero ds (ns ++ ns') ↔ TakesZero ds ns ∨ TakesZero ds ns' := by
  unfold TakesZero
  rw [List.mem_append, or_and_right]

theorem EndsFrom.append {ns ns' : List UInt8} {src src₁ src₂ : Option UInt8} (h : EndsFrom ds ns src src₁)
    (h' : EndsFrom ds ns' src₁ src₂) : EndsFrom ds (ns ++ ns') src src₂ := by
  rcases h' with ⟨rfl, hno'⟩ | ⟨hsome, hends'⟩
  · rcases h with ⟨rfl, hno⟩ | ⟨hsome, hends⟩
    · exact .inl ⟨rfl, fun ht => (takesZero_append.mp ht).elim hno hno'⟩
    · cases src₂ with
      | none => exact absurd rfl hsome
      | some n =>
        obtain ⟨hf, before, after, rfl, hno⟩ := hends
        refine .inr ⟨hsome, hf, before, after ++ ns', by simp, ?_⟩
        exact fun ht => (takesZero_append.mp ht).elim hno hno'
  · cases src₂ with
    | none => exact absurd rfl hsome
    | some n =>
      obtain ⟨hf, before, after, rfl, hno⟩ := hends'
      exact .inr ⟨hsome, hf, ns ++ before, after, by simp, hno⟩

theorem EndsFrom.ends {ns : List UInt8} {src : Option UInt8} (h : EndsFrom ds ns none src) : Ends ds ns src := by
  rcases h with ⟨rfl, hno⟩ | ⟨-, hends⟩
  · exact hno
  · exact hends

theorem Chosen.append_left {ns ns' : List UInt8} {src src' : Option UInt8} {m a : UInt8} (h : Chosen ds ns src m a)
    (h' : EndsFrom ds ns' src src') : Chosen ds (ns ++ ns') src' m a := by
  obtain ⟨hpos, hp, before, after, rfl, hends⟩ := h
  exact ⟨hpos, hp, before, after ++ ns', by simp, hends.append h'⟩

theorem Chosen.append_right {ns ns' : List UInt8} {src : Option UInt8} {m a : UInt8} (h : Chosen ds ns' src m a) :
    Chosen ds (ns ++ ns') src m a := by
  obtain ⟨hpos, hp, before, after, rfl, hends⟩ := h
  exact ⟨hpos, hp, ns ++ before, after, by simp, hends⟩

theorem Chosen.mem {ns : List UInt8} {src : Option UInt8} {m a : UInt8} (h : Chosen ds ns src m a) : m ∈ ns := by
  obtain ⟨-, -, before, after, rfl, -⟩ := h
  simp

/-- A run over the listed interfaces `ns`: where its endpoints come from, and what is
    selected. -/
structure Picks (ds : List Desc) (ns : List UInt8) (src : Option UInt8) (calls : List Call) (src' : Option UInt8)
    (calls' : List Call) : Prop where
  ends : EndsFrom ds ns src src'
  state : ∀ m, active calls' m = active calls m ∨ Chosen ds ns src' m (active calls' m)
  source : ∀ m, src' = some m → 0 < m → src' = src ∨ Chosen ds ns src' m (active calls' m)

theorem Picks.append {ns ns' : List UInt8} {src src₁ src₂ : Option UInt8} {calls calls₁ calls₂ : List Call}
    (h : Picks ds ns src calls src₁ calls₁) (h' : Picks ds ns' src₁ calls₁ src₂ calls₂) :
    Picks ds (ns ++ ns') src calls src₂ calls₂ := by
  have hactive : ∀ m, active calls₂ m = active calls₁ m ∨ Chosen ds (ns ++ ns') src₂ m (active calls₂ m) :=
    fun m => (h'.state m).imp_right Chosen.append_right
  refine ⟨h.ends.append h'.ends, fun m => ?_, fun m hm hpos => ?_⟩
  · rcases hactive m with hsame | hc
    · rw [hsame]
      exact (h.state m).imp_right fun hc => hc.append_left h'.ends
    · exact .inr hc
  · rcases h'.source m hm hpos with hsame | hc
    · rcases h.source m (hsame ▸ hm) hpos with hsame' | hc
      · exact .inl (hsame.trans hsame')
      · refine .inr ?_
        rcases hactive m with heq | hc'
        · rw [heq]
          exact hc.append_left h'.ends
        · exact hc'
    · exact .inr hc.append_right

theorem pick_spec {bs : List Block} {eps : Eps} {p : Block × Eps} (h : p ∈ pick? bs eps) : p.1 ∈ bs ∧ p.2.Both := by
  induction bs generalizing eps with
  | nil => cases h
  | cons b bs ih =>
    rw [pick?] at h
    by_cases hboth : (b.endpoints eps).Both
    · rw [if_pos hboth] at h
      obtain rfl : (b, b.endpoints eps) = p := Option.some.inj h
      exact ⟨List.mem_cons_self .., hboth⟩
    · rw [if_neg hboth] at h
      obtain ⟨hmem, hp⟩ := ih h
      exact ⟨List.mem_cons_of_mem _ hmem, hp⟩

theorem found_number {n : UInt8} {p : Block × Eps} (h : p ∈ found? ds n) : p.1.number = n :=
  of_decide_eq_true (List.mem_filter.mp (pick_spec h).1).2

theorem taken_some {n : UInt8} {p : Block × Eps} (h : p ∈ found? ds n) : taken ds (some n) = (p.2.inEp, p.2.outEp) := by
  have hp : (some n).bind (found? ds) = some p := h
  rw [taken, hp]
  rfl

/-- One listed interface. -/
theorem pickSetting_run (env : Env) (ds : List Desc) (n : UInt8) (src : Option UInt8) (calls : List Call) :
    ∃ src' cs, pickSetting env n (taken ds src) (settings n ds) Eps.none calls = (taken ds src', calls ++ cs) ∧
      netifs cs = [] ∧ Picks ds [n] src calls src' (calls ++ cs) := by
  unfold pickSetting
  have hfound : pick? (settings n ds) Eps.none = found? ds n := rfl
  rw [hfound]
  cases hp : found? ds n with
  | none =>
    refine ⟨src, [], by simp, rfl, .inl ⟨rfl, ?_⟩, fun m => .inl (by simp), fun _ _ _ => .inl rfl⟩
    intro ht
    obtain rfl := List.mem_singleton.mp ht.1
    rw [TakesZero, hp] at ht
    cases ht.2
  | some p =>
    have hends : EndsFrom ds [n] src (some n) :=
      .inr ⟨Option.some_ne_none n, by rw [hp]; rfl, [], [], rfl, fun ht => absurd ht.1 List.not_mem_nil⟩
    by_cases hpos : 0 < n
    · simp only [hpos, if_true]
      by_cases hok : env.setInterface calls p.1.number p.1.alternate = .success
      · -- the setting is selected: the interface is in it, and its endpoints are taken
        rw [if_pos hok, hok, ← taken_some hp]
        have hchosen : Chosen ds [n] (some n) n p.1.alternate :=
          ⟨hpos, ⟨p, hp, rfl⟩, [], [], rfl, .inl ⟨rfl, fun ht => absurd ht.1 List.not_mem_nil⟩⟩
        refine ⟨some n, _, rfl, rfl, hends, fun m => ?_, fun m hm _ => ?_⟩
        · rw [active_select, found_number hp]
          split
          · rename_i hnm
            exact .inr (hnm ▸ hchosen)
          · exact .inl rfl
        · obtain rfl := Option.some.inj hm
          rw [active_select, found_number hp, if_pos rfl]
          exact .inr hchosen
      · rw [if_neg hok]
        refine ⟨src, _, rfl, rfl, .inl ⟨rfl, ?_⟩, fun m => .inl (active_refused calls _ _ hok m), fun _ _ _ => .inl rfl⟩
        intro ht
        rw [← List.mem_singleton.mp ht.1] at hpos
        exact absurd hpos (UInt8.lt_irrefl 0)
    · simp only [hpos, if_false]
      obtain rfl : n = 0 := UInt8.le_zero_iff.mp (UInt8.not_lt.mp hpos)
      refine ⟨some 0, [], by rw [← taken_some hp, List.append_nil], rfl, hends, fun m => .inl (by simp), ?_⟩
      intro m hm hpos'
      rw [← Option.some.inj hm] at hpos'
      exact absurd hpos' hpos

theorem pickAll_run (env : Env) (ds : List Desc) (ns : List UInt8) (src : Option UInt8) (calls : List Call) :
    ∃ src' cs, pickAll env ds ns (taken ds src) calls = (taken ds src', calls ++ cs) ∧ netifs cs = [] ∧
      Picks ds ns src calls src' (calls ++ cs) := by
  induction ns generalizing src calls with
  | nil =>
    refine ⟨src, [], by rw [List.append_nil]; rfl, rfl, .inl ⟨rfl, fun ht => absurd ht.1 List.not_mem_nil⟩,
      fun m => .inl (by simp), fun _ _ _ => .inl rfl⟩
  | cons n ns ih =>
    obtain ⟨src₁, cs₁, hrun₁, hnone₁, hpicks₁⟩ := pickSetting_run env ds n src calls
    obtain ⟨src₂, cs₂, hrun₂, hnone₂, hpicks₂⟩ := ih src₁ (calls ++ cs₁)
    refine ⟨src₂, cs₁ ++ cs₂, ?_, by simp [hnone₁, hnone₂], ?_⟩
    · rw [pickAll, hrun₁]
      simpa using hrun₂
    · rw [← List.append_assoc]
      exact hpicks₁.append hpicks₂

/-! ## The control interface -/

theorem lastOf_keeps (f : Desc → Bool) {body : List Desc} {x y : UInt8} (h : x ≠ 0 → y ≠ 0)
    (hx : lastOf f body x ≠ 0) : lastOf f body y ≠ 0 := by
  induction body generalizing x y with
  | nil => exact h hx
  | cons d body ih =>
    rw [lastOf_cons] at hx ⊢
    refine ih ?_ hx
    split
    · exact id
    · exact h

theorem taken_both {ns : List UInt8} {n : UInt8} (h : Ends ds ns (some n)) :
    (taken ds (some n)).1 ≠ 0 ∧ (taken ds (some n)).2 ≠ 0 := by
  obtain ⟨p, hp⟩ := Option.isSome_iff_exists.mp h.1
  rw [taken_some hp]
  exact (pick_spec hp).2

/-- Selecting a setting never takes an endpoint away. -/
theorem taken_idle {ns : List UInt8} {src : Option UInt8} (h : Ends ds ns src) :
    ((taken ds (idle ds ns)).1 ≠ 0 → (taken ds src).1 ≠ 0) ∧ ((taken ds (idle ds ns)).2 ≠ 0 → (taken ds src).2 ≠ 0) := by
  cases src with
  | none =>
    rw [idle, if_neg h]
    exact ⟨id, id⟩
  | some n => exact ⟨fun _ => (taken_both h).1, fun _ => (taken_both h).2⟩

theorem pair_both_of_idle {b : Block} {src : Option UInt8} (h : Ends ds b.subs src)
    (hidle : (b.pair ds (idle ds b.subs)).Both) : (b.pair ds src).Both := by
  unfold Block.pair Eps.Both at hidle ⊢
  rw [b.endpoints_inEp, b.endpoints_outEp] at hidle ⊢
  obtain ⟨hin, hout⟩ := taken_idle h
  exact ⟨lastOf_keeps _ hin hidle.1, lastOf_keeps _ hout hidle.2⟩

theorem Reached.selected {before : List Block} {b : Block} (hb : Reached ds before b) {src : Option UInt8} {m a : UInt8}
    (h : Chosen ds b.subs src m a) : SelectedAt ds b.number m a := by
  obtain ⟨p, hp, rfl⟩ := h.2.1
  exact .listed hb rfl h.mem h.1 hp

theorem active_selectCalls (env : Env) (b : Block) (calls : List Call) (m : UInt8) :
    active (calls ++ selectCalls env b calls) m = active calls m ∨
      (m = b.number ∧ b.alternate ≠ 0) ∧ active (calls ++ selectCalls env b calls) m = b.alternate := by
  unfold selectCalls
  split
  · rename_i halt
    by_cases hok : selectOf env b calls = .success
    · rw [hok, active_select]
      split
      · rename_i hm
        exact .inr ⟨⟨hm.symm, halt⟩, rfl⟩
      · exact .inl rfl
    · exact .inl (active_refused calls _ _ hok m)
  · rw [List.append_nil]
    exact .inl rfl

theorem active_selectCalls_success {b : Block} {calls : List Call} (hok : selectOf env b calls = .success)
    (halt : b.alternate ≠ 0) : active (calls ++ selectCalls env b calls) b.number = b.alternate := by
  rw [selectCalls, if_pos halt, hok, active_select, if_pos rfl]

theorem netifs_selectCalls (env : Env) (b : Block) (calls : List Call) : netifs (selectCalls env b calls) = [] := by
  unfold selectCalls
  split <;> rfl

/-! ## The search of one interface -/

/-- A netif that can be added for interface `n`, and where the interfaces are. -/
structure Sources (ds : List Desc) (n : UInt8) (calls : List Call) (a : Added) (before : List Block) (b : Block)
    (src : Option UInt8) : Prop where
  binds : CanBind ds before b src
  number : b.number = n
  inAddr : a.inAddr = (b.pair ds src).inEp
  outAddr : a.outAddr = (b.pair ds src).outEp
  state : ∀ m, AtNetif ds before b src m (active calls m)

/-- What the search of interface `n` does to the settings, and the netif it adds. -/
structure Searches (ds : List Desc) (n : UInt8) (calls cs : List Call) : Prop where
  state : ∀ m, active (calls ++ cs) m = active calls m ∨ SelectedAt ds n m (active (calls ++ cs) m)
  netifs : ∀ a ∈ netifs cs, ∃ before b src, Sources ds n (calls ++ cs) a before b src

theorem Arrived.mono {n : UInt8} {before before' : List Block} (hsub : before ⊆ before') {m a : UInt8}
    (h : Arrived ds n before m a) : Arrived ds n before' m a := by
  cases h with
  | initial => exact .initial
  | earlier hj hsel => exact .earlier hj hsel
  | passed hb he hnot hsel => exact .passed (hsub hb) he hnot hsel

/-- The setting `b` has both endpoints: it is selected if need be, and a netif is added. -/
theorem addBlock_run (env : Env) (config : UInt8) {before : List Block} {b : Block} {src : Option UInt8} (d : Desc)
    (hb : CanBind ds before b src) {calls calls₁ : List Call} (hpicks : Picks ds b.subs none calls src calls₁)
    (harrived : ∀ m, Arrived ds b.number before m (active calls m)) :
    ∃ cs, (addBlock env config b.number b d (b.pair ds src).inEp (b.pair ds src).outEp calls₁).2 = calls₁ ++ cs ∧
      (∀ m, active (calls₁ ++ cs) m = active calls₁ m ∨ SelectedAt ds b.number m (active (calls₁ ++ cs) m)) ∧
      ∀ a ∈ netifs cs, Sources ds b.number (calls₁ ++ cs) a before b src := by
  obtain ⟨heap, hheap, hadd⟩ :=
    addBlock_cases env config b.number b d (b.pair ds src).inEp (b.pair ds src).outEp calls₁
  have hselected : ∀ m, active (calls₁ ++ (selectCalls env b calls₁ ++ heap)) m = active calls₁ m ∨
      SelectedAt ds b.number m (active (calls₁ ++ (selectCalls env b calls₁ ++ heap)) m) := by
    intro m
    rw [← List.append_assoc, active_heap _ hheap]
    rcases active_selectCalls env b calls₁ m with hsame | ⟨⟨hm, halt⟩, heq⟩
    · exact .inl hsame
    · rw [heq]
      exact .inr (.control hb rfl hm halt)
  rcases hadd with hadd | ⟨hok, netif, state, calls', hadd⟩
  · refine ⟨selectCalls env b calls₁ ++ heap, by rw [hadd, List.append_assoc], hselected, ?_⟩
    intro a ha
    rw [netifs_append, netifs_selectCalls, netifs_heap hheap] at ha
    cases ha
  · let added := netifOf env config b.number d (b.pair ds src).inEp (b.pair ds src).outEp netif state calls'
    refine ⟨selectCalls env b calls₁ ++ heap ++ [.netifAdd added], by rw [hadd]; simp [added], ?_, ?_⟩
    · intro m
      rw [← List.append_assoc, active_netif]
      exact hselected m
    · intro a ha
      rw [netifs_append, netifs_append, netifs_selectCalls, netifs_heap hheap] at ha
      obtain rfl : a = added := List.mem_singleton.mp ha
      refine ⟨hb, rfl, rfl, rfl, fun m => ?_⟩
      rw [← List.append_assoc, active_netif, ← List.append_assoc, active_heap _ hheap]
      by_cases hown : m = b.number ∧ b.alternate ≠ 0
      · obtain ⟨rfl, halt⟩ := hown
        rw [active_selectCalls_success hok halt]
        exact .control rfl halt
      · rw [(active_selectCalls env b calls₁ m).resolve_right fun h => hown h.1]
        by_cases hsrc : src = some m ∧ 0 < m
        · have hnew : src ≠ none := fun h => Option.some_ne_none m (hsrc.1.symm.trans h)
          exact .listed hown ((hpicks.source m hsrc.1 hsrc.2).resolve_left hnew)
        · rcases hpicks.state m with hsame | hc
          · rw [hsame]
            exact .kept (fun h => h.elim hown hsrc) (harrived m)
          · exact .listed hown hc

/-- First listed interfaces are selected, then the search goes on. -/
theorem searches_after {n : UInt8} {calls cs₁ cs : List Call}
    (hlisted : ∀ m, active (calls ++ cs₁) m = active calls m ∨ SelectedAt ds n m (active (calls ++ cs₁) m))
    (hnone : netifs cs₁ = []) (h : Searches ds n (calls ++ cs₁) cs) : Searches ds n calls (cs₁ ++ cs) := by
  refine ⟨fun m => ?_, fun a ha => ?_⟩
  · rw [← List.append_assoc]
    rcases h.state m with hsame | hsel
    · rw [hsame]
      exact hlisted m
    · exact .inr hsel
  · rw [netifs_append, hnone] at ha
    rw [← List.append_assoc]
    exact h.netifs a ha

theorem searchSettings_run (env : Env) (config : UInt8) {n : UInt8} (hn : n < count ds) {before bs : List Block}
    (hbs : settings n ds = before ++ bs) (hpassed : ∀ b ∈ before, Passed ds b) {calls : List Call}
    (harrived : ∀ m, Arrived ds n before m (active calls m)) :
    ∃ cs, (searchSettings env ds config n bs calls).2 = calls ++ cs ∧ Searches ds n calls cs := by
  induction bs generalizing before calls with
  | nil => exact ⟨[], (List.append_nil _).symm, fun m => .inl (by simp), fun a ha => by cases ha⟩
  | cons b bs ih =>
    have hnum : b.number = n := by
      have hb : b ∈ settings n ds := by rw [hbs]; simp
      exact of_decide_eq_true (List.mem_filter.mp hb).2
    have hbs' : settings n ds = before ++ [b] ++ bs := by rw [hbs]; simp
    have hsub : before ⊆ before ++ [b] := List.subset_append_left ..
    have hnext : Passed ds b → ∀ b' ∈ before ++ [b], Passed ds b' := fun hb b' hb' =>
      (List.mem_append.mp hb').elim (hpassed b') fun h => List.mem_singleton.mp h ▸ hb
    rw [searchSettings]
    cases hd : b.ether? with
    | none =>
      have hpass : Passed ds b := by
        intro he
        rw [Block.isEthernet, hd] at he
        cases he
      exact ih hbs' (hnext hpass) fun m => (harrived m).mono hsub
    | some d =>
      have he : b.isEthernet := by rw [Block.isEthernet, hd]; rfl
      have hreached : Reached ds before b := by
        refine ⟨hnum ▸ hn, ?_, hpassed, he⟩
        rw [hnum, hbs']
        exact List.prefix_append ..
      obtain ⟨src, cs₁, hrun, hnone, hpicks⟩ := pickAll_run env ds b.subs none calls
      have hlisted : ∀ m, active (calls ++ cs₁) m = active calls m ∨ SelectedAt ds n m (active (calls ++ cs₁) m) :=
        fun m => (hpicks.state m).imp_right fun hc => hnum ▸ hreached.selected hc
      simp only
      rw [show ((0, 0) : UInt8 × UInt8) = taken ds none from rfl, hrun]
      show ∃ cs, (if (b.pair ds src).Both then
        addBlock env config n b d (b.pair ds src).inEp (b.pair ds src).outEp (calls ++ cs₁)
        else searchSettings env ds config n bs (calls ++ cs₁)).2 = calls ++ cs ∧ Searches ds n calls cs
      split
      · rename_i hpair
        have hbinds : CanBind ds before b src := { hreached with ends := hpicks.ends.ends, both := hpair }
        obtain ⟨cs, hcalls, hactive, hadded⟩ :=
          addBlock_run env config d hbinds hpicks fun m => hnum ▸ harrived m
        rw [hnum] at hcalls hactive hadded
        refine ⟨cs₁ ++ cs, by rw [hcalls, List.append_assoc], searches_after hlisted hnone ⟨hactive, fun a ha => ?_⟩⟩
        exact ⟨before, b, src, hadded a ha⟩
      · rename_i hpair
        have hpass : Passed ds b := fun _ hidle => hpair (pair_both_of_idle hpicks.ends.ends hidle)
        have harrived' : ∀ m, Arrived ds n (before ++ [b]) m (active (calls ++ cs₁) m) := by
          intro m
          rcases hpicks.state m with hsame | hc
          · rw [hsame]
            exact (harrived m).mono hsub
          · exact .passed (by simp) he hpair hc
        obtain ⟨cs, hcalls, hsearched⟩ := ih hbs' (hnext hpass) harrived'
        exact ⟨cs₁ ++ cs, by rw [hcalls, List.append_assoc], searches_after hlisted hnone hsearched⟩

/-! ## All interfaces -/

/-- Before the interfaces `ns` are searched: what has been selected, and the netifs added
    since `base`. -/
structure Inv (ds : List Desc) (base : List Call) (ns : List UInt8) (calls : List Call) : Prop where
  state : ∀ m, active calls m = 0 ∨ ∃ j, (∀ n ∈ ns, j < n) ∧ SelectedAt ds j m (active calls m)
  netifs : ∃ cs, calls = base ++ cs ∧ ∀ a ∈ netifs cs, ∃ before b src, CanBind ds before b src ∧
    (∀ n ∈ ns, b.number < n) ∧ (a.inAddr = (b.pair ds src).inEp ∧ a.outAddr = (b.pair ds src).outEp) ∧
    ∀ m, MayBeIn ds before b src m (active calls m)

theorem inv_searched {base : List Call} {n : UInt8} {ns : List UInt8} {calls cs : List Call}
    (h : Inv ds base (n :: ns) calls) (hns : ∀ n' ∈ ns, n < n') (hs : Searches ds n calls cs) :
    Inv ds base ns (calls ++ cs) := by
  refine ⟨fun m => ?_, ?_⟩
  · rcases hs.state m with hsame | hsel
    · rw [hsame]
      exact (h.state m).imp_right fun ⟨j, hj, hsel⟩ => ⟨j, fun n' hn' => hj n' (List.mem_cons_of_mem _ hn'), hsel⟩
    · exact .inr ⟨n, hns, hsel⟩
  · obtain ⟨cs₀, hcalls, hnetifs⟩ := h.netifs
    refine ⟨cs₀ ++ cs, by rw [hcalls, List.append_assoc], fun a ha => ?_⟩
    rw [netifs_append] at ha
    rcases List.mem_append.mp ha with hmem | hmem
    · obtain ⟨before, b, src, hb, hlt, haddr, hin⟩ := hnetifs a hmem
      refine ⟨before, b, src, hb, fun n' hn' => hlt n' (List.mem_cons_of_mem _ hn'), haddr, fun m => ?_⟩
      rcases hs.state m with hsame | hsel
      · rw [hsame]
        exact hin m
      · exact .inr ⟨n, hlt n (List.mem_cons_self ..), hsel⟩
    · obtain ⟨before, b, src, hb⟩ := hs.netifs a hmem
      exact ⟨before, b, src, hb.binds, hb.number ▸ hns, ⟨hb.inAddr, hb.outAddr⟩, fun m => .inl (hb.state m)⟩

theorem bindNumbers_run (env : Env) (config : UInt8) {ns : List UInt8} (hns : ns.Pairwise (· < ·))
    (hcount : ∀ n ∈ ns, n < count ds) (found : Bool) {base calls : List Call} (h : Inv ds base ns calls) :
    Inv ds base [] (bindNumbers env ds config ns found calls).2 := by
  induction ns generalizing found calls with
  | nil => exact h
  | cons n ns ih =>
    obtain ⟨hlt, hns⟩ := List.pairwise_cons.mp hns
    have harrived : ∀ m, Arrived ds n [] m (active calls m) := by
      intro m
      rcases h.state m with h0 | ⟨j, hj, hsel⟩
      · rw [h0]
        exact .initial
      · exact .earlier (hj n (List.mem_cons_self ..)) hsel
    obtain ⟨cs, hcalls, hsearched⟩ := searchSettings_run env config (hcount n (List.mem_cons_self ..))
      (List.nil_append _).symm (fun b hb => absurd hb List.not_mem_nil) harrived
    rw [bindNumbers, hcalls]
    exact ih hns (fun n' hn' => hcount n' (List.mem_cons_of_mem _ hn')) _ (inv_searched h hlt hsearched)

theorem mem_numbersFrom {c n k : UInt8} : n ∈ numbersFrom c k ↔ c ≤ n ∧ n < k := by
  unfold numbersFrom
  rw [List.mem_map, UInt8.le_iff_toNat_le, UInt8.lt_iff_toNat_lt]
  constructor
  · intro h
    obtain ⟨i, hi, rfl⟩ := h
    have hi := List.mem_range'_1.mp hi
    have hk := k.toNat_lt
    have hto : (Nat.toUInt8 i).toNat = i := UInt8.toNat_ofNat_of_lt' (show i < 256 by omega)
    omega
  · intro h
    exact ⟨n.toNat, List.mem_range'_1.mpr (by omega), UInt8.ofNat_toNat⟩

theorem numbersFrom_pairwise (c k : UInt8) : (numbersFrom c k).Pairwise (· < ·) := by
  have hk := k.toNat_lt
  refine List.pairwise_map.mpr ((List.pairwise_lt_range' (s := c.toNat) (n := k.toNat - c.toNat)).imp_of_mem ?_)
  intro i j hi hj hlt
  have hj := List.mem_range'_1.mp hj
  rw [UInt8.lt_iff_toNat_lt, UInt8.toNat_ofNat_of_lt' (show i < 256 by omega),
    UInt8.toNat_ofNat_of_lt' (show j < 256 by omega)]
  exact hlt

theorem processConfig_live (env : Env) (config : UInt8) (hs : Settled ds) (calls : List Call) :
    ∃ cs, (processConfig env ds config calls).2 = calls ++ cs ∧
      ∀ a ∈ netifs cs, Live ds (processConfig env ds config calls).2 a := by
  unfold processConfig
  split
  · exact ⟨[], (List.append_nil _).symm, fun a ha => by cases ha⟩
  · rename_i hfits
    simp only
    split
    · exact ⟨[_], rfl, fun a ha => by cases ha⟩
    · rename_i hok
      rw [not_not.mp hok]
      let base := calls ++ [.setConfiguration config .success]
      have hinv : Inv ds base (numbersFrom 0 (count ds)) base := by
        refine ⟨fun m => .inl ?_, [], (List.append_nil _).symm, fun a ha => by cases ha⟩
        show active (calls ++ [.setConfiguration config .success]) m = 0
        rw [active_append]
        rfl
      obtain ⟨-, cs, hcalls, hnetifs⟩ := bindNumbers_run env config (numbersFrom_pairwise 0 (count ds))
        (fun n hn => (mem_numbersFrom.mp hn).2) false hinv
      refine ⟨.setConfiguration config .success :: cs, by rw [hcalls]; simp [base], fun a ha => ?_⟩
      obtain ⟨before, b, src, hb, -, ⟨hin, hout⟩, hmay⟩ := hnetifs a ha
      obtain ⟨m, hm⟩ := hs (Nat.le_of_not_lt hfits) before b src hb
      obtain ⟨s, hmem, ⟨rfl, halt⟩, hsin, hsout⟩ := hm _ (hmay m)
      exact ⟨s, hmem, hin ▸ hsin, hout ▸ hsout, halt.symm⟩

theorem allLive_of_settled (hs : Settled ds) {fuel : Nat} {w : World} (hdev : Attached env w.calls config ds)
    (hfuel : 256 < fuel) : AllLive env fuel config ds w := by
  obtain ⟨found, w', hrun, h⟩ := wp_total (processConfigDescriptor_list hfuel hdev)
  obtain ⟨cs, hcalls, hlive⟩ := processConfig_live env config hs w.calls
  rw [← h] at hcalls hlive
  exact ⟨found, w', cs, hrun, hcalls, hlive⟩

end Nanotube.Device.Usb
