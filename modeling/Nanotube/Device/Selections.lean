/-
  Nanotube.Device.Selections — can every setting that `MayBeIn` allows come about?

  A device whose answers to `usb_SetInterface` are given by a script is steered through
  the search: all calls fail except those that the wanted endpoints, netif and settings
  need (`can_netif`, `can_select`). So every netif that `CanBind` is added in some run, and
  leaves an interface in any one setting it `MayBeIn` (`can_end`).

  Proved: on a configuration that does not list an endpoint address in two interfaces,
  all netifs are live whatever the calls answer if and only if it is `Settled`
  (`live_iff_settled`).
-/

import Nanotube.Device.Coherence
import Nanotube.Device.Scripted

namespace Nanotube.Device.Usb

open Nanotube.Lib.Loops
open Nanotube.Lib.Scripts
open Nanotube.Device.Ecm (UsbError)

/-- The device hands out `ds`, and answers by the script. -/
def scriptedOf (ds : List Desc) (S : Script) : Env := answering (deviceOf [ds.flatMap Desc.bytes]) S

section Programs

variable (ds : List Desc)

def picking (ns : List UInt8) (ret : UInt8 × UInt8) : Asking (List Call) (UInt8 × UInt8) :=
  fun S => pickAll (scriptedOf ds S) ds ns ret

def adding (b : Block) (d : Desc) (inEp outEp : UInt8) : Asking (List Call) Bool :=
  fun S => addBlock (scriptedOf ds S) 1 b.number b d inEp outEp

def searching (n : UInt8) (bs : List Block) : Asking (List Call) Bool :=
  fun S => searchSettings (scriptedOf ds S) ds 1 n bs

/-- At the setting `b`, once its Union has given `ret`. -/
def settling (b : Block) (d : Desc) (bs : List Block) (ret : UInt8 × UInt8) : Asking (List Call) Bool :=
  fun S calls =>
    let eps := b.endpoints ⟨ret.1, ret.2, 0⟩
    if eps.Both then adding ds b d eps.inEp eps.outEp S calls else searching ds b.number bs S calls

def binding (ns : List UInt8) (found : Bool) : Asking (List Call) Bool :=
  fun S => bindNumbers (scriptedOf ds S) ds 1 ns found

end Programs

variable {ds : List Desc}

/-! ## The calls before the end of a program are all that matters -/

theorem scriptedOf_congr {S S' : Script} {calls : List Call} (h : S' calls.length = S calls.length) (n a : UInt8) :
    (scriptedOf ds S').setInterface calls n a = (scriptedOf ds S).setInterface calls n a := by
  show (if S' calls.length then UsbError.success else .failed) = _
  rw [h]
  rfl

theorem local_pickSetting (n : UInt8) (ret : UInt8 × UInt8) (bs : List Block) (eps : Eps) :
    Local List.length fun S calls => pickSetting (scriptedOf ds S) n ret bs eps calls := by
  unfold pickSetting
  cases pick? bs eps with
  | none => exact .const (f := fun calls => (ret, calls)) fun _ => Nat.le_refl _
  | some p =>
    by_cases hpos : 0 < n
    · simp only [hpos, if_true]
      refine ⟨fun S calls => by simp, fun S S' calls h => ?_⟩
      rw [scriptedOf_congr (h calls.length (Nat.le_refl _) (by simp))]
    · simp only [hpos, if_false]
      exact .const (f := fun calls => ((p.2.inEp, p.2.outEp), calls)) fun _ => Nat.le_refl _

theorem local_picking (ns : List UInt8) (ret : UInt8 × UInt8) : Local List.length (picking ds ns ret) := by
  induction ns generalizing ret with
  | nil => exact .const fun _ => Nat.le_refl _
  | cons n ns ih => exact (local_pickSetting n ret (settings n ds) Eps.none).andThen ih

theorem addBlock_extends (env : Env) (config n : UInt8) (b : Block) (d : Desc) (inEp outEp : UInt8) (calls : List Call) :
    calls ++ selectCalls env b calls <+: (addBlock env config n b d inEp outEp calls).2 := by
  obtain ⟨cs, -, hadd | ⟨-, netif, state, calls', hadd⟩⟩ := addBlock_cases env config n b d inEp outEp calls
  · rw [hadd]
    exact List.prefix_append ..
  · rw [hadd, List.append_assoc]
    exact List.prefix_append ..

theorem local_adding (b : Block) (d : Desc) (inEp outEp : UInt8) : Local List.length (adding ds b d inEp outEp) := by
  refine ⟨fun S calls => ?_, fun S S' calls h => ?_⟩
  · exact ((List.prefix_append ..).trans (addBlock_extends _ _ _ b d inEp outEp calls)).length_le
  · have hselect : selectOf (scriptedOf ds S') b calls = selectOf (scriptedOf ds S) b calls := by
      unfold selectOf
      split
      · rename_i halt
        refine scriptedOf_congr (h calls.length (Nat.le_refl _) ?_) _ _
        have hlen := (addBlock_extends (scriptedOf ds S) 1 b.number b d inEp outEp calls).length_le
        rw [List.length_append, selectCalls, if_pos halt] at hlen
        exact hlen
      · rfl
    show addBlock _ 1 b.number b d inEp outEp calls = addBlock _ 1 b.number b d inEp outEp calls
    unfold addBlock selectCalls
    rw [hselect]
    rfl

/-- A setting with an Ethernet descriptor: its listed interfaces, then the netif or the
    next setting. -/
theorem searching_ethernet {b : Block} {d : Desc} (hd : b.ether? = some d) (bs : List Block) :
    searching ds b.number (b :: bs) = andThen (picking ds b.subs (0, 0)) (settling ds b d bs) := by
  funext S calls
  simp only [searching, searchSettings, hd]
  rfl

theorem searching_other (n : UInt8) {b : Block} (hd : b.ether? = none) (bs : List Block) :
    searching ds n (b :: bs) = searching ds n bs := by
  funext S calls
  simp only [searching, searchSettings, hd]

theorem local_settling {b : Block} {d : Desc} {bs : List Block} (hbs : Local List.length (searching ds b.number bs))
    (ret : UInt8 × UInt8) : Local List.length (settling ds b d bs ret) := by
  unfold settling
  by_cases hboth : (b.endpoints ⟨ret.1, ret.2, 0⟩).Both
  · simp only [hboth, if_true]
    exact local_adding ..
  · simp only [hboth, if_false]
    exact hbs

theorem local_searching {n : UInt8} {bs : List Block} (hbs : ∀ b ∈ bs, b.number = n) :
    Local List.length (searching ds n bs) := by
  induction bs with
  | nil => exact .const fun _ => Nat.le_refl _
  | cons b bs ih =>
    have ih := ih fun b' hb' => hbs b' (List.mem_cons_of_mem _ hb')
    cases hd : b.ether? with
    | none =>
      rw [searching_other n hd]
      exact ih
    | some d =>
      obtain rfl := hbs b (List.mem_cons_self ..)
      rw [searching_ethernet hd]
      exact (local_picking b.subs (0, 0)).andThen fun ret => local_settling ih ret

theorem settings_number {n : UInt8} {b : Block} (hb : b ∈ settings n ds) : b.number = n :=
  of_decide_eq_true (List.mem_filter.mp hb).2

theorem local_binding (ns : List UInt8) (found : Bool) : Local List.length (binding ds ns found) := by
  induction ns generalizing found with
  | nil => exact .const fun _ => Nat.le_refl _
  | cons n ns ih => exact (local_searching fun _ => settings_number).andThen fun added => ih (found || added)

/-! ## Listed interfaces -/

theorem pickAll_append (env : Env) (ns ns' : List UInt8) (ret : UInt8 × UInt8) (calls : List Call) :
    pickAll env ds (ns ++ ns') ret calls =
      pickAll env ds ns' (pickAll env ds ns ret calls).1 (pickAll env ds ns ret calls).2 := by
  induction ns generalizing ret calls with
  | nil => rfl
  | cons n ns ih => exact ih ..

theorem can_append {ns ns' : List UInt8} {ret : UInt8 × UInt8} {calls : List Call} {r r' : (UInt8 × UInt8) × List Call}
    (h : Can (picking ds ns ret) calls r) (h' : Can (picking ds ns' r.1) r.2 r') :
    Can (picking ds (ns ++ ns') ret) calls r' := by
  have happend : picking ds (ns ++ ns') ret = andThen (picking ds ns ret) fun ret => picking ds ns' ret := by
    funext S calls
    exact pickAll_append ..
  rw [happend]
  exact h.andThen (local_picking ns ret) (local_picking ns') h'

theorem can_cons {n : UInt8} {ns : List UInt8} {ret : UInt8 × UInt8} {calls : List Call}
    {r r' : (UInt8 × UInt8) × List Call} (h : Can (picking ds [n] ret) calls r) (h' : Can (picking ds ns r.1) r.2 r') :
    Can (picking ds (n :: ns) ret) calls r' := can_append h h'

/-- The script refuses every call. -/
def refuse : Script := fun _ => false

theorem refused (ds : List Desc) (calls : List Call) (n a : UInt8) : (scriptedOf ds refuse).setInterface calls n a ≠ .success := by
  show (if false = true then UsbError.success else .failed) ≠ .success
  decide

/-- Where nothing is selected, only interface 0 gives endpoints. -/
theorem can_refuse (ds : List Desc) (n : UInt8) (src : Option UInt8) (calls : List Call) :
    ∃ calls', Can (picking ds [n] (taken ds src)) calls (taken ds (if TakesZero ds [n] then some 0 else src), calls') ∧
      ∀ m, active calls' m = active calls m := by
  cases hp : found? ds n with
  | none =>
    refine ⟨calls, ⟨refuse, ?_⟩, fun m => rfl⟩
    have hno : ¬ TakesZero ds [n] := by
      intro ht
      obtain rfl := List.mem_singleton.mp ht.1
      rw [TakesZero, hp] at ht
      cases ht.2
    rw [if_neg hno]
    show pickSetting _ n _ (settings n ds) Eps.none calls = _
    rw [pickSetting, show pick? (settings n ds) Eps.none = none from hp]
  | some p =>
    have hpick : pick? (settings n ds) Eps.none = some p := hp
    by_cases hpos : 0 < n
    · refine ⟨_, ⟨refuse, ?_⟩, active_refused calls p.1.number p.1.alternate (refused ds calls p.1.number p.1.alternate)⟩
      have hno : ¬ TakesZero ds [n] := by
        intro ht
        rw [← List.mem_singleton.mp ht.1] at hpos
        exact absurd hpos (UInt8.lt_irrefl 0)
      rw [if_neg hno]
      show pickSetting _ n _ (settings n ds) Eps.none calls = _
      simp only [pickSetting, hpick, hpos, if_true]
      rw [if_neg (refused ds calls p.1.number p.1.alternate)]
    · obtain rfl : n = 0 := UInt8.le_zero_iff.mp (UInt8.not_lt.mp hpos)
      refine ⟨calls, ⟨refuse, ?_⟩, fun m => rfl⟩
      rw [if_pos ⟨List.mem_singleton_self 0, by rw [hp]; rfl⟩, taken_some hp]
      show pickSetting _ 0 _ (settings 0 ds) Eps.none calls = _
      simp only [pickSetting, hpick, hpos, if_false]

theorem can_pick_idle (ds : List Desc) (ns : List UInt8) (src : Option UInt8) (calls : List Call) :
    ∃ calls', Can (picking ds ns (taken ds src)) calls (taken ds (if TakesZero ds ns then some 0 else src), calls') ∧
      ∀ m, active calls' m = active calls m := by
  induction ns generalizing src calls with
  | nil => exact ⟨calls, ⟨refuse, by rw [if_neg fun ht => absurd ht.1 List.not_mem_nil]; rfl⟩, fun m => rfl⟩
  | cons n ns ih =>
    obtain ⟨calls₁, hcan₁, hsame₁⟩ := can_refuse ds n src calls
    obtain ⟨calls₂, hcan₂, hsame₂⟩ := ih (if TakesZero ds [n] then some 0 else src) calls₁
    refine ⟨calls₂, ?_, fun m => (hsame₂ m).trans (hsame₁ m)⟩
    have hcan := can_append hcan₁ hcan₂
    show Can (picking ds ([n] ++ ns) _) calls (taken ds (if TakesZero ds ([n] ++ ns) then some 0 else src), calls₂)
    have hsplit : TakesZero ds ([n] ++ ns) ↔ TakesZero ds [n] ∨ TakesZero ds ns := takesZero_append
    by_cases hns : TakesZero ds ns
    · rw [if_pos hns] at hcan
      rw [if_pos (hsplit.mpr (.inr hns))]
      exact hcan
    · rw [if_neg hns] at hcan
      rw [if_congr (hsplit.trans (or_iff_left hns)) rfl rfl]
      exact hcan

/-- With every call refused, the endpoints are those of interface 0 or stay as they are. -/
theorem endsFrom_idle (ns : List UInt8) (src : Option UInt8) :
    EndsFrom ds ns src (if TakesZero ds ns then some 0 else src) := by
  by_cases hzero : TakesZero ds ns
  · rw [if_pos hzero]
    -- the last place of interface 0 in the list
    obtain ⟨after, before, hrev, hnot⟩ := List.eq_append_cons_of_mem (List.mem_reverse.mpr hzero.1)
    refine .inr ⟨Option.some_ne_none 0, hzero.2, before.reverse, after.reverse, ?_, fun ht => ?_⟩
    · rw [← List.reverse_reverse ns, hrev]
      simp
    · exact hnot (List.mem_reverse.mp ht.1)
  · rw [if_neg hzero]
    exact .inl ⟨rfl, hzero⟩

theorem Ends.fromNone {ns : List UInt8} {src : Option UInt8} (h : Ends ds ns src) : EndsFrom ds ns none src := by
  cases src with
  | none => exact .inl ⟨rfl, h⟩
  | some n => exact .inr ⟨Option.some_ne_none n, h⟩

/-- The setting of a listed interface other than 0 can be selected. -/
theorem can_select_listed {m : UInt8} (hpos : 0 < m) {p : Block × Eps} (hp : p ∈ found? ds m) (src : Option UInt8)
    (calls : List Call) :
    ∃ calls', Can (picking ds [m] (taken ds src)) calls (taken ds (some m), calls') ∧
      ∀ n, active calls' n = if n = m then p.1.alternate else active calls n := by
  refine ⟨calls ++ [.setInterface p.1.number p.1.alternate .success], ⟨fun _ => true, ?_⟩, fun n => ?_⟩
  · show pickSetting _ m _ (settings m ds) Eps.none calls = _
    simp only [pickSetting, show pick? (settings m ds) Eps.none = some p from hp, hpos, if_true, taken_some hp]
    rfl
  · rw [active_select, found_number hp]
    exact if_congr eq_comm rfl rfl

/-- Every end of a list of interfaces can be brought about, with nothing selected but what
    the endpoints are taken from. -/
theorem can_pick {ns : List UInt8} {src src' : Option UInt8} (h : EndsFrom ds ns src src') (calls : List Call) :
    ∃ calls', Can (picking ds ns (taken ds src)) calls (taken ds src', calls') ∧
      ∀ m, active calls' m = active calls m ∨
        (src' = some m ∧ 0 < m) ∧ ∃ p ∈ found? ds m, active calls' m = p.1.alternate := by
  rcases h with ⟨rfl, hno⟩ | ⟨hsome, hends⟩
  · obtain ⟨calls', hcan, hsame⟩ := can_pick_idle ds ns src' calls
    rw [if_neg hno] at hcan
    exact ⟨calls', hcan, fun m => .inl (hsame m)⟩
  · cases src' with
    | none => exact absurd rfl hsome
    | some n =>
      obtain ⟨hf, before, after, rfl, hno⟩ := hends
      obtain ⟨p, hp⟩ := Option.isSome_iff_exists.mp hf
      obtain ⟨calls₁, hcan₁, hsame₁⟩ := can_pick_idle ds before src calls
      -- the interface itself: selected, unless it is interface 0
      have hone : ∃ calls₂, Can (picking ds [n] (taken ds (if TakesZero ds before then some 0 else src))) calls₁
          (taken ds (some n), calls₂) ∧
          ∀ m, active calls₂ m = active calls₁ m ∨ (n = m ∧ 0 < m) ∧ active calls₂ m = p.1.alternate := by
        by_cases hpos : 0 < n
        · obtain ⟨calls₂, hcan₂, hset⟩ := can_select_listed hpos hp (if TakesZero ds before then some 0 else src) calls₁
          refine ⟨calls₂, hcan₂, fun m => ?_⟩
          rw [hset m]
          split
          · rename_i hm
            exact .inr ⟨⟨hm.symm, hm ▸ hpos⟩, rfl⟩
          · exact .inl rfl
        · obtain rfl : n = 0 := UInt8.le_zero_iff.mp (UInt8.not_lt.mp hpos)
          obtain ⟨calls₂, hcan₂, hsame₂⟩ := can_refuse ds 0 (if TakesZero ds before then some 0 else src) calls₁
          have hzero : TakesZero ds [0] := ⟨List.mem_singleton_self 0, hf⟩
          rw [if_pos hzero] at hcan₂
          exact ⟨calls₂, hcan₂, fun m => .inl (hsame₂ m)⟩
      obtain ⟨calls₂, hcan₂, hset₂⟩ := hone
      obtain ⟨calls₃, hcan₃, hsame₃⟩ := can_pick_idle ds after (some n) calls₂
      rw [if_neg hno] at hcan₃
      refine ⟨calls₃, can_append hcan₁ (can_cons hcan₂ hcan₃), fun m => ?_⟩
      rw [hsame₃ m, ← hsame₁ m]
      refine (hset₂ m).imp_right fun ⟨⟨hm, hpos⟩, heq⟩ => ⟨⟨congrArg some hm, hpos⟩, p, hm ▸ hp, heq⟩

/-- A listed interface can be selected on any way on which it is `Chosen`. -/
theorem can_choose {ns : List UInt8} {src : Option UInt8} {m a : UInt8} (h : Chosen ds ns src m a) (calls : List Call) :
    ∃ calls', Can (picking ds ns (taken ds none)) calls (taken ds src, calls') ∧ active calls' m = a := by
  obtain ⟨hpos, ⟨p, hp, rfl⟩, before, after, rfl, hends⟩ := h
  obtain ⟨calls₁, hcan₁, -⟩ := can_pick_idle ds before none calls
  obtain ⟨calls₂, hcan₂, hset₂⟩ := can_select_listed hpos hp (if TakesZero ds before then some 0 else none) calls₁
  obtain ⟨calls₃, hcan₃, hset₃⟩ := can_pick hends calls₂
  refine ⟨calls₃, can_append hcan₁ (can_cons hcan₂ hcan₃), ?_⟩
  rcases hset₃ m with hsame | ⟨-, p', hp', heq⟩
  · rw [hsame, hset₂ m, if_pos rfl]
  · rw [heq, Option.mem_unique hp' hp]

/-! ## Settings -/

section Setting

variable {b : Block} {d : Desc} (hd : b.ether? = some d) {bs : List Block} (hbs : ∀ b' ∈ bs, b'.number = b.number)
  {src : Option UInt8} {calls calls₁ : List Call} (hpick : Can (picking ds b.subs (taken ds none)) calls (taken ds src, calls₁))

include hd hbs hpick

theorem can_settle {r : Bool × List Call} (h : Can (settling ds b d bs (taken ds src)) calls₁ r) :
    Can (searching ds b.number (b :: bs)) calls r := by
  rw [searching_ethernet hd]
  exact hpick.andThen (local_picking b.subs (0, 0)) (local_settling (local_searching hbs)) h

theorem can_go_on (hpair : ¬ (b.pair ds src).Both) {r : Bool × List Call} (h : Can (searching ds b.number bs) calls₁ r) :
    Can (searching ds b.number (b :: bs)) calls r := by
  refine can_settle hd hbs hpick ?_
  obtain ⟨S, rfl⟩ := h
  exact ⟨S, if_neg hpair⟩

theorem can_add (hpair : (b.pair ds src).Both) {r : Bool × List Call}
    (h : Can (adding ds b d (b.pair ds src).inEp (b.pair ds src).outEp) calls₁ r) :
    Can (searching ds b.number (b :: bs)) calls r := by
  refine can_settle hd hbs hpick ?_
  obtain ⟨S, rfl⟩ := h
  exact ⟨S, if_pos hpair⟩

end Setting

/-- The netif is added when the setting is accepted. -/
theorem can_accept (ds : List Desc) (b : Block) (d : Desc) (inEp outEp : UInt8) (calls : List Call) :
    ∃ calls' a, Can (adding ds b d inEp outEp) calls (true, calls') ∧ a ∈ netifs calls' ∧
      (a.inAddr = inEp ∧ a.outAddr = outEp) ∧ (b.alternate ≠ 0 → active calls' b.number = b.alternate) ∧
      ∀ m, ¬ (m = b.number ∧ b.alternate ≠ 0) → active calls' m = active calls m := by
  let env := scriptedOf ds fun _ => true
  have hok : selectOf env b calls = .success := by
    unfold selectOf
    split <;> rfl
  have hadded : (addBlock env 1 b.number b d inEp outEp calls).1 = true := by
    rw [addBlock, if_neg (not_not.mpr hok)]
    rfl
  obtain ⟨cs, hcs, hadd | ⟨-, netif, state, calls', hadd⟩⟩ := addBlock_cases env 1 b.number b d inEp outEp calls
  · rw [hadd] at hadded
    cases hadded
  · refine ⟨_, netifOf env 1 b.number d inEp outEp netif state calls', ⟨fun _ => true, hadd⟩, ?_, ⟨rfl, rfl⟩,
      fun halt => ?_, fun m hm => ?_⟩
    · rw [netifs_append]
      exact List.mem_append_right _ (List.mem_singleton_self _)
    · rw [active_netif, active_heap _ hcs]
      exact active_selectCalls_success hok halt
    · rw [active_netif, active_heap _ hcs]
      exact (active_selectCalls env b calls m).resolve_right fun h => hm h.1

/-- With every call refused nothing is selected, be a netif added or not. -/
theorem can_add_idle (ds : List Desc) (b : Block) (d : Desc) (inEp outEp : UInt8) (calls : List Call) :
    ∃ r, Can (adding ds b d inEp outEp) calls r ∧ ∀ m, active r.2 m = active calls m := by
  refine ⟨_, ⟨refuse, rfl⟩, fun m => ?_⟩
  show active (addBlock (scriptedOf ds refuse) 1 b.number b d inEp outEp calls).2 m = active calls m
  have hsame : active (calls ++ selectCalls (scriptedOf ds refuse) b calls) m = active calls m := by
    unfold selectCalls
    split
    · rename_i halt
      refine active_refused calls _ _ ?_ m
      rw [selectOf, if_pos halt]
      exact refused ds calls _ _
    · rw [List.append_nil]
  obtain ⟨cs, hcs, hadd | ⟨-, netif, state, calls', hadd⟩⟩ :=
    addBlock_cases (scriptedOf ds refuse) 1 b.number b d inEp outEp calls
  · rw [hadd, active_heap _ hcs]
    exact hsame
  · rw [hadd, active_netif, active_heap _ hcs]
    exact hsame

theorem can_settle_idle {b : Block} {d : Desc} (hd : b.ether? = some d) {bs : List Block}
    (hbs : ∀ b' ∈ bs, b'.number = b.number) {src : Option UInt8} {calls calls₁ : List Call}
    (hpick : Can (picking ds b.subs (taken ds none)) calls (taken ds src, calls₁))
    (hrest : ∃ r, Can (searching ds b.number bs) calls₁ r ∧ ∀ m, active r.2 m = active calls₁ m) :
    ∃ r, Can (searching ds b.number (b :: bs)) calls r ∧ ∀ m, active r.2 m = active calls₁ m := by
  by_cases hpair : (b.pair ds src).Both
  · obtain ⟨r, hcan, hsame⟩ := can_add_idle ds b d (b.pair ds src).inEp (b.pair ds src).outEp calls₁
    exact ⟨r, can_add hd hbs hpick hpair hcan, hsame⟩
  · obtain ⟨r, hcan, hsame⟩ := hrest
    exact ⟨r, can_go_on hd hbs hpick hpair hcan, hsame⟩

theorem can_search_idle {n : UInt8} {bs : List Block} (hbs : ∀ b ∈ bs, b.number = n) (calls : List Call) :
    ∃ r, Can (searching ds n bs) calls r ∧ ∀ m, active r.2 m = active calls m := by
  induction bs generalizing calls with
  | nil => exact ⟨(false, calls), ⟨refuse, rfl⟩, fun m => rfl⟩
  | cons b bs ih =>
    obtain rfl := hbs b (List.mem_cons_self ..)
    have hbs := fun b' hb' => hbs b' (List.mem_cons_of_mem _ hb')
    cases hd : b.ether? with
    | none =>
      rw [searching_other _ hd]
      exact ih hbs calls
    | some d =>
      obtain ⟨calls₁, hpick, hsame₁⟩ := can_pick_idle ds b.subs none calls
      obtain ⟨r, hcan, hsame⟩ := can_settle_idle hd hbs hpick (ih hbs calls₁)
      exact ⟨r, hcan, fun m => (hsame m).trans (hsame₁ m)⟩

/-- From `calls`, the search of interface `n` can pass the settings `before` and go on from
    `calls'`. -/
def Leaves (ds : List Desc) (n : UInt8) (before : List Block) (calls calls' : List Call) : Prop :=
  ∀ bs r, (∀ b ∈ bs, b.number = n) → Can (searching ds n bs) calls' r → Can (searching ds n (before ++ bs)) calls r

theorem Leaves.append {n : UInt8} {before before' : List Block} (hn : ∀ b ∈ before', b.number = n)
    {calls calls₁ calls₂ : List Call} (h : Leaves ds n before calls calls₁) (h' : Leaves ds n before' calls₁ calls₂) :
    Leaves ds n (before ++ before') calls calls₂ := by
  intro bs r hbs hcan
  rw [List.append_assoc]
  exact h _ r (fun b hb => (List.mem_append.mp hb).elim (hn b) (hbs b)) (h' bs r hbs hcan)

theorem leaves_one {b : Block} {d : Desc} (hd : b.ether? = some d) {src : Option UInt8} {calls calls₁ : List Call}
    (hpick : Can (picking ds b.subs (taken ds none)) calls (taken ds src, calls₁)) (hpair : ¬ (b.pair ds src).Both) :
    Leaves ds b.number [b] calls calls₁ := fun _ _ hbs hcan => can_go_on hd hbs hpick hpair hcan

theorem can_pass {n : UInt8} {before : List Block} (hn : ∀ b ∈ before, b.number = n)
    (hpassed : ∀ b ∈ before, Passed ds b) (calls : List Call) :
    ∃ calls', Leaves ds n before calls calls' ∧ ∀ m, active calls' m = active calls m := by
  induction before generalizing calls with
  | nil => exact ⟨calls, fun bs r _ hcan => hcan, fun m => rfl⟩
  | cons b before ih =>
    obtain rfl := hn b (List.mem_cons_self ..)
    have hn := fun b' hb' => hn b' (List.mem_cons_of_mem _ hb')
    have ih := ih hn fun b' hb' => hpassed b' (List.mem_cons_of_mem _ hb')
    cases hd : b.ether? with
    | none =>
      obtain ⟨calls', hleaves, hsame⟩ := ih calls
      refine ⟨calls', fun bs r hbs hcan => ?_, hsame⟩
      rw [List.cons_append, searching_other _ hd]
      exact hleaves bs r hbs hcan
    | some d =>
      obtain ⟨calls₁, hpick, hsame₁⟩ := can_pick_idle ds b.subs none calls
      have hpair := hpassed b (List.mem_cons_self ..) (by rw [Block.isEthernet, hd]; rfl)
      obtain ⟨calls₂, hleaves, hsame₂⟩ := ih calls₁
      exact ⟨calls₂, (leaves_one hd hpick hpair).append hn hleaves, fun m => (hsame₂ m).trans (hsame₁ m)⟩

/-! ## One interface -/

theorem Reached.split {before : List Block} {b : Block} (h : Reached ds before b) :
    ∃ after, settings b.number ds = before ++ b :: after ∧ (∀ b' ∈ before, b'.number = b.number) ∧
      ∀ b' ∈ after, b'.number = b.number := by
  obtain ⟨after, hafter⟩ := h.setting
  have hnumber : ∀ b' ∈ before ++ [b] ++ after, b'.number = b.number := by
    rw [hafter]
    exact fun b' => settings_number
  refine ⟨after, by rw [← hafter]; simp, fun b' hb' => hnumber b' ?_, fun b' hb' => hnumber b' ?_⟩
  · simp [hb']
  · simp [hb']

/-- Where the interfaces can be after the settings `before` were passed. -/
theorem can_arrive {before : List Block} {n : UInt8} (hn : ∀ b ∈ before, b.number = n)
    (hpassed : ∀ b ∈ before, Passed ds b) {b : Block} (hb : b ∈ before) (he : b.isEthernet) {src : Option UInt8}
    (hpair : ¬ (b.pair ds src).Both) {m a : UInt8} (hsel : Chosen ds b.subs src m a) (calls : List Call) :
    ∃ calls', Leaves ds n before calls calls' ∧ active calls' m = a := by
  obtain ⟨d, hd⟩ := Option.isSome_iff_exists.mp he
  obtain ⟨before₁, before₂, rfl⟩ := List.append_of_mem hb
  obtain rfl := hn b hb
  obtain ⟨hn₁, hn⟩ := List.forall_mem_append.mp hn
  obtain ⟨hpassed₁, hpassed⟩ := List.forall_mem_append.mp hpassed
  obtain ⟨-, hn₂⟩ := List.forall_mem_cons.mp hn
  obtain ⟨-, hpassed₂⟩ := List.forall_mem_cons.mp hpassed
  obtain ⟨calls₁, hleaves₁, -⟩ := can_pass hn₁ hpassed₁ calls
  obtain ⟨calls₂, hpick, hm⟩ := can_choose hsel calls₁
  obtain ⟨calls₃, hleaves₂, hsame⟩ := can_pass hn₂ hpassed₂ calls₂
  refine ⟨calls₃, ?_, (hsame m).trans hm⟩
  exact hleaves₁.append hn ((leaves_one hd hpick hpair).append hn₂ hleaves₂)

/-- The netif of `b` with the endpoints of `src`, once the search is at `b` and the Union
    has given them. -/
theorem can_netif {before : List Block} {b : Block} {src : Option UInt8} (hb : CanBind ds before b src)
    {calls calls₁ calls₂ : List Call} (hleaves : Leaves ds b.number before calls calls₁)
    (hpick : Can (picking ds b.subs (taken ds none)) calls₁ (taken ds src, calls₂)) :
    ∃ calls' a, Can (searching ds b.number (settings b.number ds)) calls (true, calls') ∧ a ∈ netifs calls' ∧
      (a.inAddr = (b.pair ds src).inEp ∧ a.outAddr = (b.pair ds src).outEp) ∧
      (b.alternate ≠ 0 → active calls' b.number = b.alternate) ∧
      ∀ m, ¬ (m = b.number ∧ b.alternate ≠ 0) → active calls' m = active calls₂ m := by
  obtain ⟨d, hd⟩ := Option.isSome_iff_exists.mp hb.ethernet
  obtain ⟨after, hsettings, -, hafter⟩ := hb.split
  obtain ⟨calls', a, hcan, hadded⟩ := can_accept ds b d (b.pair ds src).inEp (b.pair ds src).outEp calls₂
  refine ⟨calls', a, ?_, hadded⟩
  rw [hsettings]
  refine hleaves _ _ ?_ (can_add hd hafter hpick hb.both hcan)
  intro b' hb'
  rcases List.mem_cons.mp hb' with rfl | hmem
  · rfl
  · exact hafter b' hmem

/-- What can be selected while interface `j` is searched can be the last thing selected. -/
theorem can_select {j m a : UInt8} (h : SelectedAt ds j m a) (calls : List Call) :
    ∃ r, Can (searching ds j (settings j ds)) calls r ∧ active r.2 m = a := by
  cases h with
  | @listed before b p hb hj hm hpos hp =>
    subst hj
    obtain ⟨d, hd⟩ := Option.isSome_iff_exists.mp hb.ethernet
    obtain ⟨after, hsettings, hbefore, hafter⟩ := hb.split
    -- the interface is selected where it is listed, and nothing after it
    obtain ⟨ns, ns', hsubs⟩ := List.append_of_mem hm
    have hchosen : Chosen ds b.subs (if TakesZero ds ns' then some 0 else some m) m p.1.alternate :=
      ⟨hpos, ⟨p, hp, rfl⟩, ns, ns', hsubs, endsFrom_idle ns' (some m)⟩
    obtain ⟨calls₁, hleaves, -⟩ := can_pass hbefore hb.passed calls
    obtain ⟨calls₂, hpick, hset⟩ := can_choose hchosen calls₁
    obtain ⟨r, hcan, hsame⟩ := can_settle_idle hd hafter hpick (can_search_idle hafter calls₂)
    refine ⟨r, ?_, (hsame m).trans hset⟩
    rw [hsettings]
    refine hleaves _ _ ?_ hcan
    intro b' hb'
    rcases List.mem_cons.mp hb' with rfl | hmem
    · rfl
    · exact hafter b' hmem
  | @control before b src hb hj hm halt =>
    subst hj hm
    obtain ⟨after, -, hbefore, -⟩ := hb.split
    obtain ⟨calls₁, hleaves, -⟩ := can_pass hbefore hb.passed calls
    obtain ⟨calls₂, hpick, -⟩ := can_pick hb.ends.fromNone calls₁
    obtain ⟨calls', a, hcan, -, -, hset, -⟩ := can_netif hb hleaves hpick
    exact ⟨_, hcan, hset halt⟩

/-! ## All interfaces -/

theorem pickAll_extends (env : Env) (ds : List Desc) (ns : List UInt8) (ret : UInt8 × UInt8) (calls : List Call) :
    calls <+: (pickAll env ds ns ret calls).2 := by
  induction ns generalizing ret calls with
  | nil => exact List.prefix_rfl
  | cons n ns ih =>
    refine List.IsPrefix.trans ?_ (ih ..)
    unfold pickSetting
    split
    · exact List.prefix_rfl
    · split
      · exact List.prefix_append ..
      · exact List.prefix_rfl

theorem searchSettings_extends (env : Env) (config n : UInt8) (bs : List Block) (calls : List Call) :
    calls <+: (searchSettings env ds config n bs calls).2 := by
  induction bs generalizing calls with
  | nil => exact List.prefix_rfl
  | cons b bs ih =>
    rw [searchSettings]
    split
    · exact ih calls
    · simp only
      have hpick := pickAll_extends env ds b.subs (0, 0) calls
      split
      · exact hpick.trans ((List.prefix_append ..).trans (addBlock_extends ..))
      · exact hpick.trans (ih _)

theorem bindNumbers_extends (env : Env) (config : UInt8) (ns : List UInt8) (found : Bool) (calls : List Call) :
    calls <+: (bindNumbers env ds config ns found calls).2 := by
  induction ns generalizing found calls with
  | nil => exact List.prefix_rfl
  | cons n ns ih => exact (searchSettings_extends env config n (settings n ds) calls).trans (ih ..)

theorem can_bind_cons {n : UInt8} {ns : List UInt8} {found : Bool} {calls : List Call} {r r' : Bool × List Call}
    (h : Can (searching ds n (settings n ds)) calls r) (h' : Can (binding ds ns (found || r.1)) r.2 r') :
    Can (binding ds (n :: ns) found) calls r' :=
  h.andThen (local_searching fun _ => settings_number) (fun added => local_binding ns (found || added)) h'

theorem bindNumbers_append (env : Env) (config : UInt8) (ns ns' : List UInt8) (found : Bool) (calls : List Call) :
    bindNumbers env ds config (ns ++ ns') found calls =
      bindNumbers env ds config ns' (bindNumbers env ds config ns found calls).1
        (bindNumbers env ds config ns found calls).2 := by
  induction ns generalizing found calls with
  | nil => rfl
  | cons n ns ih => exact ih ..

theorem can_bind_append {ns ns' : List UInt8} {found : Bool} {calls : List Call} {r r' : Bool × List Call}
    (h : Can (binding ds ns found) calls r) (h' : Can (binding ds ns' r.1) r.2 r') :
    Can (binding ds (ns ++ ns') found) calls r' := by
  have happend : binding ds (ns ++ ns') found = andThen (binding ds ns found) fun found => binding ds ns' found := by
    funext S calls
    exact bindNumbers_append ..
  rw [happend]
  exact h.andThen (local_binding ns found) (local_binding ns') h'

theorem can_bind_idle (ds : List Desc) (ns : List UInt8) (found : Bool) (calls : List Call) :
    ∃ r, Can (binding ds ns found) calls r ∧ ∀ m, active r.2 m = active calls m := by
  induction ns generalizing found calls with
  | nil => exact ⟨(found, calls), ⟨refuse, rfl⟩, fun m => rfl⟩
  | cons n ns ih =>
    obtain ⟨r₁, hcan₁, hsame₁⟩ := can_search_idle (fun b (hb : b ∈ settings n ds) => settings_number hb) calls
    obtain ⟨r₂, hcan₂, hsame₂⟩ := ih (found || r₁.1) r₁.2
    exact ⟨r₂, can_bind_cons hcan₁ hcan₂, fun m => (hsame₂ m).trans (hsame₁ m)⟩

theorem can_bind_select {ns : List UInt8} {j : UInt8} (hj : j ∈ ns) {m a : UInt8} (h : SelectedAt ds j m a) (found : Bool)
    (calls : List Call) : ∃ r, Can (binding ds ns found) calls r ∧ active r.2 m = a := by
  obtain ⟨ns₁, ns₂, rfl⟩ := List.append_of_mem hj
  obtain ⟨r₁, hcan₁, -⟩ := can_bind_idle ds ns₁ found calls
  obtain ⟨r₂, hcan₂, hset⟩ := can_select h r₁.2
  obtain ⟨r₃, hcan₃, hsame⟩ := can_bind_idle ds ns₂ (r₁.1 || r₂.1) r₂.2
  exact ⟨r₃, can_bind_append hcan₁ (can_bind_cons hcan₂ hcan₃), (hsame m).trans hset⟩

theorem numbersFrom_split {n k : UInt8} (h : n < k) : numbersFrom 0 k = numbersFrom 0 n ++ n :: numbersFrom (n + 1) k := by
  have hlt := UInt8.lt_iff_toNat_lt.mp h
  have hrange : List.range' 0 k.toNat = List.range' 0 n.toNat ++ List.range' n.toNat (k.toNat - n.toNat) := by
    have happend := List.range'_append_1 (s := 0) (m := n.toNat) (n := k.toNat - n.toNat)
    rw [Nat.zero_add, Nat.add_sub_cancel' (Nat.le_of_lt hlt)] at happend
    exact happend.symm
  rw [← numbersFrom_cons h]
  exact (congrArg (List.map Nat.toUInt8) hrange).trans List.map_append

/-! ## The end of a run -/

/-- The search can come to `b` and have the endpoints of `src` from its Union, with the
    calls `calls'` made by then. -/
def ComesTo (ds : List Desc) (before : List Block) (b : Block) (src : Option UInt8) (calls calls' : List Call) : Prop :=
  ∃ r calls₁, Can (binding ds (numbersFrom 0 b.number) false) calls r ∧ Leaves ds b.number before r.2 calls₁ ∧
    Can (picking ds b.subs (taken ds none)) calls₁ (taken ds src, calls')

section End

variable {before : List Block} {b : Block} {src : Option UInt8} (hb : CanBind ds before b src) {calls : List Call}

include hb

theorem comes_to (calls : List Call) : ∃ calls', ComesTo ds before b src calls calls' := by
  obtain ⟨after, -, hbefore, -⟩ := hb.split
  obtain ⟨r, hcan, -⟩ := can_bind_idle ds (numbersFrom 0 b.number) false calls
  obtain ⟨calls₁, hleaves, -⟩ := can_pass hbefore hb.passed r.2
  obtain ⟨calls₂, hpick, -⟩ := can_pick hb.ends.fromNone calls₁
  exact ⟨calls₂, r, calls₁, hcan, hleaves, hpick⟩

/-- Where an interface can be before the netif's own search, with nothing selected yet at
    the start. -/
theorem comes_before {m a : UInt8} (h : Arrived ds b.number before m a) (hstart : active calls m = 0) :
    ∃ r calls', Can (binding ds (numbersFrom 0 b.number) false) calls r ∧ Leaves ds b.number before r.2 calls' ∧
      active calls' m = a := by
  obtain ⟨after, -, hbefore, -⟩ := hb.split
  cases h with
  | initial =>
    obtain ⟨r, hcan, hsame⟩ := can_bind_idle ds (numbersFrom 0 b.number) false calls
    obtain ⟨calls', hleaves, hsame'⟩ := can_pass hbefore hb.passed r.2
    exact ⟨r, calls', hcan, hleaves, by rw [hsame' m, hsame m, hstart]⟩
  | @earlier j _ hj hsel =>
    have hmem : j ∈ numbersFrom 0 b.number := mem_numbersFrom.mpr ⟨UInt8.zero_le, hj⟩
    obtain ⟨r, hcan, hset⟩ := can_bind_select hmem hsel false calls
    obtain ⟨calls', hleaves, hsame⟩ := can_pass hbefore hb.passed r.2
    exact ⟨r, calls', hcan, hleaves, by rw [hsame m, hset]⟩
  | passed hmem he hnot hsel =>
    obtain ⟨r, hcan, -⟩ := can_bind_idle ds (numbersFrom 0 b.number) false calls
    obtain ⟨calls', hleaves, hset⟩ := can_arrive hbefore hb.passed hmem he hnot hsel r.2
    exact ⟨r, calls', hcan, hleaves, hset⟩

theorem comes_at {m a : UInt8} (h : AtNetif ds before b src m a) (hstart : active calls m = 0) :
    ∃ calls', ComesTo ds before b src calls calls' ∧
      if m = b.number ∧ b.alternate ≠ 0 then a = b.alternate else active calls' m = a := by
  cases h with
  | control hm halt =>
    obtain ⟨calls', hcomes⟩ := comes_to hb calls
    exact ⟨calls', hcomes, by rw [if_pos ⟨hm, halt⟩]⟩
  | listed hm hsel =>
    obtain ⟨after, -, hbefore, -⟩ := hb.split
    obtain ⟨r, hcan, -⟩ := can_bind_idle ds (numbersFrom 0 b.number) false calls
    obtain ⟨calls₁, hleaves, -⟩ := can_pass hbefore hb.passed r.2
    obtain ⟨calls₂, hpick, hset⟩ := can_choose hsel calls₁
    exact ⟨calls₂, ⟨r, calls₁, hcan, hleaves, hpick⟩, by rw [if_neg hm]; exact hset⟩
  | kept hm ha =>
    obtain ⟨hown, hsrc⟩ := not_or.mp hm
    obtain ⟨r, calls₁, hcan, hleaves, hset₁⟩ := comes_before hb ha hstart
    obtain ⟨calls₂, hpick, hset₂⟩ := can_pick hb.ends.fromNone calls₁
    refine ⟨calls₂, ⟨r, calls₁, hcan, hleaves, hpick⟩, ?_⟩
    rw [if_neg hown, ← hset₁]
    exact (hset₂ m).resolve_right fun h => hsrc h.1

/-- The netif is added, and then the interfaces above `b` are searched. -/
theorem ComesTo.bind {calls' : List Call} (h : ComesTo ds before b src calls calls') :
    ∃ calls₃ a, a ∈ netifs calls₃ ∧ (a.inAddr = (b.pair ds src).inEp ∧ a.outAddr = (b.pair ds src).outEp) ∧
      (b.alternate ≠ 0 → active calls₃ b.number = b.alternate) ∧
      (∀ m, ¬ (m = b.number ∧ b.alternate ≠ 0) → active calls₃ m = active calls' m) ∧
      ∃ found, ∀ r, Can (binding ds (numbersFrom (b.number + 1) (count ds)) found) calls₃ r →
        Can (binding ds (numbersFrom 0 (count ds)) false) calls r := by
  obtain ⟨r, calls₁, hcan, hleaves, hpick⟩ := h
  obtain ⟨calls₃, a, hnetif, hmem, haddr, hown, hothers⟩ := can_netif hb hleaves hpick
  refine ⟨calls₃, a, hmem, haddr, hown, hothers, r.1 || true, fun r' hrest => ?_⟩
  rw [numbersFrom_split hb.number]
  exact can_bind_append hcan (can_bind_cons hnetif hrest)

/-- Every netif that can be bound is added in some run that leaves interface `m` in any one
    setting it may be in. -/
theorem can_end {m a : UInt8} (h : MayBeIn ds before b src m a) (hstart : active calls m = 0) :
    ∃ r added, Can (binding ds (numbersFrom 0 (count ds)) false) calls r ∧ added ∈ netifs r.2 ∧
      (added.inAddr = (b.pair ds src).inEp ∧ added.outAddr = (b.pair ds src).outEp) ∧ active r.2 m = a := by
  have hstays : ∀ {calls₃ : List Call} {added : Added} {ns : List UInt8} {found : Bool} {r : Bool × List Call},
      added ∈ netifs calls₃ → Can (binding ds ns found) calls₃ r → added ∈ netifs r.2 := by
    intro calls₃ added ns found r hmem hcan
    obtain ⟨S, rfl⟩ := hcan
    obtain ⟨cs, hcs⟩ := bindNumbers_extends (scriptedOf ds S) 1 ns found calls₃
    show added ∈ netifs (bindNumbers (scriptedOf ds S) ds 1 ns found calls₃).2
    rw [← hcs, netifs_append]
    exact List.mem_append_left _ hmem
  rcases h with hat | ⟨j, hj, hsel⟩
  · obtain ⟨calls', hcomes, hset⟩ := comes_at hb hat hstart
    obtain ⟨calls₃, added, hmem, haddr, hown, hothers, found, hrest⟩ := hcomes.bind hb
    obtain ⟨r, hcan, hsame⟩ := can_bind_idle ds (numbersFrom (b.number + 1) (count ds)) found calls₃
    refine ⟨r, added, hrest r hcan, hstays hmem hcan, haddr, ?_⟩
    rw [hsame m]
    split at hset
    · rename_i hm
      rw [hm.1, hset]
      exact hown hm.2
    · rename_i hm
      rw [hothers m hm]
      exact hset
  · obtain ⟨calls', hcomes⟩ := comes_to hb calls
    obtain ⟨calls₃, added, hmem, haddr, -, -, found, hrest⟩ := hcomes.bind hb
    have hcount : j < count ds := by
      cases hsel with
      | listed hr hnum => exact hnum ▸ hr.number
      | control hr hnum => exact hnum ▸ hr.number
    have habove : j ∈ numbersFrom (b.number + 1) (count ds) := by
      refine mem_numbersFrom.mpr ⟨?_, hcount⟩
      have hsucc := toNat_succ hj
      rw [UInt8.le_iff_toNat_le, hsucc]
      exact UInt8.lt_iff_toNat_lt.mp hj
    obtain ⟨r, hcan, hset⟩ := can_bind_select habove hsel found calls₃
    exact ⟨r, added, hrest r hcan, hstays hmem hcan, haddr, hset⟩

end End

/-! ## Live netifs -/

/-- No bulk IN endpoint address is listed in two interfaces. -/
def Separate (ds : List Desc) : Prop :=
  ∀ s ∈ blocks ds, ∀ t ∈ blocks ds, ∀ addr, s.Lists Desc.isBulkIn addr → t.Lists Desc.isBulkIn addr →
    s.number = t.number

/-- When all netifs are live whatever the calls answer, so is one that can be bound, in any
    setting an interface may be in. -/
theorem live_at (hfits : total ds ≤ MAX_CONFIG_LENGTH)
    (hall : ∀ env fuel config w, Attached env w.calls config ds → 256 < fuel → AllLive env fuel config ds w)
    {before : List Block} {b : Block} {src : Option UInt8} (hb : CanBind ds before b src) {m a : UInt8}
    (h : MayBeIn ds before b src m a) :
    ∃ s ∈ blocks ds, (s.Lists Desc.isBulkIn (b.pair ds src).inEp ∧ s.Lists Desc.isBulkOut (b.pair ds src).outEp) ∧
      (s.number = m → s.alternate = a) := by
  have hheader : 5 ≤ total ds := by
    refine Nat.lt_of_not_le fun hle => ?_
    have hzero : count ds = 0 := by
      rw [count, List.getD_eq_getElem?_getD, List.getElem?_eq_none hle]
      rfl
    have hlt := hb.number
    rw [hzero] at hlt
    exact absurd hlt (UInt8.not_lt.mpr UInt8.zero_le)
  have hstart : active [.setConfiguration 1 .success] m = 0 := rfl
  obtain ⟨r, added, ⟨S, hrun⟩, hmem, ⟨hin, hout⟩, hset⟩ := can_end hb h hstart
  have hcalls : (processConfig (scriptedOf ds S) ds 1 []).2 = r.2 := by
    rw [processConfig, if_neg (Nat.not_lt.mpr hfits)]
    exact congrArg Prod.snd hrun
  have hdev : Attached (scriptedOf ds S) World.start.calls 1 ds :=
    ⟨rfl, hheader, ofBytes (ds.flatMap Desc.bytes), rfl, begins_ofBytes _⟩
  obtain ⟨found, w', cs, hw, hcs, hlive⟩ := hall (scriptedOf ds S) 257 1 World.start hdev (by decide)
  obtain ⟨found', w'', hw', hlist⟩ := wp_total (processConfigDescriptor_list (by decide : 256 < 257) hdev)
  rw [hw] at hw'
  cases hw'
  have hlog : w'.calls = r.2 := (congrArg Prod.snd hlist).trans hcalls
  rw [← show w'.calls = cs from hcs, hlog] at hlive
  obtain ⟨s, hs, hsin, hsout, hactive⟩ := hlive added hmem
  refine ⟨s, hs, ⟨hin ▸ hsin, hout ▸ hsout⟩, fun hm => ?_⟩
  rw [← hactive, hm, hset]

/-- Whatever the calls answer, all netifs are live when the configuration is settled; and,
    where no endpoint address is listed in two interfaces, only then. -/
theorem live_iff_settled (ds : List Desc) :
    (Settled ds → ∀ env fuel config w, Attached env w.calls config ds → 256 < fuel → AllLive env fuel config ds w) ∧
      (Separate ds →
        (∀ env fuel config w, Attached env w.calls config ds → 256 < fuel → AllLive env fuel config ds w) →
        Settled ds) := by
  refine ⟨fun hs env fuel config w hdev hfuel => allLive_of_settled hs hdev hfuel, ?_⟩
  intro hsep hall hfits before b src hb
  -- a run shows which interface lists the endpoints, and it is that one in every run
  have hsome : ∃ a, MayBeIn ds before b src b.number a := by
    by_cases halt : b.alternate = 0
    · by_cases hsrc : src = some b.number ∧ 0 < b.number
      · obtain ⟨hf, before', after', hsubs, hno⟩ : Ends ds b.subs (some b.number) := hsrc.1 ▸ hb.ends
        obtain ⟨p, hp⟩ := Option.isSome_iff_exists.mp hf
        refine ⟨p.1.alternate, .inl (.listed (fun h => h.2 halt) ?_)⟩
        exact ⟨hsrc.2, ⟨p, hp, rfl⟩, before', after', hsubs, .inl ⟨hsrc.1, hno⟩⟩
      · exact ⟨0, .inl (.kept (fun h => h.elim (fun h => h.2 halt) hsrc) .initial)⟩
    · exact ⟨b.alternate, .inl (.control rfl halt)⟩
  obtain ⟨a₀, ha₀⟩ := hsome
  obtain ⟨t, ht, ⟨htin, -⟩, -⟩ := live_at hfits hall hb ha₀
  refine ⟨t.number, fun a ha => ?_⟩
  obtain ⟨s, hs, ⟨hsin, hsout⟩, halt⟩ := live_at hfits hall hb ha
  have hnumber := hsep s hs t ht _ hsin htin
  exact ⟨s, hs, ⟨hnumber, halt hnumber⟩, hsin, hsout⟩

/-- The data interface is number 0, with its endpoints in alternate setting 1, and the control
    interface is number 1. -/
def dataFirst : List Desc :=
  [⟨[9, 2, 68, 0, 2, 1, 0, 0x80, 50], rfl, by decide⟩,
    ⟨[9, 4, 0, 0, 0, 10, 0, 0, 0], rfl, by decide⟩,
    ⟨[9, 4, 0, 1, 2, 10, 0, 0, 0], rfl, by decide⟩, bulkInDesc, bulkOutDesc,
    ⟨[9, 4, 1, 0, 0, 2, 6, 0, 0], rfl, by decide⟩, etherDesc,
    ⟨[5, 0x24, 6, 1, 0], rfl, by decide⟩]

/-- A netif is added with the endpoints of alternate setting 1 of interface 0, and the device
    is left in alternate setting 0. -/
theorem a_setting_of_interface_zero_is_not_selected :
    Attached (deviceOf [dataFirst.flatMap Desc.bytes]) World.start.calls 1 dataFirst ∧
      ¬ AllLive (deviceOf [dataFirst.flatMap Desc.bytes]) 257 1 dataFirst World.start := by
  refine ⟨attached_deviceOf (by decide) [], ?_⟩
  intro h
  obtain ⟨found, w', cs, hrun, hcalls, hlive⟩ := h
  obtain rfl : w'.calls = cs := hcalls
  have hadded :
      let calls := (processConfigDescriptor (deviceOf [dataFirst.flatMap Desc.bytes]) 257 1 World.start).2.calls
      ∃ a ∈ netifs calls, ¬ Live dataFirst calls a := by
    decide +kernel
  rw [hrun] at hadded
  obtain ⟨a, ha, hdead⟩ := hadded
  exact hdead (hlive a ha)

theorem Reached.mem {before : List Block} {b : Block} (h : Reached ds before b) : b ∈ blocks ds := by
  have hb : b ∈ settings b.number ds := h.setting.subset (by simp)
  exact (List.mem_filter.mp hb).1

/-- The usual layout: the only netif has the endpoints of the data interface, and nothing
    but its alternate setting 1 is selected. -/
theorem settled_ecmDevice : Settled ecmDevice := by
  intro _ before b src hb
  have hblocks : ∀ b ∈ blocks ecmDevice, b.isEthernet → (b.number = 0 ∧ b.subs = [1] ∧ b.alternate = 0) ∧
      ¬ (b.pair ecmDevice none).Both ∧ HasBoth ecmDevice (b.pair ecmDevice (some 1)) 1 1 := by
    decide +kernel
  have hfound : ∀ p ∈ found? ecmDevice 1, p.1.alternate = 1 := by decide +kernel
  obtain ⟨⟨hnumber, hsubs, halt⟩, hnone, hboth⟩ := hblocks b hb.mem hb.ethernet
  have hsrc : src = some 1 := by
    cases src with
    | none => exact absurd hb.both hnone
    | some n =>
      obtain ⟨-, before', after', hsplit, -⟩ := hb.ends
      have hn : n ∈ b.subs := by
        rw [hsplit]
        simp
      rw [hsubs] at hn
      rw [List.mem_singleton.mp hn]
  subst hsrc
  refine ⟨1, fun a ha => ?_⟩
  have ha1 : a = 1 := by
    rcases ha with hat | ⟨j, hj, hsel⟩
    · cases hat with
      | control hm halt' => exact absurd halt halt'
      | listed hm hsel =>
        obtain ⟨-, ⟨p, hp, rfl⟩, -⟩ := hsel
        exact hfound p hp
      | kept hm _ => exact absurd (.inr ⟨rfl, by decide⟩) hm
    · have hj0 : j = 0 := by
        cases hsel with
        | listed hr hnum _ _ _ => exact hnum ▸ (hblocks _ hr.mem hr.ethernet).1.1
        | control hr hnum _ _ => exact hnum ▸ (hblocks _ hr.mem hr.ethernet).1.1
      rw [hnumber, hj0] at hj
      exact absurd hj (UInt8.lt_irrefl 0)
  rw [ha1]
  exact hboth

theorem an_ecm_device_is_live :
    Settled ecmDevice ∧ AllLive (deviceOf [ecmDevice.flatMap Desc.bytes]) 257 1 ecmDevice World.start :=
  ⟨settled_ecmDevice, (live_iff_settled ecmDevice).1 settled_ecmDevice _ 257 1 World.start
    (attached_deviceOf (by decide) []) (by decide)⟩

end Nanotube.Device.Usb
