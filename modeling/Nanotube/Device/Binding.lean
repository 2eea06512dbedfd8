/-
  Nanotube.Device.Binding — `process_config_descriptor` over a list of settings.

  The abstract program reads blocks instead of bytes: it goes through the settings of
  each interface number, picks endpoints from the settings of the listed interfaces, and
  makes the calls. `bindInterfaces_list`: on a memory tiled by descriptors the code
  returns, and its result and its calls are those of the abstract program, whatever the
  calls answer.
-/

import Nanotube.Device.Layout

namespace Nanotube.Device.Usb

open Nanotube.Lib.Loops
open Nanotube.Lib.Tiling
open Nanotube.Device.Ecm (UsbError)

/-! ## The abstract program -/

variable (env : Env)

/-- The first setting after which both endpoints are set, with what is set then: the
    endpoint variables are not cleared between two settings. -/
def pick? : List Block → Eps → Option (Block × Eps)
  | [], _ => none
  | b :: bs, eps => if (b.endpoints eps).Both then some (b, b.endpoints eps) else pick? bs (b.endpoints eps)

/-- The endpoints of interface `n` replace `ret`, unless selecting the setting fails. -/
def pickSetting (n : UInt8) (ret : UInt8 × UInt8) (bs : List Block) (eps : Eps) (calls : List Call) :
    (UInt8 × UInt8) × List Call :=
  match pick? bs eps with
  | none => (ret, calls)
  | some (b, eps) =>
    if 0 < n then
      let e := env.setInterface calls b.number b.alternate
      (if e = .success then (eps.inEp, eps.outEp) else ret, calls ++ [.setInterface b.number b.alternate e])
    else ((eps.inEp, eps.outEp), calls)

/-- The endpoints of the listed interfaces: each one that has some replaces those before. -/
def pickAll (ds : List Desc) : List UInt8 → UInt8 × UInt8 → List Call → (UInt8 × UInt8) × List Call
  | [], ret, calls => (ret, calls)
  | n :: ns, ret, calls =>
    let r := pickSetting env n ret (settings n ds) Eps.none calls
    pickAll ds ns r.1 r.2

def mallocOf (calls : List Call) : Option Nat := if env.malloc calls then some (calls.countP isMalloc) else none

def selectOf (b : Block) (calls : List Call) : UsbError :=
  if b.alternate ≠ 0 then env.setInterface calls b.number b.alternate else .success

def selectCalls (b : Block) (calls : List Call) : List Call :=
  if b.alternate ≠ 0 then [.setInterface b.number b.alternate (selectOf env b calls)] else []

/-- The netif of block `b`, whose Ethernet descriptor is `d`. -/
def netifOf (config n : UInt8) (d : Desc) (inEp outEp : UInt8) (netif state : Nat) (calls : List Call) : Added :=
  ⟨config, n, netif, state, inEp, outEp, env.deviceEndpoint calls inEp, env.deviceEndpoint calls outEp, d.byte 3,
    (d.byte 8).toUInt16 + 256 * (d.byte 9).toUInt16⟩

def fillCalls (config n : UInt8) (d : Desc) (inEp outEp : UInt8) (netif state : Nat) (calls : List Call) : List Call :=
  (if env.deviceEndpoint calls inEp && env.deviceEndpoint calls outEp then [] else [.free netif, .free state]) ++
    [.netifAdd (netifOf env config n d inEp outEp netif state calls)]

def addBlock (config n : UInt8) (b : Block) (d : Desc) (inEp outEp : UInt8) (calls : List Call) : Bool × List Call :=
  let calls₁ := calls ++ selectCalls env b calls
  if selectOf env b calls ≠ .success then (false, calls₁)
  else
    let calls₂ := calls₁ ++ [.malloc (mallocOf env calls₁)]
    match mallocOf env calls₁ with
    | none => (false, calls₂)
    | some netif =>
      let calls₃ := calls₂ ++ [.malloc (mallocOf env calls₂)]
      match mallocOf env calls₂ with
      | none => (false, calls₃ ++ [.free netif])
      | some state => (true, calls₃ ++ fillCalls env config n d inEp outEp netif state calls₃)

def searchSettings (ds : List Desc) (config n : UInt8) : List Block → List Call → Bool × List Call
  | [], calls => (false, calls)
  | b :: bs, calls =>
    match b.ether? with
    | none => searchSettings ds config n bs calls
    | some d =>
      let r := pickAll env ds b.subs (0, 0) calls
      let eps := b.endpoints ⟨r.1.1, r.1.2, 0⟩
      if eps.Both then addBlock env config n b d eps.inEp eps.outEp r.2 else searchSettings ds config n bs r.2

def bindNumbers (ds : List Desc) (config : UInt8) : List UInt8 → Bool → List Call → Bool × List Call
  | [], found, calls => (found, calls)
  | n :: ns, found, calls =>
    let r := searchSettings env ds config n (settings n ds) calls
    bindNumbers ds config ns (found || r.1) r.2

/-- The interface numbers from `c` to below `count`. -/
def numbersFrom (c count : UInt8) : List UInt8 := (List.range' c.toNat (count.toNat - c.toNat)).map Nat.toUInt8

/-- `bNumInterfaces`, and `wTotalLength`. -/
def count (ds : List Desc) : UInt8 := (ds.flatMap Desc.bytes).getD 4 0

def total (ds : List Desc) : Nat := (ds.flatMap Desc.bytes).length

def processConfig (ds : List Desc) (config : UInt8) (calls : List Call) : Bool × List Call :=
  if MAX_CONFIG_LENGTH < total ds then (false, calls)
  else
    let e := env.setConfiguration calls config
    if e ≠ .success then (false, calls ++ [.setConfiguration config e])
    else bindNumbers env ds config (numbersFrom 0 (count ds)) false (calls ++ [.setConfiguration config e])

/-- The device hands out the descriptors `ds` for this configuration. -/
structure Attached (calls : List Call) (config : UInt8) (ds : List Desc) : Prop where
  length : env.totalLength calls (config - 1) = total ds
  header : 5 ≤ total ds
  memory : ∃ m, env.configDescriptor calls (config - 1) = some m ∧ Begins m 0 (ds.flatMap Desc.bytes)

/-! ## The settings of an interface -/

variable {env} {m : Mem} {fuel configEnd : Nat} {config : UInt8} {w : World}

section Settings

variable {α β : Type} {n : UInt8} {pos : α → Nat} {miss : α → β} {visit : α → Nat → Prog World (Turn α β)}
  {I : List Block → α → List Call → Prop} {Q : β → List Call → Prop}

/-- A loop over the settings of an interface is a loop over the list of its blocks. -/
theorem eachSetting_list (hfuel : configEnd < fuel) (hmiss : ∀ a calls, I [] a calls → Q (miss a) calls)
    (hvisit : ∀ b bs a p rest w, I (b :: bs) a w.calls → BlockAt m configEnd b p rest → b.number = n →
      wp (visit a p) (turn (fun a' w' => pos a' = p + b.head.bytes.length ∧ I bs a' w'.calls) fun r w' => Q r w'.calls)
        (fun _ => False) w)
    {a : α} {ds : List Desc} (ht : Tiled m configEnd (pos a) ds) (hI : I (settings n ds) a w.calls) :
    wp (loop (eachSetting m fuel configEnd n pos miss visit) fuel a) (fun r w' => Q r w'.calls) (fun _ => False) w := by
  refine wp_loop_variant (I := fun a w => ∃ ds, Tiled m configEnd (pos a) ds ∧ I (settings n ds) a w.calls)
    (fun a => configEnd - pos a) ?_ (by omega) ⟨ds, ht, hI⟩
  intro a w h
  obtain ⟨ds, ht, hI⟩ := h
  simp only [eachSetting, wp_bind]
  refine wp_mono (getInterfaceDescriptor_list hfuel ht n) ?_ (fun _ hf => hf)
  intro r w₁ h₁
  obtain ⟨hfound, hcalls⟩ := h₁
  rw [← hcalls] at hI
  cases hs : settings n ds with
  | nil =>
    rw [hs] at hfound hI
    obtain rfl : r = none := hfound
    exact hmiss a w₁.calls hI
  | cons b bs =>
    rw [hs] at hfound hI
    obtain ⟨q, rest, rfl, hle, hb, hn, hrest⟩ := hfound
    refine wp_mono (hvisit b bs a q rest w₁ hI hb hn) ?_ (fun _ hf => hf)
    intro t w₂ ht₂
    cases t with
    | leave r => exact ht₂
    | again a' =>
      obtain ⟨hpos, hI'⟩ := ht₂
      have hlt := tiled_inside hb.tiled
      have h2 := b.head.two_le
      refine ⟨⟨rest, ?_, by rw [hrest]; exact hI'⟩, by omega⟩
      rw [hpos]
      exact hb.tiled.2

end Settings

theorem BlockAt.length {b : Block} {p : Nat} {rest : List Desc} (hb : BlockAt m configEnd b p rest) :
    (m p).toNat = b.head.bytes.length := by
  have hat : DescAt m p b.head := hb.tiled.1
  exact hat.length

theorem getEpsAnySetting_list (hfuel : configEnd < fuel) {ds : List Desc} (ht : Tiled m configEnd 0 ds) (n : UInt8)
    (ret : UInt8 × UInt8) :
    wp (getEpsAnySetting env m fuel configEnd n ret)
      (fun r w' => (r, w'.calls) = pickSetting env n ret (settings n ds) Eps.none w.calls) (fun _ => False) w := by
  let result := pickSetting env n ret (settings n ds) Eps.none w.calls
  refine eachSetting_list (I := fun bs c calls => pickSetting env n ret bs c.2 calls = result)
    (Q := fun r calls => (r, calls) = result) hfuel ?_ ?_ ht rfl
  · intro c calls h
    exact h
  · intro b bs c p rest w h hb hn
    have hnum : m (p + 2) = b.number := hb.byte (by omega)
    have halt : m (p + 3) = b.alternate := hb.byte (by omega)
    simp only [trySetting, wp_bind]
    refine wp_mono (bAlternateSetting_spec p) ?_ (fun _ hf => hf)
    intro _ w₁ h₁
    refine wp_mono (getEndpoints_list hfuel hb c.2) ?_ (fun _ hf => hf)
    intro eps w₂ h₂
    obtain ⟨rfl, hc₂⟩ := h₂
    rw [← h₁.2.calls, ← hc₂] at h
    unfold pickSetting at h
    rw [pick?] at h
    by_cases hboth : (b.endpoints c.2).Both
    · simp only [hboth, if_true] at h
      by_cases hpos : 0 < n
      · rw [if_pos hpos] at h
        simp only [hboth, hpos, if_true, wp_bind]
        refine wp_mono (usbSetInterface_spec p) ?_ (fun _ hf => hf)
        intro e w₃ h₃
        obtain ⟨rfl, -, hc₃⟩ := h₃
        rw [hnum, halt] at hc₃ ⊢
        show (_, w₃.calls) = result
        rw [hc₃]
        exact h
      · rw [if_neg hpos] at h
        simp only [hboth, hpos, if_true, if_false, wp_pure]
        exact h
    · rw [if_neg hboth] at h
      simp only [hboth, if_false, wp_bind]
      refine wp_nextDescriptor fun w₃ _ hc₃ => ?_
      refine ⟨by rw [hb.length], ?_⟩
      show pickSetting env n ret bs (b.endpoints c.2) w₃.calls = result
      rw [hc₃]
      exact h

/-! ## The listed interfaces -/

theorem subordinateEps_list (hfuel : configEnd < fuel) (hfuel' : 256 < fuel) {ds : List Desc}
    (ht : Tiled m configEnd 0 ds) {subs : Subs} {l : List UInt8} (hl : Lists m subs l) :
    wp (subordinateEps env m fuel configEnd subs) (fun r w' => (r, w'.calls) = pickAll env ds l (0, 0) w.calls)
      (fun _ => False) w := by
  let result := pickAll env ds l (0, 0) w.calls
  refine wp_loop_variant (I := fun c w => c.1.toNat ≤ l.length ∧ pickAll env ds (l.drop c.1.toNat) c.2 w.calls = result)
    (fun c => 256 - c.1.toNat) ?_ (by omega) ⟨Nat.zero_le _, rfl⟩
  intro c w h
  obtain ⟨hle, hI⟩ := h
  simp only [subTurn, wp_ite]
  split
  · rename_i hlt
    have hc : c.1.toNat < l.length := by
      have := UInt8.lt_iff_toNat_lt.mp hlt
      rw [hl.1] at this
      exact this
    obtain ⟨ints, hints, hbyte⟩ := hl.2 c.1.toNat hc
    have hsucc := toNat_succ hlt
    have hdrop : l.drop c.1.toNat = l.getD c.1.toNat 0 :: l.drop (c.1.toNat + 1) := by
      rw [List.drop_eq_getElem_cons hc]
      simp [List.getD_eq_getElem?_getD, hc]
    rw [hints]
    simp only [wp_bind]
    refine wp_mono (subordinate_spec _) ?_ (fun _ hf => hf)
    intro sub w₁ h₁
    obtain ⟨rfl, hq⟩ := h₁
    refine wp_mono (getEpsAnySetting_list hfuel ht _ _) ?_ (fun _ hf => hf)
    intro r w₂ h₂
    rw [hdrop, pickAll, ← hbyte, ← hq.calls, ← h₂] at hI
    have hlt' := c.1.toNat_lt
    refine ⟨⟨?_, ?_⟩, ?_⟩
    · show (c.1 + 1).toNat ≤ l.length
      omega
    · show pickAll env ds (l.drop (c.1 + 1).toNat) r w₂.calls = result
      rw [hsucc]
      exact hI
    · show 256 - (c.1 + 1).toNat < 256 - c.1.toNat
      omega
  · rename_i hlt
    have hc : l.length ≤ c.1.toNat := by
      have := Nat.le_of_not_lt fun hh => hlt (UInt8.lt_iff_toNat_lt.mpr hh)
      rw [hl.1] at this
      exact this
    rw [List.drop_eq_nil_of_le hc] at hI
    exact hI

/-! ## The netif -/

theorem malloc_list :
    wp (malloc env) (fun r w' => r = mallocOf env w.calls ∧ w'.calls = w.calls ++ [.malloc (mallocOf env w.calls)])
      (fun _ => False) w := by
  simp [malloc, call, mallocOf]

theorem selectSetting_list {b : Block} {p : Nat} {rest : List Desc} (hb : BlockAt m configEnd b p rest) :
    wp (selectSetting env m p)
      (fun e w' => e = selectOf env b w.calls ∧ w'.calls = w.calls ++ selectCalls env b w.calls)
      (fun _ => False) w := by
  have hnum : m (p + 2) = b.number := hb.byte (by omega)
  have halt : m (p + 3) = b.alternate := hb.byte (by omega)
  refine wp_mono (selectSetting_spec p) ?_ (fun _ hf => hf)
  intro e w' h
  obtain ⟨hset, hzero, -, hc⟩ := h
  unfold selects at hc
  rw [hnum, halt] at hset hc
  rw [halt] at hzero
  unfold selectCalls selectOf
  by_cases ha : b.alternate = 0
  · simpa [ha] using And.intro (hzero ha) hc
  · have he := hset ha
    rw [if_pos ha] at hc
    rw [if_pos ha, if_pos ha, ← he]
    exact ⟨rfl, hc⟩

theorem etherFields_list {d : Desc} {q : Nat} (hd : DescAt m q d)
    (he : d.isFunctional CDC_ETHERNET_NETWORKING_SUBTYPE) :
    wp (etherFields m q)
      (fun f w' => f = (d.byte 3, (d.byte 8).toUInt16 + 256 * (d.byte 9).toUInt16) ∧ w'.calls = w.calls)
        (fun _ => False) w := by
  have hlen := d.ethernet_length he
  have h3 : m (q + 3) = d.byte 3 := hd.byte (by omega)
  have h8 : m (q + 8) = d.byte 8 := hd.byte (by omega)
  have h9 : m (q + 9) = d.byte 9 := hd.byte (by omega)
  simp [etherFields, look, byte, h3, h8, h9]

theorem fillAndAdd_list {d : Desc} {q : Nat} (hd : DescAt m q d)
    (he : d.isFunctional CDC_ETHERNET_NETWORKING_SUBTYPE) (n inEp outEp : UInt8) (netif state : Nat) :
    wp (fillAndAdd env m config n q inEp outEp netif state)
      (fun _ w' => w'.calls = w.calls ++ fillCalls env config n d inEp outEp netif state w.calls)
        (fun _ => False) w := by
  simp only [fillAndAdd, usbGetDeviceEndpoint, wp_bind, wp_peek, freeUnless, call, wp_ite, wp_pure, wp_update, fillCalls]
  split
  · refine wp_mono (etherFields_list hd he) ?_ (fun _ hf => hf)
    intro f w' h
    obtain ⟨rfl, hc⟩ := h
    rw [hc]
    rfl
  · refine wp_mono (etherFields_list hd he) ?_ (fun _ hf => hf)
    intro f w' h
    obtain ⟨rfl, hc⟩ := h
    rw [hc]
    simp [netifOf]

theorem addNetif_list {b : Block} {p : Nat} {rest : List Desc} (hb : BlockAt m configEnd b p rest) {d : Desc} {q : Nat}
    (hd : DescAt m q d) (he : d.isFunctional CDC_ETHERNET_NETWORKING_SUBTYPE) (n inEp outEp : UInt8) :
    wp (addNetif env m config n p q inEp outEp)
      (fun added w' => (added, w'.calls) = addBlock env config n b d inEp outEp w.calls) (fun _ => False) w := by
  simp only [addNetif, wp_bind]
  refine wp_mono (selectSetting_list hb) ?_ (fun _ hf => hf)
  intro e w₁ h₁
  obtain ⟨rfl, hc₁⟩ := h₁
  simp only [wp_ite, addBlock]
  split
  · rw [← hc₁]
    rfl
  · rw [wp_bind]
    refine wp_mono malloc_list ?_ (fun _ hf => hf)
    intro netif? w₂ h₂
    obtain ⟨rfl, hc₂⟩ := h₂
    rw [hc₁] at hc₂ ⊢
    cases hm₁ : mallocOf env (w.calls ++ selectCalls env b w.calls) with
    | none =>
      rw [hm₁] at hc₂
      simp only [wp_pure]
      rw [hc₂]
    | some netif =>
      rw [hm₁] at hc₂
      simp only [wp_bind]
      refine wp_mono malloc_list ?_ (fun _ hf => hf)
      intro state? w₃ h₃
      obtain ⟨rfl, hc₃⟩ := h₃
      rw [hc₂] at hc₃ ⊢
      cases hm₂ : mallocOf env (w.calls ++ selectCalls env b w.calls ++ [.malloc (some netif)]) with
      | none =>
        rw [hm₂] at hc₃
        simp only [call, wp_bind, wp_update, wp_pure]
        rw [hc₃]
      | some state =>
        rw [hm₂] at hc₃
        simp only [wp_bind]
        refine wp_mono (fillAndAdd_list hd he n inEp outEp netif state) ?_ (fun _ hf => hf)
        intro _ w₄ h₄
        simp only [wp_pure]
        rw [h₄, hc₃]

theorem fillCalls_cases (env : Env) (config n : UInt8) (d : Desc) (inEp outEp : UInt8) (netif state : Nat)
    (calls : List Call) :
    ∃ cs, (∀ c ∈ cs, c.isHeap) ∧ fillCalls env config n d inEp outEp netif state calls =
      cs ++ [.netifAdd (netifOf env config n d inEp outEp netif state calls)] := by
  refine ⟨_, ?_, rfl⟩
  split
  · simp
  · simp [Call.isHeap]

/-- Besides selecting the setting there are only heap calls, and then the netif. -/
theorem addBlock_cases (env : Env) (config n : UInt8) (b : Block) (d : Desc) (inEp outEp : UInt8)
    (calls : List Call) :
    ∃ cs, (∀ c ∈ cs, c.isHeap) ∧
      (addBlock env config n b d inEp outEp calls = (false, calls ++ selectCalls env b calls ++ cs) ∨
        selectOf env b calls = .success ∧ ∃ netif state calls', addBlock env config n b d inEp outEp calls =
          (true, calls ++ selectCalls env b calls ++ cs ++
            [.netifAdd (netifOf env config n d inEp outEp netif state calls')])) := by
  unfold addBlock
  by_cases he : selectOf env b calls = .success
  · simp only [he, ne_eq, not_true_eq_false, if_false, true_and]
    cases mallocOf env (calls ++ selectCalls env b calls) with
    | none => exact ⟨[.malloc none], by simp [Call.isHeap], .inl rfl⟩
    | some netif =>
      simp only
      cases mallocOf env (calls ++ selectCalls env b calls ++ [.malloc (some netif)]) with
      | none => exact ⟨[.malloc (some netif), .malloc none, .free netif], by simp [Call.isHeap], .inl (by simp)⟩
      | some state =>
        let calls₃ := calls ++ selectCalls env b calls ++ [.malloc (some netif)] ++ [.malloc (some state)]
        obtain ⟨cs, hcs, hfill⟩ := fillCalls_cases env config n d inEp outEp netif state calls₃
        refine ⟨[.malloc (some netif), .malloc (some state)] ++ cs, ?_, .inr ⟨netif, state, calls₃, ?_⟩⟩
        · intro c hc
          rcases List.mem_append.mp hc with hc | hc
          · simp only [List.mem_cons, List.not_mem_nil, or_false] at hc
            rcases hc with rfl | rfl <;> rfl
          · exact hcs c hc
        · show (true, calls₃ ++ fillCalls env config n d inEp outEp netif state calls₃) = _
          rw [hfill]
          simp [calls₃]
  · refine ⟨[], by simp, .inl ?_⟩
    simp [he]

/-! ## The interfaces -/

theorem etherSetting_list (hfuel : configEnd < fuel) (hfuel' : 256 < fuel) {ds : List Desc}
    (ht : Tiled m configEnd 0 ds) {b : Block} {p : Nat} {rest : List Desc} (hb : BlockAt m configEnd b p rest)
    {d : Desc} {q : Nat} (hd : DescAt m q d) (he : b.ether? = some d) (n : UInt8) (bs : List Block) :
    wp (etherSetting env m fuel config configEnd n p q)
      (turn (fun next w' => next = p + b.head.bytes.length ∧
          searchSettings env ds config n bs w'.calls = searchSettings env ds config n (b :: bs) w.calls)
        fun added w' => (added, w'.calls) = searchSettings env ds config n (b :: bs) w.calls) (fun _ => False) w := by
  have hether : d.isFunctional CDC_ETHERNET_NETWORKING_SUBTYPE := List.find?_some he
  simp only [etherSetting, wp_bind]
  refine wp_mono (getSubordinateInts_list hfuel hb) ?_ (fun _ hf => hf)
  intro subs w₁ h₁
  obtain ⟨hl, hc₁⟩ := h₁
  refine wp_mono (subordinateEps_list hfuel hfuel' ht hl) ?_ (fun _ hf => hf)
  intro ret w₂ h₂
  rw [hc₁] at h₂
  refine wp_mono (getEndpoints_list hfuel hb _) ?_ (fun _ hf => hf)
  intro eps w₃ h₃
  obtain ⟨rfl, hc₃⟩ := h₃
  have hsearch : searchSettings env ds config n (b :: bs) w.calls =
      if (b.endpoints ⟨ret.1, ret.2, 0⟩).Both then
        addBlock env config n b d (b.endpoints ⟨ret.1, ret.2, 0⟩).inEp (b.endpoints ⟨ret.1, ret.2, 0⟩).outEp w₂.calls
      else searchSettings env ds config n bs w₂.calls := by
    simp only [searchSettings, he, ← h₂]
  rw [hsearch]
  by_cases hboth : (b.endpoints ⟨ret.1, ret.2, 0⟩).Both
  · simp only [hboth, not_true_eq_false, if_false, if_true, wp_bind]
    refine wp_mono (addNetif_list hb hd hether n _ _) ?_ (fun _ hf => hf)
    intro added w₄ h₄
    rw [hc₃] at h₄
    exact h₄
  · simp only [hboth, not_false_eq_true, if_true, if_false, wp_bind]
    refine wp_nextDescriptor fun w₄ _ hc₄ => ?_
    refine ⟨by rw [hb.length], ?_⟩
    rw [hc₄, hc₃]

theorem searchInterface_list (hfuel : configEnd < fuel) (hfuel' : 256 < fuel) {ds : List Desc}
    (ht : Tiled m configEnd 0 ds) (n : UInt8) :
    wp (searchInterface env m fuel config configEnd n)
      (fun added w' => (added, w'.calls) = searchSettings env ds config n (settings n ds) w.calls)
        (fun _ => False) w := by
  let result := searchSettings env ds config n (settings n ds) w.calls
  refine eachSetting_list (I := fun bs _ calls => searchSettings env ds config n bs calls = result)
    (Q := fun added calls => (added, calls) = result) hfuel ?_ ?_ ht rfl
  · intro c calls h
    exact h
  · intro b bs pos p rest w h hb hn
    simp only [examineSetting, wp_bind]
    refine wp_mono (printSetting_spec p) ?_ (fun _ hf => hf)
    intro _ w₁ h₁
    refine wp_mono (getEtherDesc_list hfuel hb) ?_ (fun _ hf => hf)
    intro r w₂ h₂
    obtain ⟨hr, hc₂⟩ := h₂
    rw [← h₁.calls, ← hc₂] at h
    rcases hr with ⟨hnone, rfl⟩ | ⟨d, q, hsome, hd, rfl⟩
    · simp only [searchSettings, hnone] at h
      simp only [wp_bind]
      refine wp_nextDescriptor fun w₃ _ hc₃ => ?_
      refine ⟨by rw [hb.length]; rfl, ?_⟩
      show searchSettings env ds config n bs w₃.calls = result
      rw [hc₃]
      exact h
    · refine wp_mono (etherSetting_list hfuel hfuel' ht hb hd hsome n bs) ?_ (fun _ hf => hf)
      intro t w₃ h₃
      cases t with
      | leave added => exact h₃.trans h
      | again next => exact ⟨h₃.1, h₃.2.trans h⟩

theorem numbersFrom_cons {c count : UInt8} (h : c < count) : numbersFrom c count = c :: numbersFrom (c + 1) count := by
  have hlt := UInt8.lt_iff_toNat_lt.mp h
  have hsucc := toNat_succ h
  unfold numbersFrom
  rw [hsucc]
  obtain ⟨k, hk⟩ : ∃ k, count.toNat - c.toNat = k + 1 := ⟨count.toNat - c.toNat - 1, by omega⟩
  rw [hk, List.range'_succ, List.map_cons, show count.toNat - (c.toNat + 1) = k by omega]
  congr 1
  exact UInt8.ofNat_toNat

theorem numbersFrom_nil {c count : UInt8} (h : ¬ c < count) : numbersFrom c count = [] := by
  have hle := Nat.le_of_not_lt fun hh => h (UInt8.lt_iff_toNat_lt.mpr hh)
  unfold numbersFrom
  rw [Nat.sub_eq_zero_of_le hle]
  rfl

/-- On a tiled memory the code returns, with the result and the calls of the abstract
    program. -/
theorem bindInterfaces_list (hfuel : configEnd < fuel) (hfuel' : 256 < fuel) {ds : List Desc}
    (ht : Tiled m configEnd 0 ds) :
    wp (bindInterfaces env m fuel config configEnd)
      (fun found w' => (found, w'.calls) = bindNumbers env ds config (numbersFrom 0 (m 4)) false w.calls)
      (fun _ => False) w := by
  let result := bindNumbers env ds config (numbersFrom 0 (m 4)) false w.calls
  refine wp_loop_variant (I := fun c w => bindNumbers env ds config (numbersFrom c.1 (m 4)) c.2 w.calls = result)
    (fun c => 256 - c.1.toNat) ?_ (by omega) rfl
  intro c w h
  simp only [intTurn, bNumInterfaces, look, byte, wp_bind, wp_update, wp_pure, wp_ite]
  split
  · rename_i hlt
    rw [numbersFrom_cons hlt, bindNumbers] at h
    refine wp_mono (searchInterface_list hfuel hfuel' ht c.1) ?_ (fun _ hf => hf)
    intro added w₁ h₁
    have hsucc := toNat_succ hlt
    have hc := c.1.toNat_lt
    refine ⟨?_, ?_⟩
    · rw [← h₁] at h
      exact h
    · show 256 - (c.1 + 1).toNat < 256 - c.1.toNat
      omega
  · rename_i hlt
    rw [numbersFrom_nil hlt] at h
    exact h

theorem processConfigDescriptor_list (hfuel : 256 < fuel) {ds : List Desc} (hdev : Attached env w.calls config ds) :
    wp (processConfigDescriptor env fuel config)
      (fun found w' => (found, w'.calls) = processConfig env ds config w.calls) (fun _ => False) w := by
  obtain ⟨hlen, hheader, m, hm, hbegins⟩ := hdev
  have hcount : m 4 = count ds := by
    unfold count
    rw [List.getD_eq_getElem?_getD, hbegins 4 hheader]
    rfl
  have htiled : Tiled m (total ds) 0 ds := by
    have := tiles_of_begins hbegins
    rwa [Nat.zero_add] at this
  simp only [processConfigDescriptor, wp_bind, wp_peek, wp_ite, hlen, processConfig, hm]
  split
  · rfl
  · rename_i hle
    have hle : total ds ≤ 256 := Nat.le_of_not_lt hle
    simp only [call, wp_update]
    split
    · rfl
    · rw [← hcount]
      exact bindInterfaces_list (by omega) hfuel htiled

/-- MAC string 3, segments of 1514 bytes. -/
def etherDesc : Desc := ⟨[13, 0x24, 0x0F, 3, 0, 0, 0, 0, 0xEA, 0x05, 0, 0, 0], rfl, by decide⟩

def bulkInDesc : Desc := ⟨[7, 5, 0x81, 2, 64, 0, 0], rfl, by decide⟩

def bulkOutDesc : Desc := ⟨[7, 5, 0x02, 2, 64, 0, 0], rfl, by decide⟩

/-- A control interface 0 with an Ethernet descriptor and a Union, and its data interface 1:
    nothing in alternate setting 0, the two endpoints in alternate setting 1. -/
def ecmDevice : List Desc :=
  [⟨[9, 2, 75, 0, 2, 1, 0, 0x80, 50], rfl, by decide⟩,
    ⟨[9, 4, 0, 0, 1, 2, 6, 0, 0], rfl, by decide⟩, etherDesc,
    ⟨[5, 0x24, 6, 0, 1], rfl, by decide⟩,
    ⟨[7, 5, 0x83, 3, 8, 0, 9], rfl, by decide⟩,
    ⟨[9, 4, 1, 0, 0, 10, 0, 0, 0], rfl, by decide⟩,
    ⟨[9, 4, 1, 1, 2, 10, 0, 0, 0], rfl, by decide⟩, bulkInDesc, bulkOutDesc]

theorem begins_ofBytes (bytes : List UInt8) : Begins (ofBytes bytes) 0 bytes := by
  intro k hk
  rw [Nat.zero_add, ofBytes, List.getD_eq_getElem?_getD, List.getElem?_eq_getElem hk]
  rfl

theorem attached_deviceOf {ds : List Desc} (h : 5 ≤ total ds) (calls : List Call) :
    Attached (deviceOf [ds.flatMap Desc.bytes]) calls 1 ds :=
  ⟨rfl, h, ofBytes (ds.flatMap Desc.bytes), rfl, begins_ofBytes _⟩

end Nanotube.Device.Usb
