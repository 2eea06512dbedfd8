/-
  Nanotube.Device.Walks — the four walks as functions of the memory: what each returns,
  and when it returns at all.

  A turn of a walk depends on the memory only, and a walk goes on from a descriptor by the
  length it finds there (`Advances`). So a walk that never advances by 0 ends within
  `configEnd` turns, and one that does stays where it is for good (`walk_spec`).
-/

import Nanotube.Device.Effects

namespace Nanotube.Device.Usb

open Nanotube.Lib.Loops

variable {m : Mem} {fuel configEnd : Nat} {α β : Type}

/-- NEXT_DESCRIPTOR has met no zero length. -/
def Clean (w : World) : Prop := 0 ∉ w.lengths

theorem Clean.of_append {w w' : World} {ls : List UInt8} (h : Clean w') (hl : w'.lengths = w.lengths ++ ls) :
    Clean w := by
  intro hz
  exact h (hl ▸ List.mem_append_left _ hz)

theorem Clean.congr {w w' : World} (h : Clean w) (hl : w'.lengths = w.lengths) : Clean w' := by
  unfold Clean
  rw [hl]
  exact h

theorem clean_append {w w' : World} {p : Nat} (h : Clean w) (hl : w'.lengths = w.lengths ++ [m p]) (hp : m p ≠ 0) :
    Clean w' := by
  unfold Clean
  rw [hl, List.mem_append, List.mem_singleton]
  exact fun hz => hz.elim h fun hz => hp hz.symm

theorem not_clean_append {w w' : World} {p : Nat} (hl : w'.lengths = w.lengths ++ [m p]) (hp : m p = 0) :
    ¬ Clean w' := by
  intro h
  exact h (hl ▸ List.mem_append_right _ (List.mem_singleton.mpr hp.symm))

/-- What was met stays met. -/
def Dirties (w w' : World) : Prop := ¬ Clean w → ¬ Clean w'

instance : IsPreorder World Dirties where
  refl _ h := h
  trans _ _ _ h h' hn := h' (h hn)

theorem dirties_logs : Logs Dirties := ⟨fun _ _ h => h, fun _ _ h => h, fun _ _ hn hc => hn (hc.of_append rfl)⟩

/-! ## A walk -/

/-- The length by which a turn from `p` advanced. -/
def advance (m : Mem) (p : Nat) : Turn α β → List UInt8
  | .again _ => [m p]
  | .leave _ => []

/-- The turns of `body` are those of `f`, from `pos a` to the next descriptor. -/
structure Advances (m : Mem) (configEnd : Nat) (body : α → Prog World (Turn α β)) (f : α → Turn α β) (pos : α → Nat) :
    Prop where
  turn : ∀ a w, wp (body a)
    (fun t w' => t = f a ∧ w'.lengths = w.lengths ++ advance m (pos a) t ∧ w'.calls = w.calls) (fun _ => False) w
  next : ∀ a a', f a = .again a' → pos a < configEnd ∧ pos a' = pos a + (m (pos a)).toNat
  /-- Whether a turn leaves depends on the descriptor only. -/
  same : ∀ a a' c, f a = .again a' → pos c = pos a → ∃ c', f c = .again c'

theorem toNat_pos {x : UInt8} (h : x ≠ 0) : 0 < x.toNat := by
  have hne : x.toNat ≠ 0 := fun h0 => h (UInt8.toNat_inj.mp h0)
  omega

/-- An 8-bit counter below a bound does not wrap. -/
theorem toNat_succ {c bound : UInt8} (h : c < bound) : (c + 1).toNat = c.toNat + 1 := by
  have hlt := UInt8.lt_iff_toNat_lt.mp h
  have hb := bound.toNat_lt
  rw [UInt8.toNat_add]
  exact Nat.mod_eq_of_lt (by show c.toNat + 1 < 256; omega)

section Walk

variable {body : α → Prog World (Turn α β)} {f : α → Turn α β} {pos : α → Nat} (h : Advances m configEnd body f pos)

include h

theorem walk_leads (w : World) (a : α) :
    wp (loop body fuel a) (fun b w' => Leads f a b ∧ w'.calls = w.calls) (fun _ => True) w := by
  have hleads := wp_loop_leads (fun a w => wp_mono (h.turn a w) (fun _ _ ht => ht.1) (fun _ hf => hf)) fuel a w
  have hcalls : wp (loop body fuel a) (fun _ w' => w'.calls = w.calls) (fun _ => True) w := by
    refine wp_loop (I := fun _ w' => w'.calls = w.calls) ?_ (fun _ _ _ => trivial) fuel rfl
    intro a w' hw'
    refine wp_mono (h.turn a w') ?_ (fun _ _ => trivial)
    intro t w'' h
    obtain ⟨-, -, hc⟩ := h
    cases t <;> exact hc.trans hw'
  exact wp_mono (wp_and hleads hcalls) (fun _ _ h => h) (fun _ _ => trivial)

/-- A walk from a clean world returns, and then has met no zero length, or it has met one:
    from there on every turn comes back to the same descriptor. -/
theorem walk_spec {w : World} (hw : Clean w) {a : α} (hfuel : configEnd - pos a < fuel) :
    wp (loop body fuel a) (fun b w' => Leads f a b ∧ w'.calls = w.calls ∧ Clean w') (fun w' => ¬ Clean w') w := by
  have hdecides : wp (loop body fuel a) (fun _ w' => Clean w') (fun w' => ¬ Clean w') w := by
    refine wp_loop_decides (I := fun _ w => Clean w) (J := fun a w => ¬ Clean w ∧ m (pos a) = 0 ∧ ∃ a', f a = .again a')
      (fun a => configEnd - pos a) ?_ ?_ (fun _ _ hj => hj.1) hfuel hw
    · intro a w hw
      refine wp_mono (h.turn a w) ?_ (fun _ hf => hf.elim)
      intro t w' h
      obtain ⟨rfl, hl, -⟩ := h
      cases ha : f a with
      | leave b =>
        rw [ha] at hl
        exact hw.congr (by simpa [advance] using hl)
      | again a' =>
        rw [ha] at hl
        obtain ⟨hlt, hpos⟩ := h.next a a' ha
        by_cases hz : m (pos a) = 0
        · have hstay : pos a' = pos a := by rw [hpos, hz]; rfl
          exact Or.inr ⟨not_clean_append hl hz, hstay ▸ hz, h.same a a' a' ha hstay⟩
        · have hlen := toNat_pos hz
          exact Or.inl ⟨clean_append hw hl hz, by omega⟩
    · intro a w h
      obtain ⟨hn, hz, a', ha⟩ := h
      refine wp_mono (h.turn a w) ?_ (fun _ hf => hf.elim)
      intro t w' h
      obtain ⟨rfl, hl, -⟩ := h
      obtain ⟨-, hpos⟩ := h.next a a' ha
      have hstay : pos a' = pos a := by rw [hpos, hz]; rfl
      rw [ha] at hl ⊢
      exact ⟨not_clean_append hl hz, hstay ▸ hz, h.same a a' a' ha hstay⟩
  refine wp_mono (wp_and (walk_leads h w a) hdecides) ?_ (fun _ hn => hn.2)
  exact fun b w' hp => ⟨hp.1.1, hp.1.2, hp.2⟩

end Walk

/-! ## The search -/

def interfaceNext (m : Mem) (configEnd : Nat) (n : UInt8) (p : Nat) : Turn Nat (Option Nat) :=
  if p < configEnd then
    if IsInterface m n p then .leave (some p) else .again (p + (m p).toNat)
  else .leave none

theorem interface_advances (n : UInt8) :
    Advances m configEnd (interfaceTurn m configEnd n) (interfaceNext m configEnd n) id := by
  refine ⟨?_, ?_, ?_⟩
  · intro p w
    simp only [interfaceTurn, interfaceNext, wp_ite, id]
    split
    · rw [wp_bind]
      refine wp_mono (isInterface_spec n p) ?_ (fun _ hf => hf)
      intro found w' h
      obtain ⟨rfl, hq⟩ := h
      by_cases hi : IsInterface m n p
      · simpa [hi, advance] using ⟨hq.lengths, hq.calls⟩
      · simp only [hi, decide_false, Bool.false_eq_true, if_false, wp_bind]
        refine wp_nextDescriptor fun w'' hl hc => ?_
        exact ⟨rfl, by rw [hl, hq.lengths]; rfl, hc.trans hq.calls⟩
    · simp [advance]
  · intro p p' hp
    simp only [interfaceNext] at hp
    split at hp
    · split at hp
      · cases hp
      · cases hp
        exact ⟨‹_›, rfl⟩
    · cases hp
  · intro p p' c hp hc
    obtain rfl : c = p := hc
    exact ⟨p', hp⟩

/-! ## The block of an interface -/

section Block

variable (f : Nat → α → Turn α β) (exit : α → β)

/-- A turn over a block, for a body that is the function `f`. -/
def blockNext (m : Mem) (configEnd : Nat) (c : Nat × α) : Turn (Nat × α) β :=
  if c.1 < configEnd ∧ m (c.1 + 1) ≠ USB_INTERFACE_DESCRIPTOR then
    match f c.1 c.2 with
    | .leave b => .leave b
    | .again a => .again (c.1 + (m c.1).toNat, a)
  else .leave (exit c.2)

/-- `body` is the function `f`, and whether it leaves depends on the descriptor only. -/
structure Computes (f : Nat → α → Turn α β) (body : Nat → α → Prog World (Turn α β)) : Prop where
  turn : ∀ p a w, wp (body p a) (fun t w' => t = f p a ∧ Quiet w w') (fun _ => False) w
  same : ∀ p a a' c, f p a = .again a' → ∃ c', f p c = .again c'

variable {f} {body : Nat → α → Prog World (Turn α β)}

theorem block_advances (use : Use) (hb : Computes f body) :
    Advances m configEnd (blockTurn m use configEnd body exit) (blockNext f exit m configEnd) Prod.fst := by
  refine ⟨?_, ?_, ?_⟩
  · intro c w
    obtain ⟨p, a⟩ := c
    simp only [blockTurn, blockNext, wp_ite]
    by_cases hp : p < configEnd
    · by_cases ht : m (p + 1) = USB_INTERFACE_DESCRIPTOR
      · simp [hp, ht, look, bDescriptorType, byte, advance]
      · simp only [hp, ht, if_true, look, bDescriptorType, byte, wp_bind, wp_update, wp_pure, wp_ite, if_false, ne_eq,
          not_false_eq_true, and_self]
        refine wp_mono (hb.turn p a _) ?_ (fun _ hf => hf)
        intro t w' h
        obtain ⟨rfl, hq⟩ := h
        cases hf : f p a with
        | leave b => exact ⟨rfl, by simpa [advance] using hq.lengths, hq.calls⟩
        | again a' =>
          simp only [wp_bind]
          refine wp_nextDescriptor fun w'' hl hc => ?_
          exact ⟨rfl, by rw [hl, hq.lengths]; rfl, hc.trans hq.calls⟩
    · simp [hp, advance]
  · intro c₀ c hc
    obtain ⟨p, a⟩ := c₀
    simp only [blockNext] at hc
    split at hc
    · rename_i hp
      split at hc
      · cases hc
      · cases hc
        exact ⟨hp.1, rfl⟩
    · cases hc
  · intro c₀ c c' hc hp
    obtain ⟨p, a⟩ := c₀
    obtain ⟨p', a'⟩ := c'
    obtain rfl : p' = p := hp
    simp only [blockNext] at hc ⊢
    split at hc
    · rename_i hlt
      rw [if_pos hlt]
      cases hf : f p' a with
      | leave b =>
        rw [hf] at hc
        cases hc
      | again a₁ =>
        obtain ⟨a₂, hf'⟩ := hb.same p' a a₁ a' hf
        exact ⟨_, by rw [hf']⟩
    · cases hc

end Block

theorem endpoint_computes : Computes (fun p eps => .again (epsAt m p eps)) (endpointBody m) :=
  ⟨fun p eps _ => endpointBody_spec p eps, fun _ _ _ _ _ => ⟨_, rfl⟩⟩

def etherNext (m : Mem) (p : Nat) (_ : Unit) : Turn Unit (Option Nat) :=
  if IsFunctional m CDC_ETHERNET_NETWORKING_SUBTYPE p then .leave (some p) else .again ()

def unionNext (m : Mem) (p : Nat) (_ : Unit) : Turn Unit Subs :=
  if IsFunctional m CDC_UNION_SUBTYPE p then .leave ⟨some (p + 4), m p - 4⟩ else .again ()

theorem ether_computes : Computes (etherNext m) (etherBody m) :=
  ⟨fun p u _ => etherBody_spec p u, fun _ _ a' _ h => ⟨a', h⟩⟩

theorem union_computes : Computes (unionNext m) (unionBody m) :=
  ⟨fun p u _ => unionBody_spec p u, fun _ _ a' _ h => ⟨a', h⟩⟩

/-! ## What the walks return -/

theorem leads_interface {n : UInt8} {start : Nat} {r : Option Nat} (h : Leads (interfaceNext m configEnd n) start r) :
    ∀ p, r = some p → start ≤ p ∧ p < configEnd ∧ IsInterface m n p := by
  induction h with
  | leave hl =>
    intro p hp
    simp only [interfaceNext] at hl
    split at hl
    · split at hl
      · cases hl
        cases hp
        exact ⟨Nat.le_refl _, ‹_›, ‹_›⟩
      · cases hl
    · cases hl
      cases hp
  | again ha _ ih =>
    intro p hp
    obtain ⟨hle, hrest⟩ := ih p hp
    have := ((interface_advances n).next _ _ ha).2
    simp only [id] at this
    exact ⟨by omega, hrest⟩

/-- A search that starts on what it looks for finds it there. -/
theorem leads_interface_here {n : UInt8} {start : Nat} {r : Option Nat}
    (h : Leads (interfaceNext m configEnd n) start r) (hlt : start < configEnd) (hi : IsInterface m n start) :
    r = some start := by
  have hnext : interfaceNext m configEnd n start = .leave (some start) := by simp [interfaceNext, hlt, hi]
  exact h.of_leave hnext

/-- A setting whose length is 0. -/
structure ZeroSetting (m : Mem) (configEnd : Nat) (n : UInt8) (p : Nat) : Prop where
  inside : p < configEnd
  interface : IsInterface m n p
  zero : m p = 0

section Block

variable {f : Nat → α → Turn α β} {exit : α → β} {body : Nat → α → Prog World (Turn α β)} {use : Use} {w : World}

theorem blockWalk_spec (hb : Computes f body) (hw : Clean w) (hfuel : configEnd < fuel) {p : Nat} (hp : m p ≠ 0)
    (a : α) :
    wp (blockWalk m fuel use configEnd body exit p a)
      (fun r w' => Leads (blockNext f exit m configEnd) (p + (m p).toNat, a) r ∧ w'.calls = w.calls ∧ Clean w')
      (fun w' => ¬ Clean w') w := by
  rw [blockWalk, wp_bind]
  refine wp_nextDescriptor fun w' hl hc => ?_
  have hfuel' : configEnd - (p + (m p).toNat) < fuel := by omega
  refine wp_mono (walk_spec (block_advances exit use hb) (clean_append hw hl hp) hfuel') ?_ (fun _ hn => hn)
  exact fun r w'' ⟨hr, hc', hw''⟩ => ⟨hr, hc'.trans hc, hw''⟩

/-- The block walks of a setting of length 0 see the setting itself and stop. -/
theorem blockWalk_zero (hb : Computes f body) {n : UInt8} {p : Nat} (hz : ZeroSetting m configEnd n p) (a : α) :
    wp (blockWalk m fuel use configEnd body exit p a) (fun r w' => r = exit a ∧ ¬ Clean w')
      (fun w' => ¬ Clean w') w := by
  rw [blockWalk, wp_bind]
  refine wp_nextDescriptor fun w' hl hc => ?_
  have hdirty : ¬ Clean w' := not_clean_append hl hz.zero
  have hmoves : Moves Dirties (loop (blockTurn m use configEnd body exit) fuel (p + (m p).toNat, a)) := by
    refine moves_loop (fun c w => ?_) fuel _
    have hadv : Advances m configEnd (blockTurn m use configEnd body exit) (blockNext f exit m configEnd) Prod.fst :=
      block_advances exit use hb
    have ht := hadv.turn c w
    unfold wp at ht
    rcases hc : blockTurn m use configEnd body exit c w with ⟨_ | t, w'⟩ <;> rw [hc] at ht
    · exact ht.elim
    · exact fun hn hcl => hn (hcl.of_append ht.2.1)
  refine wp_mono (wp_and (walk_leads (block_advances exit use hb) w' _) (hmoves.wp w')) ?_ (fun _ hs => hs.2 hdirty)
  intro r w'' h
  obtain ⟨⟨hr, -⟩, hd⟩ := h
  refine ⟨?_, hd hdirty⟩
  have hnext : blockNext f exit m configEnd (p + (m p).toNat, a) = .leave (exit a) := by
    simp [blockNext, hz.zero, hz.interface.1]
  exact hr.of_leave hnext

end Block

end Nanotube.Device.Usb
