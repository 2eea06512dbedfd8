/-
  Nanotube.Lwip.Arp.Cache — what can happen to the ARP cache? (src/lwIP/core/ipv4/etharp.c)

  Each function comes down to a few moves on the table. Proved, over any order of ARP
  packets from anybody, packets to send, ticks of `etharp_tmr` and interfaces that go away:
  - an address on an interface has at most one entry; only an entry that waits for an answer
    holds a packet; every reference the cache took to a packet it holds or has given back,
    once (`cache_keeps_books`).
  - a packet for a next hop goes to the hardware address that was announced for it last
    (`sent_to_last_heard`).
-/

import Nanotube.Lib.Runs
import Nanotube.Lib.Slots
import Nanotube.Lwip.Arp.Model
import Mathlib.Data.List.Induction
import Mathlib.Logic.Relation

namespace Nanotube.Lwip.Arp

open Nanotube.Lib.Runs Nanotube.Lib.Slots

/-! ## Field lemmas -/

section Fields
variable (s : State) (i : Idx) (e : Entry)

@[simp] theorem setEntry_self : (setEntry s i e).arpTable i = e := Function.update_self ..
@[simp] theorem setEntry_out : (setEntry s i e).out = s.out := rfl
@[simp] theorem setEntry_taken : (setEntry s i e).taken = s.taken := rfl
@[simp] theorem setEntry_freed : (setEntry s i e).freed = s.freed := rfl
@[simp] theorem setEntry_heard : (setEntry s i e).heard = s.heard := rfl

theorem setEntry_ne {k : Idx} (h : k ≠ i) : (setEntry s i e).arpTable k = s.arpTable k := Function.update_of_ne h ..

@[simp] theorem setEntry_setEntry (e' : Entry) : setEntry (setEntry s i e) i e' = setEntry s i e' := by
  simp only [setEntry, Function.update_idem]

end Fields

theorem hear_self (s : State) (netif : Nat) (ipaddr : Ip) (ethaddr : Mac) :
    (hear s netif ipaddr ethaddr).heard netif ipaddr = some ethaddr := by
  simp [hear]

/-- What was heard of another address, or on another interface, stays. -/
theorem hear_ne (s : State) {netif n : Nat} {ipaddr a : Ip} (ethaddr : Mac) (h : ¬ (a = ipaddr ∧ n = netif)) :
    (hear s netif ipaddr ethaddr).heard n a = s.heard n a := by
  simp only [hear]
  by_cases hn : n = netif
  · subst hn
    rw [Function.update_self, Function.update_of_ne (fun ha => h ⟨ha, rfl⟩)]
  · rw [Function.update_of_ne hn]

/-! ## What holds of the table -/

abbrev Entry.Live (e : Entry) : Prop := e.state ≠ .empty

/-- The entry is for the address on the interface. -/
abbrev Entry.On (e : Entry) (ipaddr : Ip) (netif : Nat) : Prop := e.ipaddr = ipaddr ∧ e.netif = netif

structure EntryOk (heard : Nat → Ip → Option Mac) (e : Entry) : Prop where
  queue : e.q ≠ none → e.state = .pending
  age : e.Live → e.ctime < ARP_MAXAGE
  pending : e.state = .pending → e.ctime < ARP_MAXPENDING
  known : e.state.known → heard e.netif e.ipaddr = some e.ethaddr

structure Inv (s : State) : Prop where
  entry : ∀ i, EntryOk s.heard (s.arpTable i)
  unique : ∀ i j, (s.arpTable i).Live → (s.arpTable j).Live →
    (s.arpTable j).On (s.arpTable i).ipaddr (s.arpTable i).netif → i = j

/-- No entry is for the address. -/
def Absent (s : State) (ipaddr : Ip) (netif : Nat) : Prop :=
  ∀ j, (s.arpTable j).Live → ¬ (s.arpTable j).On ipaddr netif

theorem Inv.setEntry {s : State} (h : Inv s) {i : Idx} {e : Entry} (he : EntryOk s.heard e)
    (hkey : e.Live → ∀ j, j ≠ i → (s.arpTable j).Live → ¬ (s.arpTable j).On e.ipaddr e.netif) : Inv (setEntry s i e) := by
  refine ⟨fun j => ?_, fun j k hj hk hon => ?_⟩
  · by_cases hji : j = i
    · subst hji
      rw [setEntry_self]
      exact he
    · rw [setEntry_ne _ _ _ hji]
      exact h.entry j
  · by_cases hji : j = i <;> by_cases hki : k = i
    · rw [hji, hki]
    · subst hji
      rw [setEntry_self] at hj hon
      rw [setEntry_ne _ _ _ hki] at hk hon
      exact absurd hon (hkey hj k hki hk)
    · subst hki
      rw [setEntry_self] at hk hon
      rw [setEntry_ne _ _ _ hji] at hj hon
      exact absurd ⟨hon.1.symm, hon.2.symm⟩ (hkey hk j hji hj)
    · rw [setEntry_ne _ _ _ hji] at hj hon
      rw [setEntry_ne _ _ _ hki] at hk hon
      exact h.unique j k hj hk hon

/-- The other entries are for other addresses. -/
theorem Inv.others {s : State} (h : Inv s) {i : Idx} (hi : (s.arpTable i).Live) {j : Idx} (hji : j ≠ i)
    (hj : (s.arpTable j).Live) : ¬ (s.arpTable j).On (s.arpTable i).ipaddr (s.arpTable i).netif :=
  fun hon => hji (h.unique i j hi hj hon).symm

/-! ## Moves -/

/-- Only packets are sent, or the hint changes. -/
structure Quiet (s s' : State) : Prop where
  table : s'.arpTable = s.arpTable
  taken : s'.taken = s.taken
  freed : s'.freed = s.freed
  heard : s'.heard = s.heard

/-- An address is learned that an entry is there for; the packet of the entry is sent. -/
def learn (s : State) (netif : Netif) (ipaddr : Ip) (ethaddr : Mac) (i : Idx) : State :=
  flush (setEntry (hear s netif.num ipaddr ethaddr) i ((s.arpTable i).settle netif.num ethaddr)) netif ethaddr ipaddr
    (s.arpTable i).q

inductive Move (s : State) : State → Prop
  | quiet {s' : State} (same : Quiet s s') : Move s s'
  | drop (i : Idx) : Move s (etharpFreeEntry s i)
  /-- an announcement that nobody asked for -/
  | hear {netif : Nat} {ipaddr : Ip} (ethaddr : Mac) (absent : Absent s ipaddr netif) : Move s (hear s netif ipaddr ethaddr)
  /-- an entry that is free is written to -/
  | put {i : Idx} {e : Entry} (free : ¬ (s.arpTable i).Live) (absent : e.Live → Absent s e.ipaddr e.netif)
      (empty : e.q = none) (ok : EntryOk s.heard e) : Move s (setEntry s i e)
  /-- an entry gets older, or is asked for again -/
  | touch {i : Idx} {e : Entry} (live : (s.arpTable i).Live) (on : e.On (s.arpTable i).ipaddr (s.arpTable i).netif)
      (queue : e.q = (s.arpTable i).q) (age : (s.arpTable i).ctime ≤ e.ctime) (ok : EntryOk s.heard e) :
      Move s (setEntry s i e)
  | learn {i : Idx} {netif : Netif} {ipaddr : Ip} (ethaddr : Mac) (live : (s.arpTable i).Live)
      (on : (s.arpTable i).On ipaddr netif.num) : Move s (learn s netif ipaddr ethaddr i)
  /-- a packet waits -/
  | keep {i : Idx} (p : Nat) (pending : (s.arpTable i).state = .pending) : Move s (enqueue s i (some p))

def Moves : State → State → Prop := Relation.ReflTransGen Move

theorem Moves.refl (s : State) : Moves s s := Relation.ReflTransGen.refl

theorem etharpFreeEntry_inv {s : State} (h : Inv s) (i : Idx) : Inv (etharpFreeEntry s i) := by
  have hdead : Inv (setEntry s i .cleared) := by
    refine h.setEntry ⟨fun h0 => absurd rfl h0, fun h0 => absurd rfl h0, fun h0 => ?_, fun h0 => ?_⟩ fun h0 => absurd rfl h0
    · cases h0
    · cases h0
  exact ⟨hdead.entry, hdead.unique⟩

theorem flush_table (s : State) (netif : Netif) (ethaddr : Mac) (ipaddr : Ip) (q : Option Nat) :
    (flush s netif ethaddr ipaddr q).arpTable = s.arpTable ∧ (flush s netif ethaddr ipaddr q).heard = s.heard ∧
      (flush s netif ethaddr ipaddr q).taken = s.taken ∧ (flush s netif ethaddr ipaddr q).freed = s.freed ++ q.toList := by
  cases q with
  | none => exact ⟨rfl, rfl, rfl, (List.append_nil _).symm⟩
  | some p => exact ⟨rfl, rfl, rfl, rfl⟩

theorem Inv.of_fields {s s' : State} (h : Inv s) (htable : s'.arpTable = s.arpTable) (hheard : s'.heard = s.heard) : Inv s' := by
  constructor
  · rw [htable, hheard]; exact h.entry
  · rw [htable]; exact h.unique

/-- What is heard of an address matters to no other entry. -/
theorem entryOk_hear {s : State} {e : Entry} (h : EntryOk s.heard e) {netif : Nat} {ipaddr : Ip} (ethaddr : Mac)
    (hne : e.Live → ¬ e.On ipaddr netif) : EntryOk (hear s netif ipaddr ethaddr).heard e := by
  refine ⟨h.queue, h.age, h.pending, fun hk => ?_⟩
  have hlive : e.Live := by
    intro h0
    rw [h0] at hk
    cases hk
  rw [hear_ne s ethaddr (hne hlive)]
  exact h.known hk

theorem hear_inv {s : State} (h : Inv s) {netif : Nat} {ipaddr : Ip} (ethaddr : Mac) (absent : Absent s ipaddr netif) :
    Inv (hear s netif ipaddr ethaddr) :=
  ⟨fun i => entryOk_hear (h.entry i) ethaddr (absent i), h.unique⟩

theorem learn_inv {s : State} (h : Inv s) {i : Idx} {netif : Netif} {ipaddr : Ip} (ethaddr : Mac)
    (live : (s.arpTable i).Live) (on : (s.arpTable i).On ipaddr netif.num) : Inv (learn s netif ipaddr ethaddr i) := by
  have hothers : ∀ j, j ≠ i → (s.arpTable j).Live → ¬ (s.arpTable j).On ipaddr netif.num := by
    intro j hji hj
    rw [← on.1, ← on.2]
    exact h.others live hji hj
  refine Inv.of_fields (s := setEntry (hear s netif.num ipaddr ethaddr) i ((s.arpTable i).settle netif.num ethaddr)) ?_
    (flush_table ..).1 (flush_table ..).2.1
  refine ⟨fun j => ?_, fun j k hj hk hon => ?_⟩
  · by_cases hji : j = i
    · subst hji
      rw [setEntry_self]
      refine ⟨fun h0 => absurd rfl h0, fun _ => ?_, fun h0 => ?_, fun _ => ?_⟩
      · show 0 < ARP_MAXAGE
        decide
      · cases h0
      rw [setEntry_heard]
      show (hear s netif.num ipaddr ethaddr).heard netif.num (s.arpTable j).ipaddr = some ethaddr
      rw [on.1, hear_self]
    · rw [setEntry_ne _ _ _ hji]
      exact entryOk_hear (h.entry j) ethaddr (hothers j hji)
  · -- the keys are those of before
    have hsame : ∀ l, ((setEntry (hear s netif.num ipaddr ethaddr) i
        ((s.arpTable i).settle netif.num ethaddr)).arpTable l).On (s.arpTable l).ipaddr (s.arpTable l).netif := by
      intro l
      by_cases hli : l = i
      · subst hli
        rw [setEntry_self]
        exact ⟨rfl, on.2.symm⟩
      · rw [setEntry_ne _ _ _ hli]
        exact ⟨rfl, rfl⟩
    have hlive : ∀ l, ((setEntry (hear s netif.num ipaddr ethaddr) i
        ((s.arpTable i).settle netif.num ethaddr)).arpTable l).Live → (s.arpTable l).Live := by
      intro l hl
      by_cases hli : l = i
      · subst hli
        exact live
      · rw [setEntry_ne _ _ _ hli] at hl
        exact hl
    refine h.unique j k (hlive j hj) (hlive k hk) ?_
    rw [(hsame j).1, (hsame j).2] at hon
    exact ⟨(hsame k).1.symm.trans hon.1, (hsame k).2.symm.trans hon.2⟩

theorem Move.inv {s s' : State} (hm : Move s s') (h : Inv s) : Inv s' := by
  cases hm with
  | quiet same => exact h.of_fields same.table same.heard
  | drop i => exact etharpFreeEntry_inv h i
  | hear ethaddr absent => exact hear_inv h ethaddr absent
  | put free absent empty ok => exact h.setEntry ok fun hlive j _ hj => absent hlive j hj
  | @touch i e live on queue age ok =>
    refine h.setEntry ok fun _ j hji hj => ?_
    rw [on.1, on.2]
    exact h.others live hji hj
  | learn ethaddr live on => exact learn_inv h ethaddr live on
  | @keep i p pending =>
    have hok : EntryOk s.heard { s.arpTable i with q := some p } :=
      ⟨fun _ => pending, (h.entry i).age, (h.entry i).pending, (h.entry i).known⟩
    have hlive : (s.arpTable i).Live := by rw [Entry.Live, pending]; decide
    exact (h.setEntry hok fun _ j hji hj => h.others hlive hji hj).of_fields rfl rfl

theorem Moves.inv {s s' : State} (hm : Moves s s') (h : Inv s) : Inv s' := by
  induction hm with
  | refl => exact h
  | tail _ hm ih => exact hm.inv ih

/-! ## The packets -/

/-- The packets that wait. -/
def queued (s : State) : List Nat := slots fun i => (s.arpTable i).q

/-- Every reference that was taken is held or was given back. -/
def Accounted (s : State) : Prop := ∀ p, s.taken.count p = s.freed.count p + (queued s).count p

theorem count_queued_setEntry (s : State) (i : Idx) (e : Entry) (p : Nat) :
    (queued (setEntry s i e)).count p + (s.arpTable i).q.toList.count p = (queued s).count p + e.q.toList.count p := by
  have hupdate : (fun k => ((setEntry s i e).arpTable k).q) = Function.update (fun k => (s.arpTable k).q) i e.q := by
    funext k
    by_cases hk : k = i
    · subst hk
      rw [setEntry_self, Function.update_self]
    · rw [setEntry_ne _ _ _ hk, Function.update_of_ne hk]
  rw [queued, hupdate]
  exact count_slots_update (fun k => (s.arpTable k).q) i e.q p

/-- One entry changes; what is taken and what is given back make up for it. -/
theorem Accounted.of_slot {s s' : State} (h : Accounted s) {i : Idx} {e : Entry} (took gave : List Nat)
    (htable : s'.arpTable = (setEntry s i e).arpTable) (htaken : s'.taken = s.taken ++ took)
    (hfreed : s'.freed = s.freed ++ gave)
    (hbalance : ∀ p, took.count p + (s.arpTable i).q.toList.count p = gave.count p + e.q.toList.count p) : Accounted s' := by
  intro p
  have hqueued : queued s' = queued (setEntry s i e) := by rw [queued, htable]; rfl
  have hslot := count_queued_setEntry s i e p
  have hp := h p
  have hb := hbalance p
  rw [htaken, hfreed, hqueued, List.count_append, List.count_append]
  omega

theorem Move.accounted {s s' : State} (hm : Move s s') (hinv : Inv s) (h : Accounted s) : Accounted s' := by
  cases hm with
  | quiet same =>
    intro p
    rw [same.taken, same.freed, queued, same.table]
    exact h p
  | drop i => exact h.of_slot [] _ rfl (List.append_nil _).symm rfl fun p => by simp [Entry.cleared]
  | hear => exact h
  | @put i e free absent empty ok =>
    have hq : (s.arpTable i).q = none := by
      by_contra hq
      exact free (by rw [Entry.Live, (hinv.entry i).queue hq]; decide)
    exact h.of_slot [] [] rfl (List.append_nil _).symm (List.append_nil _).symm fun p => by rw [hq, empty]
  | @touch i e live on queue age ok =>
    exact h.of_slot [] [] rfl (List.append_nil _).symm (List.append_nil _).symm fun p => by rw [queue]
  | learn ethaddr live on =>
    refine h.of_slot [] _ (flush_table ..).1 ?_ (flush_table ..).2.2.2 fun p => by simp [Entry.settle]
    rw [List.append_nil]
    exact (flush_table ..).2.2.1
  | keep p pending =>
    exact h.of_slot [p] _ rfl rfl rfl fun p' => Nat.add_comm _ _

theorem Moves.accounted {s s' : State} (hm : Moves s s') (hinv : Inv s) (h : Accounted s) : Accounted s' := by
  induction hm with
  | refl => exact h
  | tail hms hm ih => exact hm.accounted (Moves.inv hms hinv) ih

/-! ## What the functions do -/

theorem etharpRaw_quiet (s : State) (mem : Bool) (netif : Netif) (ethdst hwdst : Mac) (ipdst : Ip) (opcode : UInt16) :
    Quiet s (etharpRaw s mem netif ethdst hwdst ipdst opcode).1 := by
  rw [etharpRaw]
  split <;> exact ⟨rfl, rfl, rfl, rfl⟩

theorem entryOk_empty (heard : Nat → Ip → Option Mac) {e : Entry} (hstate : e.state = .empty) (hq : e.q = none) :
    EntryOk heard e := by
  refine ⟨fun h0 => absurd hq h0, fun h0 => absurd hstate h0, fun h0 => ?_, fun h0 => ?_⟩
  · rw [hstate] at h0
    cases h0
  · rw [hstate] at h0
    cases h0

theorem Inv.q_of_not_live {s : State} (h : Inv s) {i : Idx} (hi : ¬ (s.arpTable i).Live) : (s.arpTable i).q = none := by
  by_contra hq
  exact hi (by rw [Entry.Live, (h.entry i).queue hq]; decide)

/-- A packet is dropped with its entry, whatever was written to the entry before. -/
theorem etharpFreeEntry_setEntry (s : State) (i : Idx) {e : Entry} (h : e.q = (s.arpTable i).q) :
    etharpFreeEntry (setEntry s i e) i = etharpFreeEntry s i := by
  simp only [etharpFreeEntry, setEntry_self, setEntry_setEntry, h]
  simp [setEntry]

theorem etharpFreeEntry_self (s : State) (i : Idx) : (etharpFreeEntry s i).arpTable i = .cleared := setEntry_self ..

theorem tmrEntry_moves (netifs : Nat → Netif) (mem : Idx → Bool) {s : State} (h : Inv s) (i : Idx) :
    Moves s (tmrEntry netifs mem s i) := by
  have hok := h.entry i
  dsimp only [tmrEntry]
  split
  · exact Moves.refl s
  · next hlive =>
    split
    · -- the entry has expired
      rw [etharpFreeEntry_setEntry s i (e := { s.arpTable i with ctime := (s.arpTable i).ctime + 1 }) rfl]
      exact Relation.ReflTransGen.single (Move.drop i)
    · next hyoung =>
      have hage : (s.arpTable i).ctime + 1 < ARP_MAXAGE := Nat.not_le.mp fun h0 => hyoung (Or.inl h0)
      have hle : (s.arpTable i).ctime ≤ (s.arpTable i).ctime + 1 := Nat.le_succ _
      split
      · next hstate =>
        rw [setEntry_setEntry]
        refine Relation.ReflTransGen.single (Move.touch hlive ⟨rfl, rfl⟩ rfl hle ⟨fun h0 => ?_, fun _ => hage, nofun, fun _ => ?_⟩)
        · rw [hok.queue h0] at hstate
          cases hstate
        · exact hok.known (by rw [hstate]; rfl)
      · next hstate =>
        rw [setEntry_setEntry]
        refine Relation.ReflTransGen.single (Move.touch hlive ⟨rfl, rfl⟩ rfl hle ⟨fun h0 => ?_, fun _ => hage, nofun, fun _ => ?_⟩)
        · rw [hok.queue h0] at hstate
          cases hstate
        · exact hok.known (by rw [hstate]; rfl)
      · next hstate =>
        have hpending : (s.arpTable i).ctime + 1 < ARP_MAXPENDING := Nat.not_le.mp fun h0 => hyoung (Or.inr ⟨hstate, h0⟩)
        have htouch : Move s (setEntry s i { s.arpTable i with ctime := (s.arpTable i).ctime + 1 }) := by
          refine Move.touch hlive ⟨rfl, rfl⟩ rfl hle ⟨fun _ => hstate, fun _ => hage, fun _ => hpending, fun h0 => ?_⟩
          rw [hstate] at h0
          cases h0
        exact (Relation.ReflTransGen.single htouch).tail (Move.quiet (etharpRaw_quiet ..))
      · next hnot1 hnot2 hnot3 =>
        refine Relation.ReflTransGen.single (Move.touch hlive ⟨rfl, rfl⟩ rfl hle
          ⟨hok.queue, fun _ => hage, fun h0 => absurd h0 hnot3, hok.known⟩)

theorem foldl_moves {f : State → Idx → State} (hf : ∀ {s} i, Inv s → Moves s (f s i)) (l : List Idx) {s : State} (h : Inv s) :
    Moves s (l.foldl f s) := by
  induction l generalizing s with
  | nil => exact Moves.refl s
  | cons i l ih =>
    have hfirst := hf i h
    exact hfirst.trans (ih (hfirst.inv h))

theorem cleanupEntry_moves (netif : Nat) {s : State} (i : Idx) : Moves s (cleanupEntry netif s i) := by
  rw [cleanupEntry]
  split
  · exact Relation.ReflTransGen.single (Move.drop i)
  · exact Moves.refl s

/-- A new entry, with nothing in it but the address. -/
structure Fresh (s : State) (ipaddr : Ip) (netif : Nat) (s' : State) (i : Idx) : Prop where
  moves : Moves s s'
  absent : Absent s' ipaddr netif
  state : (s'.arpTable i).state = .empty
  on : (s'.arpTable i).On ipaddr netif
  ctime : (s'.arpTable i).ctime = 0
  heard : s'.heard = s.heard
  out : s'.out = s.out
  arpOut : s'.arpOut = s.arpOut

theorem fresh_occupy {s : State} (h : Inv s) {i : Idx} {ipaddr : Ip} {netif : Nat} (hi : ¬ (s.arpTable i).Live)
    (habsent : Absent s ipaddr netif) : Fresh s ipaddr netif (occupy s i ipaddr netif) i := by
  have hstate : (s.arpTable i).state = .empty := not_not.mp hi
  have hq := h.q_of_not_live hi
  have hself : (occupy s i ipaddr netif).arpTable i = { s.arpTable i with ipaddr := ipaddr, ctime := 0, netif := netif } :=
    setEntry_self ..
  refine ⟨Relation.ReflTransGen.single (Move.put hi (fun h0 => absurd hstate h0) hq (entryOk_empty _ hstate hq)), ?_, ?_, ?_,
    ?_, rfl, rfl, rfl⟩
  · intro j hj
    by_cases hji : j = i
    · subst hji
      rw [Entry.Live, hself] at hj
      exact absurd hstate hj
    · rw [occupy, setEntry_ne _ _ _ hji] at hj ⊢
      exact habsent j hj
  · rw [hself]
    exact hstate
  · rw [hself]
    exact ⟨rfl, rfl⟩
  · rw [hself]

theorem absent_of_matching {s : State} {ipaddr : Ip} {netif : Nat} (h : matching s ipaddr netif = none) :
    Absent s ipaddr netif := by
  intro j hj hon
  have hnone := List.find?_eq_none.mp h j (List.mem_finRange j)
  simp only [decide_eq_true_eq] at hnone
  exact hnone ⟨hj, hon⟩

theorem of_matching {s : State} {ipaddr : Ip} {netif : Nat} {i : Idx} (h : matching s ipaddr netif = some i) :
    (s.arpTable i).Live ∧ (s.arpTable i).On ipaddr netif := by
  have hfound := List.find?_some h
  simp only [decide_eq_true_eq] at hfound
  exact hfound

theorem etharpFindEntry_cases {s : State} (h : Inv s) (ipaddr : Ip) (flag : Flag) (netif : Nat) :
    (∃ i, etharpFindEntry s ipaddr flag netif = (s, some i) ∧ (s.arpTable i).Live ∧ (s.arpTable i).On ipaddr netif) ∨
      (etharpFindEntry s ipaddr flag netif = (s, none) ∧ Absent s ipaddr netif) ∨
      ∃ s' i, etharpFindEntry s ipaddr flag netif = (s', some i) ∧ Absent s ipaddr netif ∧ Fresh s ipaddr netif s' i := by
  unfold etharpFindEntry
  split
  · next i hi => exact Or.inl ⟨i, rfl, of_matching hi⟩
  · next hnone =>
    have habsent := absent_of_matching hnone
    right
    split
    · exact Or.inl ⟨rfl, habsent⟩
    split
    · next i hi =>
      have hempty := List.find?_some hi
      simp only [decide_eq_true_eq] at hempty
      exact Or.inr ⟨_, i, rfl, habsent, fresh_occupy h (not_not.mpr hempty) habsent⟩
    split
    · next i _ =>
      have hfree := etharpFreeEntry_inv h i
      have hdead : ¬ ((etharpFreeEntry s i).arpTable i).Live := by
        rw [etharpFreeEntry_self]
        exact fun h0 => h0 rfl
      have habsent' : Absent (etharpFreeEntry s i) ipaddr netif := by
        intro j hj
        by_cases hji : j = i
        · subst hji
          exact absurd hj hdead
        · have hsame : (etharpFreeEntry s i).arpTable j = s.arpTable j := setEntry_ne _ _ _ hji
          rw [hsame] at hj ⊢
          exact habsent j hj
      obtain ⟨hmoves, habs, hstate, hon, hctime, hheard, hout, harpOut⟩ := fresh_occupy hfree hdead habsent'
      have hfirst : Moves s (etharpFreeEntry s i) := Relation.ReflTransGen.single (Move.drop i)
      exact Or.inr ⟨_, i, rfl, habsent, hfirst.trans hmoves, habs, hstate, hon, hctime, hheard, hout, harpOut⟩
    · exact Or.inl ⟨rfl, habsent⟩

theorem foldl_elder_isSome (s : State) (kind : Entry → Bool) (l : List Idx) (old : Nat × Option Idx)
    (h : old.2 ≠ none ∨ (old.1 = 0 ∧ ∃ i ∈ l, kind (s.arpTable i))) : (l.foldl (elder s kind) old).2 ≠ none := by
  induction l generalizing old with
  | nil =>
    rcases h with h | ⟨_, i, hi, _⟩
    · exact h
    · cases hi
  | cons j l ih =>
    rw [List.foldl_cons]
    refine ih _ ?_
    rw [elder]
    split
    · exact Or.inl (Option.some_ne_none j)
    · next hj =>
      rcases h with h | ⟨hzero, i, hi, hkind⟩
      · exact Or.inl h
      · rcases List.mem_cons.mp hi with rfl | hi
        · exact absurd ⟨hkind, by rw [hzero]; exact Nat.zero_le _⟩ hj
        · exact Or.inr ⟨hzero, i, hi, hkind⟩

theorem oldest_ne_none {s : State} {kind : Entry → Bool} {i : Idx} (h : kind (s.arpTable i)) : oldest s kind ≠ none :=
  foldl_elder_isSome s kind _ _ (Or.inr ⟨rfl, i, List.mem_finRange i, h⟩)

theorem recyclable_ne_none {s : State} {i : Idx} (h : (s.arpTable i).Live) : recyclable s ≠ none := by
  intro hnone
  obtain ⟨hstable, hnone⟩ := Option.or_eq_none_iff.mp hnone
  obtain ⟨hpending, hqueue⟩ := Option.or_eq_none_iff.mp hnone
  cases hstate : (s.arpTable i).state with
  | empty => exact h hstate
  | pending =>
    cases hq : (s.arpTable i).q with
    | none => exact oldest_ne_none (i := i) (by simp [hstate, hq]) hpending
    | some p => exact oldest_ne_none (i := i) (by simp [hstate, hq]) hqueue
  | _ => exact oldest_ne_none (i := i) (by simp [hstate, EtharpState.known]) hstable

/-- An old entry has to go. -/
theorem etharpFindEntry_tryHard (s : State) (ipaddr : Ip) (netif : Nat) :
    (etharpFindEntry s ipaddr .tryHard netif).2 ≠ none := by
  unfold etharpFindEntry
  split
  · exact Option.some_ne_none _
  dsimp only
  split
  · exact Option.some_ne_none _
  · next hempty =>
    have hlive : (s.arpTable s.cachedEntry).Live := by
      have := List.find?_eq_none.mp hempty s.cachedEntry (List.mem_finRange _)
      simpa using this
    split
    · exact Option.some_ne_none _
    · next hnone => exact absurd hnone (recyclable_ne_none hlive)

/-- The hardware address is known. -/
def Knows (s : State) (netif : Nat) (ipaddr : Ip) (ethaddr : Mac) : Prop :=
  ∃ i, (s.arpTable i).On ipaddr netif ∧ (s.arpTable i).state.known ∧ (s.arpTable i).ethaddr = ethaddr

theorem settle_knows (s : State) {netif : Nat} {ipaddr : Ip} (ethaddr : Mac) {i : Idx} (h : (s.arpTable i).ipaddr = ipaddr) :
    Knows (setEntry s i ((s.arpTable i).settle netif ethaddr)) netif ipaddr ethaddr := by
  refine ⟨i, ?_⟩
  rw [setEntry_self]
  exact ⟨⟨h, rfl⟩, rfl, rfl⟩

theorem learn_knows (s : State) (netif : Netif) {ipaddr : Ip} (ethaddr : Mac) {i : Idx} (h : (s.arpTable i).ipaddr = ipaddr) :
    Knows (learn s netif ipaddr ethaddr i) netif.num ipaddr ethaddr := by
  rw [Knows, learn, (flush_table ..).1]
  exact settle_knows (hear s netif.num ipaddr ethaddr) ethaddr h

theorem flush_arpOut (s : State) (netif : Netif) (ethaddr : Mac) (ipaddr : Ip) (q : Option Nat) :
    (flush s netif ethaddr ipaddr q).arpOut = s.arpOut := by
  cases q <;> rfl

/-- What was heard is written to an entry that was just made for it. -/
theorem Fresh.settle_moves {s s' : State} {netif : Nat} {ipaddr : Ip} {ethaddr : Mac} {i : Idx} (h : Fresh s ipaddr netif s' i)
    (hheard : s.heard netif ipaddr = some ethaddr) :
    Moves s (setEntry s' i ((s'.arpTable i).settle netif ethaddr)) := by
  refine Relation.ReflTransGen.tail h.moves (Move.put (not_not.mpr h.state) (fun _ => ?_) rfl ?_)
  · show Absent s' (s'.arpTable i).ipaddr netif
    rw [h.on.1]
    exact h.absent
  · refine ⟨fun h0 => absurd rfl h0, fun _ => ?_, nofun, fun _ => ?_⟩
    · show 0 < ARP_MAXAGE
      decide
    · show s'.heard netif (s'.arpTable i).ipaddr = some ethaddr
      rw [h.on.1, h.heard, hheard]

/-- What an announcement does: nothing, or it is heard; and when an entry is there, or is
    made, it is written to the entry. -/
theorem etharpUpdateArpEntry_cases {s : State} (h : Inv s) (netif : Netif) (ipaddr : Ip) (ethaddr : Mac) (flag : Flag) :
    (nonUnicast ipaddr netif ∧ etharpUpdateArpEntry s netif ipaddr ethaddr flag = s) ∨
    (¬ nonUnicast ipaddr netif ∧ ∃ i, (s.arpTable i).Live ∧ (s.arpTable i).On ipaddr netif.num ∧
      etharpUpdateArpEntry s netif ipaddr ethaddr flag = learn s netif ipaddr ethaddr i) ∨
    (¬ nonUnicast ipaddr netif ∧ Absent s ipaddr netif.num ∧
      (etharpUpdateArpEntry s netif ipaddr ethaddr flag).heard = (hear s netif.num ipaddr ethaddr).heard ∧
      (etharpUpdateArpEntry s netif ipaddr ethaddr flag).out = s.out ∧
      (etharpUpdateArpEntry s netif ipaddr ethaddr flag).arpOut = s.arpOut ∧
      (flag = .tryHard → Knows (etharpUpdateArpEntry s netif ipaddr ethaddr flag) netif.num ipaddr ethaddr) ∧
      Moves (hear s netif.num ipaddr ethaddr) (etharpUpdateArpEntry s netif ipaddr ethaddr flag)) := by
  unfold etharpUpdateArpEntry
  split
  · next hnon => exact Or.inl ⟨hnon, rfl⟩
  next hun =>
  right
  cases hmatch : matching (hear s netif.num ipaddr ethaddr) ipaddr netif.num with
  | some i =>
    obtain ⟨hlive, hon⟩ : (s.arpTable i).Live ∧ (s.arpTable i).On ipaddr netif.num := of_matching hmatch
    rw [show etharpFindEntry (hear s netif.num ipaddr ethaddr) ipaddr flag netif.num =
      (hear s netif.num ipaddr ethaddr, some i) by simp only [etharpFindEntry, hmatch]]
    exact Or.inl ⟨hun, i, hlive, hon, rfl⟩
  | none =>
    right
    have habsent : Absent s ipaddr netif.num := absent_of_matching hmatch
    have hheard := hear_inv h ethaddr habsent
    rcases etharpFindEntry_cases hheard ipaddr flag netif.num with ⟨i, _, hlive, hon⟩ | ⟨heq, _⟩ | ⟨s', i, heq, _, hfresh⟩
    · exact absurd hon (habsent i hlive)
    · rw [heq]
      refine ⟨hun, habsent, rfl, rfl, rfl, ?_, Moves.refl _⟩
      rintro rfl
      exact absurd (by rw [heq]) (etharpFindEntry_tryHard (hear s netif.num ipaddr ethaddr) ipaddr netif.num)
    · rw [heq]
      have hq : (s'.arpTable i).q = none := (hfresh.moves.inv hheard).q_of_not_live (not_not.mpr hfresh.state)
      simp only [hq, flush]
      exact ⟨hun, habsent, hfresh.heard, hfresh.out, hfresh.arpOut, fun _ => settle_knows s' ethaddr hfresh.on.1,
        hfresh.settle_moves (hear_self s netif.num ipaddr ethaddr)⟩

theorem etharpUpdateArpEntry_moves {s : State} (h : Inv s) (netif : Netif) (ipaddr : Ip) (ethaddr : Mac) (flag : Flag) :
    Moves s (etharpUpdateArpEntry s netif ipaddr ethaddr flag) := by
  rcases etharpUpdateArpEntry_cases h netif ipaddr ethaddr flag with
    ⟨_, heq⟩ | ⟨_, i, hlive, hon, heq⟩ | ⟨_, habsent, _, _, _, _, hmoves⟩
  · rw [heq]
    exact Moves.refl s
  · rw [heq]
    exact Relation.ReflTransGen.single (Move.learn ethaddr hlive hon)
  · exact Relation.ReflTransGen.head (Move.hear ethaddr habsent) hmoves

theorem etharpInput_moves {s : State} (h : Inv s) (mem : Bool) (netif : Netif) (hdr : EtharpHdr) :
    Moves s (etharpInput s mem netif hdr) := by
  dsimp only [etharpInput]
  split
  · exact Moves.refl s
  split
  · exact Relation.ReflTransGen.tail (etharpUpdateArpEntry_moves h ..) (Move.quiet (etharpRaw_quiet ..))
  · exact etharpUpdateArpEntry_moves h ..

theorem rerequest_moves {s : State} (h : Inv s) (mem : Bool) (netif : Netif) {i : Idx} (hstate : (s.arpTable i).state = .stable)
    (hwDstAddr : Mac) : Moves s (rerequest s mem netif i hwDstAddr) := by
  have hquiet : Quiet s (etharpRequestDst s mem netif (s.arpTable i).ipaddr hwDstAddr).1 := etharpRaw_quiet ..
  dsimp only [rerequest]
  split
  · refine (Relation.ReflTransGen.single (Move.quiet hquiet)).tail ?_
    generalize (etharpRequestDst s mem netif (s.arpTable i).ipaddr hwDstAddr).1 = s1 at hquiet
    have hok := h.entry i
    rw [← hquiet.table, ← hquiet.heard] at hok
    rw [← hquiet.table] at hstate ⊢
    have hlive : (s1.arpTable i).Live := by rw [Entry.Live, hstate]; decide
    refine Move.touch hlive ⟨rfl, rfl⟩ rfl (Nat.le_refl _) ⟨fun h0 => ?_, fun _ => hok.age hlive, nofun, fun _ => hok.known ?_⟩
    · rw [hok.queue h0] at hstate
      cases hstate
    · rw [hstate]
      rfl
  · exact Relation.ReflTransGen.single (Move.quiet hquiet)

theorem sendIp_quiet (s : State) (netif : Netif) (dest : Mac) (hop : Option Ip) (q : Nat) :
    Quiet s (sendIp s netif dest hop q) := ⟨rfl, rfl, rfl, rfl⟩

theorem etharpOutputToArpIndex_moves {s : State} (h : Inv s) (mem : Bool) (netif : Netif) (q : Nat) (i : Idx) :
    Moves s (etharpOutputToArpIndex s mem netif q i) := by
  refine Relation.ReflTransGen.tail ?_ (Move.quiet (sendIp_quiet ..))
  split
  · next hstate =>
    split
    · exact rerequest_moves h mem netif hstate _
    split
    · exact rerequest_moves h mem netif hstate _
    · exact Moves.refl s
  · exact Moves.refl s

theorem pend_moves {s : State} (h : Inv s) {i : Idx} {netif : Nat}
    (hnew : ¬ (s.arpTable i).Live → (s.arpTable i).ctime = 0 ∧ Absent s (s.arpTable i).ipaddr netif) :
    Moves s (pend s i netif) ∧ ((pend s i netif).arpTable i).Live := by
  rw [pend]
  split
  · next hstate =>
    have hdead : ¬ (s.arpTable i).Live := not_not.mpr hstate
    obtain ⟨hctime, habsent⟩ := hnew hdead
    have hq := h.q_of_not_live hdead
    rw [setEntry_self]
    refine ⟨Relation.ReflTransGen.single (Move.put hdead (fun _ => habsent) hq
      ⟨fun _ => rfl, fun _ => ?_, fun _ => ?_, nofun⟩), nofun⟩
    · show (s.arpTable i).ctime < ARP_MAXAGE
      rw [hctime]
      decide
    · show (s.arpTable i).ctime < ARP_MAXPENDING
      rw [hctime]
      decide
  · next hstate => exact ⟨Moves.refl s, hstate⟩

theorem enqueue_moves (s : State) {i : Idx} (hlive : (s.arpTable i).Live) (hknown : ¬ (s.arpTable i).state.known)
    (keep : Option Nat) : Moves s (enqueue s i keep) := by
  cases keep with
  | none => exact Moves.refl s
  | some p =>
    have hpending : (s.arpTable i).state = .pending := by
      cases hstate : (s.arpTable i).state with
      | pending => rfl
      | empty => exact absurd hstate hlive
      | _ =>
        rw [hstate] at hknown
        exact absurd rfl hknown
    exact Relation.ReflTransGen.single (Move.keep p hpending)

theorem queryEntry_moves {s : State} (h : Inv s) (mem : Bool) (keep : Option Nat) (netif : Netif) (ipaddr : Ip) (q : Option Nat)
    {i : Idx} (hnew : ¬ (s.arpTable i).Live → (s.arpTable i).ctime = 0 ∧ Absent s (s.arpTable i).ipaddr netif.num) :
    Moves s (queryEntry s mem keep netif ipaddr q i) := by
  obtain ⟨hpend, hlive⟩ := pend_moves h hnew
  unfold queryEntry
  generalize pend s i netif.num = s1 at hpend hlive
  dsimp only
  generalize hs2 : (if (s.arpTable i).state = .empty ∨ q = none then (etharpRequest s1 mem netif ipaddr).1 else s1) = s2
  have hquiet : Quiet s1 s2 := by
    rw [← hs2]
    split
    · exact etharpRaw_quiet ..
    · exact ⟨rfl, rfl, rfl, rfl⟩
  have hmoves : Moves s s2 := Relation.ReflTransGen.tail hpend (Move.quiet hquiet)
  rw [← hquiet.table] at hlive
  cases q with
  | none => exact hmoves
  | some q =>
    dsimp only
    split
    · exact Relation.ReflTransGen.tail hmoves (Move.quiet ⟨rfl, rfl, rfl, rfl⟩)
    · next hknown => exact Relation.ReflTransGen.trans hmoves (enqueue_moves s2 hlive hknown keep)

theorem etharpQuery_moves {s : State} (h : Inv s) (mem : Bool) (keep : Option Nat) (netif : Netif) (ipaddr : Ip)
    (q : Option Nat) : Moves s (etharpQuery s mem keep netif ipaddr q) := by
  unfold etharpQuery
  split
  · exact Moves.refl s
  rcases etharpFindEntry_cases h ipaddr .tryHard netif.num with ⟨i, heq, hlive, _⟩ | ⟨heq, _⟩ | ⟨s', i, heq, _, hfresh⟩
  · rw [heq]
    exact queryEntry_moves h mem keep netif ipaddr q fun hdead => absurd hlive hdead
  · rw [heq]
    exact Moves.refl s
  · rw [heq]
    refine Relation.ReflTransGen.trans hfresh.moves (queryEntry_moves (hfresh.moves.inv h) mem keep netif ipaddr q fun _ => ?_)
    rw [hfresh.on.1]
    exact ⟨hfresh.ctime, hfresh.absent⟩

theorem etharpOutput_moves {s : State} (h : Inv s) (mem : Bool) (keep : Option Nat) (netif : Netif) (q : Nat) (ipaddr : Ip) :
    Moves s (etharpOutput s mem keep netif q ipaddr) := by
  unfold etharpOutput
  split
  · exact Relation.ReflTransGen.single (Move.quiet (sendIp_quiet ..))
  split
  · exact Relation.ReflTransGen.single (Move.quiet (sendIp_quiet ..))
  split
  · exact Moves.refl s
  split
  · exact etharpOutputToArpIndex_moves h ..
  split
  · next i _ =>
    have hinv : Inv { s with cachedEntry := i } := h.of_fields rfl rfl
    have hhint : Move s { s with cachedEntry := i } := Move.quiet ⟨rfl, rfl, rfl, rfl⟩
    exact Relation.ReflTransGen.head hhint (etharpOutputToArpIndex_moves hinv ..)
  · exact etharpQuery_moves h ..

theorem step_moves {s : State} (h : Inv s) (ev : Ev) : Moves s (step s ev) := by
  cases ev with
  | input mem netif hdr => exact etharpInput_moves h mem netif hdr
  | output mem keep netif q ipaddr => exact etharpOutput_moves h mem keep netif q ipaddr
  | query mem keep netif ipaddr q => exact etharpQuery_moves h mem keep netif ipaddr q
  | tmr netifs mem => exact foldl_moves (fun i hs => tmrEntry_moves netifs mem hs i) _ h
  | cleanupNetif netif => exact foldl_moves (fun i _ => cleanupEntry_moves netif i) _ h

/-! ## Over a run -/

/-- No entry is used, and no packet was taken yet. -/
def start : State :=
  ⟨fun _ => ⟨none, 0, 0, ethzero, 0, .empty⟩, ⟨0, by decide⟩, [], [], [], [], fun _ _ => none⟩

theorem start_inv : Inv start :=
  ⟨fun _ => entryOk_empty _ rfl rfl, fun _ _ hi => absurd rfl hi⟩

theorem start_accounted : Accounted start := by
  intro p
  have hnone : ∀ i, (start.arpTable i).q ≠ some p := fun _ => nofun
  rw [queued, List.count_eq_zero.mpr fun hp => (mem_slots.mp hp).elim hnone]
  rfl

theorem run_start_inv (evs : List Ev) : Inv (run step start evs) :=
  run_inv (I := Inv) step (fun _ ev hs => (step_moves hs ev).inv hs) start_inv evs

theorem run_start_accounted (evs : List Ev) : Accounted (run step start evs) :=
  (run_inv (I := fun s => Inv s ∧ Accounted s) step
    (fun _ ev hs => ⟨(step_moves hs.1 ev).inv hs.1, (step_moves hs.1 ev).accounted hs.1 hs.2⟩)
    ⟨start_inv, start_accounted⟩ evs).2

theorem cache_keeps_books (evs : List Ev) :
    (∀ i j, ((run step start evs).arpTable i).Live → ((run step start evs).arpTable j).Live →
      ((run step start evs).arpTable i).ipaddr = ((run step start evs).arpTable j).ipaddr →
      ((run step start evs).arpTable i).netif = ((run step start evs).arpTable j).netif → i = j) ∧
    (∀ i, ((run step start evs).arpTable i).q ≠ none → ((run step start evs).arpTable i).state = .pending) ∧
    ∀ p, (run step start evs).taken.count p = (run step start evs).freed.count p + (queued (run step start evs)).count p := by
  have hinv := run_start_inv evs
  exact ⟨fun i j hi hj hip hnetif => hinv.unique i j hi hj ⟨hip.symm, hnetif.symm⟩, fun i => (hinv.entry i).queue,
    run_start_accounted evs⟩

/-! ## Where packets go -/

/-- The frame goes to the hardware address of its next hop. -/
def IpFrame.To (heard : Nat → Ip → Option Mac) (f : IpFrame) : Prop :=
  ∀ ipaddr, f.hop = some ipaddr → heard f.netif ipaddr = some f.dest

/-- Nothing is heard, and what is sent goes to what was heard. -/
structure Sends (s s' : State) : Prop where
  heard : s'.heard = s.heard
  out : ∃ fs, s'.out = s.out ++ fs ∧ ∀ f ∈ fs, f.To s.heard

theorem Sends.of_same {s s' : State} (hheard : s'.heard = s.heard) (hout : s'.out = s.out) : Sends s s' :=
  ⟨hheard, [], by rw [hout, List.append_nil], nofun⟩

theorem Sends.refl (s : State) : Sends s s := Sends.of_same rfl rfl

theorem Sends.trans {s s' s'' : State} (h : Sends s s') (h' : Sends s' s'') : Sends s s'' := by
  obtain ⟨fs, hfs, hto⟩ := h.out
  obtain ⟨fs', hfs', hto'⟩ := h'.out
  refine ⟨h'.heard.trans h.heard, fs ++ fs', by rw [hfs', hfs, List.append_assoc], fun f hf => ?_⟩
  rcases List.mem_append.mp hf with hf | hf
  · exact hto f hf
  · have := hto' f hf
    rwa [h.heard] at this

theorem sendIp_sends (s : State) (netif : Netif) {dest : Mac} {hop : Option Ip} (q : Nat)
    (h : ∀ ipaddr, hop = some ipaddr → s.heard netif.num ipaddr = some dest) : Sends s (sendIp s netif dest hop q) := by
  refine ⟨rfl, _, rfl, fun f hf => ?_⟩
  rw [List.mem_singleton.mp hf]
  exact h

theorem etharpRaw_sends (s : State) (mem : Bool) (netif : Netif) (ethdst hwdst : Mac) (ipdst : Ip) (opcode : UInt16) :
    Sends s (etharpRaw s mem netif ethdst hwdst ipdst opcode).1 := by
  rw [etharpRaw]
  split <;> exact Sends.of_same rfl rfl

theorem tmrEntry_sends (netifs : Nat → Netif) (mem : Idx → Bool) (s : State) (i : Idx) : Sends s (tmrEntry netifs mem s i) := by
  dsimp only [tmrEntry]
  split
  · exact Sends.refl s
  split
  · exact Sends.of_same rfl rfl
  split
  · exact Sends.of_same rfl rfl
  · exact Sends.of_same rfl rfl
  · have holder : Sends s (setEntry s i { s.arpTable i with ctime := (s.arpTable i).ctime + 1 }) := Sends.of_same rfl rfl
    exact holder.trans (etharpRaw_sends ..)
  · exact Sends.of_same rfl rfl

theorem cleanupEntry_sends (netif : Nat) (s : State) (i : Idx) : Sends s (cleanupEntry netif s i) := by
  rw [cleanupEntry]
  split <;> exact Sends.of_same rfl rfl

theorem foldl_sends {f : State → Idx → State} (hf : ∀ s i, Sends s (f s i)) (l : List Idx) (s : State) :
    Sends s (l.foldl f s) := by
  induction l generalizing s with
  | nil => exact Sends.refl s
  | cons i l ih => exact (hf s i).trans (ih _)

theorem rerequest_out (s : State) (mem : Bool) (netif : Netif) (i : Idx) (hwDstAddr : Mac) :
    (rerequest s mem netif i hwDstAddr).out = s.out ∧ (rerequest s mem netif i hwDstAddr).heard = s.heard := by
  simp only [rerequest, etharpRequestDst, etharpRaw]
  cases mem <;> exact ⟨rfl, rfl⟩

theorem etharpOutputToArpIndex_out (s : State) (mem : Bool) (netif : Netif) (q : Nat) (i : Idx) :
    (etharpOutputToArpIndex s mem netif q i).out =
        s.out ++ [⟨netif.num, (s.arpTable i).ethaddr, some (s.arpTable i).ipaddr, q⟩] ∧
      (etharpOutputToArpIndex s mem netif q i).heard = s.heard := by
  dsimp only [etharpOutputToArpIndex, sendIp]
  split
  · split
    · rw [(rerequest_out ..).1, (rerequest_out ..).2]
      exact ⟨rfl, rfl⟩
    split
    · rw [(rerequest_out ..).1, (rerequest_out ..).2]
      exact ⟨rfl, rfl⟩
    · exact ⟨rfl, rfl⟩
  · exact ⟨rfl, rfl⟩

theorem etharpOutputToArpIndex_sends {s : State} (h : Inv s) (mem : Bool) (netif : Netif) (q : Nat) {i : Idx}
    (hknown : (s.arpTable i).state.known) (hnetif : (s.arpTable i).netif = netif.num) :
    Sends s (etharpOutputToArpIndex s mem netif q i) := by
  obtain ⟨hout, hheard⟩ := etharpOutputToArpIndex_out s mem netif q i
  refine ⟨hheard, _, hout, fun f hf ipaddr hip => ?_⟩
  rw [List.mem_singleton.mp hf] at hip ⊢
  have hlast := (h.entry i).known hknown
  rw [hnetif] at hlast
  rw [← Option.some.inj hip]
  exact hlast

theorem pend_known {s : State} {i : Idx} {netif : Nat} (h : ((pend s i netif).arpTable i).state.known) :
    (pend s i netif).arpTable i = s.arpTable i := by
  rw [pend] at h ⊢
  split at h
  · rw [setEntry_self] at h
    cases h
  · next hlive => rw [if_neg hlive]

theorem queryEntry_sends {s : State} (h : Inv s) (mem : Bool) (keep : Option Nat) (netif : Netif) {ipaddr : Ip} (q : Option Nat)
    {i : Idx} (hon : (s.arpTable i).On ipaddr netif.num) : Sends s (queryEntry s mem keep netif ipaddr q i) := by
  have hpend : Sends s (pend s i netif.num) := by
    rw [pend]
    split <;> exact Sends.of_same rfl rfl
  have hsame := @pend_known s i netif.num
  unfold queryEntry
  generalize pend s i netif.num = s1 at hpend hsame
  dsimp only
  generalize hs2 : (if (s.arpTable i).state = .empty ∨ q = none then (etharpRequest s1 mem netif ipaddr).1 else s1) = s2
  have hask : Sends s1 s2 ∧ Quiet s1 s2 := by
    rw [← hs2]
    split
    · exact ⟨etharpRaw_sends .., etharpRaw_quiet ..⟩
    · exact ⟨Sends.refl s1, rfl, rfl, rfl, rfl⟩
  have hsends : Sends s s2 := hpend.trans hask.1
  rw [← hask.2.table] at hsame
  cases q with
  | none => exact hsends
  | some q =>
    dsimp only
    split
    · next hknown =>
      refine hsends.trans ⟨rfl, _, rfl, fun f hf ip hip => ?_⟩
      rw [List.mem_singleton.mp hf] at hip ⊢
      have heq := hsame hknown
      have hheard := (h.entry i).known (heq ▸ hknown)
      rw [hon.1, hon.2, ← heq, ← hsends.heard] at hheard
      rw [← Option.some.inj hip]
      exact hheard
    · cases keep with
      | none => exact hsends
      | some p => exact hsends.trans (Sends.of_same rfl rfl)

theorem etharpQuery_sends {s : State} (h : Inv s) (mem : Bool) (keep : Option Nat) (netif : Netif) (ipaddr : Ip)
    (q : Option Nat) : Sends s (etharpQuery s mem keep netif ipaddr q) := by
  unfold etharpQuery
  split
  · exact Sends.refl s
  rcases etharpFindEntry_cases h ipaddr .tryHard netif.num with ⟨i, heq, _, hon⟩ | ⟨heq, _⟩ | ⟨s', i, heq, _, hfresh⟩
  · rw [heq]
    exact queryEntry_sends h mem keep netif q hon
  · rw [heq]
    exact Sends.refl s
  · rw [heq]
    exact (Sends.of_same hfresh.heard hfresh.out).trans (queryEntry_sends (hfresh.moves.inv h) mem keep netif q hfresh.on)

theorem of_isFor {e : Entry} {netif : Nat} {dstAddr : Ip} (h : isFor e netif dstAddr) : e.state.known ∧ e.netif = netif := by
  simp only [isFor, Bool.and_eq_true, decide_eq_true_eq] at h
  exact h.1

theorem etharpOutput_sends {s : State} (h : Inv s) (mem : Bool) (keep : Option Nat) (netif : Netif) (q : Nat) (ipaddr : Ip) :
    Sends s (etharpOutput s mem keep netif q ipaddr) := by
  unfold etharpOutput
  split
  · exact sendIp_sends s netif q nofun
  split
  · exact sendIp_sends s netif q nofun
  split
  · exact Sends.refl s
  split
  · next hfor => exact etharpOutputToArpIndex_sends h mem netif q (of_isFor hfor).1 (of_isFor hfor).2
  split
  · next i hi =>
    have hfound := List.find?_some hi
    have hfor := of_isFor hfound
    have hinv : Inv { s with cachedEntry := i } := h.of_fields rfl rfl
    have hhint : Sends s { s with cachedEntry := i } := Sends.of_same rfl rfl
    exact hhint.trans (etharpOutputToArpIndex_sends hinv mem netif q hfor.1 hfor.2)
  · exact etharpQuery_sends h ..

/-- What an update hears, and what it sends. -/
theorem etharpUpdateArpEntry_sends {s : State} (h : Inv s) (netif : Netif) (ipaddr : Ip) (ethaddr : Mac) (flag : Flag) :
    Sends (if nonUnicast ipaddr netif then s else hear s netif.num ipaddr ethaddr)
      (etharpUpdateArpEntry s netif ipaddr ethaddr flag) := by
  rcases etharpUpdateArpEntry_cases h netif ipaddr ethaddr flag with
    ⟨hnon, heq⟩ | ⟨hun, i, hlive, hon, heq⟩ | ⟨hun, _, hheard, hout, _⟩
  · rw [if_pos hnon, heq]
    exact Sends.refl s
  · rw [if_neg hun, heq]
    rw [learn]
    cases (s.arpTable i).q with
    | none => exact Sends.of_same rfl rfl
    | some p =>
      refine ⟨rfl, _, rfl, fun f hf ip hip => ?_⟩
      rw [List.mem_singleton.mp hf] at hip ⊢
      rw [← Option.some.inj hip]
      exact hear_self ..
  · rw [if_neg hun]
    exact Sends.of_same hheard hout

/-- The ARP packet of an event that is heard: interface, address and hardware address. -/
def announcement : Ev → Option (Nat × Ip × Mac)
  | .input _ netif hdr =>
    if hdr.valid && !nonUnicast hdr.sipaddr netif then some (netif.num, hdr.sipaddr, hdr.shwaddr) else none
  | _ => none

/-- The hardware address that was announced last for an address on an interface. -/
def announced (evs : List Ev) (netif : Nat) (ipaddr : Ip) : Option Mac :=
  (evs.filterMap announcement).reverse.findSome? fun a => if a.1 = netif ∧ a.2.1 = ipaddr then some a.2.2 else none

def hearEv (s : State) (ev : Ev) : State :=
  match announcement ev with
  | none => s
  | some (netif, ipaddr, ethaddr) => hear s netif ipaddr ethaddr

theorem hearEv_out (s : State) (ev : Ev) : (hearEv s ev).out = s.out := by
  rw [hearEv]
  split <;> rfl

theorem etharpInput_sends {s : State} (h : Inv s) (mem : Bool) (netif : Netif) (hdr : EtharpHdr) :
    Sends (hearEv s (.input mem netif hdr)) (etharpInput s mem netif hdr) := by
  dsimp only [etharpInput]
  split
  · next hbad =>
    simp only [Bool.not_eq_true'] at hbad
    simp only [hearEv, announcement, hbad, Bool.false_and, Bool.false_eq_true, if_false]
    exact Sends.refl s
  · next hgood =>
    have hvalid : hdr.valid = true := by simpa using hgood
    have hsame : (if nonUnicast hdr.sipaddr netif then s else hear s netif.num hdr.sipaddr hdr.shwaddr) =
        hearEv s (.input mem netif hdr) := by
      cases hnon : nonUnicast hdr.sipaddr netif <;> simp [hearEv, announcement, hvalid, hnon]
    have hupdate : ∀ flag, Sends (hearEv s (.input mem netif hdr))
        (etharpUpdateArpEntry s netif hdr.sipaddr hdr.shwaddr flag) := by
      intro flag
      rw [← hsame]
      exact etharpUpdateArpEntry_sends h ..
    split
    · exact (hupdate _).trans (etharpRaw_sends ..)
    · exact hupdate _

theorem step_sends {s : State} (h : Inv s) (ev : Ev) : Sends (hearEv s ev) (step s ev) := by
  cases ev with
  | input mem netif hdr => exact etharpInput_sends h mem netif hdr
  | output mem keep netif q ipaddr => exact etharpOutput_sends h mem keep netif q ipaddr
  | query mem keep netif ipaddr q => exact etharpQuery_sends h mem keep netif ipaddr q
  | tmr netifs mem => exact foldl_sends (tmrEntry_sends netifs mem) _ s
  | cleanupNetif netif => exact foldl_sends (cleanupEntry_sends netif) _ s

theorem hear_heard (s : State) (netif n : Nat) (ipaddr a : Ip) (ethaddr : Mac) :
    (hear s netif ipaddr ethaddr).heard n a = if netif = n ∧ ipaddr = a then some ethaddr else s.heard n a := by
  split
  · next h => rw [← h.1, ← h.2, hear_self]
  · next h => exact hear_ne s ethaddr fun h0 => h ⟨h0.2.symm, h0.1.symm⟩

theorem run_heard (evs : List Ev) : (run step start evs).heard = announced evs := by
  induction evs using List.reverseRecOn with
  | nil => rfl
  | append_singleton evs ev ih =>
    rw [run_snoc, (step_sends (run_start_inv evs) ev).heard]
    funext netif ipaddr
    cases ha : announcement ev with
    | none => simp [hearEv, ha, ih, announced]
    | some a =>
      simp only [hearEv, ha, hear_heard, ih, announced, List.filterMap_append, List.filterMap_cons_some ha,
        List.filterMap_nil, List.reverse_append, List.reverse_singleton, List.singleton_append, List.findSome?_cons]
      split
      · rfl
      · rfl

theorem sent_to_last_heard (evs : List Ev) (ev : Ev) {f : IpFrame} {ipaddr : Ip}
    (hf : f ∈ (step (run step start evs) ev).out.drop (run step start evs).out.length) (hhop : f.hop = some ipaddr) :
    announced (evs ++ [ev]) f.netif ipaddr = some f.dest := by
  have hsends := step_sends (run_start_inv evs) ev
  obtain ⟨fs, hfs, hto⟩ := hsends.out
  rw [hearEv_out] at hfs
  rw [hfs, List.drop_left] at hf
  rw [← run_heard, run_snoc, hsends.heard]
  exact hto f hf ipaddr hhop

/-- The CE, and the PC at the other end of the cable. -/
def ce : Netif := ⟨0, 0xc0a80102, 0xffffff00, 0xc0a80101, true, [2, 0, 0, 0, 0, 2]⟩

def pcReply : EtharpHdr := ⟨1, 0x0800, 6, 4, ARP_REPLY, [2, 0, 0, 0, 0, 1], 0xc0a80101, [2, 0, 0, 0, 0, 2], 0xc0a80102⟩

/-- A packet waits for the answer of the gateway, and is sent when it comes. -/
theorem waiting_sent_to_gateway :
    announced [.output true (some 7) ce 7 0x08080808, .input true ce pcReply] 0 0xc0a80101 = some [2, 0, 0, 0, 0, 1] :=
  sent_to_last_heard [.output true (some 7) ce 7 0x08080808] (.input true ce pcReply)
    (f := ⟨0, [2, 0, 0, 0, 0, 1], some 0xc0a80101, 7⟩) (by decide) rfl

end Nanotube.Lwip.Arp
