/-
  Nanotube.Device.Filter — does the frame filter look only at the frame? (src/device/ecm.c
  `ecm_read_callback`, `ecm_schedule_read`)

  The buffer is `malloc(netif->mtu)`, and the transfer fills the first `size` bytes of it.
  The EtherType, at the offsets 12 and 13, is read before `size` is looked at, so a short
  transfer is judged by what the heap held, and a buffer of less than 14 bytes is read past
  its end.

  Two completions agree when only the bytes behind the transfer differ (`Agree`). Proved:
  for every netif, size and content, all completions that agree give the same queue and
  nothing outside the buffer is read, if and only if the buffer has 14 bytes and the
  EtherType was received, or does not matter: an empty transfer, a byte 12 that neither
  type starts with, no pbuf, or a full queue (`filter_iff`).
-/

import Nanotube.Device.Delivery

namespace Nanotube.Device.Ecm

open Nanotube.Device.Queue

variable (USB_TRANSFER_FAILED : Nat)

/-- The test of `ecm_read_callback`. -/
def Completion.Wanted (c : Completion) : Prop := c.type ≠ PP_HTONS ETHTYPE_IPV6 ∧ c.type ≠ 0x9988 ∧ c.size ≠ 0

instance (c : Completion) : Decidable c.Wanted := inferInstanceAs (Decidable (_ ∧ _))

theorem Completion.wanted_iff (c : Completion) : c.Wanted ↔
    c.size ≠ 0 ∧ ¬ (c.data 12 = 0x86 ∧ c.data 13 = 0xDD) ∧ ¬ (c.data 12 = 0x88 ∧ c.data 13 = 0x99) :=
  wanted_bytes c

/-- The offsets `ecm_read_callback` reads: the EtherType, and the bytes `pbuf_take` copies. -/
def Completion.reads (c : Completion) : List Nat :=
  [12, 13] ++ if c.Wanted ∧ c.pbufAlloc = true then List.range (c.size % 65536) else []

/-- Two completions of one read that differ only in what the rest of the buffer, of `mtu`
    bytes, held. -/
structure Agree (mtu : Nat) (c c' : Completion) : Prop where
  status : c'.status = c.status
  size : c'.size = c.size
  pbufAlloc : c'.pbufAlloc = c.pbufAlloc
  read : c'.read = c.read
  received : ∀ i < c.size, c'.data i = c.data i
  outside : ∀ i, mtu ≤ i → c'.data i = c.data i

/-- The queue after the callback depends on what was received alone. -/
def Determined (n : Netif) (c : Completion) : Prop :=
  ∀ c', Agree n.mtu.toNat c c' →
    (ecmReadCallback USB_TRANSFER_FAILED c' n).2.queue = (ecmReadCallback USB_TRANSFER_FAILED c n).2.queue

/-- `queue_add` refuses. -/
def Full {α : Type} (q : QueueT α) : Prop :=
  (q.first = q.last + 1 ∧ queueEmpty q = false) ∨ (q.first = 0 ∧ q.last = (QUEUE_NUM_ELEMS : Int) - 1)

instance {α : Type} (q : QueueT α) : Decidable (Full q) := inferInstanceAs (Decidable (_ ∨ _))

/-! ## What is queued -/

theorem queueAdd_full {α : Type} {q : QueueT α} (h : Full q) (x : Option α) : queueAdd q x = (false, q) := if_pos h

theorem queueAdd_room {α : Type} {q : QueueT α} (h : ¬ Full q) (x : Option α) :
    (queueAdd q x).2.last = (q.last + 1).tmod 16 := by
  have hnot : ¬ ((q.first = q.last + 1 ∧ queueEmpty q = false) ∨
      (q.first = 0 ∧ q.last = (QUEUE_NUM_ELEMS : Int) - 1)) := h
  rw [queueAdd, if_neg hnot]
  rfl

/-- An element that is added moves `last`. -/
theorem queueAdd_ne {α : Type} {q : QueueT α} (h : ¬ Full q) (x : Option α) : (queueAdd q x).2 ≠ q := by
  intro heq
  have hlast := queueAdd_room h x
  have hmod := Int.tmod_add_mul_tdiv (q.last + 1) 16
  rw [heq] at hlast
  omega

/-- A wanted frame is queued when a pbuf is there for it and the queue has room. -/
theorem callback_queue (c : Completion) (n : Netif) :
    (ecmReadCallback USB_TRANSFER_FAILED c n).2.queue =
      if c.Wanted ∧ c.pbufAlloc = true then (queueAdd n.queue (some (c.pbuf n.nextPbuf))).2 else n.queue := by
  rw [(readCallback_frames USB_TRANSFER_FAILED c n).queue]
  by_cases hw : c.Wanted
  · have hw' : c.type ≠ PP_HTONS ETHTYPE_IPV6 ∧ c.type ≠ 0x9988 ∧ c.size ≠ 0 := hw
    unfold enqueue
    rw [if_pos hw']
    by_cases ha : c.pbufAlloc = true
    · have hboth : c.Wanted ∧ c.pbufAlloc = true := ⟨hw, ha⟩
      rw [if_pos ha, if_pos hboth]
      dsimp only
      split <;> rfl
    · rw [if_neg ha, if_neg fun h => ha h.2]
  · have hw' : ¬ (c.type ≠ PP_HTONS ETHTYPE_IPV6 ∧ c.type ≠ 0x9988 ∧ c.size ≠ 0) := hw
    rw [enqueue, if_neg hw', if_neg fun h => hw h.1]

/-- What the callback does depends on the bytes it reads. -/
theorem callback_reads (c : Completion) {data : Nat → UInt8} (h : ∀ i ∈ c.reads, data i = c.data i) (n : Netif) :
    ecmReadCallback USB_TRANSFER_FAILED { c with data := data } n = ecmReadCallback USB_TRANSFER_FAILED c n := by
  have htype : Completion.type { c with data := data } = c.type := by
    simp only [Completion.type, h 12 (by simp [Completion.reads]), h 13 (by simp [Completion.reads])]
  have hpbuf : c.Wanted → c.pbufAlloc = true → ∀ id, Completion.pbuf { c with data := data } id = c.pbuf id := by
    intro hw ha id
    simp only [Completion.pbuf, Pbuf.mk.injEq, true_and]
    refine List.map_congr_left fun i hi => h i ?_
    rw [Completion.reads, if_pos ⟨hw, ha⟩]
    exact List.mem_append_right _ hi
  have henqueue : enqueue { c with data := data } n = enqueue c n := by
    unfold enqueue
    rw [htype]
    split
    next hw =>
      dsimp only
      split
      next ha => rw [hpbuf hw ha]
      next => rfl
    next => rfl
  simp only [ecmReadCallback, henqueue]

/-! ## Completions that agree -/

theorem pbuf_agree {mtu : Nat} {c c' : Completion} (h : Agree mtu c c') (id : Nat) : c'.pbuf id = c.pbuf id := by
  have hle : c.size % 65536 ≤ c.size := Nat.mod_le _ _
  unfold Completion.pbuf
  rw [h.size, Pbuf.mk.injEq]
  refine ⟨rfl, List.map_congr_left fun i hi => ?_⟩
  exact h.received i (Nat.lt_of_lt_of_le (List.mem_range.mp hi) hle)

/-- When the test comes out the same, so does the queue. -/
theorem queue_agree {n : Netif} {c c' : Completion} (h : Agree n.mtu.toNat c c') (hw : c'.Wanted ↔ c.Wanted) :
    (ecmReadCallback USB_TRANSFER_FAILED c' n).2.queue = (ecmReadCallback USB_TRANSFER_FAILED c n).2.queue := by
  simp only [callback_queue, hw, h.pbufAlloc, pbuf_agree h]

/-- `c` with `f` in the part of the buffer that was not received. -/
def Completion.over (c : Completion) (mtu : Nat) (f : Nat → UInt8) : Completion :=
  { c with data := fun i => if i < c.size ∨ mtu ≤ i then c.data i else f i }

theorem agree_over (c : Completion) (mtu : Nat) (f : Nat → UInt8) : Agree mtu c (c.over mtu f) where
  status := rfl
  size := rfl
  pbufAlloc := rfl
  read := rfl
  received _ hi := if_pos (Or.inl hi)
  outside _ hi := if_pos (Or.inr hi)

/-- With room for the frame, the test has to come out the same for all that agree. -/
theorem wanted_of_determined {n : Netif} {c c₁ c₂ : Completion} (hd : Determined USB_TRANSFER_FAILED n c)
    (ha : c.pbufAlloc = true) (hroom : ¬ Full n.queue) (h₁ : Agree n.mtu.toNat c c₁) (h₂ : Agree n.mtu.toNat c c₂)
    (hw : c₁.Wanted) : c₂.Wanted := by
  have heq := (hd c₁ h₁).trans (hd c₂ h₂).symm
  rw [callback_queue, callback_queue, if_pos ⟨hw, h₁.pbufAlloc.trans ha⟩] at heq
  by_contra hn
  rw [if_neg fun h => hn h.1] at heq
  exact queueAdd_ne hroom _ heq

/-! ## The filter -/

/-- The EtherType was received, or does not matter. -/
def Decided (n : Netif) (c : Completion) : Prop :=
  c.size = 0 ∨ 14 ≤ c.size ∨ (c.size = 13 ∧ c.data 12 ≠ 0x86 ∧ c.data 12 ≠ 0x88) ∨ c.pbufAlloc = false ∨ Full n.queue

theorem determined_of_decided {n : Netif} {c : Completion} (h : Decided n c) : Determined USB_TRANSFER_FAILED n c := by
  intro c' hc
  rcases h with h | h | ⟨h, h86, h88⟩ | h | h
  · apply queue_agree USB_TRANSFER_FAILED hc
    simp [Completion.Wanted, hc.size, h]
  · apply queue_agree USB_TRANSFER_FAILED hc
    rw [c'.wanted_iff, c.wanted_iff, hc.size, hc.received 12 (by omega), hc.received 13 (by omega)]
  · apply queue_agree USB_TRANSFER_FAILED hc
    rw [c'.wanted_iff, c.wanted_iff, hc.size, hc.received 12 (by omega)]
    simp [h86, h88]
  · simp only [callback_queue, hc.pbufAlloc, h, Bool.false_eq_true, and_false, if_false]
  · simp only [callback_queue, queueAdd_full h, ite_self]

theorem over_data {c : Completion} {mtu : Nat} (f : Nat → UInt8) {i : Nat} (hs : c.size ≤ i) (hm : i < mtu) :
    (c.over mtu f).data i = f i := if_neg (by omega)

/-- A short transfer leaves the type, or its second byte, to the heap. -/
theorem decided_of_determined {n : Netif} {c : Completion} (hm : 14 ≤ n.mtu.toNat)
    (hd : Determined USB_TRANSFER_FAILED n c) : Decided n c := by
  by_contra hn
  simp only [Decided, not_or, Bool.not_eq_false] at hn
  obtain ⟨h0, h14, h13, ha, hroom⟩ := hn
  have hagree := agree_over c n.mtu.toNat
  have hall : ∀ f g, (c.over n.mtu.toNat f).Wanted → (c.over n.mtu.toNat g).Wanted := fun f g =>
    wanted_of_determined USB_TRANSFER_FAILED hd ha hroom (hagree f) (hagree g)
  have hsize : ∀ f, (c.over n.mtu.toNat f).size = c.size := fun _ => rfl
  have hlast : ∀ f, (c.over n.mtu.toNat f).data 13 = f 13 := fun f => over_data f (by omega) (by omega)
  simp only [Completion.wanted_iff, hsize, hlast] at hall
  by_cases h12 : c.size = 13
  · have hkept : ∀ f, (c.over n.mtu.toNat f).data 12 = c.data 12 := fun f => if_pos (Or.inl (by omega))
    simp only [hkept] at hall
    -- the second byte makes it wanted, or the type that the first one starts
    by_cases h86 : c.data 12 = 0x86
    · exact (hall (fun _ => 0) (fun _ => 0xDD) ⟨h0, by simp, by simp [h86]⟩).2.1 ⟨h86, rfl⟩
    · have h88 : c.data 12 = 0x88 := by
        by_contra h
        exact h13 ⟨h12, h86, h⟩
      exact (hall (fun _ => 0) (fun _ => 0x99) ⟨h0, by simp [h88], by simp⟩).2.2 ⟨h88, rfl⟩
  · have hfree : ∀ f, (c.over n.mtu.toNat f).data 12 = f 12 := fun f => over_data f (by omega) (by omega)
    simp only [hfree] at hall
    exact (hall (fun _ => 0) (fun i => if i = 12 then 0x86 else 0xDD) ⟨h0, by simp, by simp⟩).2.1 ⟨rfl, rfl⟩

theorem reads_inside_buffer {n : Netif} {c : Completion} (hs : c.size ≤ n.mtu.toNat) :
    (∀ i ∈ c.reads, i < n.mtu.toNat) ↔ 14 ≤ n.mtu.toNat := by
  constructor
  · intro h
    have h13 : 13 < n.mtu.toNat := h 13 (by simp [Completion.reads])
    omega
  · intro hm i hi
    have hle : c.size % 65536 ≤ c.size := Nat.mod_le _ _
    rcases List.mem_append.mp hi with hi | hi
    · simp only [List.mem_cons, List.not_mem_nil, or_false] at hi
      omega
    · split at hi
      · have := List.mem_range.mp hi
        omega
      · cases hi

/-- For every netif and transfer that fits its buffer: the filter depends on the received
    bytes only and reads nothing outside the buffer, if and only if the buffer holds an
    Ethernet header and the EtherType was received or does not matter. -/
theorem filter_iff (n : Netif) {c : Completion} (hs : c.size ≤ n.mtu.toNat) :
    (Determined USB_TRANSFER_FAILED n c ∧ ∀ i ∈ c.reads, i < n.mtu.toNat) ↔ 14 ≤ n.mtu.toNat ∧ Decided n c := by
  rw [reads_inside_buffer hs]
  constructor
  · rintro ⟨hd, hm⟩
    exact ⟨hm, decided_of_determined USB_TRANSFER_FAILED hm hd⟩
  · rintro ⟨hm, h⟩
    exact ⟨determined_of_decided USB_TRANSFER_FAILED h, hm⟩

/-- A netif that is up, with room in its queue and a buffer of `mtu` bytes. -/
def upNetif (mtu : UInt16) : Netif := (ecmInitNetif goodInit { malloced none with stateMtu := mtu }).2

/-- A transfer of `size` bytes into a buffer that held `stale`. -/
def transfer (size : Nat) (stale : Nat → UInt8) : Completion :=
  ⟨0, size, fun i => if i < size then 0 else stale i, true, goodRead⟩

theorem a_whole_header_is_decided :
    Determined 0x40 (upNetif 1514) (transfer 14 fun _ => 0) ∧
      ∀ i ∈ (transfer 14 fun _ => 0).reads, i < (upNetif 1514).mtu.toNat :=
  (filter_iff 0x40 (upNetif 1514) (c := transfer 14 fun _ => 0) (by decide)).mpr
    ⟨by decide, Or.inr (Or.inl (by decide))⟩

/-- Ten bytes are queued over zeros and dropped over an old IPv6 header; a device with
    segments of 8 bytes has the byte 13 of its 8-byte buffer read. -/
theorem a_short_transfer_is_filtered_by_stale_bytes :
    (ecmReadCallback 0x40 (transfer 10 fun _ => 0) (upNetif 1514)).2.queue.last = 0 ∧
      (ecmReadCallback 0x40 (transfer 10 fun i => if i = 12 then 0x86 else 0xDD) (upNetif 1514)).2.queue.last = -1 ∧
      ¬ Determined 0x40 (upNetif 1514) (transfer 10 fun _ => 0) ∧
      13 ∈ (transfer 8 fun _ => 0).reads ∧ (upNetif 8).mtu.toNat = 8 := by
  refine ⟨by decide, by decide, ?_, by decide, by decide⟩
  intro h
  have hbad : ¬ Decided (upNetif 1514) (transfer 10 fun _ => 0) := by
    unfold Decided
    decide
  exact hbad (decided_of_determined 0x40 (by decide) h)

end Nanotube.Device.Ecm
