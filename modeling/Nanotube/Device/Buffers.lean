/-
  Nanotube.Device.Buffers — who owns a read buffer? (src/device/ecm.c
  `ecm_schedule_read`, `clear_halt`, `ecm_read_callback`, `ecm_init_netif`)

  `read_data` is the owner of the buffer, the sign that a read is in flight, and the
  guard against a second one. A refused read leaves its buffer there with no transfer; a
  `netif_state_t` that malloc returned with anything but NULL there never gets a buffer
  at all. Neither gives a buffer two owners.

  Proved: the buffers allocated before the current one are all freed, in the order of
  their allocation, and no transfer is pending but that of the current one (`Owned`,
  `step_owned`), in any order of initialisations, completions and `clear_halt`; so each
  buffer has one owner all along (`one_owner`).
-/

import Mathlib.Data.List.Nodup
import Nanotube.Device.ReadPath

namespace Nanotube.Device.Ecm

open Nanotube.Device.Queue Nanotube.Lib.Runs

variable (USB_TRANSFER_FAILED : Nat)

/-- What happens to the read path of a netif. -/
inductive ReadEv where
  | init (o : InitOutcome)
  | complete (c : Completion)
  | clearHalt (o : ReadOutcome)

/-- A completion needs a pending transfer, as in `step`. -/
def readStep (n : Netif) : ReadEv → Netif
  | .init o => (ecmInitNetif o n).2
  | .complete c => step USB_TRANSFER_FAILED n (.complete c)
  | .clearHalt o => clearHalt o n

/-- At most one transfer is pending, into `read_data`, which is not freed; and each buffer
    allocated was freed once, or is in `read_data` and was not. -/
structure OneOwner (n : Netif) : Prop where
  single : n.pending.length ≤ 1
  inFlight : ∀ b ∈ n.pending, n.readData = some b ∧ b ∉ n.freedBufs
  owned : ∀ b < n.nextBuf, (n.freedBufs.count b = 1 ∧ n.readData ≠ some b) ∨
    (n.freedBufs.count b = 0 ∧ n.readData = some b)

/-! ## The invariant -/

/-- Nothing has been allocated, and `read_data` is what it was; or all buffers were freed
    and it is NULL; or it has the newest buffer, the older ones were freed, and only a read
    into it can be pending. -/
def Owned (n : Netif) : Prop :=
  (n.pending = [] ∧ n.nextBuf = 0 ∧ n.freedBufs = []) ∨
    (n.pending = [] ∧ n.readData = none ∧ n.freedBufs = List.range n.nextBuf) ∨
    ∃ b, n.readData = some b ∧ n.nextBuf = b + 1 ∧ n.freedBufs = List.range b ∧ (n.pending = [] ∨ n.pending = [b])

theorem oneOwner_of_owned {n : Netif} (h : Owned n) : OneOwner n := by
  have hcount : ∀ {k b : Nat}, b < k → (List.range k).count b = 1 := by
    intro k b hb
    exact List.count_eq_one_of_mem List.nodup_range (List.mem_range.mpr hb)
  rcases h with ⟨hp, hn, hf⟩ | ⟨hp, hr, hf⟩ | ⟨b, hr, hn, hf, hp⟩
  · exact ⟨by simp [hp], by simp [hp], by simp [hn]⟩
  · refine ⟨by simp [hp], by simp [hp], ?_⟩
    intro b hb
    exact Or.inl ⟨by rw [hf]; exact hcount hb, by simp [hr]⟩
  · refine ⟨?_, ?_, ?_⟩
    · rcases hp with hp | hp <;> simp [hp]
    · intro c hc
      rcases hp with hp | hp
      · simp [hp] at hc
      · obtain rfl : c = b := by simpa [hp] using hc
        exact ⟨hr, by simp [hf]⟩
    · intro c hc
      rcases Nat.lt_or_eq_of_le (Nat.le_of_lt_succ (hn ▸ hc)) with hlt | rfl
      · refine Or.inl ⟨by rw [hf]; exact hcount hlt, ?_⟩
        rw [hr, ne_eq, Option.some.injEq]
        omega
      · exact Or.inr ⟨by simp [hf], hr⟩

/-- The fields the invariant is about. -/
theorem owned_congr {n n' : Netif} (hp : n'.pending = n.pending) (hr : n'.readData = n.readData)
    (hn : n'.nextBuf = n.nextBuf) (hf : n'.freedBufs = n.freedBufs) : Owned n' ↔ Owned n := by
  simp only [Owned, hp, hr, hn, hf]

/-- With all buffers freed, `ecm_schedule_read` allocates the next one, or none. -/
theorem scheduleRead_owned (o : ReadOutcome) {n : Netif} (h : Owned n) : Owned (ecmScheduleRead o n).2 := by
  by_cases hr : n.readData = none
  · have hfree : n.pending = [] ∧ n.freedBufs = List.range n.nextBuf := by
      rcases h with ⟨hp, hn, hf⟩ | ⟨hp, -, hf⟩ | ⟨b, hb, -⟩
      · exact ⟨hp, by simp [hn, hf]⟩
      · exact ⟨hp, hf⟩
      · rw [hr] at hb
        cases hb
    obtain ⟨hp, hf⟩ := hfree
    cases hm : o.malloc with
    | false =>
      refine Or.inr (Or.inl ?_)
      simp [ecmScheduleRead, hr, hm, hp, hf]
    | true =>
      refine Or.inr (Or.inr ⟨n.nextBuf, ?_⟩)
      by_cases hs : o.schedule = .success
      · simp [ecmScheduleRead, hr, hm, hs, hp, hf]
      · simp [ecmScheduleRead, hr, hm, hs, hp, hf]
  · rw [scheduleRead_busy o hr]
    exact h

@[simp] theorem enqueue_nextBuf (c : Completion) (n : Netif) : (enqueue c n).nextBuf = n.nextBuf := by
  obtain ⟨_, _, _, h⟩ := enqueue_frame c n
  rw [h]

@[simp] theorem enqueue_freedBufs (c : Completion) (n : Netif) : (enqueue c n).freedBufs = n.freedBufs := by
  obtain ⟨_, _, _, h⟩ := enqueue_frame c n
  rw [h]

/-- A pending transfer is into `read_data`, so its completion frees that buffer, and all
    buffers are freed then. -/
theorem free_owned {n : Netif} (h : Owned n) {b : Nat} {rest : List Nat} (hp : n.pending = b :: rest)
    (c : Completion) : Owned (freeReadData (enqueue c { n with pending := rest })) := by
  rcases h with ⟨hnil, -⟩ | ⟨hnil, -⟩ | ⟨b', hr, hn, hf, hnil | hone⟩
  · rw [hp] at hnil
    cases hnil
  · rw [hp] at hnil
    cases hnil
  · rw [hp] at hnil
    cases hnil
  · obtain ⟨rfl, rfl⟩ : b = b' ∧ rest = [] := by simpa [hp] using hone
    refine Or.inr (Or.inl ⟨by simp, rfl, ?_⟩)
    simp [freeReadData, hr, hn, hf, List.range_succ]

theorem step_owned (n : Netif) (e : ReadEv) (h : Owned n) : Owned (readStep USB_TRANSFER_FAILED n e) := by
  cases e with
  | init o =>
    have hm : Owned (beforeRead o n) := (owned_congr rfl rfl rfl rfl).mpr h
    have hsched := scheduleRead_owned o.read hm
    exact (owned_congr rfl rfl rfl rfl).mpr hsched
  | complete c =>
    simp only [readStep, step]
    split
    next b rest hp =>
      have hfree := free_owned h hp c
      by_cases hc : c.Failed USB_TRANSFER_FAILED
      · rw [readCallback_failed USB_TRANSFER_FAILED hc]
        exact (owned_congr rfl rfl rfl rfl).mpr hfree
      · rw [readCallback_next USB_TRANSFER_FAILED hc]
        exact scheduleRead_owned c.read hfree
    next => exact h
  | clearHalt o =>
    have hsched := scheduleRead_owned o h
    simp only [readStep, clearHalt]
    split
    · split
      · exact (owned_congr rfl rfl rfl rfl).mpr hsched
      · exact hsched
    · exact h

/-- In every state of every run of a fresh netif, whatever `read_data` holds before and
    whatever malloc and usbdrvce answer, its read buffers have one owner. -/
theorem one_owner {n : Netif} (hf : Fresh n) (es : List ReadEv) :
    Always (readStep USB_TRANSFER_FAILED) OneOwner n es := by
  have hstart : Owned n := Or.inl ⟨hf.1, hf.2.1, hf.2.2.1⟩
  refine (always_iff_runs _).mpr fun p _ => oneOwner_of_owned ?_
  exact run_inv _ (step_owned USB_TRANSFER_FAILED) hstart p

/-- A second initialisation while a read is pending, and a refused read. -/
def busyRun : List ReadEv :=
  [.init goodInit, .init goodInit, .complete ⟨0, 60, fun _ => 0, true, ⟨true, .noMemory⟩⟩, .clearHalt goodRead]

/-- From NULL in `read_data`, and from a stale pointer. -/
theorem a_busy_netif_has_one_owner :
    Always (readStep 0x40) OneOwner (malloced none) busyRun ∧
      Always (readStep 0x40) OneOwner (malloced (some 5)) busyRun :=
  ⟨one_owner 0x40 (n := malloced none) ⟨rfl, rfl, rfl, rfl, rfl, rfl⟩ busyRun,
    one_owner 0x40 (n := malloced (some 5)) ⟨rfl, rfl, rfl, rfl, rfl, rfl⟩ busyRun⟩

end Nanotube.Device.Ecm
