/-
  Nanotube.Device.ReadPath — does a netif always get its next read?

  `Alive`: an IN transfer is pending, or the netif is halted with `read_data` NULL, so
  that the next `clear_halt` can start one. Three functions share `read_data` and
  `halted`, and not every exit keeps `Alive`:
  - `ecm_init_netif` does not clear `read_data`, so on a `netif_state_t` that malloc
    returned with anything but NULL there the first read is never scheduled
    (`a_dirty_state_is_deaf`);
  - when `usb_ScheduleTransfer` refuses a read, `ecm_schedule_read` leaves the buffer in
    `read_data` and does not set `halted`, as it does when malloc fails, so no later call
    tries again (`a_refused_read_is_final`).

  Proved: these are the only ways to lose the read (`alive_iff`): a run stays `Alive` in
  every state exactly when `read_data` was NULL to begin with and usbdrvce refused none
  of the reads that were allocated.
-/

import Nanotube.Device.Ecm

namespace Nanotube.Device.Ecm

open Nanotube.Device.Queue Nanotube.Lib.Runs

variable (USB_TRANSFER_FAILED : Nat)

def Alive (n : Netif) : Prop := n.pending ≠ [] ∨ (n.halted = true ∧ n.readData = none)

/-- The read, if its buffer is allocated, is accepted by usbdrvce. -/
def ReadOutcome.Accepted (o : ReadOutcome) : Prop := o.malloc = true → o.schedule = .success

def Completion.Failed (c : Completion) : Prop := c.status ≠ 0 ∧ c.status &&& USB_TRANSFER_FAILED ≠ 0

/-- The step does not have a read refused: of a completion that schedules the next one,
    or of a pass that finds the netif halted. -/
def NotRefused (n : Netif) : Ev → Prop
  | .complete c => n.pending ≠ [] → ¬ c.Failed USB_TRANSFER_FAILED → c.read.Accepted
  | .process p => n.halted = true → p.read.Accepted

/-! ## What each function does to the read path -/

/-- `enqueue` touches only the pbufs and the queue. -/
theorem enqueue_frame (c : Completion) (n : Netif) :
    ∃ nextPbuf queue freed, enqueue c n = { n with nextPbuf := nextPbuf, queue := queue, freed := freed } := by
  unfold enqueue
  split
  · split
    · simp only
      split
      · exact ⟨_, _, _, rfl⟩
      · exact ⟨_, _, _, rfl⟩
    · exact ⟨_, _, _, rfl⟩
  · exact ⟨_, _, _, rfl⟩

@[simp] theorem enqueue_pending (c : Completion) (n : Netif) : (enqueue c n).pending = n.pending := by
  obtain ⟨_, _, _, h⟩ := enqueue_frame c n
  rw [h]

@[simp] theorem enqueue_readData (c : Completion) (n : Netif) : (enqueue c n).readData = n.readData := by
  obtain ⟨_, _, _, h⟩ := enqueue_frame c n
  rw [h]

@[simp] theorem enqueue_halted (c : Completion) (n : Netif) : (enqueue c n).halted = n.halted := by
  obtain ⟨_, _, _, h⟩ := enqueue_frame c n
  rw [h]

@[simp] theorem deliver_pending (p : Pass) (n : Netif) : (deliver p n).pending = n.pending := by
  simp only [deliver]; split <;> rfl

@[simp] theorem deliver_readData (p : Pass) (n : Netif) : (deliver p n).readData = n.readData := by
  simp only [deliver]; split <;> rfl

@[simp] theorem deliver_halted (p : Pass) (n : Netif) : (deliver p n).halted = n.halted := by
  simp only [deliver]; split <;> rfl

@[simp] theorem freeReadData_pending (n : Netif) : (freeReadData n).pending = n.pending := rfl
@[simp] theorem freeReadData_readData (n : Netif) : (freeReadData n).readData = none := rfl
@[simp] theorem freeReadData_halted (n : Netif) : (freeReadData n).halted = n.halted := rfl

theorem readCallback_failed {c : Completion} (h : c.Failed USB_TRANSFER_FAILED) (n : Netif) :
    (ecmReadCallback USB_TRANSFER_FAILED c n).2 = { freeReadData (enqueue c n) with halted := true } := by
  have h' : c.status ≠ 0 ∧ c.status &&& USB_TRANSFER_FAILED ≠ 0 := h
  simp only [ecmReadCallback, if_pos h']

theorem readCallback_next {c : Completion} (h : ¬ c.Failed USB_TRANSFER_FAILED) (n : Netif) :
    (ecmReadCallback USB_TRANSFER_FAILED c n).2 = (ecmScheduleRead c.read (freeReadData (enqueue c n))).2 := by
  have h' : ¬ (c.status ≠ 0 ∧ c.status &&& USB_TRANSFER_FAILED ≠ 0) := h
  simp only [ecmReadCallback, if_neg h']

/-- `ecm_schedule_read` touches only the read path. -/
theorem scheduleRead_frame (o : ReadOutcome) (n : Netif) :
    ∃ readData halted pending nextBuf, (ecmScheduleRead o n).2 =
      { n with readData := readData, halted := halted, pending := pending, nextBuf := nextBuf } := by
  unfold ecmScheduleRead
  split
  · exact ⟨_, _, _, _, rfl⟩
  · split
    · exact ⟨_, _, _, _, rfl⟩
    · simp only
      split
      · exact ⟨_, _, _, _, rfl⟩
      · exact ⟨_, _, _, _, rfl⟩

/-- The netif as `ecm_init_netif` schedules its first read. -/
def beforeRead (o : InitOutcome) (n : Netif) : Netif :=
  { n with mtu := n.stateMtu, hwaddr := (ecmGetMac o.string o.mac).2, queue := queueInit n.queue,
           requests := n.requests ++ [packetFilter (PACKET_TYPE_BROADCAST ||| PACKET_TYPE_DIRECTED)],
           halted := false }

theorem initNetif_eq (o : InitOutcome) (n : Netif) :
    ecmInitNetif o n = (ERR_OK, { (ecmScheduleRead o.read (beforeRead o n)).2 with up := true }) := rfl

/-- What `ecm_init_netif` sets and sends. The result of `ecm_get_mac` is not looked at. -/
theorem initNetif_sets (o : InitOutcome) (n : Netif) :
    (ecmInitNetif o n).1 = ERR_OK ∧ (ecmInitNetif o n).2.up = true ∧ (ecmInitNetif o n).2.mtu = n.stateMtu ∧
      (ecmInitNetif o n).2.hwaddr = (ecmGetMac o.string o.mac).2 ∧
      (ecmInitNetif o n).2.requests =
        n.requests ++ [packetFilter (PACKET_TYPE_BROADCAST ||| PACKET_TYPE_DIRECTED)] := by
  obtain ⟨readData, halted, pending, nextBuf, hread⟩ := scheduleRead_frame o.read (beforeRead o n)
  rw [initNetif_eq, hread]
  exact ⟨rfl, rfl, rfl, rfl, rfl⟩

/-- With a buffer already in `read_data`, `ecm_schedule_read` does nothing. -/
theorem scheduleRead_busy (o : ReadOutcome) {n : Netif} (h : n.readData ≠ none) :
    ecmScheduleRead o n = (.failed, n) := by
  have hs : n.readData.isSome = true := Option.isSome_iff_ne_none.mpr h
  simp only [ecmScheduleRead, hs, if_true]

/-- With `read_data` NULL it ends in one of three ways: no memory, and the netif is
    halted; a transfer pending into the new buffer; or a refused transfer, which leaves
    the buffer behind. -/
theorem scheduleRead_cases (o : ReadOutcome) {n : Netif} (h : n.readData = none) :
    (o.malloc = false ∧ (ecmScheduleRead o n).1 = .noMemory ∧ (ecmScheduleRead o n).2.pending = n.pending ∧
      (ecmScheduleRead o n).2.readData = none ∧ (ecmScheduleRead o n).2.halted = true) ∨
    (o.malloc = true ∧ o.schedule = .success ∧ (ecmScheduleRead o n).1 = .success ∧
      ∃ b, (ecmScheduleRead o n).2.pending = n.pending ++ [b] ∧ (ecmScheduleRead o n).2.readData = some b ∧
        (ecmScheduleRead o n).2.halted = n.halted) ∨
    (o.malloc = true ∧ o.schedule ≠ .success ∧ (ecmScheduleRead o n).1 ≠ .success ∧
      (ecmScheduleRead o n).2.pending = n.pending ∧ (ecmScheduleRead o n).2.readData ≠ none ∧
      (ecmScheduleRead o n).2.halted = n.halted) := by
  cases hm : o.malloc with
  | false => left; simp [ecmScheduleRead, h, hm]
  | true =>
    right
    by_cases hs : o.schedule = .success
    · left; simp [ecmScheduleRead, h, hm, hs]
    · right; simp [ecmScheduleRead, h, hm, hs]

/-! ## The invariant -/

/-- One read is pending, into `read_data`, and the netif is not halted; or none is
    pending, `read_data` is NULL and the netif is halted. -/
def Reading (n : Netif) : Prop :=
  (∃ b, n.pending = [b] ∧ n.readData = some b ∧ n.halted = false) ∨
    (n.pending = [] ∧ n.readData = none ∧ n.halted = true)

theorem alive_of_reading {n : Netif} (h : Reading n) : Alive n := by
  rcases h with ⟨b, hp, -, -⟩ | ⟨-, hr, hh⟩
  · left; simp [hp]
  · exact Or.inr ⟨hh, hr⟩

/-- Scheduling from a netif with nothing pending and `read_data` NULL: the outcome decides
    whether a read is left. -/
theorem scheduleRead_reading (o : ReadOutcome) {n : Netif} (hp : n.pending = []) (hr : n.readData = none)
    (hh : n.halted = false) : (Reading (ecmScheduleRead o n).2 ↔ o.Accepted) ∧
      (Alive (ecmScheduleRead o n).2 ↔ o.Accepted) := by
  rcases scheduleRead_cases o hr with ⟨hm, -, h1, h2, h3⟩ | ⟨hm, hs, -, b, h1, h2, h3⟩ | ⟨hm, hs, -, h1, h2, h3⟩
  · have ha : o.Accepted := by intro h; rw [hm] at h; cases h
    exact ⟨⟨fun _ => ha, fun _ => Or.inr ⟨h1.trans hp, h2, h3⟩⟩, ⟨fun _ => ha, fun _ => Or.inr ⟨h3, h2⟩⟩⟩
  · have ha : o.Accepted := fun _ => hs
    have hpend : (ecmScheduleRead o n).2.pending = [b] := by rw [h1, hp]; rfl
    exact ⟨⟨fun _ => ha, fun _ => Or.inl ⟨b, hpend, h2, h3.trans hh⟩⟩, ⟨fun _ => ha, fun _ => Or.inl (by simp [hpend])⟩⟩
  · have hna : ¬ o.Accepted := fun h => hs (h hm)
    have hdead : ¬ Alive (ecmScheduleRead o n).2 := by
      rintro (h | ⟨-, h⟩)
      · exact h (h1.trans hp)
      · exact h2 h
    exact ⟨⟨fun h => absurd (alive_of_reading h) hdead, fun h => absurd h hna⟩,
      ⟨fun h => absurd h hdead, fun h => absurd h hna⟩⟩

theorem complete_reading {n : Netif} (h : Reading n) (c : Completion) :
    (Reading (step USB_TRANSFER_FAILED n (.complete c)) ↔ NotRefused USB_TRANSFER_FAILED n (.complete c)) ∧
      (Alive (step USB_TRANSFER_FAILED n (.complete c)) ↔ NotRefused USB_TRANSFER_FAILED n (.complete c)) := by
  rcases h with ⟨b, hp, hr, hh⟩ | ⟨hp, hr, hh⟩
  · simp only [step, hp, NotRefused, ne_eq, reduceCtorEq, not_false_eq_true, forall_const]
    by_cases hf : c.Failed USB_TRANSFER_FAILED
    · -- a failed transfer halts the netif and schedules nothing
      rw [readCallback_failed USB_TRANSFER_FAILED hf]
      have hread : Reading { freeReadData (enqueue c { n with pending := [] }) with halted := true } :=
        Or.inr ⟨by simp, rfl, rfl⟩
      exact ⟨⟨fun _ h => absurd hf h, fun _ => hread⟩, ⟨fun _ h => absurd hf h, fun _ => alive_of_reading hread⟩⟩
    · rw [readCallback_next USB_TRANSFER_FAILED hf]
      have hsched := scheduleRead_reading c.read (n := freeReadData (enqueue c { n with pending := [] })) (by simp) rfl
        (by simpa using hh)
      simpa only [hf, not_false_eq_true, forall_const] using hsched
  · have hn : step USB_TRANSFER_FAILED n (.complete c) = n := by simp [step, hp]
    have hok : NotRefused USB_TRANSFER_FAILED n (.complete c) := fun h => absurd hp h
    have hread : Reading n := Or.inr ⟨hp, hr, hh⟩
    rw [hn]
    exact ⟨⟨fun _ => hok, fun _ => hread⟩, ⟨fun _ => hok, fun _ => alive_of_reading hread⟩⟩

theorem process_reading {n : Netif} (h : Reading n) (p : Pass) :
    (Reading (step USB_TRANSFER_FAILED n (.process p)) ↔ NotRefused USB_TRANSFER_FAILED n (.process p)) ∧
      (Alive (step USB_TRANSFER_FAILED n (.process p)) ↔ NotRefused USB_TRANSFER_FAILED n (.process p)) := by
  simp only [step, ntProcess, clearHalt, NotRefused, deliver_halted]
  rcases h with ⟨b, hp, hr, hh⟩ | ⟨hp, hr, hh⟩
  · have hread : Reading (deliver p n) := Or.inl ⟨b, by simpa using hp, by simpa using hr, by simpa using hh⟩
    simp [hh, hread, alive_of_reading hread]
  · simp only [hh, if_true, forall_const]
    have hr' : (deliver p n).readData = none := by simpa using hr
    rcases scheduleRead_cases p.read hr' with ⟨hm, he, h1, h2, h3⟩ | ⟨hm, hs, he, b, h1, h2, h3⟩ |
      ⟨hm, hs, he, h1, h2, h3⟩
    · have ha : p.read.Accepted := by intro h; rw [hm] at h; cases h
      have hread : Reading (ecmScheduleRead p.read (deliver p n)).2 :=
        Or.inr ⟨by rw [h1]; simpa using hp, h2, h3⟩
      rw [if_neg (by simp [he])]
      exact ⟨⟨fun _ => ha, fun _ => hread⟩, ⟨fun _ => ha, fun _ => alive_of_reading hread⟩⟩
    · have ha : p.read.Accepted := fun _ => hs
      have hread : Reading { (ecmScheduleRead p.read (deliver p n)).2 with halted := false } :=
        Or.inl ⟨b, by simp [h1, hp], h2, rfl⟩
      rw [if_pos he]
      exact ⟨⟨fun _ => ha, fun _ => hread⟩, ⟨fun _ => ha, fun _ => alive_of_reading hread⟩⟩
    · have hna : ¬ p.read.Accepted := fun h => hs (h hm)
      have hdead : ¬ Alive (ecmScheduleRead p.read (deliver p n)).2 := by
        rintro (h | ⟨-, h⟩)
        · exact h (by rw [h1]; simpa using hp)
        · exact h2 h
      rw [if_neg he]
      exact ⟨⟨fun h => absurd (alive_of_reading h) hdead, fun h => absurd h hna⟩,
        ⟨fun h => absurd h hdead, fun h => absurd h hna⟩⟩

/-- From a reading netif a step leaves it alive exactly when it has no read refused, and
    then it is reading again. -/
theorem step_reading {n : Netif} (h : Reading n) (e : Ev) :
    (Reading (step USB_TRANSFER_FAILED n e) ↔ NotRefused USB_TRANSFER_FAILED n e) ∧
      (Alive (step USB_TRANSFER_FAILED n e) ↔ NotRefused USB_TRANSFER_FAILED n e) := by
  cases e with
  | complete c => exact complete_reading USB_TRANSFER_FAILED h c
  | process p => exact process_reading USB_TRANSFER_FAILED h p

theorem init_alive {n : Netif} (hf : Fresh n) (o : InitOutcome) :
    (Reading (ecmInitNetif o n).2 ↔ n.readData = none ∧ o.read.Accepted) ∧
      (Alive (ecmInitNetif o n).2 ↔ n.readData = none ∧ o.read.Accepted) := by
  -- `Reading` and `Alive` do not look at `up`
  have hR : Reading (ecmInitNetif o n).2 ↔ Reading (ecmScheduleRead o.read (beforeRead o n)).2 := by
    rw [initNetif_eq]
    rfl
  have hA : Alive (ecmInitNetif o n).2 ↔ Alive (ecmScheduleRead o.read (beforeRead o n)).2 := by
    rw [initNetif_eq]
    rfl
  rw [hR, hA]
  have hpend : (beforeRead o n).pending = [] := hf.1
  by_cases hr : n.readData = none
  · simpa only [hr, true_and] using scheduleRead_reading o.read hpend hr rfl
  · have hbusy : ecmScheduleRead o.read (beforeRead o n) = (.failed, beforeRead o n) := scheduleRead_busy o.read hr
    have hdead : ¬ Alive (beforeRead o n) := by
      rintro (h | ⟨-, h⟩)
      · exact h hpend
      · exact hr h
    rw [hbusy]
    exact ⟨⟨fun h => absurd (alive_of_reading h) hdead, fun h => absurd h.1 hr⟩,
      ⟨fun h => absurd h hdead, fun h => absurd h.1 hr⟩⟩

/-! ## Whole runs -/

/-- Every state of a run is alive exactly when `read_data` was NULL before
    `ecm_init_netif` and no read whose buffer was allocated was refused, neither the first
    one nor any later one. -/
theorem alive_iff {n : Netif} (hf : Fresh n) (o : InitOutcome) (es : List Ev) :
    Always (step USB_TRANSFER_FAILED) Alive (ecmInitNetif o n).2 es ↔
      n.readData = none ∧ o.read.Accepted ∧
        Along (step USB_TRANSFER_FAILED) (NotRefused USB_TRANSFER_FAILED) (ecmInitNetif o n).2 es := by
  constructor
  · intro h
    obtain ⟨hr, ho⟩ := (init_alive hf o).2.mp (always_start _ h)
    have hread : Reading (ecmInitNetif o n).2 := (init_alive hf o).1.mpr ⟨hr, ho⟩
    refine ⟨hr, ho, along_of_always (step USB_TRANSFER_FAILED) (I := Reading) ?_ ?_ hread h⟩
    · intro s e hs _ hc
      exact (step_reading USB_TRANSFER_FAILED hs e).1.mpr hc
    · intro s e hs _ hq
      exact (step_reading USB_TRANSFER_FAILED hs e).2.mp hq
  · rintro ⟨hr, ho, h⟩
    have hread : Reading (ecmInitNetif o n).2 := (init_alive hf o).1.mpr ⟨hr, ho⟩
    refine always_mono _ (fun s => alive_of_reading) (always_of_along _ ?_ hread h)
    intro s e hs hc
    exact (step_reading USB_TRANSFER_FAILED hs e).1.mpr hc

/-! ## The lost read -/

/-- No read is pending and a buffer is in `read_data`: `ecm_schedule_read` always gives up. -/
def Deaf (n : Netif) : Prop := n.pending = [] ∧ n.readData ≠ none

theorem step_deaf (n : Netif) (e : Ev) (h : Deaf n) : Deaf (step USB_TRANSFER_FAILED n e) := by
  obtain ⟨hp, hr⟩ := h
  cases e with
  | complete c =>
    have hn : step USB_TRANSFER_FAILED n (.complete c) = n := by simp only [step, hp]
    rw [hn]
    exact ⟨hp, hr⟩
  | process p =>
    have hr' : (deliver p n).readData ≠ none := by simpa using hr
    have hd : Deaf (deliver p n) := ⟨by simpa using hp, hr'⟩
    simp only [step, ntProcess, clearHalt, scheduleRead_busy p.read hr']
    split
    · exact hd
    · exact hd

/-- A netif that lost its read never gets one again, whatever happens. -/
theorem deaf_forever {n : Netif} (h : Deaf n) (es : List Ev) : Deaf (run (step USB_TRANSFER_FAILED) n es) :=
  run_inv _ (step_deaf USB_TRANSFER_FAILED) h es

theorem not_alive_of_deaf {n : Netif} (h : Deaf n) : ¬ Alive n := by
  intro ha
  rcases ha with ha | ⟨-, ha⟩
  · exact ha h.1
  · exact h.2 ha

/-- A netif on a `netif_state_t` that malloc returned with `readData` in `read_data`. -/
def malloced (readData : Option Nat) : Netif :=
  { mtu := 0, hwaddr := [], up := false, stateMtu := 1514, macIndex := 3, queue := ⟨7, 7, fun _ => none⟩,
    readData := readData, halted := true, requests := [], pending := [], nextBuf := 0, freedBufs := [],
    nextPbuf := 0, freed := [], handed := [] }

def goodRead : ReadOutcome := ⟨true, .success⟩

def goodInit : InitOutcome := ⟨⟨.success, fun _ => 0x30⟩, [0, 0, 0, 0, 0, 0], goodRead⟩

/-- Stale bytes where `read_data` is: every call succeeds, and the netif has no read. -/
theorem a_dirty_state_is_deaf :
    ¬ Always (step 0x40) Alive (ecmInitNetif goodInit (malloced (some 0xD1A881))).2 [.process ⟨ERR_OK, goodRead⟩] := by
  intro h
  refine not_alive_of_deaf ?_ (always_start _ h)
  unfold Deaf
  decide

/-- `read_data` was NULL, but usbdrvce refuses the second read once: the netif is deaf. -/
theorem a_refused_read_is_final :
    Deaf (run (step 0x40) (ecmInitNetif goodInit (malloced none)).2
      [.complete ⟨0, 0, fun _ => 0, true, ⟨true, .noMemory⟩⟩, .process ⟨ERR_OK, goodRead⟩]) := by
  unfold Deaf
  decide

theorem a_clean_run_stays_alive :
    Always (step 0x40) Alive (ecmInitNetif goodInit (malloced none)).2
      [.complete ⟨0x40, 0, fun _ => 0, true, goodRead⟩, .process ⟨ERR_OK, goodRead⟩] :=
  (alive_iff 0x40 (n := malloced none) ⟨rfl, rfl, rfl, rfl, rfl, rfl⟩ goodInit _).mpr
    ⟨rfl, fun _ => rfl, fun _ _ _ => rfl, fun _ _ => rfl, trivial⟩

end Nanotube.Device.Ecm
