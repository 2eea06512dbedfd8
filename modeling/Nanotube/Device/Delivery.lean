/-
  Nanotube.Device.Delivery — what becomes of a received frame.

  The read callback (producer) and `nt_process` (consumer) meet only in the packet
  queue. A completion brings a frame, unless it is empty, its EtherType is one the driver
  ignores, `pbuf_alloc` fails or 16 frames are queued already (`arrival`).

  Proved, over every interleaving of completions and passes:
  - `delivery`: the frames handed to `netif->input`, followed by those still queued, are
    the arrivals, in order and byte for byte;
  - and every pbuf has one owner: it is in the queue once, or `netif->input` took it
    once, or it was freed once; none is handed over twice.
-/

import Nanotube.Device.ReadPath

namespace Nanotube.Device.Ecm

open Nanotube.Device.Queue Nanotube.Lib.Runs

variable (USB_TRANSFER_FAILED : Nat)

/-- The EtherType field of a frame holds the bytes `a`, `b`. -/
def EtherTypeIs (frame : List UInt8) (a b : UInt8) : Prop := frame[12]? = some a ∧ frame[13]? = some b

instance (frame : List UInt8) (a b : UInt8) : Decidable (EtherTypeIs frame a b) := inferInstanceAs (Decidable (_ ∧ _))

/-- The frame a completion adds to the queue: it is not empty, neither IPv6 nor an ARRIS
    broadcast, a pbuf is there for it, and fewer than 16 frames are queued. -/
def arrival (n : Netif) (c : Completion) : Option (List UInt8) :=
  if c.size ≠ 0 ∧ ¬ EtherTypeIs c.frame 0x86 0xDD ∧ ¬ EtherTypeIs c.frame 0x88 0x99 ∧ c.pbufAlloc = true ∧
      (items n.queue).length < 16 then some c.frame else none

/-- The arrivals of a run. -/
def arrivals (n : Netif) : List Ev → List (List UInt8)
  | [] => []
  | .complete c :: es =>
    (if n.pending = [] then [] else (arrival n c).toList) ++ arrivals (step USB_TRANSFER_FAILED n (.complete c)) es
  | .process p :: es => arrivals (step USB_TRANSFER_FAILED n (.process p)) es

/-- A completion is empty or a whole Ethernet frame of at most `mtu` bytes. -/
def Completion.Whole (mtu : UInt16) (c : Completion) : Prop := c.size = 0 ∨ (14 ≤ c.size ∧ c.size ≤ mtu.toNat)

/-! ## pbufs -/

/-- How often the pbuf is in the queue, was taken by `netif->input`, was refused by it,
    and was freed. -/
def queued (n : Netif) (id : Nat) : Nat := (items n.queue).countP (·.id == id)
def taken (n : Netif) (id : Nat) : Nat := n.handed.countP fun x => x.1.id == id && x.2 == ERR_OK
def refused (n : Netif) (id : Nat) : Nat := n.handed.countP fun x => x.1.id == id && x.2 != ERR_OK
def released (n : Netif) (id : Nat) : Nat := n.freed.countP (·.id == id)

structure Books (n : Netif) (arrived : List (List UInt8)) : Prop where
  wf : Wf n.queue
  order : n.handed.map (·.1.payload) ++ (items n.queue).map (·.payload) = arrived
  owner : ∀ id, queued n id + taken n id + released n id = if id < n.nextPbuf then 1 else 0
  once : ∀ id, refused n id ≤ released n id

/-- `m` has the queue, pbufs and `netif->input` calls of `n`. -/
structure SameFrames (m n : Netif) : Prop where
  queue : m.queue = n.queue
  handed : m.handed = n.handed
  freed : m.freed = n.freed
  nextPbuf : m.nextPbuf = n.nextPbuf

theorem books_same {m n : Netif} (h : SameFrames m n) {arrived : List (List UInt8)} (hb : Books n arrived) :
    Books m arrived := by
  refine ⟨by rw [h.queue]; exact hb.wf, by rw [h.queue, h.handed]; exact hb.order, ?_, ?_⟩
  · intro id
    unfold queued taken released
    rw [h.queue, h.handed, h.freed, h.nextPbuf]
    exact hb.owner id
  · intro id
    unfold refused released
    rw [h.handed, h.freed]
    exact hb.once id

theorem scheduleRead_frames (o : ReadOutcome) (n : Netif) : SameFrames (ecmScheduleRead o n).2 n := by
  obtain ⟨readData, halted, pending, nextBuf, h⟩ := scheduleRead_frame o n
  rw [h]
  exact ⟨rfl, rfl, rfl, rfl⟩

theorem readCallback_frames (c : Completion) (n : Netif) :
    SameFrames (ecmReadCallback USB_TRANSFER_FAILED c n).2 (enqueue c n) := by
  by_cases hf : c.Failed USB_TRANSFER_FAILED
  · rw [readCallback_failed USB_TRANSFER_FAILED hf]
    exact ⟨rfl, rfl, rfl, rfl⟩
  · rw [readCallback_next USB_TRANSFER_FAILED hf]
    obtain ⟨h1, h2, h3, h4⟩ := scheduleRead_frames c.read (freeReadData (enqueue c n))
    exact ⟨h1, h2, h3, h4⟩

theorem ntProcess_frames (p : Pass) (n : Netif) : SameFrames (ntProcess p n) (deliver p n) := by
  obtain ⟨h1, h2, h3, h4⟩ := scheduleRead_frames p.read (deliver p n)
  simp only [ntProcess, clearHalt]
  split
  · split
    · exact ⟨h1, h2, h3, h4⟩
    · exact ⟨h1, h2, h3, h4⟩
  · exact ⟨rfl, rfl, rfl, rfl⟩

/-! ## One completion -/

/-- The 16-bit value the driver compares is `lo + 256 * hi`. -/
theorem type_eq_iff (c : Completion) (lo hi : UInt8) :
    c.type = lo.toUInt16 + 256 * hi.toUInt16 ↔ c.data 12 = lo ∧ c.data 13 = hi := by
  have h1 := (c.data 12).toNat_lt
  have h2 := (c.data 13).toNat_lt
  have h3 := lo.toNat_lt
  have h4 := hi.toNat_lt
  simp only [Completion.type, ← UInt16.toNat_inj, ← UInt8.toNat_inj, UInt16.toNat_add, UInt16.toNat_mul,
    UInt8.toNat_toUInt16]
  simp only [show (256 : UInt16).toNat = 256 from rfl]
  omega

theorem frame_get {c : Completion} {i : Nat} (h : i < c.size) : c.frame[i]? = some (c.data i) := by
  simp [Completion.frame, h]

/-- The test of `ecm_read_callback`, on the two bytes it reads. -/
theorem wanted_bytes (c : Completion) :
    (c.type ≠ PP_HTONS ETHTYPE_IPV6 ∧ c.type ≠ 0x9988 ∧ c.size ≠ 0) ↔
      c.size ≠ 0 ∧ ¬ (c.data 12 = 0x86 ∧ c.data 13 = 0xDD) ∧ ¬ (c.data 12 = 0x88 ∧ c.data 13 = 0x99) := by
  have e1 : PP_HTONS ETHTYPE_IPV6 = (0x86 : UInt8).toUInt16 + 256 * (0xDD : UInt8).toUInt16 := by decide
  have e2 : (0x9988 : UInt16) = (0x88 : UInt8).toUInt16 + 256 * (0x99 : UInt8).toUInt16 := by decide
  rw [e1, e2, ne_eq, ne_eq, type_eq_iff, type_eq_iff]
  exact ⟨fun ⟨h1, h2, h3⟩ => ⟨h3, h1, h2⟩, fun ⟨h3, h1, h2⟩ => ⟨h1, h2, h3⟩⟩

theorem wanted_iff {mtu : UInt16} {c : Completion} (h : c.Whole mtu) :
    (c.type ≠ PP_HTONS ETHTYPE_IPV6 ∧ c.type ≠ 0x9988 ∧ c.size ≠ 0) ↔
      c.size ≠ 0 ∧ ¬ EtherTypeIs c.frame 0x86 0xDD ∧ ¬ EtherTypeIs c.frame 0x88 0x99 := by
  rw [wanted_bytes]
  rcases h with h | ⟨h, -⟩
  · simp [h]
  · simp only [EtherTypeIs, frame_get (show 12 < c.size by omega), frame_get (show 13 < c.size by omega),
      Option.some.injEq]

theorem pbuf_payload {mtu : UInt16} {c : Completion} (h : c.Whole mtu) (id : Nat) : (c.pbuf id).payload = c.frame := by
  have hm := mtu.toNat_lt
  have hs : c.size % 65536 = c.size := by
    rcases h with h | ⟨-, h⟩
    · simp [h]
    · omega
  simp only [Completion.pbuf, Completion.frame, hs]

theorem fresh_uncounted {n : Netif} {arrived : List (List UInt8)} (h : Books n arrived) :
    queued n n.nextPbuf = 0 ∧ taken n n.nextPbuf = 0 ∧ released n n.nextPbuf = 0 := by
  have := h.owner n.nextPbuf
  simp only [Nat.lt_irrefl, if_false] at this
  omega

/-- The owner of each pbuf once the next one has an owner. -/
theorem owner_new {n : Netif} {arrived : List (List UInt8)} (h : Books n arrived) (id : Nat) :
    queued n id + taken n id + released n id + (if n.nextPbuf = id then 1 else 0) =
      if id < n.nextPbuf + 1 then 1 else 0 := by
  have ho := h.owner id
  by_cases e : n.nextPbuf = id
  · obtain ⟨h1, h2, h3⟩ := fresh_uncounted h
    rw [if_pos e, if_pos (by omega), ← e]
    omega
  · rw [if_neg e, ho]
    by_cases hlt : id < n.nextPbuf
    · rw [if_pos hlt, if_pos (by omega)]
    · rw [if_neg hlt, if_neg (by omega)]

theorem countP_snoc {α : Type} (p : α → Bool) (l : List α) (x : α) :
    (l ++ [x]).countP p = l.countP p + if p x then 1 else 0 := by
  simp [List.countP_append, List.countP_cons]

/-- A new pbuf goes to the queue. -/
theorem books_queued {n : Netif} {arrived : List (List UInt8)} (h : Books n arrived) (p : Pbuf)
    (hp : p.id = n.nextPbuf) (hl : (items n.queue).length < 16) :
    Books { n with nextPbuf := n.nextPbuf + 1, queue := (queueAdd n.queue (some p)).2 } (arrived ++ [p.payload]) := by
  obtain ⟨-, hitems, hwf⟩ := add_of_lt h.wf p hl
  refine ⟨hwf, ?_, ?_, h.once⟩
  · simp [hitems, ← h.order]
  · intro id
    have hq : queued { n with nextPbuf := n.nextPbuf + 1, queue := (queueAdd n.queue (some p)).2 } id =
        queued n id + if n.nextPbuf = id then 1 else 0 := by
      simp only [queued, hitems, countP_snoc, hp, beq_iff_eq]
    have ho := owner_new h id
    show queued { n with nextPbuf := n.nextPbuf + 1, queue := (queueAdd n.queue (some p)).2 } id + taken n id +
      released n id = if id < n.nextPbuf + 1 then 1 else 0
    rw [hq]
    omega

/-- A new pbuf the full queue refuses is freed. -/
theorem books_dropped {n : Netif} {arrived : List (List UInt8)} (h : Books n arrived) (p : Pbuf)
    (hp : p.id = n.nextPbuf) : Books { n with nextPbuf := n.nextPbuf + 1, freed := n.freed ++ [p] } arrived := by
  have hr : ∀ id, released { n with nextPbuf := n.nextPbuf + 1, freed := n.freed ++ [p] } id =
      released n id + if n.nextPbuf = id then 1 else 0 := by
    intro id
    simp only [released, countP_snoc, hp, beq_iff_eq]
  refine ⟨h.wf, h.order, ?_, ?_⟩
  · intro id
    have ho := owner_new h id
    show queued n id + taken n id + released { n with nextPbuf := n.nextPbuf + 1, freed := n.freed ++ [p] } id =
      if id < n.nextPbuf + 1 then 1 else 0
    rw [hr]
    omega
  · intro id
    rw [hr]
    have := h.once id
    show refused n id ≤ _
    omega

theorem enqueue_books {n : Netif} {arrived : List (List UInt8)} (h : Books n arrived) {mtu : UInt16} {c : Completion}
    (hc : c.Whole mtu) : Books (enqueue c n) (arrived ++ (arrival n c).toList) := by
  unfold enqueue arrival
  simp only [wanted_iff hc]
  by_cases hw : c.size ≠ 0 ∧ ¬ EtherTypeIs c.frame 0x86 0xDD ∧ ¬ EtherTypeIs c.frame 0x88 0x99
  · rw [if_pos hw]
    obtain ⟨w1, w2, w3⟩ := hw
    by_cases ha : c.pbufAlloc = true
    · simp only [ha, if_true]
      by_cases hl : (items n.queue).length < 16
      · rw [if_pos (add_of_lt h.wf _ hl).1, if_pos ⟨w1, w2, w3, trivial, hl⟩]
        have hb := books_queued h (c.pbuf n.nextPbuf) rfl hl
        rwa [pbuf_payload hc] at hb
      · rw [add_of_full h.wf _ hl, if_neg (show ¬ (false = true) by simp), if_neg (fun x => hl x.2.2.2.2)]
        simpa using books_dropped h (c.pbuf n.nextPbuf) rfl
    · simpa [ha] using h
  · rw [if_neg hw, if_neg (fun x => hw ⟨x.1, x.2.1, x.2.2.1⟩)]
    simpa using h

/-! ## One pass -/

theorem deliver_books {n : Netif} {arrived : List (List UInt8)} (h : Books n arrived) (p : Pass) :
    Books (deliver p n) arrived := by
  obtain ⟨hget, hitems, hwf⟩ := get_spec h.wf
  have ho := h.order
  have howner := h.owner
  have honce := h.once
  rcases hi : items n.queue with _ | ⟨b, bs⟩
  · rw [hi] at hget hitems
    have hsame : Books { n with queue := (queueGet n.queue).2 } arrived := by
      refine ⟨hwf, by simpa [hitems, hi] using ho, ?_, honce⟩
      intro id
      have hq : queued { n with queue := (queueGet n.queue).2 } id = queued n id := by
        simp [queued, hitems, hi]
      show queued { n with queue := (queueGet n.queue).2 } id + taken n id + released n id = _
      rw [hq]
      exact howner id
    simpa only [deliver, hget, List.head?_nil] using hsame
  · rw [hi] at hget hitems
    simp only [deliver, hget, List.head?_cons]
    refine ⟨hwf, ?_, ?_, ?_⟩
    · simp only [hitems, List.tail_cons, List.map_append, List.map_cons, List.map_nil, List.append_assoc,
        List.cons_append, List.nil_append]
      simpa [hi] using ho
    · intro id
      have hid := howner id
      simp only [queued, taken, released, hi, hitems, List.tail_cons, List.countP_cons, countP_snoc] at hid ⊢
      by_cases e : p.input = ERR_OK
      · simp only [e, ne_eq, not_true_eq_false, if_false, beq_self_eq_true, Bool.and_true] at hid ⊢
        omega
      · simp only [e, ne_eq, not_false_eq_true, if_true, countP_snoc, beq_iff_eq, Bool.and_eq_true, and_false,
          if_false] at hid ⊢
        omega
    · intro id
      have hid := honce id
      simp only [refused, released, countP_snoc] at hid ⊢
      by_cases e : p.input = ERR_OK
      · simp only [e, ne_eq, not_true_eq_false, if_false, bne_self_eq_false, Bool.and_false, Bool.false_eq_true,
          Nat.add_zero]
        exact hid
      · have hne : (p.input != ERR_OK) = true := by simpa using e
        simp only [e, ne_eq, not_false_eq_true, if_true, countP_snoc, hne, Bool.and_true]
        omega

/-! ## Whole runs -/

theorem run_books (mtu : UInt16) {es : List Ev} (hes : ∀ c, Ev.complete c ∈ es → c.Whole mtu) {n : Netif}
    {arrived : List (List UInt8)} (h : Books n arrived) :
    Books (run (step USB_TRANSFER_FAILED) n es) (arrived ++ arrivals USB_TRANSFER_FAILED n es) := by
  induction es generalizing n arrived with
  | nil => simpa [arrivals] using h
  | cons e es ih =>
    have htail : ∀ c, Ev.complete c ∈ es → c.Whole mtu := fun c hc => hes c (List.mem_cons_of_mem _ hc)
    cases e with
    | process p =>
      have hp : Books (step USB_TRANSFER_FAILED n (.process p)) arrived :=
        books_same (ntProcess_frames p n) (deliver_books h p)
      simpa only [run_cons, arrivals] using ih htail hp
    | complete c =>
      have hc : c.Whole mtu := hes c List.mem_cons_self
      have hstep : Books (step USB_TRANSFER_FAILED n (.complete c))
          (arrived ++ if n.pending = [] then [] else (arrival n c).toList) := by
        simp only [step]
        split
        · rename_i b rest hpend
          have hb : Books { n with pending := rest } arrived := by
            refine books_same (n := n) ?_ h
            exact ⟨rfl, rfl, rfl, rfl⟩
          have hne : n.pending ≠ [] := by rw [hpend]; simp
          rw [if_neg hne]
          exact books_same (readCallback_frames USB_TRANSFER_FAILED c _) (enqueue_books hb hc)
        · rename_i hpend
          simpa [hpend] using h
      simpa only [run_cons, arrivals, List.append_assoc] using ih htail hstep

theorem init_books {n : Netif} (hf : Fresh n) (o : InitOutcome) : Books (ecmInitNetif o n).2 [] := by
  obtain ⟨-, -, -, hnext, hfreed, hhanded⟩ := hf
  have hb : Books { n with queue := queueInit n.queue } [] := by
    refine ⟨init_wf _, by simp [hhanded, items_init], ?_, ?_⟩
    · intro id
      simp [queued, taken, released, hhanded, hfreed, hnext, items_init]
    · intro id
      simp [refused, hhanded]
  obtain ⟨h1, h2, h3, h4⟩ := scheduleRead_frames o.read (beforeRead o n)
  refine books_same ?_ hb
  exact ⟨h1, h2, h3, h4⟩

/-- After every interleaving of completions and passes on an initialised netif, the frames
    handed to `netif->input` and then those still queued are the arrivals; and every pbuf
    allocated is in the queue once, or was taken by `netif->input` once, or was freed
    once, and was handed over at most once. -/
theorem delivery {n : Netif} (hf : Fresh n) (o : InitOutcome) (es : List Ev)
    (hes : ∀ c, Ev.complete c ∈ es → c.Whole n.stateMtu) :
    (netifAfter USB_TRANSFER_FAILED o n es).handed.map (·.1.payload) ++
        (items (netifAfter USB_TRANSFER_FAILED o n es).queue).map (·.payload) =
      arrivals USB_TRANSFER_FAILED (ecmInitNetif o n).2 es ∧
    ∀ id < (netifAfter USB_TRANSFER_FAILED o n es).nextPbuf,
      queued (netifAfter USB_TRANSFER_FAILED o n es) id + taken (netifAfter USB_TRANSFER_FAILED o n es) id +
          released (netifAfter USB_TRANSFER_FAILED o n es) id = 1 ∧
        taken (netifAfter USB_TRANSFER_FAILED o n es) id + refused (netifAfter USB_TRANSFER_FAILED o n es) id ≤ 1 := by
  have hb : Books (netifAfter USB_TRANSFER_FAILED o n es) (arrivals USB_TRANSFER_FAILED (ecmInitNetif o n).2 es) :=
    run_books USB_TRANSFER_FAILED n.stateMtu hes (init_books hf o)
  refine ⟨hb.order, ?_⟩
  intro id hid
  have ho := hb.owner id
  have hr := hb.once id
  rw [if_pos hid] at ho
  exact ⟨ho, by omega⟩

/-- A 14-byte frame of type 0x0800 for the type 8, and of 0x86DD for 0x86. -/
def shortFrame (type : UInt8) : Completion :=
  ⟨0, 14, fun i => if i = 12 then type else if i = 13 ∧ type = 0x86 then 0xDD else 1, true, goodRead⟩

/-- Three IPv4 frames and one of IPv6, which gets no pbuf. `netif->input` takes the first and
    refuses the second, and the last is still in the queue. -/
def fourFrames : List Ev :=
  [.complete (shortFrame 8), .complete (shortFrame 8), .process ⟨0, goodRead⟩, .complete (shortFrame 0x86),
    .process ⟨-1, goodRead⟩, .complete (shortFrame 8)]

theorem a_refused_frame_is_freed :
    ((netifAfter 0x40 goodInit (malloced none) fourFrames).handed.map fun x => (x.1.id, x.2)) = [(0, 0), (1, -1)] ∧
      (netifAfter 0x40 goodInit (malloced none) fourFrames).freed.map (·.id) = [1] ∧
      (items (netifAfter 0x40 goodInit (malloced none) fourFrames).queue).map (·.id) = [2] ∧
      ∀ id < 3, queued (netifAfter 0x40 goodInit (malloced none) fourFrames) id +
        taken (netifAfter 0x40 goodInit (malloced none) fourFrames) id +
        released (netifAfter 0x40 goodInit (malloced none) fourFrames) id = 1 := by
  have hwhole : ∀ c, Ev.complete c ∈ fourFrames → c.Whole (malloced none).stateMtu := by
    intro c hc
    simp only [fourFrames, List.mem_cons, Ev.complete.injEq, reduceCtorEq, List.not_mem_nil, or_false, false_or] at hc
    rcases hc with rfl | rfl | rfl | rfl <;> exact Or.inr ⟨by decide, by decide⟩
  refine ⟨by decide, by decide, by decide, fun id hid => ?_⟩
  have hall := (delivery 0x40 (n := malloced none) ⟨rfl, rfl, rfl, rfl, rfl, rfl⟩ goodInit fourFrames hwhole).2
  exact (hall id hid).1

end Nanotube.Device.Ecm
