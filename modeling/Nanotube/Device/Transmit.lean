/-
  Nanotube.Device.Transmit — which bytes of a packet go out? (src/device/ecm.c
  `ecm_netif_output`; src/lwIP/core/pbuf.c `pbuf_alloc`)

  A packet is a chain of pbufs, each with its own payload. `ecm_netif_output` schedules
  one transfer, from the payload of the first pbuf on, of the length of all of them.

  Proved: what is sent is the packet, for any contents of the memory, exactly if each
  further pbuf that has data has it right behind the data before (`sends_packet_iff`). The
  chains of `pbuf_alloc` from the pool never have it there, because the next pbuf's own
  header lies in between: such a packet is sent right exactly if it fits the first pool
  buffer (`pool_packet_iff`).
-/

import Mathlib.Data.List.Basic

namespace Nanotube.Device.Transmit

abbrev Memory := Nat → UInt8

/-- The payload pointer and the length of one pbuf. -/
structure Pbuf where
  payload : Nat
  len : Nat
  deriving DecidableEq, Repr

/-- A pbuf and those it is chained to by `next`. -/
structure Chain where
  first : Pbuf
  rest : List Pbuf
  deriving DecidableEq, Repr

def Chain.pbufs (p : Chain) : List Pbuf := p.first :: p.rest

/-- `tot_len`, the sum of the `len` fields. -/
def totLen : List Pbuf → Nat
  | [] => 0
  | q :: qs => q.len + totLen qs

/-- The `len` bytes of memory at `addr`. -/
def load (mem : Memory) (addr len : Nat) : List UInt8 := (List.range len).map fun i => mem (addr + i)

/-- The payloads of a chain, one after the other. -/
def contents (mem : Memory) : List Pbuf → List UInt8
  | [] => []
  | q :: qs => load mem q.payload q.len ++ contents mem qs

/-- The buffer and the length given to `usb_ScheduleTransfer`. -/
structure Transfer where
  buffer : Nat
  length : Nat
  deriving DecidableEq, Repr

/-- The transfer `ecm_netif_output` schedules. -/
def ecmNetifOutput (p : Chain) : Transfer := ⟨p.first.payload, totLen p.pbufs⟩

def Transfer.sent (mem : Memory) (t : Transfer) : List UInt8 := load mem t.buffer t.length

/-- The transfer is the packet, whatever the memory holds, and no byte of it lies outside
    the payloads. -/
structure SendsPacket (p : Chain) : Prop where
  whole : ∀ mem, (ecmNetifOutput p).sent mem = contents mem p.pbufs
  inside : ∀ i < (ecmNetifOutput p).length, ∃ q ∈ p.pbufs,
    q.payload ≤ (ecmNetifOutput p).buffer + i ∧ (ecmNetifOutput p).buffer + i < q.payload + q.len

/-- The data of the pbufs follows on from `addr` without a gap. -/
def Adjoining : Nat → List Pbuf → Prop
  | _, [] => True
  | addr, q :: qs => (q.len = 0 ∨ q.payload = addr) ∧ Adjoining (addr + q.len) qs

/-! ## One range of memory -/

theorem load_add (mem : Memory) (addr m n : Nat) :
    load mem addr (m + n) = load mem addr m ++ load mem (addr + m) n := by
  simp [load, List.range_add, Nat.add_assoc]

theorem length_load (mem : Memory) (addr n : Nat) : (load mem addr n).length = n := by simp [load]

theorem length_contents (mem : Memory) (qs : List Pbuf) : (contents mem qs).length = totLen qs := by
  induction qs with
  | nil => rfl
  | cons q qs ih => rw [contents, List.length_append, length_load, ih, totLen]

theorem load_of_adjoining (mem : Memory) {addr : Nat} {qs : List Pbuf} (h : Adjoining addr qs) :
    load mem addr (totLen qs) = contents mem qs := by
  induction qs generalizing addr with
  | nil => rfl
  | cons q qs ih =>
    obtain ⟨hq, hqs⟩ := h
    rw [totLen, load_add, contents, ih hqs]
    rcases hq with h0 | rfl
    · simp [h0, load]
    · rfl

theorem inside_of_adjoining {addr : Nat} {qs : List Pbuf} (h : Adjoining addr qs) {i : Nat} (hi : i < totLen qs) :
    ∃ q ∈ qs, q.payload ≤ addr + i ∧ addr + i < q.payload + q.len := by
  induction qs generalizing addr i with
  | nil => exact absurd hi (Nat.not_lt_zero i)
  | cons q qs ih =>
    obtain ⟨hq, hqs⟩ := h
    by_cases hlt : i < q.len
    · refine ⟨q, List.mem_cons_self, ?_⟩
      rcases hq with h0 | rfl
      · omega
      · omega
    · rw [totLen] at hi
      obtain ⟨q', hq', hle, hlt'⟩ := ih hqs (i := i - q.len) (by omega)
      exact ⟨q', List.mem_cons_of_mem _ hq', by omega, by omega⟩

/-- A range that reads like the payloads in every memory is made of them: a memory with a
    single 1 tells two addresses apart. -/
theorem adjoining_of_load {addr : Nat} {qs : List Pbuf}
    (h : ∀ mem, load mem addr (totLen qs) = contents mem qs) : Adjoining addr qs := by
  induction qs generalizing addr with
  | nil => trivial
  | cons q qs ih =>
    have hsplit : ∀ mem, load mem addr q.len = load mem q.payload q.len ∧
        load mem (addr + q.len) (totLen qs) = contents mem qs := by
      intro mem
      have hm := h mem
      rw [totLen, load_add, contents] at hm
      exact List.append_inj hm (by rw [length_load, length_load])
    refine ⟨?_, ih fun mem => (hsplit mem).2⟩
    cases hlen : q.len with
    | zero => exact Or.inl rfl
    | succ n =>
      have hone := (hsplit fun a => if a = addr then 1 else 0).1
      simp only [load, hlen, List.range_succ_eq_map, List.map_cons, List.cons.injEq, Nat.add_zero, if_true] at hone
      by_contra hne
      rw [if_neg fun e => hne (Or.inr e)] at hone
      exact absurd hone.1 (by decide)

theorem sendsPacket_of_adjoining {p : Chain} (h : Adjoining (p.first.payload + p.first.len) p.rest) :
    SendsPacket p := by
  have hall : Adjoining p.first.payload p.pbufs := ⟨Or.inr rfl, h⟩
  exact ⟨fun mem => load_of_adjoining mem hall, fun i hi => inside_of_adjoining hall hi⟩

theorem adjoining_of_sendsPacket {p : Chain} (h : SendsPacket p) :
    Adjoining (p.first.payload + p.first.len) p.rest := by
  have hall : Adjoining p.first.payload p.pbufs := adjoining_of_load h.whole
  exact hall.2

/-- `ecm_netif_output` sends the packet, and nothing else, if and only if the data of the
    further pbufs lies right behind that of the first. -/
theorem sends_packet_iff (p : Chain) : SendsPacket p ↔ Adjoining (p.first.payload + p.first.len) p.rest :=
  ⟨adjoining_of_sendsPacket, sendsPacket_of_adjoining⟩

/-- Two pbufs of three bytes, eleven bytes apart. -/
def twoPbufs : Chain := ⟨⟨100, 3⟩, [⟨111, 3⟩]⟩

/-- The three bytes sent behind the first payload are not of the packet. -/
theorem a_chained_packet_is_sent_wrong :
    ecmNetifOutput twoPbufs = ⟨100, 6⟩ ∧
      (ecmNetifOutput twoPbufs).sent (fun a => UInt8.ofNat a) = [100, 101, 102, 103, 104, 105] ∧
      contents (fun a => UInt8.ofNat a) twoPbufs.pbufs = [100, 101, 102, 111, 112, 113] ∧ ¬ SendsPacket twoPbufs := by
  refine ⟨by decide, by decide, by decide, ?_⟩
  intro h
  have hwhole := h.whole fun a => UInt8.ofNat a
  exact absurd hwhole (by decide)

/-! ## Packets from the pool -/

/-- `PBUF_POOL_BUFSIZE_ALIGNED`, with the options' TCP_MSS and no alignment. -/
def PBUF_POOL_BUFSIZE : Nat := 590

/-- The loop of `pbuf_alloc` for PBUF_POOL. `pool` are the addresses `memp_malloc` will
    give out, NULL when there are no more, and `header` is SIZEOF_STRUCT_PBUF. -/
def pbufAllocPool (header : Nat) : List Nat → Nat → Nat → Option (List Pbuf)
  | [], _, _ => none
  | q :: pool, offset, remLen =>
    let qlen := min remLen (PBUF_POOL_BUFSIZE - offset)
    let p : Pbuf := ⟨q + header + offset, qlen⟩
    if 0 < remLen - qlen then (pbufAllocPool header pool 0 (remLen - qlen)).map (p :: ·) else some [p]

/-- Two elements of the pool do not overlap. -/
def Apart (header a b : Nat) : Prop := a + header + PBUF_POOL_BUFSIZE ≤ b ∨ b + header + PBUF_POOL_BUFSIZE ≤ a

/-- The chain starts in the first element, and the second pbuf, if there is one, in the
    second, with data in it. -/
theorem pbufAllocPool_cases {header q offset length : Nat} {pool : List Nat} (ho : offset < PBUF_POOL_BUFSIZE)
    {chain : List Pbuf} (h : pbufAllocPool header (q :: pool) offset length = some chain) :
    (length ≤ PBUF_POOL_BUFSIZE - offset ∧ chain = [⟨q + header + offset, length⟩]) ∨
      (PBUF_POOL_BUFSIZE - offset < length ∧ ∃ q' pool' len rest, pool = q' :: pool' ∧ 0 < len ∧
        chain = ⟨q + header + offset, PBUF_POOL_BUFSIZE - offset⟩ :: ⟨q' + header, len⟩ :: rest) := by
  have hsize : PBUF_POOL_BUFSIZE = 590 := rfl
  simp only [pbufAllocPool] at h
  split at h
  next hmore =>
    right
    have hmin : min length (PBUF_POOL_BUFSIZE - offset) = PBUF_POOL_BUFSIZE - offset := by omega
    rw [hmin] at h hmore
    refine ⟨by omega, ?_⟩
    cases pool with
    | nil => simp [pbufAllocPool] at h
    | cons q' pool' =>
      obtain ⟨tail, htail, rfl⟩ := Option.map_eq_some_iff.mp h
      simp only [pbufAllocPool, Nat.add_zero] at htail
      refine ⟨q', pool', min (length - (PBUF_POOL_BUFSIZE - offset)) (PBUF_POOL_BUFSIZE - 0), ?_⟩
      split at htail
      · obtain ⟨rest, -, rfl⟩ := Option.map_eq_some_iff.mp htail
        exact ⟨rest, rfl, by omega, rfl⟩
      · cases htail
        exact ⟨[], rfl, by omega, rfl⟩
  next hdone =>
    left
    have hmin : min length (PBUF_POOL_BUFSIZE - offset) = length := by omega
    rw [hmin] at h
    cases h
    exact ⟨by omega, rfl⟩

/-- A packet allocated from a pool of elements that do not overlap is sent as it is if and
    only if it fits the first of them. -/
theorem pool_packet_iff {header q offset length : Nat} {pool : List Nat} (hh : 0 < header)
    (ho : offset < PBUF_POOL_BUFSIZE) (hapart : ∀ q' ∈ pool, Apart header q q') {p : Chain}
    (h : pbufAllocPool header (q :: pool) offset length = some p.pbufs) :
    SendsPacket p ↔ length ≤ PBUF_POOL_BUFSIZE - offset := by
  rcases pbufAllocPool_cases ho h with ⟨hle, hp⟩ | ⟨hlt, q', pool', len, rest, rfl, hlen, hp⟩
  · obtain ⟨-, hrest⟩ := List.cons.inj hp
    refine iff_of_true (sendsPacket_of_adjoining ?_) hle
    rw [hrest]
    trivial
  · obtain ⟨hfirst, hrest⟩ := List.cons.inj hp
    refine iff_of_false ?_ (by omega)
    intro hsends
    have hadj := adjoining_of_sendsPacket hsends
    rw [hrest, hfirst] at hadj
    have hsize : PBUF_POOL_BUFSIZE = 590 := rfl
    rcases hadj.1 with h0 | haddr
    · exact absurd h0 (by show len ≠ 0; omega)
    · have haddr' : q' + header = q + header + offset + (PBUF_POOL_BUFSIZE - offset) := haddr
      rcases hapart q' List.mem_cons_self with hab | hab
      · omega
      · omega

end Nanotube.Device.Transmit
