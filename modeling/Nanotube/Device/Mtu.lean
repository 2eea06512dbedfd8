/-
  Nanotube.Device.Mtu — do outgoing frames fit the device? (src/device/usb.c
  `process_config_descriptor`; src/device/ecm.c `ecm_init_netif`, `ecm_netif_output`;
  src/lwIP/core/ipv4/ip4.c `ip4_output_if_opt_src`, ip4_frag.c `ip4_frag`)

  `wMaxSegmentSize` is the largest frame the device takes, with the Ethernet header. It
  becomes `netif->mtu`, which for lwIP is the largest IP packet, without it. So packets are
  cut to the size of a frame, and then 14 bytes are put in front.

  Only the lengths matter here: lwIP turns a packet of `L` bytes into packets it passes to
  `netif->output`, by the rule `Fragments`, which `ip4_output` keeps (`ip4Output_fragments`).

  Proved: for every Ethernet descriptor from which a netif is made, of at least 82 bytes a
  segment, and every IP packet, the frames fit if and only if the packet is at least 14
  bytes shorter than the segment, or too long and with options, so that it is not sent at
  all (`frame_fits_iff`).
-/

import Nanotube.Device.Control
import Nanotube.Device.Transmit

namespace Nanotube.Device.Usb

open Nanotube.Device.Ecm (Netif InitOutcome ecmInitNetif)
open Nanotube.Device.Transmit (totLen ecmNetifOutput)

/-! ## lwIP -/

def IP_HLEN : Nat := 20
def SIZEOF_ETH_HDR : Nat := 14

/-- The loop of `ip4_frag`: the lengths of the fragments of `left` bytes, `size` of them in
    each. A fragment takes at least one byte, so `left` bounds their number. -/
def fragLoop (size : Nat) : Nat → Nat → List Nat
  | 0, _ => []
  | fuel + 1, left =>
    if left = 0 then []
    else
      let fragsize := min left size
      (fragsize + IP_HLEN) :: fragLoop size fuel (left - fragsize)

/-- `ip4_frag` on a packet of `L` bytes with a header of `hlen`; `nfb` is the number of
    8-byte blocks in a fragment. A header with options is refused. -/
def ip4Frag (hlen mtu L : Nat) : List Nat :=
  if hlen ≠ IP_HLEN then []
  else
    let nfb := (mtu - IP_HLEN) / 8
    fragLoop (nfb * 8) (L - IP_HLEN) (L - IP_HLEN)

/-- The lengths of the packets that `ip4_output_if` passes to `netif->output`. -/
def ip4Output (hlen mtu L : Nat) : List Nat := if mtu ≠ 0 ∧ mtu < L then ip4Frag hlen mtu L else [L]

/-- Exactly the packets longer than the MTU are fragmented, into pieces of at most the MTU. -/
structure Fragments (out : Nat → Nat → List Nat) : Prop where
  short : ∀ mtu L, L ≤ mtu → out mtu L = [L]
  long : ∀ mtu L, IP_HLEN ≤ mtu → mtu < L → ∀ l ∈ out mtu L, l ≤ mtu

theorem fragLoop_le (size fuel left : Nat) : ∀ l ∈ fragLoop size fuel left, l ≤ size + IP_HLEN := by
  induction fuel generalizing left with
  | zero => simp [fragLoop]
  | succ fuel ih =>
    unfold fragLoop
    split
    · simp
    · rw [List.forall_mem_cons]
      exact ⟨Nat.add_le_add_right (Nat.min_le_right _ _) _, ih _⟩

theorem ip4Output_fragments (hlen : Nat) : Fragments (ip4Output hlen) where
  short mtu L h := if_neg fun hlong => absurd hlong.2 (by omega)
  long mtu L hmtu hlong l hl := by
    have hpos : mtu ≠ 0 ∧ mtu < L := ⟨by unfold IP_HLEN at hmtu; omega, hlong⟩
    rw [ip4Output, if_pos hpos, ip4Frag] at hl
    split at hl
    · cases hl
    · have hle := fragLoop_le _ _ _ l hl
      omega

/-- The first fragment is full, up to the last block of 8 that fits. -/
theorem ip4Frag_first {mtu L : Nat} (hlong : mtu < L) (hmtu : IP_HLEN ≤ mtu) :
    (mtu - IP_HLEN) / 8 * 8 + IP_HLEN ∈ ip4Frag IP_HLEN mtu L := by
  unfold ip4Frag
  rw [if_neg (not_not.mpr rfl)]
  obtain ⟨left, hleft⟩ : ∃ left, L - IP_HLEN = left + 1 := ⟨L - IP_HLEN - 1, by omega⟩
  have hmin : min (left + 1) ((mtu - IP_HLEN) / 8 * 8) = (mtu - IP_HLEN) / 8 * 8 := by omega
  simp only [hleft, fragLoop, Nat.add_one_ne_zero, if_false, hmin]
  exact List.mem_cons_self

/-! ## The frames -/

/-- `ethernet_output` has put its header in front of a packet of `l` bytes. -/
def Framed (l : Nat) (q : Transmit.Chain) : Prop := totLen q.pbufs = l + SIZEOF_ETH_HDR

/-- Every frame that a packet of `L` bytes becomes goes to `usb_ScheduleTransfer` with a
    length of at most `m`. -/
def FramesFit (out : Nat → Nat → List Nat) (n : Netif) (m L : Nat) : Prop :=
  ∀ l ∈ out n.mtu.toNat L, ∀ q, Framed l q → (ecmNetifOutput q).length ≤ m

theorem framesFit_iff (out : Nat → Nat → List Nat) (n : Netif) (m L : Nat) :
    FramesFit out n m L ↔ ∀ l ∈ out n.mtu.toNat L, l + 14 ≤ m := by
  constructor
  · intro h l hl
    exact h l hl ⟨⟨0, l + 14⟩, []⟩ rfl
  · intro h l hl q hq
    have hlen : (ecmNetifOutput q).length = l + 14 := hq
    rw [hlen]
    exact h l hl

/-- A packet that leaves room for the header fits, however lwIP cuts up the others. -/
theorem framesFit_of_room {out : Nat → Nat → List Nat} (h : Fragments out) {n : Netif} {m L : Nat}
    (hm : n.mtu.toNat = m) (hL : L + 14 ≤ m) : FramesFit out n m L := by
  rw [framesFit_iff, h.short _ _ (by omega), List.forall_mem_singleton]
  exact hL

/-- With the segment size for the MTU, only those packets fit. -/
theorem framesFit_ip4Output {n : Netif} {m : Nat} (hm : n.mtu.toNat = m) (h82 : 82 ≤ m) (hlen L : Nat) :
    FramesFit (ip4Output hlen) n m L ↔ L + 14 ≤ m ∨ (m < L ∧ hlen ≠ IP_HLEN) := by
  constructor
  · intro h
    rw [framesFit_iff, hm] at h
    by_cases hlong : m < L
    · have hpos : m ≠ 0 ∧ m < L := ⟨by omega, hlong⟩
      rw [ip4Output, if_pos hpos] at h
      refine Or.inr ⟨hlong, ?_⟩
      rintro rfl
      have hfirst := h _ (ip4Frag_first hlong (by unfold IP_HLEN; omega))
      simp only [IP_HLEN] at hfirst
      omega
    · rw [(ip4Output_fragments hlen).short _ _ (by omega), List.forall_mem_singleton] at h
      exact Or.inl h
  · rintro (hL | ⟨hlong, hopt⟩)
    · exact framesFit_of_room (ip4Output_fragments hlen) hm hL
    · have hpos : m ≠ 0 ∧ m < L := ⟨by omega, hlong⟩
      rw [framesFit_iff, hm, ip4Output, if_pos hpos, ip4Frag, if_pos hopt]
      simp

/-! ## From the descriptor to the frame -/

/-- The field of the Ethernet descriptor at `e`. -/
def wMaxSegmentSize (m : Mem) (e : Nat) : Nat := ((m (e + 8)).toUInt16 + 256 * (m (e + 9)).toUInt16).toNat

/-- Every netif that `process_config_descriptor` adds was made from one Ethernet descriptor,
    that of its own setting; if that allows at least 82 bytes, the frames of a packet fit
    exactly if the packet leaves room for the header, or is too long and has options. -/
theorem frame_fits_iff (env : Env) (fuel : Nat) (config : UInt8) (w : World) :
    ∃ cs, (processConfigDescriptor env fuel config w).2.calls = w.calls ++ cs ∧
      ∀ n ∈ netifs cs, ∃ m p e, env.configDescriptor w.calls (config - 1) = some m ∧
        MadeFromAt m (env.totalLength w.calls (config - 1)) n p e ∧
        (82 ≤ wMaxSegmentSize m e → ∀ (o : InitOutcome) (raw : Netif) (hlen L : Nat),
          FramesFit (ip4Output hlen) (ecmInitNetif o (n.toNetif raw)).2 (wMaxSegmentSize m e) L ↔
            L + 14 ≤ wMaxSegmentSize m e ∨ (wMaxSegmentSize m e < L ∧ hlen ≠ IP_HLEN)) := by
  obtain ⟨cs, hcs, hmade⟩ := process_makes env fuel config w
  refine ⟨cs, hcs, fun n hn => ?_⟩
  obtain ⟨m, hm, p, e, hat⟩ := hmade n hn
  refine ⟨m, p, e, hm, hat, fun h82 o raw hlen L => ?_⟩
  obtain ⟨-, -, -, -, -, hmtu⟩ := hat
  obtain ⟨-, -, hset, -⟩ := Ecm.initNetif_sets o (n.toNetif raw)
  have hsize : (ecmInitNetif o (n.toNetif raw)).2.mtu.toNat = wMaxSegmentSize m e := by
    rw [hset, wMaxSegmentSize, ← hmtu]
    rfl
  exact framesFit_ip4Output hsize h82 hlen L

/-- The device takes frames of 1514 bytes: a packet of 1500 fits, and one of 1501 is a
    frame of 1515. -/
theorem a_full_packet_does_not_fit :
    let calls := (processConfigDescriptor (deviceOf [ecmDevice.flatMap Desc.bytes]) 257 1 World.start).2.calls
    (netifs calls).map Added.mtu = [1514] ∧
      ∀ n ∈ netifs calls,
        FramesFit (ip4Output 20) (ecmInitNetif Ecm.goodInit (n.toNetif (Ecm.malloced none))).2 1514 1500 ∧
          ¬ FramesFit (ip4Output 20) (ecmInitNetif Ecm.goodInit (n.toNetif (Ecm.malloced none))).2 1514 1501 := by
  intro calls
  have hmtu : (netifs calls).map Added.mtu = [1514] := by decide +kernel
  refine ⟨hmtu, fun n hn => ?_⟩
  have hn : n.mtu = 1514 := by
    have := List.mem_map_of_mem (f := Added.mtu) hn
    rw [hmtu] at this
    exact List.mem_singleton.mp this
  have hset : (ecmInitNetif Ecm.goodInit (n.toNetif (Ecm.malloced none))).2.mtu.toNat = 1514 := by
    rw [(Ecm.initNetif_sets Ecm.goodInit (n.toNetif (Ecm.malloced none))).2.2.1, Added.toNetif, hn]
    rfl
  rw [framesFit_ip4Output hset (by decide), framesFit_ip4Output hset (by decide)]
  decide

end Nanotube.Device.Usb
