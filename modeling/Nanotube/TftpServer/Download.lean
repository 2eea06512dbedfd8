/-
  Nanotube.TftpServer.Download — a file read by TFTP (src/lwIP/apps/tftp/tftp_server.c
  `send_data`, `resend_data`, `recv`, `tftp_tmr`; src/tftp.c `tftpContext`).

  The file goes out in blocks of 512 bytes; a block is sent again when its acknowledgment
  is late, and the next one is read when it comes. Nothing else ties a block's number to its
  place in the file.

  Proved, for every fileioc with `Reads`:
  - over any packets from anyone, requests sent twice, old acknowledgments and silence
    included, each DATA packet to a client carries the bytes of the file at the place of its
    number; so whichever of these packets the network loses, repeats or reorders, a client
    that takes the blocks in order has a prefix of the file at all times and the whole file
    when it sees the short block (`download_safe`);
  - a client that acknowledges what it gets is sent the whole file, if it can be opened
    (`download_completes`).

  Both are for files whose blocks all have numbers of their own, and hold if no pbuf
  allocation fails: without memory for a block the server keeps none, takes an old
  acknowledgment for that block, and sends its bytes under the next number
  (`a_failed_allocation_moves_the_file`).
-/

import Nanotube.TftpServer.Files

namespace Nanotube.TftpServer

open Nanotube.Device.Transmit (Chain totLen load)
open Nanotube.Lib.Runs Nanotube.Lib.Wire

/-! ## Blocks -/

/-- The block at this place of the file, the first one at 0. -/
def block (file : List UInt8) (i : Nat) : List UInt8 :=
  (file.drop (TFTP_MAX_PAYLOAD_SIZE * i)).take TFTP_MAX_PAYLOAD_SIZE

/-- If the bytes are a DATA packet, it is one of the file. -/
def IsBlock (file payload : List UInt8) : Prop :=
  ∀ hi lo data, payload = 0 :: 3 :: hi :: lo :: data →
    ∃ i, TFTP_MAX_PAYLOAD_SIZE * i ≤ file.length ∧ 256 * hi.toNat + lo.toNat = (i + 1) % 65536 ∧ data = block file i

theorem isBlock_dataBytes {file : List UInt8} {i : Nat} (h : TFTP_MAX_PAYLOAD_SIZE * i ≤ file.length) :
    IsBlock file (dataBytes (i + 1).toUInt16 (block file i)) := by
  intro hi lo data heq
  simp only [dataBytes, be16, List.cons_append, List.nil_append, List.cons.injEq] at heq
  obtain ⟨-, -, rfl, rfl, rfl⟩ := heq
  exact ⟨i, h, be16_toNat _, rfl⟩

theorem isBlock_errorBytes (file : List UInt8) (code : TftpError) (str : String) : IsBlock file (errorBytes code str) := by
  intro hi lo data heq
  simp only [errorBytes, be16, List.cons_append, List.nil_append, List.cons.injEq] at heq
  exact absurd heq.2.1 (by decide)

theorem isBlock_ackBytes (file : List UInt8) (blknum : UInt16) : IsBlock file (ackBytes blknum) := by
  intro hi lo data heq
  simp only [ackBytes, be16, List.cons_append, List.nil_append, List.cons.injEq] at heq
  exact absurd heq.2.1 (by decide)

/-! ## The server's side -/

section Server

variable {φ : Type} {io : Fileioc φ} {v : View φ} {addr : Nat} {port : UInt16} {name file : List UInt8} {s : State φ UInt8}

/-- The place in the file of a transfer that reads: the kept packet is the block with the
    number, and the offset is behind it. -/
structure ReadingAt (v : View φ) (s : State φ UInt8) (h : UInt8) (n c : List UInt8) (i : Nat) : Prop where
  place : v.place s.files h = some (n, TFTP_MAX_PAYLOAD_SIZE * i + (block c i).length)
  vars : v.vars s.files n = some c
  inside : TFTP_MAX_PAYLOAD_SIZE * i ≤ c.length
  blknum : s.blknum = (i + 1).toUInt16
  lastData : s.lastData = some (dataBytes (i + 1).toUInt16 (block c i))

/-- The invariant for the client at `addr` and `port` that reads the file. -/
structure Serves (v : View φ) (addr : Nat) (port : UInt16) (name file : List UInt8) (s : State φ UInt8) : Prop where
  mem : s.mem = []
  var : v.vars s.files name = some file
  idle : s.handle = none → s.lastData = none
  reading : ∀ h, s.handle = some h → s.modeWrite = false →
    ∃ n c i, ReadingAt v s h n c i ∧ (s.addr = addr → s.port = port → n = name)
  writing : ∀ h, s.handle = some h → s.modeWrite = true →
    s.lastData = none ∧ ∃ n off, v.place s.files h = some (n, off) ∧ n ≠ name
  sent : ∀ d ∈ s.sent, d.addr = addr → d.port = port → IsBlock file d.payload

/-- The invariant does not look at the timer, the peer's last packet and the pbufs. -/
theorem Serves.congr {s' : State φ UInt8} (hs : Serves v addr port name file s) (hmem : s'.mem = s.mem)
    (hsent : s'.sent = s.sent) (hfiles : s'.files = s.files) (hhandle : s'.handle = s.handle)
    (hlast : s'.lastData = s.lastData) (hmode : s'.modeWrite = s.modeWrite) (hblk : s'.blknum = s.blknum)
    (hpeer : s'.addr = s.addr ∧ s'.port = s.port) : Serves v addr port name file s' := by
  refine ⟨hmem.trans hs.mem, hfiles ▸ hs.var, ?_, fun h hh hm => ?_, fun h hh hm => ?_, hsent ▸ hs.sent⟩
  · rw [hhandle, hlast]
    exact hs.idle
  · obtain ⟨n, c, i, hr, hname⟩ := hs.reading h (hhandle ▸ hh) (hmode ▸ hm)
    refine ⟨n, c, i, ⟨hfiles ▸ hr.place, hfiles ▸ hr.vars, hr.inside, hblk.trans hr.blknum, hlast.trans hr.lastData⟩, ?_⟩
    rw [hpeer.1, hpeer.2]
    exact hname
  · rw [hlast, hfiles]
    exact hs.writing h (hhandle ▸ hh) (hmode ▸ hm)

/-- With memory for it the datagram is sent, and nothing else happens. -/
theorem sendBytes_nil {φ H : Type} {s : State φ H} (h : s.mem = []) (a : Nat) (p : UInt16) (payload : List UInt8) :
    sendBytes a p payload s = pbufFree .fresh (udpSendto a p payload (pbufOp .alloc s)) := by
  rw [sendBytes, show pbufAlloc s = (true, pbufOp .alloc s) by rw [pbufAlloc, h]]
  rfl

theorem sendBytes_serves (hs : Serves v addr port name file s) {a : Nat} {p : UInt16} {payload : List UInt8}
    (h : a = addr → p = port → IsBlock file payload) : Serves v addr port name file (sendBytes a p payload s) := by
  rw [sendBytes_nil hs.mem]
  refine ⟨hs.mem, hs.var, hs.idle, ?_, hs.writing, fun d hd ha hp => ?_⟩
  · intro x hx hm
    obtain ⟨n, c, i, hr, hname⟩ := hs.reading x hx hm
    exact ⟨n, c, i, ⟨hr.place, hr.vars, hr.inside, hr.blknum, hr.lastData⟩, hname⟩
  · rcases List.mem_append.mp hd with hd | hd
    · exact hs.sent d hd ha hp
    · rw [List.mem_singleton] at hd
      subst hd
      exact h ha hp

theorem sendError_serves (hs : Serves v addr port name file s) (a : Nat) (p : UInt16) (code : TftpError) (str : String) :
    Serves v addr port name file (sendError a p code str s) :=
  sendBytes_serves hs fun _ _ => isBlock_errorBytes file code str

theorem sendAck_serves (hs : Serves v addr port name file s) (blknum : UInt16) :
    Serves v addr port name file (sendAck blknum s) :=
  sendBytes_serves hs fun _ _ => isBlock_ackBytes file blknum

theorem closeHandle_serves (hio : Reads io v) (hs : Serves v addr port name file s) :
    Serves v addr port name file (closeHandle (tftpContext io) s) := by
  refine ⟨hs.mem, ?_, fun _ => rfl, fun _ h => (nomatch h), fun _ h => (nomatch h), hs.sent⟩
  simp only [closeHandle]
  cases s.handle with
  | none => exact hs.var
  | some h => exact (congrFun (hio.close s.files h) name).trans hs.var

/-- The kept packet is a block of the file, if it is for the client. -/
theorem Serves.isBlock_lastData (hs : Serves v addr port name file s) {d : List UInt8} (hd : s.lastData = some d)
    (ha : s.addr = addr) (hp : s.port = port) : IsBlock file d := by
  cases hh : s.handle with
  | none =>
    rw [hs.idle hh] at hd
    cases hd
  | some h =>
    cases hm : s.modeWrite with
    | true =>
      rw [(hs.writing h hh hm).1] at hd
      cases hd
    | false =>
      obtain ⟨n, c, i, hr, hname⟩ := hs.reading h hh hm
      obtain rfl := hname ha hp
      obtain rfl : c = file := Option.some_inj.mp (hr.vars.symm.trans hs.var)
      obtain rfl : dataBytes (i + 1).toUInt16 (block c i) = d := Option.some_inj.mp (hr.lastData.symm.trans hd)
      exact isBlock_dataBytes hr.inside

theorem resendData_serves (hs : Serves v addr port name file s) : Serves v addr port name file (resendData s) := by
  unfold resendData
  split
  next => exact hs
  next d hd => exact sendBytes_serves hs fun ha hp => hs.isBlock_lastData hd ha hp

/-- A transfer that has read all blocks before the one at `i`, and is to send that one. -/
structure Before (v : View φ) (s : State φ UInt8) (h : UInt8) (n c : List UInt8) (i : Nat) : Prop where
  place : v.place s.files h = some (n, TFTP_MAX_PAYLOAD_SIZE * i)
  vars : v.vars s.files n = some c
  inside : TFTP_MAX_PAYLOAD_SIZE * i ≤ c.length
  blknum : s.blknum = (i + 1).toUInt16

/-- The block at `i` has been read, is kept and was sent. -/
structure BlockSent (io : Fileioc φ) (h : UInt8) (c : List UInt8) (i : Nat) (s s' : State φ UInt8) : Prop where
  transfer : s'.toTransfer = { s.toTransfer with
    files := (io.tiRead s.files h TFTP_MAX_PAYLOAD_SIZE).2, lastData := some (dataBytes (i + 1).toUInt16 (block c i)) }
  sent : s'.sent = s.sent ++ [⟨s.addr, s.port, dataBytes (i + 1).toUInt16 (block c i)⟩]
  mem : s'.mem = []

theorem sendData_sent (hio : Reads io v) {h : UInt8} {n c : List UInt8} {i : Nat} (hb : Before v s h n c i)
    (hmem : s.mem = []) : BlockSent io h c i s (sendData (tftpContext io) h s) := by
  have hread : (tftpContext io).readFile s.files h TFTP_MAX_PAYLOAD_SIZE =
      (some (block c i), (io.tiRead s.files h TFTP_MAX_PAYLOAD_SIZE).2) := by
    simp only [tftpContext, tftpRead, (hio.read TFTP_MAX_PAYLOAD_SIZE hb.place hb.vars).1]
    rfl
  have halloc : pbufAlloc (freeLastData s) = (true, pbufOp .alloc (freeLastData s)) := by
    rw [pbufAlloc, show (freeLastData s).mem = [] from hmem]
  have hkept : (keep (dataBytes s.blknum (block c i))
      (setFiles (io.tiRead s.files h TFTP_MAX_PAYLOAD_SIZE).2 (pbufOp .alloc (freeLastData s)))).mem = [] := hmem
  have heq : sendData (tftpContext io) h s =
      sendBytes s.addr s.port (dataBytes s.blknum (block c i)) (keep (dataBytes s.blknum (block c i))
        (setFiles (io.tiRead s.files h TFTP_MAX_PAYLOAD_SIZE).2 (pbufOp .alloc (freeLastData s)))) := by
    simp only [sendData, halloc, if_true]
    rw [show (pbufOp .alloc (freeLastData s)).files = s.files from rfl, hread]
    rfl
  rw [heq, sendBytes_nil hkept, hb.blknum]
  exact ⟨rfl, rfl, hmem⟩

/-- The offset is behind the block. -/
theorem BlockSent.readingAt (hio : Reads io v) {h : UInt8} {n c : List UInt8} {i : Nat} {s' : State φ UInt8}
    (hsent : BlockSent io h c i s s') (hb : Before v s h n c i) :
    ReadingAt v s' h n c i ∧ v.vars s'.files = v.vars s.files := by
  obtain ⟨-, hplace, hvars⟩ := hio.read TFTP_MAX_PAYLOAD_SIZE hb.place hb.vars
  have hfiles : s'.files = (io.tiRead s.files h TFTP_MAX_PAYLOAD_SIZE).2 := by rw [hsent.transfer]
  have hvars' : v.vars s'.files = v.vars s.files := by rw [hfiles, hvars]
  refine ⟨⟨?_, ?_, hb.inside, ?_, ?_⟩, hvars'⟩
  · rw [hfiles]
    exact hplace
  · rw [hvars']
    exact hb.vars
  · rw [hsent.transfer]
    exact hb.blknum
  · rw [hsent.transfer]

theorem BlockSent.serves (hio : Reads io v) {h : UInt8} {n c : List UInt8} {i : Nat} {s' : State φ UInt8}
    (hsent : BlockSent io h c i s s') (hb : Before v s h n c i) (hvar : v.vars s.files name = some file)
    (hbefore : ∀ d ∈ s.sent, d.addr = addr → d.port = port → IsBlock file d.payload) (hhandle : s.handle = some h)
    (hmode : s.modeWrite = false) (hname : s.addr = addr → s.port = port → n = name) :
    Serves v addr port name file s' := by
  obtain ⟨hread, hvars⟩ := hsent.readingAt hio hb
  have hhandle' : s'.handle = some h := by rw [hsent.transfer]; exact hhandle
  have hmode' : s'.modeWrite = false := by rw [hsent.transfer]; exact hmode
  have hpeer : s'.addr = s.addr ∧ s'.port = s.port := by rw [hsent.transfer]; exact ⟨rfl, rfl⟩
  refine ⟨hsent.mem, by rw [hvars]; exact hvar, fun h0 => ?_, fun x hx _ => ?_, fun _ _ h0 => ?_, fun d hd ha hp => ?_⟩
  · rw [hhandle'] at h0
    cases h0
  · obtain rfl : h = x := Option.some.inj (hhandle'.symm.trans hx)
    refine ⟨n, c, i, hread, ?_⟩
    rw [hpeer.1, hpeer.2]
    exact hname
  · rw [hmode'] at h0
    cases h0
  · rw [hsent.sent] at hd
    rcases List.mem_append.mp hd with hd | hd
    · exact hbefore d hd ha hp
    · rw [List.mem_singleton] at hd
      subst hd
      obtain rfl := hname ha hp
      obtain rfl : c = file := Option.some_inj.mp (hb.vars.symm.trans hvar)
      exact isBlock_dataBytes hb.inside

/-- Who asks for what: nobody writes the file, and the client asks for no other. -/
def Asks (addr : Nat) (port : UInt16) (name : List UInt8) : Ev → Prop
  | .packet e env => env.mem = [] ∧ ∀ f m, parseRequest (pbufsOf e.mem e.p.pbufs) = .ok (f, m) →
      (opcode e = TFTP_WRQ → cStr f ≠ name) ∧ (opcode e = TFTP_RRQ → e.addr = addr → e.port = port → cStr f = name)
  | .tick env => env.mem = []

theorem sysTimeout_spec {φ H : Type} (s : State φ H) :
    ∃ pending lost, sysTimeout s = { s with pending := pending, timeoutsLost := lost } := by
  unfold sysTimeout
  split
  · exact ⟨_, _, rfl⟩
  · exact ⟨_, _, rfl⟩

theorem sysTimeout_serves (hs : Serves v addr port name file s) : Serves v addr port name file (sysTimeout s) := by
  obtain ⟨pending, lost, h⟩ := sysTimeout_spec s
  rw [h]
  exact hs.congr rfl rfl rfl rfl rfl rfl rfl ⟨rfl, rfl⟩

/-- The state in which the first block of a file is to be sent. -/
def granted (e : Packet) (f m : List UInt8) (h : UInt8) (files : φ) (s : State φ UInt8) : State φ UInt8 :=
  grant e false h files (noteOpen ⟨f, m, false, some h⟩ (sysTimeout s))

/-- A request to read a file that can be opened is granted, and its first block is sent. -/
theorem recvRequest_read (hio : Reads io v) {e : Packet} {f m c : List UInt8} {h : UInt8} {files : φ}
    (hnone : s.handle = none) (hmem : s.mem = []) (hparse : parseRequest (pbufsOf e.mem e.p.pbufs) = .ok (f, m))
    (hopen : io.tiOpen s.files (cStr f) false = (h, files)) (hne : h ≠ 0) (hc : v.vars s.files (cStr f) = some c) :
    Before v (granted e f m h files s) h (cStr f) c 0 ∧
      BlockSent io h c 0 (granted e f m h files s) (recvRequest (tftpContext io) false e s) := by
  have hvars : v.vars files (cStr f) = some c := by
    have h0 := hio.open_vars s.files (cStr f) (cStr f) false (Or.inl rfl)
    rw [hopen] at h0
    exact h0.trans hc
  have hb : Before v (granted e f m h files s) h (cStr f) c 0 := ⟨hio.opened hopen hne, hvars, Nat.zero_le _, rfl⟩
  have hmem' : (granted e f m h files s).mem = [] := by
    obtain ⟨pending, lost, h0⟩ := sysTimeout_spec s
    rw [granted, h0]
    exact hmem
  have hopen' : (tftpContext io).openFile s.files f m false = (some h, files) := by
    simp only [tftpContext, tftpOpen, hopen, if_neg hne]
  have heq : recvRequest (tftpContext io) false e s = sendData (tftpContext io) h (granted e f m h files s) := by
    rw [recvRequest, hnone, hparse]
    simp only [hopen', Bool.false_eq_true, if_false]
    rfl
  exact ⟨hb, heq ▸ sendData_sent hio hb hmem'⟩

/-- The file could not be opened. -/
theorem notOpened_serves (hs : Serves v addr port name file s) (hnone : s.handle = none) {files : φ}
    (hvar : v.vars files name = some file) (o : Opening UInt8) :
    Serves v addr port name file (notOpened files (noteOpen o s)) := by
  have hno : ∀ {p : Prop} (h : UInt8), s.handle = some h → p := by
    intro p h h0
    rw [hnone] at h0
    cases h0
  exact ⟨hs.mem, hvar, hs.idle, fun x h0 => hno x h0, fun x h0 => hno x h0, hs.sent⟩

/-- Another file was opened for writing. -/
theorem grantWrite_serves (hs : Serves v addr port name file s) (hnone : s.handle = none) {files : φ}
    (hvar : v.vars files name = some file) {n : List UInt8} {off : Nat} {h : UInt8}
    (hplace : v.place files h = some (n, off)) (hne : n ≠ name) (e : Packet) (o : Opening UInt8) :
    Serves v addr port name file (grant e true h files (noteOpen o s)) := by
  refine ⟨hs.mem, hvar, fun h0 => absurd h0 (Option.some_ne_none h),
    fun _ _ h0 => absurd (show true = false from h0) (by decide), fun x hx _ => ?_, hs.sent⟩
  obtain rfl : h = x := Option.some.inj hx
  exact ⟨hs.idle hnone, n, off, hplace, hne⟩

theorem recvRequest_serves (hio : Reads io v) (hs : Serves v addr port name file s) (write : Bool) {e : Packet}
    (hasks : ∀ f m, parseRequest (pbufsOf e.mem e.p.pbufs) = .ok (f, m) →
      (write = true → cStr f ≠ name) ∧ (write = false → e.addr = addr → e.port = port → cStr f = name)) :
    Serves v addr port name file (recvRequest (tftpContext io) write e s) := by
  have ht := sysTimeout_serves hs
  cases hnone : s.handle with
  | some h =>
    rw [recvRequest, hnone]
    exact sendError_serves hs _ _ _ _
  | none =>
    have hnone' : (sysTimeout s).handle = none := (sysTimeout_other s).1.trans hnone
    cases hparse : parseRequest (pbufsOf e.mem e.p.pbufs) with
    | error str =>
      rw [recvRequest, hnone, hparse]
      exact sendError_serves ht _ _ _ _
    | ok fm =>
      obtain ⟨f, m⟩ := fm
      obtain ⟨hw, hr⟩ := hasks f m hparse
      -- opening leaves the client's file alone, whether it succeeds or not
      have hvar : v.vars (io.tiOpen s.files (cStr f) write).2 name = some file := by
        refine (hio.open_vars s.files _ _ _ ?_).trans hs.var
        cases write with
        | false => exact Or.inl rfl
        | true => exact Or.inr (Ne.symm (hw rfl))
      by_cases hne : (io.tiOpen s.files (cStr f) write).1 = 0
      · have hopen : (tftpContext io).openFile s.files f m write = (none, (io.tiOpen s.files (cStr f) write).2) := by
          simp only [tftpContext, tftpOpen, if_pos hne]
        rw [recvRequest, hnone, hparse]
        simp only [hopen]
        exact sendError_serves (notOpened_serves ht hnone' hvar _) _ _ _ _
      · generalize hr' : io.tiOpen s.files (cStr f) write = r at hvar hne
        obtain ⟨h, files⟩ := r
        cases write with
        | true =>
          have hopen : (tftpContext io).openFile s.files f m true = (some h, files) := by
            simp only [tftpContext, tftpOpen, hr', if_neg hne]
          rw [recvRequest, hnone, hparse]
          simp only [hopen]
          exact sendAck_serves (grantWrite_serves ht hnone' hvar (hio.opened hr' hne) (hw rfl) e _) 0
        | false =>
          obtain ⟨c, hc⟩ := hio.exists_of_opened hr' hne
          obtain ⟨hb, hsent⟩ := recvRequest_read hio hnone hs.mem hparse hr' hne hc
          exact hsent.serves hio hb hvar ht.sent rfl rfl (hr rfl)

theorem takeBlock_serves (hio : Reads io v) (hs : Serves v addr port name file s) {h : UInt8} (hh : s.handle = some h)
    (hw : s.modeWrite = true) (e : Packet) : Serves v addr port name file (takeBlock (tftpContext io) h e s) := by
  obtain ⟨hlast, n, off, hplace, hne⟩ := hs.writing h hh hw
  generalize hp : pbufRemoveHeader TFTP_HEADER_LENGTH e.p = p
  obtain ⟨⟨off', hplace'⟩, hvars⟩ := hio.write (load e.mem p.first.payload (totLen p.pbufs)) hplace
  have hret : ¬ ((tftpContext io).writeFile s.files h e p).1 < 0 := Int.not_lt.mpr (Int.natCast_nonneg _)
  -- the other file has grown
  have hset : Serves v addr port name file
      (noteAcked e.data (setFiles ((tftpContext io).writeFile s.files h e p).2 s)) := by
    refine ⟨hs.mem, (hvars name (Ne.symm hne)).trans hs.var, hs.idle,
      fun _ _ h0 => absurd (hw.symm.trans h0) (by decide), fun x hx _ => ?_, hs.sent⟩
    obtain rfl : h = x := Option.some.inj (hh.symm.trans hx)
    exact ⟨hlast, n, off', hplace', hne⟩
  have hack := sendAck_serves hset e.blknum
  simp only [takeBlock, hp, if_neg hret]
  split
  next => exact closeHandle_serves hio hack
  next =>
    refine ⟨hack.mem, hack.var, hack.idle, fun _ _ h0 => ?_, hack.writing, hack.sent⟩
    rw [sendAck, sendBytes_nil hset.mem] at h0
    exact absurd (hw.symm.trans h0) (by decide)

theorem recvData_serves (hio : Reads io v) (hs : Serves v addr port name file s) (e : Packet) :
    Serves v addr port name file (recvData (tftpContext io) e s) := by
  unfold recvData
  split
  next => exact sendError_serves hs _ _ _ _
  next h hh =>
    split
    next => exact sendError_serves hs _ _ _ _
    next hw =>
      split
      next => exact takeBlock_serves hio hs hh (by simpa using hw) e
      next =>
        split
        next => exact sendAck_serves hs _
        next => exact sendError_serves hs _ _ _ _

/-- A full block is followed by the one behind it. -/
theorem ReadingAt.next {h : UInt8} {n c : List UInt8} {i : Nat} (hr : ReadingAt v s h n c i) (hfull : lastpkt s = false) :
    Before v (nextBlock s) h n c (i + 1) := by
  have hlen : (block c i).length = TFTP_MAX_PAYLOAD_SIZE := by
    simp only [lastpkt, hr.lastData, ne_eq, decide_eq_false_iff_not, Decidable.not_not, dataBytes, be16, List.length_append,
      List.length_cons, List.length_nil, TFTP_HEADER_LENGTH] at hfull
    omega
  have hlen' : TFTP_MAX_PAYLOAD_SIZE * (i + 1) ≤ c.length := by
    have hinside := hr.inside
    rw [block, List.length_take, List.length_drop] at hlen
    rw [Nat.mul_succ]
    omega
  refine ⟨?_, hr.vars, hlen', ?_⟩
  · rw [show (nextBlock s).files = s.files from rfl, hr.place, hlen, Nat.mul_succ]
  · rw [show (nextBlock s).blknum = s.blknum + 1 from rfl, hr.blknum]
    exact (UInt16.ofNat_add (i + 1) 1).symm

theorem recvAck_serves (hio : Reads io v) (hs : Serves v addr port name file s) (e : Packet) :
    Serves v addr port name file (recvAck (tftpContext io) e s) := by
  unfold recvAck
  split
  next => exact sendError_serves hs _ _ _ _
  next h hh =>
    split
    next => exact sendError_serves hs _ _ _ _
    next hw =>
      split
      next => exact sendError_serves hs _ _ _ _
      next =>
        split
        next => exact closeHandle_serves hio hs
        next hfull =>
          have hread : s.modeWrite = false := by simpa using hw
          obtain ⟨n, c, i, hr, hname⟩ := hs.reading h hh hread
          have hb := hr.next (by simpa using hfull)
          exact (sendData_sent hio hb hs.mem).serves hio hb hs.var hs.sent hh hread hname

theorem recv_serves (hio : Reads io v) (hs : Serves v addr port name file s) {e : Packet}
    (hasks : ∀ f m, parseRequest (pbufsOf e.mem e.p.pbufs) = .ok (f, m) →
      (opcode e = TFTP_WRQ → cStr f ≠ name) ∧ (opcode e = TFTP_RRQ → e.addr = addr → e.port = port → cStr f = name)) :
    Serves v addr port name file (recv (tftpContext io) s e) := by
  have hgot : Serves v addr port name file (pbufOp .got s) := hs.congr rfl rfl rfl rfl rfl rfl rfl ⟨rfl, rfl⟩
  have htouch : Serves v addr port name file (touch (pbufOp .got s)) := hs.congr rfl rfl rfl rfl rfl rfl rfl ⟨rfl, rfl⟩
  have hfree : ∀ {s' : State φ UInt8}, Serves v addr port name file s' → Serves v addr port name file (pbufFree .packet s') :=
    fun hs' => hs'.congr rfl rfl rfl rfl rfl rfl rfl ⟨rfl, rfl⟩
  have hdispatch : Serves v addr port name file (dispatch (tftpContext io) e (touch (pbufOp .got s))) := by
    unfold dispatch
    split
    next hop =>
      exact recvRequest_serves hio htouch false fun f m h => ⟨fun h0 => (nomatch h0), fun _ => (hasks f m h).2 hop⟩
    next =>
      split
      next hop =>
        exact recvRequest_serves hio htouch true fun f m h => ⟨fun _ => (hasks f m h).1 hop, fun h0 => (nomatch h0)⟩
      next =>
        split
        next => exact recvData_serves hio htouch e
        next =>
          split
          next => exact recvAck_serves hio htouch e
          next => exact sendError_serves htouch _ _ _ _
  simp only [recv]
  split
  next => exact hfree (sendError_serves hgot _ _ _ _)
  next => exact hfree hdispatch

theorem tftpTmr_serves (hio : Reads io v) (hs : Serves v addr port name file s) :
    Serves v addr port name file (tftpTmr (tftpContext io) s) := by
  have hfire : Serves v addr port name file (fire s) := hs.congr rfl rfl rfl rfl rfl rfl rfl ⟨rfl, rfl⟩
  have ht := sysTimeout_serves hfire
  unfold tftpTmr
  simp only
  split
  next => exact hfire
  next =>
    split
    next =>
      split
      next => exact (resendData_serves ht).congr rfl rfl rfl rfl rfl rfl rfl ⟨rfl, rfl⟩
      next => exact closeHandle_serves hio ht
    next => exact ht

theorem step_serves (hio : Reads io v) (hs : Serves v addr port name file s) {ev : Ev} (hev : Asks addr port name ev) :
    Serves v addr port name file (step (tftpContext io) s ev) := by
  have hwithin : ∀ env : Env, env.mem = [] → Serves v addr port name file (within env s) :=
    fun env h => hs.congr (h.trans hs.mem.symm) rfl rfl rfl rfl rfl rfl ⟨rfl, rfl⟩
  cases ev with
  | packet e env => exact recv_serves hio (hwithin env hev.1) hev.2
  | tick env =>
    simp only [step]
    split
    next => exact hs
    next => exact tftpTmr_serves hio (hwithin env hev)

theorem run_serves (hio : Reads io v) {files : φ} (hfile : v.vars files name = some file) {es : List Ev}
    (hes : ∀ ev ∈ es, Asks addr port name ev) :
    Serves v addr port name file (run (step (tftpContext io)) (tftpInit files) es) := by
  have hinit : Serves v addr port name file (tftpInit files) :=
    ⟨rfl, hfile, fun _ => rfl, fun _ h => (nomatch h), fun _ h => (nomatch h), fun _ h => (nomatch h)⟩
  have hstep : ∀ s ev, Serves v addr port name file s → Asks addr port name ev →
      Serves v addr port name file (step (tftpContext io) s ev) := fun s ev hs hev => step_serves hio hs hev
  exact run_inv_of_forall (step (tftpContext io)) hstep hinit hes

end Server

/-! ## The client's side -/

/-- What a client has of the file, and the number of the block it waits for. -/
structure Client where
  got : List UInt8
  next : Nat
  done : Bool
  deriving DecidableEq, Repr

/-- A DATA packet with the awaited number is taken; a short one is the last. -/
def Client.recv (c : Client) : List UInt8 → Client
  | 0 :: 3 :: hi :: lo :: data =>
    if c.done = false ∧ 256 * hi.toNat + lo.toNat = c.next then
      ⟨c.got ++ data, c.next + 1, data.length < TFTP_MAX_PAYLOAD_SIZE⟩
    else c
  | _ => c

def Client.start : Client := ⟨[], 1, false⟩

/-- The client has the first blocks of the file, or all of it. -/
structure Client.Holds (file : List UInt8) (c : Client) : Prop where
  part : c.done = false →
    ∃ i, c.next = i + 1 ∧ TFTP_MAX_PAYLOAD_SIZE * i ≤ file.length ∧ c.got = file.take (TFTP_MAX_PAYLOAD_SIZE * i)
  whole : c.done = true → c.got = file

theorem take_append_block (file : List UInt8) (i : Nat) :
    file.take (TFTP_MAX_PAYLOAD_SIZE * i) ++ block file i = file.take (TFTP_MAX_PAYLOAD_SIZE * (i + 1)) := by
  rw [block, Nat.mul_succ, List.take_add]

theorem Client.recv_holds {file : List UInt8} (hsize : file.length < TFTP_MAX_PAYLOAD_SIZE * 65535) {c : Client}
    (hc : c.Holds file) {payload : List UInt8} (hp : IsBlock file payload) : (c.recv payload).Holds file := by
  unfold Client.recv
  split
  next hi lo data =>
    split
    next h =>
      obtain ⟨j, hj, hnum, rfl⟩ := hp hi lo data rfl
      obtain ⟨i, hnext, hle, hgot⟩ := hc.part h.1
      -- the number is not taken modulo anything, so the block is the awaited one
      have hij : i = j := by
        rw [TFTP_MAX_PAYLOAD_SIZE] at hj hsize
        omega
      subst hij
      refine ⟨fun hd => ⟨i + 1, by rw [hnext], ?_, ?_⟩, fun hd => ?_⟩
      · rw [decide_eq_false_iff_not, block, List.length_take, List.length_drop] at hd
        rw [Nat.mul_succ]
        omega
      · rw [hgot, take_append_block]
      · rw [decide_eq_true_eq, block, List.length_take, List.length_drop] at hd
        rw [hgot, take_append_block]
        exact List.take_of_length_le (by rw [Nat.mul_succ]; omega)
    next => exact hc
  next => exact hc

theorem Client.Holds.got_part {file : List UInt8} {c : Client} (hc : c.Holds file) : c.got <+: file := by
  cases hd : c.done with
  | true => exact (hc.whole hd) ▸ List.prefix_refl _
  | false =>
    obtain ⟨i, -, -, hgot⟩ := hc.part hd
    rw [hgot]
    exact List.take_prefix _ _

/-- Whatever comes to the server, if nobody writes the file, the client asks for no other and
    there is memory: each DATA packet to the client is the block of the file with its number.
    Of these packets let the network deliver any, in any order and any number of times. Then
    the client holds a prefix of the file, and when it has the last block the file. -/
theorem download_safe {φ : Type} {io : Fileioc φ} {v : View φ} (hio : Reads io v) {addr : Nat} {port : UInt16}
    {name file : List UInt8} {files : φ} (hfile : v.vars files name = some file)
    (hsize : file.length < TFTP_MAX_PAYLOAD_SIZE * 65535) {es : List Ev} (hes : ∀ ev ∈ es, Asks addr port name ev)
    {received : List (List UInt8)}
    (hnet : ∀ x ∈ received, ⟨addr, port, x⟩ ∈ (run (step (tftpContext io)) (tftpInit files) es).sent) :
    (∀ d ∈ (run (step (tftpContext io)) (tftpInit files) es).sent, d.addr = addr → d.port = port →
        IsBlock file d.payload) ∧
      (received.foldl Client.recv Client.start).got <+: file ∧
      ((received.foldl Client.recv Client.start).done = true →
        (received.foldl Client.recv Client.start).got = file) := by
  have hserves := run_serves hio hfile hes
  have hstart : Client.start.Holds file := ⟨fun _ => ⟨0, rfl, Nat.zero_le _, rfl⟩, fun h => (nomatch h)⟩
  have hholds : (run Client.recv Client.start received).Holds file := by
    have hstep : ∀ (c : Client) (x : List UInt8), c.Holds file → IsBlock file x → (c.recv x).Holds file :=
      fun c x hc hx => Client.recv_holds hsize hc hx
    exact run_inv_of_forall Client.recv hstep hstart fun x hx => hserves.sent _ (hnet x hx) rfl rfl
  exact ⟨hserves.sent, hholds.got_part, hholds.whole⟩

/-- The request comes twice, and then the acknowledgment; the network repeats the block. -/
theorem download_of_threeBytes :
    let received : List (List UInt8) := [[0, 3, 0, 1, 1, 2, 3], [0, 3, 0, 1, 1, 2, 3]]
    (received.foldl Client.recv Client.start).done = true ∧
      (received.foldl Client.recv Client.start).got = [1, 2, 3] := by
  have hasks : ∀ ev ∈ [Ev.packet askForA ⟨[], true⟩, .packet askForA ⟨[], true⟩, .packet (ackOf 1) ⟨[], true⟩],
      Asks 7 1069 [97] ev := by
    have hreq : Asks 7 1069 [97] (.packet askForA ⟨[], true⟩) := by
      refine ⟨rfl, fun f m h => ?_⟩
      have hf : ([97, 0], [111, 99, 116, 101, 116, 0]) = (f, m) :=
        Except.ok.inj ((show parseRequest (pbufsOf askForA.mem askForA.p.pbufs) = _ by decide).symm.trans h)
      obtain ⟨rfl, rfl⟩ := Prod.mk.inj hf
      exact ⟨fun h0 => absurd h0 (by decide), fun _ _ _ => by decide⟩
    have hack : Asks 7 1069 [97] (.packet (ackOf 1) ⟨[], true⟩) :=
      ⟨rfl, fun f m _ => ⟨fun h0 => absurd h0 (by decide), fun h0 => absurd h0 (by decide)⟩⟩
    simp [hreq, hack]
  have hdone : ([[0, 3, 0, 1, 1, 2, 3], [0, 3, 0, 1, 1, 2, 3]].foldl Client.recv Client.start).done = true := by decide
  have hfile : ramView.vars (threeBytes 0) [97] = some [1, 2, 3] := rfl
  have hnet : ∀ x ∈ [[0, 3, 0, 1, 1, 2, 3], [0, 3, 0, 1, 1, 2, 3]],
      ⟨7, 1069, x⟩ ∈ (run (step (tftpContext ram)) (tftpInit (threeBytes 0))
        [.packet askForA ⟨[], true⟩, .packet askForA ⟨[], true⟩, .packet (ackOf 1) ⟨[], true⟩]).sent := by
    decide +kernel
  exact ⟨hdone, (download_safe ram_reads hfile (by decide) hasks hnet).2.2 hdone⟩

/-- Without memory for the first block an old acknowledgment of it brings its bytes as the
    second one. -/
theorem a_failed_allocation_moves_the_file :
    (run (step (tftpContext ram)) (tftpInit (threeBytes 0))
      [.packet askForA ⟨[false], true⟩, .packet (ackOf 1) ⟨[], true⟩]).sent = [⟨7, 1069, [0, 3, 0, 2, 1, 2, 3]⟩] := by
  decide +kernel

/-! ## A client that acknowledges -/

section Completes

variable {φ : Type} {io : Fileioc φ} {v : View φ} {addr : Nat} {port : UInt16} {name file : List UInt8}
  {s : State φ UInt8} {h : UInt8} {i : Nat}

/-- The packet with the block at `i`. -/
def blockTo (addr : Nat) (port : UInt16) (file : List UInt8) (i : Nat) : Datagram :=
  ⟨addr, port, dataBytes (i + 1).toUInt16 (block file i)⟩

/-- The blocks up to the one at `i` have been sent, and that one is not acknowledged. -/
structure Sending (v : View φ) (addr : Nat) (port : UInt16) (name file : List UInt8) (s : State φ UInt8) (h : UInt8)
    (i : Nat) : Prop where
  handle : s.handle = some h
  mode : s.modeWrite = false
  peer : s.addr = addr ∧ s.port = port
  at_block : ReadingAt v s h name file i
  sent : s.sent = (List.range (i + 1)).map (blockTo addr port file)

/-- The packet asks for the file. -/
structure IsRead (addr : Nat) (port : UInt16) (name : List UInt8) (e : Packet) : Prop where
  sender : e.addr = addr ∧ e.port = port
  opcode : opcode e = TFTP_RRQ
  name : ∃ f m, parseRequest (pbufsOf e.mem e.p.pbufs) = .ok (f, m) ∧ cStr f = name

/-- The packet acknowledges the block at `i`. -/
structure IsAck (addr : Nat) (port : UInt16) (i : Nat) (e : Packet) : Prop where
  sender : e.addr = addr ∧ e.port = port
  opcode : opcode e = TFTP_ACK
  blknum : e.blknum = (i + 1).toUInt16

/-- What of the state a packet and its end do not touch. -/
theorem Sending.congr {s' : State φ UInt8} (hs : Sending v addr port name file s h i)
    (ht : s'.handle = s.handle ∧ s'.modeWrite = s.modeWrite ∧ s'.addr = s.addr ∧ s'.port = s.port)
    (hr : s'.files = s.files ∧ s'.blknum = s.blknum ∧ s'.lastData = s.lastData) (hsent : s'.sent = s.sent) :
    Sending v addr port name file s' h i := by
  obtain ⟨hfiles, hblk, hlast⟩ := hr
  have hat := hs.at_block
  exact ⟨ht.1.trans hs.handle, ht.2.1.trans hs.mode, ⟨ht.2.2.1.trans hs.peer.1, ht.2.2.2.trans hs.peer.2⟩,
    ⟨hfiles ▸ hat.place, hfiles ▸ hat.vars, hat.inside, hblk.trans hat.blknum, hlast.trans hat.lastData⟩,
    hsent.trans hs.sent⟩

/-- The next block has been sent. -/
theorem BlockSent.sending (hio : Reads io v) {s' : State φ UInt8} (hsent : BlockSent io h file i s s')
    (hb : Before v s h name file i) (hhandle : s.handle = some h) (hmode : s.modeWrite = false)
    (hpeer : s.addr = addr ∧ s.port = port) (hbefore : s.sent = (List.range i).map (blockTo addr port file)) :
    Sending v addr port name file s' h i := by
  refine ⟨?_, ?_, ?_, (hsent.readingAt hio hb).1, ?_⟩
  · rw [hsent.transfer]
    exact hhandle
  · rw [hsent.transfer]
    exact hmode
  · rw [hsent.transfer]
    exact hpeer
  · rw [hsent.sent, hbefore, hpeer.1, hpeer.2, List.range_succ, List.map_append]
    rfl

theorem recv_read (hio : Reads io v) {files : φ} (hfile : v.vars files name = some file)
    (hopens : (io.tiOpen files name false).1 ≠ 0) {e : Packet} (he : IsRead addr port name e) {env : Env}
    (henv : env.mem = []) :
    Sending v addr port name file (step (tftpContext io) (tftpInit files) (.packet e env))
      (io.tiOpen files name false).1 0 := by
  obtain ⟨f, m, hparse, rfl⟩ := he.name
  generalize hst : touch (pbufOp .got (within env (tftpInit files : State φ UInt8))) = st
  have hinit : st.handle = none ∧ st.mem = [] ∧ st.files = files ∧ st.sent = [] := by
    rw [← hst]
    exact ⟨rfl, henv, rfl, rfl⟩
  obtain ⟨hnone, hmem, hfiles, hsent0⟩ := hinit
  have hforeign : ¬ Foreign (pbufOp .got (within env (tftpInit files : State φ UInt8))).toTransfer e := by
    intro hf
    rcases hf with ⟨h0, -⟩ | ⟨h0, -⟩
    · exact h0 rfl
    · exact h0 rfl
  have hopen : io.tiOpen st.files (cStr f) false =
      ((io.tiOpen files (cStr f) false).1, (io.tiOpen files (cStr f) false).2) := by rw [hfiles]
  obtain ⟨hb, hsent⟩ := recvRequest_read hio hnone hmem hparse hopen hopens (hfiles.symm ▸ hfile)
  have hgranted : (granted e f m (io.tiOpen files (cStr f) false).1 (io.tiOpen files (cStr f) false).2 st).sent = [] := by
    obtain ⟨pending, lost, hset⟩ := sysTimeout_spec st
    rw [granted, hset]
    exact hsent0
  have hsteps : step (tftpContext io) (tftpInit files) (.packet e env) =
      pbufFree .packet (recvRequest (tftpContext io) false e st) := by
    simp only [step, recv]
    rw [if_neg hforeign, hst, dispatch, if_pos he.opcode]
  rw [hsteps]
  exact (hsent.sending hio hb rfl rfl he.sender hgranted).congr ⟨rfl, rfl, rfl, rfl⟩ ⟨rfl, rfl, rfl⟩ rfl

theorem recv_ack (hio : Reads io v) (hs : Sending v addr port name file s h i) {e : Packet} (he : IsAck addr port i e)
    {env : Env} (henv : env.mem = []) :
    (TFTP_MAX_PAYLOAD_SIZE * (i + 1) ≤ file.length →
        Sending v addr port name file (step (tftpContext io) s (.packet e env)) h (i + 1)) ∧
      (file.length < TFTP_MAX_PAYLOAD_SIZE * (i + 1) → (step (tftpContext io) s (.packet e env)).handle = none ∧
        (step (tftpContext io) s (.packet e env)).sent = s.sent) := by
  have hforeign : ¬ Foreign (pbufOp .got (within env s)).toTransfer e := by
    intro hf
    rcases hf with ⟨-, h0⟩ | ⟨-, h0⟩
    · exact h0 (he.sender.2.trans hs.peer.2.symm)
    · exact h0 (hs.peer.1.trans he.sender.1.symm)
  have hmem : (touch (pbufOp .got (within env s))).mem = [] := henv
  have hst : Sending v addr port name file (touch (pbufOp .got (within env s))) h i :=
    hs.congr ⟨rfl, rfl, rfl, rfl⟩ ⟨rfl, rfl, rfl⟩ rfl
  have hsame : (touch (pbufOp .got (within env s))).sent = s.sent := rfl
  have hsteps : step (tftpContext io) s (.packet e env) =
      pbufFree .packet (recvAck (tftpContext io) e (touch (pbufOp .got (within env s)))) := by
    have hop : opcode e = 4 := he.opcode
    simp only [step, recv]
    rw [if_neg hforeign, dispatch, hop, if_neg (by decide), if_neg (by decide), if_neg (by decide), if_pos (by decide)]
  rw [hsteps]
  generalize touch (pbufOp .got (within env s)) = st at hmem hst hsame
  have hread := hst.at_block
  have hblk : ¬ e.blknum ≠ st.blknum := not_not_intro (he.blknum.trans hread.blknum.symm)
  have hack : recvAck (tftpContext io) e st =
      if lastpkt st then closeHandle (tftpContext io) st else sendData (tftpContext io) h (nextBlock st) := by
    rw [recvAck, hst.handle]
    simp only [hst.mode, Bool.false_eq_true, if_false, if_neg hblk]
  have hlen : (block file i).length = min TFTP_MAX_PAYLOAD_SIZE (file.length - TFTP_MAX_PAYLOAD_SIZE * i) := by
    rw [block, List.length_take, List.length_drop]
  have hlast : lastpkt st = decide ((block file i).length ≠ TFTP_MAX_PAYLOAD_SIZE) := by
    rw [lastpkt, hread.lastData]
    simp [dataBytes, be16, TFTP_HEADER_LENGTH]
  rw [hack, hlast]
  constructor
  · intro hmore
    rw [Nat.mul_succ] at hmore
    have hfull : (block file i).length = TFTP_MAX_PAYLOAD_SIZE := by omega
    have hb : Before v (nextBlock st) h name file (i + 1) := hread.next (by rw [hlast]; simpa using hfull)
    rw [if_neg (by simpa using hfull)]
    exact ((sendData_sent hio hb hmem).sending hio hb hst.handle hst.mode hst.peer hst.sent).congr ⟨rfl, rfl, rfl, rfl⟩
      ⟨rfl, rfl, rfl⟩ rfl
  · intro hshort
    have hinside := hread.inside
    rw [Nat.mul_succ] at hshort
    rw [if_pos (by rw [decide_eq_true_eq]; omega)]
    exact ⟨rfl, hsame⟩

theorem Client.recv_block {i : Nat} (hi : i + 1 < 65536) :
    Client.recv ⟨file.take (TFTP_MAX_PAYLOAD_SIZE * i), i + 1, false⟩ (blockTo addr port file i).payload =
      ⟨file.take (TFTP_MAX_PAYLOAD_SIZE * (i + 1)), i + 2, (block file i).length < TFTP_MAX_PAYLOAD_SIZE⟩ := by
  have hnum : 256 * ((i + 1).toUInt16 >>> 8).toUInt8.toNat + (i + 1).toUInt16.toUInt8.toNat = i + 1 :=
    (be16_toNat _).trans (Nat.mod_eq_of_lt hi)
  have hbytes : (blockTo addr port file i).payload =
      (0 : UInt8) :: 3 :: ((i + 1).toUInt16 >>> 8).toUInt8 :: (i + 1).toUInt16.toUInt8 :: block file i := rfl
  rw [hbytes, Client.recv, if_pos ⟨rfl, hnum⟩, take_append_block]

/-- The number of blocks of the file; the last one is short. -/
def blocks (file : List UInt8) : Nat := file.length / TFTP_MAX_PAYLOAD_SIZE + 1

theorem client_gets {j : Nat} (hsize : file.length < TFTP_MAX_PAYLOAD_SIZE * 65535) (hj : j < blocks file) :
    (((List.range j).map (blockTo addr port file)).map Datagram.payload).foldl Client.recv Client.start =
      ⟨file.take (TFTP_MAX_PAYLOAD_SIZE * j), j + 1, false⟩ := by
  rw [blocks, TFTP_MAX_PAYLOAD_SIZE] at hj
  induction j with
  | zero => rfl
  | succ j ih =>
    rw [TFTP_MAX_PAYLOAD_SIZE] at hsize
    have hfull : ¬ (block file j).length < TFTP_MAX_PAYLOAD_SIZE := by
      rw [block, List.length_take, List.length_drop, TFTP_MAX_PAYLOAD_SIZE]
      omega
    rw [List.range_succ, List.map_append, List.map_append, List.foldl_append, ih (by omega), List.map_singleton,
      List.map_singleton, List.foldl_cons, List.foldl_nil, Client.recv_block (by omega), decide_eq_false hfull]

/-- A client that asks for the file and acknowledges each block is sent every block once, in
    order; it has then the file, and the transfer is closed. -/
theorem download_completes (hio : Reads io v) {files : φ} (hfile : v.vars files name = some file)
    (hopens : (io.tiOpen files name false).1 ≠ 0) (hsize : file.length < TFTP_MAX_PAYLOAD_SIZE * 65535) {req : Packet} (hreq : IsRead addr port name req)
    {acks : Nat → Packet} (hacks : ∀ i, IsAck addr port i (acks i)) {env : Env} (henv : env.mem = []) :
    let s := run (step (tftpContext io)) (tftpInit files)
      (.packet req env :: (List.range (blocks file)).map fun i => .packet (acks i) env)
    s.handle = none ∧ s.sent = (List.range (blocks file)).map (blockTo addr port file) ∧
      (s.sent.map Datagram.payload).foldl Client.recv Client.start = ⟨file, blocks file + 1, true⟩ := by
  intro s
  have hblocks : blocks file = file.length / 512 + 1 := rfl
  -- until the last block each acknowledgment brings the next one
  have hsending : ∀ j < blocks file, Sending v addr port name file (run (step (tftpContext io)) (tftpInit files)
      (.packet req env :: (List.range j).map fun i => .packet (acks i) env)) (io.tiOpen files name false).1 j := by
    intro j hj
    induction j with
    | zero => exact recv_read hio hfile hopens hreq henv
    | succ j ih =>
      rw [List.range_succ, List.map_append, List.map_singleton, ← List.cons_append, run_snoc]
      refine (recv_ack hio (ih (by omega)) (hacks j) henv).1 ?_
      rw [TFTP_MAX_PAYLOAD_SIZE]
      omega
  have hlast := hsending (file.length / 512) (by omega)
  have hend : s = step (tftpContext io) (run (step (tftpContext io)) (tftpInit files)
      (.packet req env :: (List.range (file.length / 512)).map fun i => .packet (acks i) env))
      (.packet (acks (file.length / 512)) env) := by
    have hevents : (Ev.packet req env :: (List.range (blocks file)).map fun i => Ev.packet (acks i) env) =
        (Ev.packet req env :: (List.range (file.length / 512)).map fun i => Ev.packet (acks i) env) ++
          [Ev.packet (acks (file.length / 512)) env] := by
      rw [hblocks, List.range_succ, List.map_append, List.map_singleton, List.cons_append]
    rw [← run_snoc (step (tftpContext io)), ← hevents]
  have hshort : file.length < TFTP_MAX_PAYLOAD_SIZE * (file.length / 512 + 1) := by
    rw [TFTP_MAX_PAYLOAD_SIZE]
    omega
  obtain ⟨hnone, hsent⟩ := (recv_ack hio hlast (hacks _) henv).2 hshort
  rw [← hend] at hnone hsent
  rw [hlast.sent] at hsent
  refine ⟨hnone, hsent, ?_⟩
  have hlen : (block file (file.length / 512)).length < TFTP_MAX_PAYLOAD_SIZE := by
    rw [block, List.length_take, List.length_drop, TFTP_MAX_PAYLOAD_SIZE]
    omega
  have hnum : file.length / 512 + 1 < 65536 := by
    rw [TFTP_MAX_PAYLOAD_SIZE] at hsize
    omega
  rw [hsent, List.range_succ, List.map_append, List.map_append, List.foldl_append, client_gets hsize (by omega),
    List.map_singleton, List.map_singleton, List.foldl_cons, List.foldl_nil, Client.recv_block hnum,
    List.take_of_length_le (Nat.le_of_lt hshort), decide_eq_true hlen, hblocks]

theorem threeBytes_arrive :
    let s := run (step (tftpContext ram)) (tftpInit (threeBytes 0))
      [.packet askForA ⟨[], true⟩, .packet (ackOf 1) ⟨[], true⟩]
    s.handle = none ∧ (s.sent.map Datagram.payload).foldl Client.recv Client.start = ⟨[1, 2, 3], 2, true⟩ := by
  have hreq : IsRead 7 1069 [97] askForA :=
    ⟨⟨rfl, rfl⟩, by decide, [97, 0], [111, 99, 116, 101, 116, 0], by decide, by decide⟩
  have hacks : ∀ i, IsAck 7 1069 i (ackOf (i + 1).toUInt16) := fun i => ⟨⟨rfl, rfl⟩, rfl, be16_decode _⟩
  have hfile : ramView.vars (threeBytes 0) [97] = some [1, 2, 3] := rfl
  have hopens : (ram.tiOpen (threeBytes 0) [97] false).1 ≠ 0 := by decide
  have henv : (⟨[], true⟩ : Env).mem = [] := rfl
  obtain ⟨hnone, -, hclient⟩ := download_completes ram_reads hfile hopens (by decide) hreq hacks henv
  exact ⟨hnone, hclient⟩

end Completes

end Nanotube.TftpServer
