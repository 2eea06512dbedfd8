/-
  Nanotube.TftpServer.Model — the whole of the TFTP server (src/lwIP/apps/tftp/tftp_server.c:
  `close_handle`, `send_error`, `send_ack`, `resend_data`, `send_data`, `recv`, `tftp_tmr`,
  `tftp_init`, `tftp_cleanup`).

  One transfer at a time, of one peer, over UDP. `recv` is called with each packet that
  comes to the port, from anyone; `tftp_tmr` by the timeouts, once a second while there is
  a transfer. The file functions are the ones of a `Context`, as in the source, which keeps
  them behind pointers.

  `Transfer` is `tftp_state` with the files and the number of `tftp_tmr` timeouts that are
  set; `State` adds what the server has done: the datagrams it sent, the calls of `open` and
  `close`, and what it did with pbufs, each named by the variable that points to it.
  `books` follows the variables and says which pbufs were freed. Which allocations succeed
  is the environment's (`Env`), anew for each call.

  Here: the functions, what each of them leaves alone, and the invariant of a server that
  has just been started (`Sound`). Proved: every pbuf the server gets is freed exactly once,
  but for the one kept for sending it again, and every handle it opens is closed exactly
  once, but for the one of the transfer (`all_given_back`).
-/

import Nanotube.Device.Transmit
import Nanotube.Lib.Runs
import Nanotube.Lib.Wire
import Nanotube.Lwip.Pbuf

namespace Nanotube.TftpServer

open Nanotube.Device.Transmit (Memory Chain totLen contents load length_load)
open Nanotube.Lwip.Pbufs (Pbuf pbufMemfind pbufCopyPartial)
open Nanotube.Lib.Runs Nanotube.Lib.Wire

def TFTP_MAX_PAYLOAD_SIZE : Nat := 512
def TFTP_HEADER_LENGTH : Nat := 4

def TFTP_RRQ : UInt16 := 1
def TFTP_WRQ : UInt16 := 2
def TFTP_DATA : UInt16 := 3
def TFTP_ACK : UInt16 := 4
def TFTP_ERROR : UInt16 := 5

/-- `TFTP_TIMEOUT_MSECS / TFTP_TIMER_MSECS` -/
def TFTP_TIMEOUT_TICKS : Int := 10
def TFTP_MAX_RETRIES : UInt8 := 5
def TFTP_MAX_FILENAME_LEN : Nat := 20
def TFTP_MAX_MODE_LEN : Nat := 7

inductive TftpError where
  | fileNotFound
  | accessViolation
  | diskFull
  | illegalOperation
  | unknownTrfrId
  | fileExists
  | noSuchUser
  deriving DecidableEq, Repr

def errorCode : TftpError → UInt16
  | .fileNotFound => 1
  | .accessViolation => 2
  | .diskFull => 3
  | .illegalOperation => 4
  | .unknownTrfrId => 5
  | .fileExists => 6
  | .noSuchUser => 7

/-- A packet that comes to the server: its sender, the memory, and the chain. -/
structure Packet where
  addr : Nat
  port : UInt16
  mem : Memory
  p : Chain

/-- `sbuf[0]`, in the order of the packet's bytes. -/
def opcode (e : Packet) : UInt16 :=
  256 * (e.mem e.p.first.payload).toUInt16 + (e.mem (e.p.first.payload + 1)).toUInt16

/-- `lwip_ntohs(sbuf[1])` -/
def Packet.blknum (e : Packet) : UInt16 :=
  256 * (e.mem (e.p.first.payload + 2)).toUInt16 + (e.mem (e.p.first.payload + 3)).toUInt16

/-- The data of a DATA packet: all pbufs, without the header. -/
def Packet.data (e : Packet) : List UInt8 := (contents e.mem e.p.pbufs).drop TFTP_HEADER_LENGTH

/-- `struct tftp_context`, over the files `φ` and handles `H`. `readFile` gives the bytes
    read, or none for a negative result; `writeFile` gets the packet without its header. -/
structure Context (φ H : Type) where
  openFile : φ → List UInt8 → List UInt8 → Bool → Option H × φ
  closeFile : φ → H → φ
  readFile : φ → H → Nat → Option (List UInt8) × φ
  writeFile : φ → H → Packet → Chain → Int × φ

/-- What `udp_sendto` is given. -/
structure Datagram where
  addr : Nat
  port : UInt16
  payload : List UInt8
  deriving DecidableEq, Repr

/-- A call of `open`: the two arrays, and what it returned. -/
structure Opening (H : Type) where
  filename : List UInt8
  mode : List UInt8
  write : Bool
  handle : Option H

/-- The variables that point to a pbuf: `p` of `recv`, `p` of the functions that send, and
    `tftp_state.last_data`. -/
inductive Held where
  | packet
  | fresh
  | last
  deriving DecidableEq, Repr

inductive PbufOp where
  /-- `recv` was called, with a packet that is the server's now. -/
  | got
  /-- `pbuf_alloc` returned a pbuf. -/
  | alloc
  /-- It is `last_data` from now on. -/
  | keep
  /-- `last_data` is NULL from now on. -/
  | clear
  | free (which : Held)
  deriving DecidableEq, Repr

/-- `tftp_state`; the address 0 is "any", and an `int` has 24 bits. -/
structure Transfer (φ H : Type) where
  files : φ
  handle : Option H
  lastData : Option (List UInt8)
  addr : Nat
  port : UInt16
  timer : BitVec 24
  lastPkt : BitVec 24
  blknum : UInt16
  retries : UInt8
  /-- `mode_write` is 1. -/
  modeWrite : Bool
  /-- The timeouts that are set to `tftp_tmr`. -/
  pending : Nat
  /-- The data of the blocks that `send_ack` was called for in this transfer, each once. -/
  acked : List (List UInt8)

structure State (φ H : Type) extends Transfer φ H where
  sent : List Datagram
  pbufs : List PbufOp
  opens : List (Opening H)
  closes : List H
  /-- The timeouts there was no memory for. -/
  timeoutsLost : Nat
  /-- The results of the calls to `pbuf_alloc` to come; those behind the end succeed. -/
  mem : List Bool
  /-- There is memory for a timeout. -/
  timeoutMem : Bool

variable {φ H : Type}

/-! ## The code -/

/-- The bytes of a C string, with its NUL. -/
def cString (str : String) : List UInt8 := str.toList.map (fun c => c.toNat.toUInt8) ++ [0]

def errorBytes (code : TftpError) (str : String) : List UInt8 := be16 TFTP_ERROR ++ be16 (errorCode code) ++ cString str
def ackBytes (blknum : UInt16) : List UInt8 := be16 TFTP_ACK ++ be16 blknum
def dataBytes (blknum : UInt16) (data : List UInt8) : List UInt8 := be16 TFTP_DATA ++ be16 blknum ++ data

def pbufOp (op : PbufOp) (s : State φ H) : State φ H := { s with pbufs := s.pbufs ++ [op] }

def pbufAlloc (s : State φ H) : Bool × State φ H :=
  match s.mem with
  | [] => (true, pbufOp .alloc s)
  | true :: mem => (true, pbufOp .alloc { s with mem := mem })
  | false :: mem => (false, { s with mem := mem })

def pbufFree (which : Held) : State φ H → State φ H := pbufOp (.free which)

def udpSendto (addr : Nat) (port : UInt16) (payload : List UInt8) (s : State φ H) : State φ H :=
  { s with sent := s.sent ++ [⟨addr, port, payload⟩] }

/-- What `send_error`, `send_ack` and `resend_data` do: a new pbuf, its bytes, and it is
    sent and freed. -/
def sendBytes (addr : Nat) (port : UInt16) (payload : List UInt8) (s : State φ H) : State φ H :=
  if (pbufAlloc s).1 then pbufFree .fresh (udpSendto addr port payload (pbufAlloc s).2) else (pbufAlloc s).2

def sendError (addr : Nat) (port : UInt16) (code : TftpError) (str : String) : State φ H → State φ H :=
  sendBytes addr port (errorBytes code str)

def sendAck (blknum : UInt16) (s : State φ H) : State φ H := sendBytes s.addr s.port (ackBytes blknum) s

/-- The copy has the length of `last_data`, so `pbuf_copy` succeeds. -/
def resendData (s : State φ H) : State φ H :=
  match s.lastData with
  | none => s
  | some d => sendBytes s.addr s.port d s

def sysTimeout (s : State φ H) : State φ H :=
  if s.timeoutMem then { s with pending := s.pending + 1 } else { s with timeoutsLost := s.timeoutsLost + 1 }

/-- `last_data` is freed and set to NULL, if there is one. -/
def freeLastData (s : State φ H) : State φ H :=
  { s with
    lastData := none
    pbufs := s.pbufs ++ s.lastData.elim [] fun _ => [.free .last, .clear] }

/-- `sys_untimeout` takes one of the timeouts away; the handle is closed if there is one. -/
def closeHandle (ctx : Context φ H) (s : State φ H) : State φ H :=
  { freeLastData s with
    port := 0
    addr := 0
    pending := s.pending - 1
    files := s.handle.elim s.files (ctx.closeFile s.files)
    handle := none
    closes := s.closes ++ s.handle.toList }

def setFiles (files : φ) (s : State φ H) : State φ H := { s with files := files }

/-- The pbuf that was just allocated becomes `last_data`. -/
def keep (d : List UInt8) (s : State φ H) : State φ H := pbufOp .keep { s with lastData := some d }

/-- With the handle `h`. `pbuf_realloc` cuts the new pbuf to what was read. -/
def sendData (ctx : Context φ H) (h : H) (s : State φ H) : State φ H :=
  let s := freeLastData s
  if (pbufAlloc s).1 then
    let s := (pbufAlloc s).2
    match ctx.readFile s.files h TFTP_MAX_PAYLOAD_SIZE with
    | (none, files) =>
      closeHandle ctx (sendError s.addr s.port .accessViolation "Error occured while reading the file."
        (keep (dataBytes s.blknum []) (setFiles files s)))
    | (some data, files) => resendData (keep (dataBytes s.blknum data) (setFiles files s))
  else (pbufAlloc s).2

/-- The pbufs of a chain, with the bytes they hold. -/
def pbufsOf (mem : Memory) : List Nanotube.Device.Transmit.Pbuf → List Pbuf
  | [] => []
  | q :: qs => ⟨load mem q.payload q.len, (totLen (q :: qs)).toUInt16⟩ :: pbufsOf mem qs

/-- The file name and the mode of a request, as copied to the arrays of `recv`, or the text
    of the error. -/
def parseRequest (p : List Pbuf) : Except String (List UInt8 × List UInt8) :=
  let filenameEndOffset := pbufMemfind p [0] 2
  if filenameEndOffset - 1 > TFTP_MAX_FILENAME_LEN + 1 then .error "Filename too long/not NULL terminated"
  else
    let filename := pbufCopyPartial p (filenameEndOffset - 1) 2
    let modeEndOffset := pbufMemfind p [0] (filenameEndOffset + 1)
    if modeEndOffset - filenameEndOffset > TFTP_MAX_MODE_LEN + 1 then .error "Mode too long/not NULL terminated"
    else .ok (filename, pbufCopyPartial p (modeEndOffset - filenameEndOffset) (filenameEndOffset + 1))

def noteOpen (o : Opening H) (s : State φ H) : State φ H := { s with opens := s.opens ++ [o] }

/-- `open` failed. -/
def notOpened (files : φ) (s : State φ H) : State φ H := { s with files := files, blknum := 1 }

/-- `open` gave the handle `h`, for the sender of `e`. -/
def grant (e : Packet) (write : Bool) (h : H) (files : φ) (s : State φ H) : State φ H :=
  { s with
    files := files, handle := some h, blknum := 1, addr := e.addr, port := e.port, modeWrite := write, acked := [] }

/-- The case RRQ and WRQ; the timeout is set before the request is looked at. -/
def recvRequest (ctx : Context φ H) (write : Bool) (e : Packet) (s : State φ H) : State φ H :=
  match s.handle with
  | some _ => sendError e.addr e.port .accessViolation "Only one connection at a time is supported" s
  | none =>
    match parseRequest (pbufsOf e.mem e.p.pbufs) with
    | .error str => sendError e.addr e.port .accessViolation str (sysTimeout s)
    | .ok (filename, mode) =>
      let r := ctx.openFile s.files filename mode write
      let s := noteOpen ⟨filename, mode, write, r.1⟩ (sysTimeout s)
      match r.1 with
      | none => sendError e.addr e.port .fileNotFound "Unable to open requested file." (notOpened r.2 s)
      | some h => if write then sendAck 0 (grant e write h r.2 s) else sendData ctx h (grant e write h r.2 s)

def nextBlock (s : State φ H) : State φ H := { s with blknum := s.blknum + 1 }

/-- `pbuf_remove_header`, which does nothing when the first pbuf is shorter. -/
def pbufRemoveHeader (size : Nat) (p : Chain) : Chain :=
  if size ≤ p.first.len then { p with first := ⟨p.first.payload + size, p.first.len - size⟩ } else p

def noteAcked (data : List UInt8) (s : State φ H) : State φ H := { s with acked := s.acked ++ [data] }

/-- The block that is expected: after a failed write the handle is closed, and closed again
    or counted up like after any other. -/
def takeBlock (ctx : Context φ H) (h : H) (e : Packet) (s : State φ H) : State φ H :=
  let p := pbufRemoveHeader TFTP_HEADER_LENGTH e.p
  let r := ctx.writeFile s.files h e p
  let s := setFiles r.2 s
  let s :=
    if r.1 < 0 then closeHandle ctx (sendError e.addr e.port .accessViolation "error writing file" s)
    else sendAck e.blknum (noteAcked e.data s)
  if totLen p.pbufs < TFTP_MAX_PAYLOAD_SIZE then closeHandle ctx s else nextBlock s

/-- The case DATA. -/
def recvData (ctx : Context φ H) (e : Packet) (s : State φ H) : State φ H :=
  match s.handle with
  | none => sendError e.addr e.port .accessViolation "No connection" s
  | some h =>
    if s.modeWrite = false then sendError e.addr e.port .accessViolation "Not a write connection" s
    else if e.blknum = s.blknum then takeBlock ctx h e s
    else if e.blknum + 1 = s.blknum then sendAck e.blknum s
    else sendError e.addr e.port .unknownTrfrId "Wrong block number" s

/-- The kept packet is shorter than a full one. -/
def lastpkt (s : State φ H) : Bool :=
  match s.lastData with
  | none => false
  | some d => d.length ≠ TFTP_MAX_PAYLOAD_SIZE + TFTP_HEADER_LENGTH

/-- The case ACK. -/
def recvAck (ctx : Context φ H) (e : Packet) (s : State φ H) : State φ H :=
  match s.handle with
  | none => sendError e.addr e.port .accessViolation "No connection" s
  | some h =>
    if s.modeWrite then sendError e.addr e.port .accessViolation "Not a read connection" s
    else if e.blknum ≠ s.blknum then sendError e.addr e.port .unknownTrfrId "Wrong block number" s
    else if lastpkt s then closeHandle ctx s
    else sendData ctx h (nextBlock s)

/-- The packet comes from someone else than the peer. -/
def Foreign (t : Transfer φ H) (e : Packet) : Prop :=
  (t.port ≠ 0 ∧ e.port ≠ t.port) ∨ (t.addr ≠ 0 ∧ t.addr ≠ e.addr)

instance (t : Transfer φ H) (e : Packet) : Decidable (Foreign t e) :=
  inferInstanceAs (Decidable ((t.port ≠ 0 ∧ e.port ≠ t.port) ∨ (t.addr ≠ 0 ∧ t.addr ≠ e.addr)))

def touch (s : State φ H) : State φ H := { s with lastPkt := s.timer, retries := 0 }

/-- The switch over the opcode. -/
def dispatch (ctx : Context φ H) (e : Packet) (s : State φ H) : State φ H :=
  if opcode e = TFTP_RRQ then recvRequest ctx false e s
  else if opcode e = TFTP_WRQ then recvRequest ctx true e s
  else if opcode e = TFTP_DATA then recvData ctx e s
  else if opcode e = TFTP_ACK then recvAck ctx e s
  else sendError e.addr e.port .illegalOperation "Unknown operation" s

def recv (ctx : Context φ H) (s : State φ H) (e : Packet) : State φ H :=
  let s := pbufOp .got s
  if Foreign s.toTransfer e then
    pbufFree .packet (sendError e.addr e.port .accessViolation "Only one connection at a time is supported" s)
  else pbufFree .packet (dispatch ctx e (touch s))

/-- The timeout that called `tftp_tmr` is gone. -/
def fire (s : State φ H) : State φ H := { s with pending := s.pending - 1, timer := s.timer + 1 }

def retry (s : State φ H) : State φ H := { resendData s with retries := s.retries + 1 }

def tftpTmr (ctx : Context φ H) (s : State φ H) : State φ H :=
  let s := fire s
  if s.handle.isNone then s
  else
    let s := sysTimeout s
    if (s.timer - s.lastPkt).toInt > TFTP_TIMEOUT_TICKS then
      if s.lastData.isSome ∧ s.retries < TFTP_MAX_RETRIES then retry s else closeHandle ctx s
    else s

/-- After `tftp_init`, with these files. -/
def tftpInit (files : φ) : State φ H :=
  ⟨⟨files, none, none, 0, 0, 0, 0, 0, 0, false, 0, []⟩, [], [], [], [], 0, [], true⟩

/-- What `tftp_cleanup` does before it clears `tftp_state`. -/
def tftpCleanup (ctx : Context φ H) (s : State φ H) : State φ H := closeHandle ctx s

/-! ## Runs -/

structure Env where
  mem : List Bool
  timeoutMem : Bool
  deriving DecidableEq, Repr

inductive Ev where
  | packet (e : Packet) (env : Env)
  /-- One of the timeouts set to `tftp_tmr` is due. -/
  | tick (env : Env)

def Ev.env : Ev → Env
  | .packet _ env => env
  | .tick env => env

def within (env : Env) (s : State φ H) : State φ H := { s with mem := env.mem, timeoutMem := env.timeoutMem }

def step (ctx : Context φ H) (s : State φ H) : Ev → State φ H
  | .packet e env => recv ctx (within env s) e
  | .tick env => if s.pending = 0 then s else tftpTmr ctx (within env s)

/-! ## The books -/

/-- The pbufs are numbered as the server gets them; what each variable points to, and the
    pbufs that were freed. -/
structure Books where
  next : Nat
  packet : Option Nat
  fresh : Option Nat
  last : Option Nat
  freed : List Nat
  deriving DecidableEq, Repr

def Books.get (b : Books) : Held → Option Nat
  | .packet => b.packet
  | .fresh => b.fresh
  | .last => b.last

def Books.op (b : Books) : PbufOp → Books
  | .got => { b with next := b.next + 1, packet := some b.next }
  | .alloc => { b with next := b.next + 1, fresh := some b.next }
  | .keep => { b with last := b.fresh }
  | .clear => { b with last := none }
  | .free which => { b with freed := b.freed ++ (b.get which).toList }

def books (ops : List PbufOp) : Books := ops.foldl Books.op ⟨0, none, none, none, []⟩

/-- Every pbuf but those in `left` has been freed, and none twice. -/
def GivenBack (b : Books) (left : List Nat) : Prop := (b.freed ++ left).Perm (List.range b.next)

theorem books_append (ops ops' : List PbufOp) : books (ops ++ ops') = ops'.foldl Books.op (books ops) :=
  List.foldl_append

theorem GivenBack.once {b : Books} {left : List Nat} (h : GivenBack b left) : (b.freed ++ left).Nodup :=
  h.nodup_iff.mpr List.nodup_range

/-- A pbuf more, and one more freed or left. -/
theorem GivenBack.more {b b' : Books} {left left' : List Nat} (h : GivenBack b left) (hnext : b'.next = b.next + 1)
    (hput : (b'.freed ++ left').Perm (b.next :: (b.freed ++ left))) : GivenBack b' left' := by
  unfold GivenBack at *
  rw [hnext, List.range_succ]
  exact hput.trans ((h.cons b.next).trans (List.perm_append_singleton b.next (List.range b.next)).symm)

/-! ## Sending -/

/-- From `s` to `s'` nothing happened but that datagrams with `P` were sent, each in a pbuf
    that is freed. -/
structure Sends (P : Datagram → Prop) (s s' : State φ H) : Prop where
  transfer : s'.toTransfer = s.toTransfer
  sent : ∃ ds, s'.sent = s.sent ++ ds ∧ ∀ d ∈ ds, P d
  pbufs : s'.pbufs = s.pbufs ∨ s'.pbufs = s.pbufs ++ [.alloc, .free .fresh]
  handles : s'.opens = s.opens ∧ s'.closes = s.closes
  timeouts : s'.timeoutsLost = s.timeoutsLost ∧ s'.timeoutMem = s.timeoutMem

theorem Sends.refl (P : Datagram → Prop) (s : State φ H) : Sends P s s :=
  ⟨rfl, ⟨[], (List.append_nil _).symm, fun _ h => nomatch h⟩, Or.inl rfl, ⟨rfl, rfl⟩, ⟨rfl, rfl⟩⟩

/-- `pbuf_alloc` only notes the pbuf, and takes its result from the list. -/
theorem pbufAlloc_cases (s : State φ H) :
    ((pbufAlloc s).1 = true ∧ ∃ mem, (pbufAlloc s).2 = pbufOp .alloc { s with mem := mem }) ∨
      ((pbufAlloc s).1 = false ∧ ∃ mem, s.mem = false :: mem ∧ (pbufAlloc s).2 = { s with mem := mem }) := by
  unfold pbufAlloc
  split
  next => exact Or.inl ⟨rfl, s.mem, rfl⟩
  next mem _ => exact Or.inl ⟨rfl, mem, rfl⟩
  next mem h => exact Or.inr ⟨rfl, mem, h, rfl⟩

theorem sends_bytes (addr : Nat) (port : UInt16) (payload : List UInt8) (s : State φ H) :
    Sends (· = ⟨addr, port, payload⟩) s (sendBytes addr port payload s) := by
  unfold sendBytes
  rcases pbufAlloc_cases s with ⟨hok, mem, h⟩ | ⟨hfail, mem, -, h⟩
  · rw [hok, if_pos rfl, h]
    refine ⟨rfl, ⟨[⟨addr, port, payload⟩], rfl, fun d hd => List.mem_singleton.mp hd⟩, Or.inr ?_, ⟨rfl, rfl⟩, ⟨rfl, rfl⟩⟩
    exact List.append_assoc s.pbufs [.alloc] [.free .fresh]
  · rw [hfail, if_neg (by decide), h]
    exact ⟨rfl, ⟨[], (List.append_nil _).symm, fun _ h => nomatch h⟩, Or.inl rfl, ⟨rfl, rfl⟩, ⟨rfl, rfl⟩⟩

theorem sends_resendData (s : State φ H) :
    Sends (fun d => d.addr = s.addr ∧ d.port = s.port ∧ s.lastData = some d.payload) s (resendData s) := by
  unfold resendData
  split
  next => exact Sends.refl _ s
  next d hd =>
    obtain ⟨ht, ⟨ds, hds, hall⟩, hp, hh, hm⟩ := sends_bytes s.addr s.port d s
    refine ⟨ht, ⟨ds, hds, fun d' hd' => ?_⟩, hp, hh, hm⟩
    rw [hall d' hd']
    exact ⟨rfl, rfl, hd⟩

/-! ## What the server holds -/

/-- The pbufs that are still the server's: the kept one, and while `recv` runs its packet. -/
def Books.left (b : Books) (receiving : Bool) : List Nat := b.last.toList ++ if receiving then b.packet.toList else []

/-- The peer was silent for no longer than the timer allows. -/
structure Quiet (ticks : BitVec 24) (retries : UInt8) : Prop where
  ticks : ticks.toNat ≤ 10 + retries.toNat
  retries : retries ≤ TFTP_MAX_RETRIES

/-- All pbufs but those that are left are freed, and all handles but the open one closed. -/
structure Balanced (receiving : Bool) (s : State φ H) : Prop where
  pbufs : GivenBack (books s.pbufs) ((books s.pbufs).left receiving)
  kept : (books s.pbufs).last.isSome = s.lastData.isSome
  handles : s.opens.filterMap (·.handle) = s.closes ++ s.handle.toList

/-- And without a handle there is no peer and no kept packet; while there is one a timeout
    is set, if there was memory for all of them. -/
structure Sound (receiving : Bool) (s : State φ H) : Prop extends Balanced receiving s where
  idle : s.handle = none → s.lastData = none ∧ s.addr = 0 ∧ s.port = 0
  ticking : s.timeoutsLost = 0 → s.handle.isSome → 0 < s.pending
  quiet : s.handle.isSome → Quiet (s.timer - s.lastPkt) s.retries

variable {receiving : Bool} {s : State φ H}

/-- A pbuf that is freed where it was allocated changes nothing else. -/
theorem Sends.balanced {P : Datagram → Prop} {s' : State φ H} (h : Sends P s s') (hs : Balanced receiving s) :
    Balanced receiving s' := by
  have hhandles : s'.opens.filterMap (·.handle) = s'.closes ++ s'.handle.toList := by
    rw [h.handles.1, h.handles.2, h.transfer]
    exact hs.handles
  rcases h.pbufs with hp | hp
  · exact ⟨hp ▸ hs.pbufs, by rw [hp, h.transfer]; exact hs.kept, hhandles⟩
  · refine ⟨?_, ?_, hhandles⟩
    · rw [hp, books_append]
      refine hs.pbufs.more rfl ?_
      simp only [List.foldl_cons, List.foldl_nil, Books.op, Books.get, Option.toList_some, Books.left]
      rw [List.append_assoc, List.singleton_append]
      exact List.perm_middle
    · rw [hp, books_append, h.transfer]
      exact hs.kept

theorem Sends.sound {P : Datagram → Prop} {s' : State φ H} (h : Sends P s s') (hs : Sound receiving s) :
    Sound receiving s' := by
  refine ⟨h.balanced hs.toBalanced, ?_, ?_, ?_⟩
  · rw [h.transfer]
    exact hs.idle
  · rw [h.timeouts.1, h.transfer]
    exact hs.ticking
  · rw [h.transfer]
    exact hs.quiet

theorem sendBytes_sound (addr : Nat) (port : UInt16) (payload : List UInt8) (hs : Sound receiving s) :
    Sound receiving (sendBytes addr port payload s) := (sends_bytes addr port payload s).sound hs

/-- The kept pbuf is freed, and none is kept from then on. -/
theorem freeLastData_balanced (hs : Balanced receiving s) :
    Balanced receiving (freeLastData s) ∧ (books (freeLastData s).pbufs).last = none := by
  have hp := hs.pbufs
  cases hl : s.lastData with
  | none =>
    have hsame : (freeLastData s).pbufs = s.pbufs := by simp [freeLastData, hl]
    have hnone : (books s.pbufs).last = none := by simpa [hl] using hs.kept
    rw [← hsame] at hp hnone
    exact ⟨⟨hp, congrArg Option.isSome hnone, hs.handles⟩, hnone⟩
  | some d =>
    have hops : books (freeLastData s).pbufs =
        { books s.pbufs with freed := (books s.pbufs).freed ++ (books s.pbufs).last.toList, last := none } := by
      simp only [freeLastData, hl, Option.elim_some, books_append]
      rfl
    have hlast : (books (freeLastData s).pbufs).last = none := congrArg Books.last hops
    refine ⟨⟨?_, congrArg Option.isSome hlast, hs.handles⟩, hlast⟩
    rw [hops]
    simpa only [GivenBack, Books.left, Option.toList_none, List.nil_append, List.append_assoc] using hp

theorem closeHandle_sound (ctx : Context φ H) (hs : Balanced receiving s) : Sound receiving (closeHandle ctx s) := by
  have hf := (freeLastData_balanced hs).1
  refine ⟨⟨hf.pbufs, hf.kept, ?_⟩, fun _ => ⟨rfl, rfl, rfl⟩, fun _ h1 => (nomatch h1), fun h1 => (nomatch h1)⟩
  simp only [closeHandle, Option.toList_none, List.append_nil]
  exact hs.handles

theorem sendData_sound (ctx : Context φ H) {h : H} (hs : Sound receiving s) (hh : s.handle = some h) :
    Sound receiving (sendData ctx h s) := by
  obtain ⟨hf, hlast⟩ := freeLastData_balanced hs.toBalanced
  have hidle : ∀ {p : Prop}, s.handle = none → p := fun h0 => by rw [hh] at h0; cases h0
  unfold sendData
  simp only
  rcases pbufAlloc_cases (freeLastData s) with ⟨hok, mem, ha⟩ | ⟨hfail, mem, -, ha⟩
  · -- the new pbuf is the kept one from now on
    have hkept : ∀ (files : φ) (d : List UInt8),
        Sound receiving (keep d (setFiles files (pbufAlloc (freeLastData s)).2)) := by
      intro files d
      have hops : books (keep d (setFiles files (pbufAlloc (freeLastData s)).2)).pbufs =
          [PbufOp.alloc, .keep].foldl Books.op (books (freeLastData s).pbufs) := by
        rw [ha, ← books_append]
        exact congrArg books (List.append_assoc (freeLastData s).pbufs [PbufOp.alloc] [PbufOp.keep])
      have hpbufs : GivenBack ([PbufOp.alloc, .keep].foldl Books.op (books (freeLastData s).pbufs))
          (([PbufOp.alloc, .keep].foldl Books.op (books (freeLastData s).pbufs)).left receiving) := by
        refine hf.pbufs.more rfl ?_
        simp only [List.foldl_cons, List.foldl_nil, Books.op, Books.left, hlast, Option.toList_some, Option.toList_none,
          List.nil_append, List.singleton_append]
        exact List.perm_middle
      rw [ha] at hops ⊢
      exact ⟨⟨hops ▸ hpbufs, congrArg (·.last.isSome) hops, hs.handles⟩, hidle, hs.ticking, hs.quiet⟩
    rw [hok, if_pos rfl]
    split
    next files _ => exact closeHandle_sound ctx (sendBytes_sound _ _ _ (hkept _ _)).toBalanced
    next data files _ => exact (sends_resendData _).sound (hkept _ _)
  · rw [hfail, if_neg (by decide), ha]
    exact ⟨⟨hf.pbufs, hf.kept, hf.handles⟩, hidle, hs.ticking, hs.quiet⟩

theorem sysTimeout_sound (hs : Sound receiving s) : Sound receiving (sysTimeout s) := by
  unfold sysTimeout
  split
  · exact ⟨⟨hs.pbufs, hs.kept, hs.handles⟩, hs.idle, fun h0 h1 => Nat.lt_succ_of_lt (hs.ticking h0 h1), hs.quiet⟩
  · exact ⟨⟨hs.pbufs, hs.kept, hs.handles⟩, hs.idle, fun h0 => (nomatch h0), hs.quiet⟩

/-- A timeout is set, or it is counted that there was no memory for it. -/
theorem sysTimeout_sets (s : State φ H) : (sysTimeout s).timeoutsLost = 0 → 0 < (sysTimeout s).pending := by
  unfold sysTimeout
  split
  · exact fun _ => Nat.succ_pos _
  · exact fun h0 => nomatch h0

theorem sysTimeout_other (s : State φ H) :
    (sysTimeout s).handle = s.handle ∧ (sysTimeout s).timer = s.timer ∧ (sysTimeout s).lastPkt = s.lastPkt ∧
      (sysTimeout s).retries = s.retries := by
  unfold sysTimeout
  split <;> exact ⟨rfl, rfl, rfl, rfl⟩

/-- A transfer begins with the packet that was just touched. -/
theorem recvRequest_sound (ctx : Context φ H) (write : Bool) (e : Packet) (hs : Sound receiving s)
    (hq : Quiet (s.timer - s.lastPkt) s.retries) : Sound receiving (recvRequest ctx write e s) := by
  unfold recvRequest
  split
  next => exact sendBytes_sound _ _ _ hs
  next hnone =>
    have ht := sysTimeout_sound hs
    obtain ⟨hhandle, htimer, hlast, hretries⟩ := sysTimeout_other s
    have hh : (sysTimeout s).opens.filterMap (·.handle) = (sysTimeout s).closes := by
      rw [ht.handles, hhandle, hnone]
      exact List.append_nil _
    split
    next => exact sendBytes_sound _ _ _ ht
    next filename mode _ =>
      simp only
      split
      next hr =>
        refine sendBytes_sound _ _ _ ⟨⟨ht.pbufs, ht.kept, ?_⟩, ht.idle, ht.ticking, ht.quiet⟩
        simp only [notOpened, noteOpen, List.filterMap_append, List.filterMap_cons, hr, List.filterMap_nil, List.append_nil]
        exact ht.handles
      next h hr =>
        have hgranted : ∀ files, Sound receiving
            (grant e write h files (noteOpen ⟨filename, mode, write, some h⟩ (sysTimeout s))) := by
          intro files
          refine ⟨⟨ht.pbufs, ht.kept, ?_⟩, fun h0 => (nomatch h0), fun h0 _ => sysTimeout_sets s h0, fun _ => ?_⟩
          · simp only [grant, noteOpen, List.filterMap_append, List.filterMap_cons, List.filterMap_nil, hh,
              Option.toList_some]
          · simp only [grant, noteOpen, htimer, hlast, hretries]
            exact hq
        rw [hr]
        split
        next => exact sendBytes_sound _ _ _ (hgranted _)
        next => exact sendData_sound ctx (hgranted _) rfl

theorem takeBlock_sound (ctx : Context φ H) (h : H) (e : Packet) (hs : Sound receiving s) :
    Sound receiving (takeBlock ctx h e s) := by
  have hset : ∀ files : φ, Sound receiving (setFiles files s) :=
    fun files => ⟨⟨hs.pbufs, hs.kept, hs.handles⟩, hs.idle, hs.ticking, hs.quiet⟩
  have hnoted : ∀ files : φ, Sound receiving (noteAcked e.data (setFiles files s)) :=
    fun files => ⟨⟨hs.pbufs, hs.kept, hs.handles⟩, hs.idle, hs.ticking, hs.quiet⟩
  have hnext : ∀ {s' : State φ H}, Sound receiving s' → Sound receiving (nextBlock s') :=
    fun hs' => ⟨⟨hs'.pbufs, hs'.kept, hs'.handles⟩, hs'.idle, hs'.ticking, hs'.quiet⟩
  have hmid : ∀ files : φ,
      Sound receiving (if (ctx.writeFile s.files h e (pbufRemoveHeader TFTP_HEADER_LENGTH e.p)).1 < 0
        then closeHandle ctx (sendError e.addr e.port .accessViolation "error writing file" (setFiles files s))
        else sendAck e.blknum (noteAcked e.data (setFiles files s))) := by
    intro files
    split
    next => exact closeHandle_sound ctx (sendBytes_sound _ _ _ (hset files)).toBalanced
    next => exact sendBytes_sound _ _ _ (hnoted files)
  unfold takeBlock
  simp only
  split
  next => exact closeHandle_sound ctx (hmid _).toBalanced
  next => exact hnext (hmid _)

theorem recvData_sound (ctx : Context φ H) (e : Packet) (hs : Sound receiving s) :
    Sound receiving (recvData ctx e s) := by
  unfold recvData
  split
  next => exact sendBytes_sound _ _ _ hs
  next h _ =>
    split
    next => exact sendBytes_sound _ _ _ hs
    next =>
      split
      next => exact takeBlock_sound ctx h e hs
      next =>
        split
        next => exact sendBytes_sound _ _ _ hs
        next => exact sendBytes_sound _ _ _ hs

theorem recvAck_sound (ctx : Context φ H) (e : Packet) (hs : Sound receiving s) :
    Sound receiving (recvAck ctx e s) := by
  unfold recvAck
  split
  next => exact sendBytes_sound _ _ _ hs
  next h hh =>
    split
    next => exact sendBytes_sound _ _ _ hs
    next =>
      split
      next => exact sendBytes_sound _ _ _ hs
      next =>
        split
        next => exact closeHandle_sound ctx hs.toBalanced
        next => exact sendData_sound ctx ⟨⟨hs.pbufs, hs.kept, hs.handles⟩, hs.idle, hs.ticking, hs.quiet⟩ hh

theorem dispatch_sound (ctx : Context φ H) (e : Packet) (hs : Sound receiving s)
    (hq : Quiet (s.timer - s.lastPkt) s.retries) : Sound receiving (dispatch ctx e s) := by
  unfold dispatch
  split
  next => exact recvRequest_sound ctx false e hs hq
  next =>
    split
    next => exact recvRequest_sound ctx true e hs hq
    next =>
      split
      next => exact recvData_sound ctx e hs
      next =>
        split
        next => exact recvAck_sound ctx e hs
        next => exact sendBytes_sound _ _ _ hs

theorem got_sound (hs : Sound false s) : Sound true (pbufOp .got s) := by
  have hops : books (pbufOp .got s).pbufs = (books s.pbufs).op .got := books_append s.pbufs [.got]
  refine ⟨⟨?_, ?_, hs.handles⟩, hs.idle, hs.ticking, hs.quiet⟩
  · rw [hops]
    refine hs.pbufs.more rfl ?_
    simp only [Books.op, Books.left, if_pos, Option.toList_some, Bool.false_eq_true, if_neg, not_false_eq_true,
      List.append_nil]
    rw [← List.append_assoc]
    exact List.perm_append_singleton _ _
  · rw [hops]
    exact hs.kept

theorem freePacket_sound (hs : Sound true s) : Sound false (pbufFree .packet s) := by
  have hops : books (pbufFree .packet s).pbufs = (books s.pbufs).op (.free .packet) := books_append s.pbufs [.free .packet]
  refine ⟨⟨?_, ?_, hs.handles⟩, hs.idle, hs.ticking, hs.quiet⟩
  · have hp := hs.pbufs
    rw [hops]
    simp only [GivenBack, Books.op, Books.get, Books.left, if_pos, Bool.false_eq_true, if_neg, not_false_eq_true,
      List.append_nil, List.append_assoc] at hp ⊢
    exact (List.perm_append_comm.append_left _).trans hp
  · rw [hops]
    exact hs.kept

/-- The packet that came is freed with the others. -/
theorem recv_sound (ctx : Context φ H) (e : Packet) (hs : Sound false s) : Sound false (recv ctx s e) := by
  have hgot := got_sound hs
  have hq : Quiet (s.timer - s.timer) 0 := by
    rw [BitVec.sub_self]
    exact ⟨Nat.zero_le _, UInt8.le_iff_toNat_le.mpr (Nat.zero_le _)⟩
  unfold recv
  simp only
  split
  next => exact freePacket_sound (sendBytes_sound _ _ _ hgot)
  next =>
    have htouch : Sound true (touch (pbufOp .got s)) :=
      ⟨⟨hgot.pbufs, hgot.kept, hgot.handles⟩, hgot.idle, hgot.ticking, fun _ => hq⟩
    exact freePacket_sound (dispatch_sound ctx e htouch hq)

/-- The difference of the two counters does not wrap around. -/
theorem Quiet.tick {timer lastPkt : BitVec 24} {retries : UInt8} (h : Quiet (timer - lastPkt) retries) :
    (timer + 1 - lastPkt).toNat = (timer - lastPkt).toNat + 1 ∧
      (timer + 1 - lastPkt).toInt = ((timer - lastPkt).toNat + 1 : Int) := by
  have hr : retries.toNat ≤ 5 := UInt8.le_iff_toNat_le.mp h.retries
  have hd := h.ticks
  have hadd : (timer + 1 - lastPkt).toNat = (timer - lastPkt).toNat + 1 := by
    rw [show timer + 1 - lastPkt = timer - lastPkt + 1 by bv_omega]
    bv_omega
  refine ⟨hadd, ?_⟩
  rw [BitVec.toInt_eq_toNat_of_lt (by omega), hadd]
  rfl

/-- One tick more, and the packet is sent again or the transfer is given up when that is
    one too many. -/
theorem tftpTmr_sound (ctx : Context φ H) (hs : Sound receiving s) : Sound receiving (tftpTmr ctx s) := by
  unfold tftpTmr
  simp only
  split
  next hnone =>
    have hno : ∀ {p : Prop}, (fire s).handle.isSome → p := fun h1 => by
      rw [Option.isNone_iff_eq_none.mp hnone] at h1
      cases h1
    exact ⟨⟨hs.pbufs, hs.kept, hs.handles⟩, hs.idle, fun _ h1 => hno h1, fun h1 => hno h1⟩
  next hsome =>
    have hopen : s.handle.isSome := Option.isSome_iff_ne_none.mpr fun h => hsome (Option.isNone_iff_eq_none.mpr h)
    have hquiet := hs.quiet hopen
    obtain ⟨hadd, hint⟩ := hquiet.tick
    obtain ⟨hhandle, htimer, hlast, hretries⟩ := sysTimeout_other (fire s)
    have hset : Balanced receiving (sysTimeout (fire s)) ∧
        ((sysTimeout (fire s)).handle = none → (sysTimeout (fire s)).lastData = none ∧ (sysTimeout (fire s)).addr = 0 ∧
          (sysTimeout (fire s)).port = 0) := by
      unfold sysTimeout
      split <;> exact ⟨⟨hs.pbufs, hs.kept, hs.handles⟩, hs.idle⟩
    have hpend : (sysTimeout (fire s)).timeoutsLost = 0 → (sysTimeout (fire s)).handle.isSome →
        0 < (sysTimeout (fire s)).pending := fun h0 _ => sysTimeout_sets (fire s) h0
    rw [htimer, hlast, hretries, show (fire s).timer - (fire s).lastPkt = s.timer + 1 - s.lastPkt from rfl, hint]
    split
    next =>
      split
      next hretry =>
        have hsend := sends_resendData (sysTimeout (fire s))
        have hb := hsend.balanced hset.1
        have hlt : s.retries.toNat < 5 := UInt8.lt_iff_toNat_lt.mp hretry.2
        have hmore : (s.retries + 1).toNat = s.retries.toNat + 1 := by
          rw [UInt8.toNat_add]
          exact Nat.mod_eq_of_lt (by simp only [UInt8.toNat_one]; omega)
        refine ⟨⟨hb.pbufs, hb.kept, hb.handles⟩, ?_, ?_, fun _ => ?_⟩
        · simp only [retry, hsend.transfer]
          exact hset.2
        · simp only [retry, hsend.transfer, hsend.timeouts.1]
          exact hpend
        · have hticks : (s.timer + 1 - s.lastPkt).toNat ≤ 10 + (s.retries + 1).toNat := by
            have := hquiet.ticks
            omega
          simp only [retry, hsend.transfer, htimer, hlast, hretries]
          exact ⟨hticks, UInt8.le_iff_toNat_le.mpr (hmore ▸ hlt)⟩
      next => exact closeHandle_sound ctx hset.1
    next hle =>
      refine ⟨hset.1, hset.2, hpend, fun _ => ?_⟩
      rw [htimer, hlast, hretries]
      have hten : TFTP_TIMEOUT_TICKS = 10 := rfl
      exact ⟨by simp only [fire]; omega, hquiet.retries⟩

theorem step_sound (ctx : Context φ H) (ev : Ev) (hs : Sound false s) : Sound false (step ctx s ev) := by
  have hwithin : ∀ env, Sound false (within env s) :=
    fun env => ⟨⟨hs.pbufs, hs.kept, hs.handles⟩, hs.idle, hs.ticking, hs.quiet⟩
  cases ev with
  | packet e env => exact recv_sound ctx e (hwithin env)
  | tick env =>
    simp only [step]
    split
    next => exact hs
    next => exact tftpTmr_sound ctx (hwithin env)

theorem init_sound (files : φ) : Sound false (tftpInit files : State φ H) :=
  ⟨⟨List.Perm.refl _, rfl, rfl⟩, fun _ => ⟨rfl, rfl, rfl⟩, fun _ h0 => (nomatch h0), fun h0 => (nomatch h0)⟩

theorem run_sound (ctx : Context φ H) (files : φ) (es : List Ev) : Sound false (run (step ctx) (tftpInit files) es) :=
  run_inv (step ctx) (fun _ ev hs => step_sound ctx ev hs) (init_sound files) es

/-- Over any packets and ticks, and whatever memory there is: no pbuf and no handle is
    given back twice, and none is lost. At any time those that are not back are the kept
    packet and the handle of the transfer; without a transfer, and after `tftp_cleanup`,
    there are none. -/
theorem all_given_back (ctx : Context φ H) (files : φ) (es : List Ev) :
    let s := run (step ctx) (tftpInit files) es
    let b := books s.pbufs
    let s' := tftpCleanup ctx s
    let b' := books s'.pbufs
    ((b.freed ++ b.last.toList).Perm (List.range b.next) ∧ (b.freed ++ b.last.toList).Nodup ∧
        b.last.isSome = s.lastData.isSome ∧ s.opens.filterMap (·.handle) = s.closes ++ s.handle.toList) ∧
      (s.handle = none → b.freed.Perm (List.range b.next) ∧ s.opens.filterMap (·.handle) = s.closes) ∧
      b'.freed.Perm (List.range b'.next) ∧ s'.opens.filterMap (·.handle) = s'.closes := by
  intro s b s' b'
  have hs : Sound false s := run_sound ctx files es
  have hs' : Sound false s' := closeHandle_sound ctx hs.toBalanced
  -- without a transfer nothing is kept, so nothing is left
  have hback : ∀ {t : State φ H}, Sound false t → t.handle = none →
      (books t.pbufs).freed.Perm (List.range (books t.pbufs).next) ∧ t.opens.filterMap (·.handle) = t.closes := by
    intro t ht hnone
    have hp := ht.pbufs
    have hh := ht.handles
    have hlast : (books t.pbufs).last = none := by simpa [(ht.idle hnone).1] using ht.kept
    simp only [GivenBack, Books.left, hlast, Option.toList_none, Bool.false_eq_true, if_neg, not_false_eq_true,
      List.append_nil] at hp
    rw [hnone] at hh
    exact ⟨hp, hh.trans (List.append_nil _)⟩
  have hp : GivenBack b b.last.toList := by simpa only [Books.left, Bool.false_eq_true, if_neg, not_false_eq_true,
    List.append_nil] using hs.pbufs
  exact ⟨⟨hp, hp.once, hs.kept, hs.handles⟩, hback hs, hback hs' rfl⟩

end Nanotube.TftpServer
