/-
  Nanotube.Device.Ecm — the CDC-ECM driver of one netif (src/device/ecm.c), with the
  part of the main loop that drains it (`nt_process`, src/nanotube.c).

  The receive path. `ecm_schedule_read` allocates `read_data` and schedules an IN
  transfer into it; the completion (`ecm_read_callback`) copies the frame to a pbuf,
  queues the pbuf, frees `read_data` and schedules the next read, or sets `halted` when
  the transfer failed. `nt_process` hands one queued pbuf to `netif->input` and lets
  `clear_halt` restart a halted read.

  `Netif` is the driver's own state together with what it shares with its environment:
  the IN transfers usbdrvce still has to complete, the heap buffers and pbufs given out
  and given back, and the calls of `netif->input`. Every call that can fail takes its
  outcome from the event that makes it. usbdrvce calls back once for each transfer it
  accepted and never for one it refused, so a completion needs a pending transfer.
-/

import Nanotube.Device.Queue
import Nanotube.Lib.Runs

namespace Nanotube.Device.Ecm

open Nanotube.Device.Queue

/-- `usb_error_t`; only `success` is 0. -/
inductive UsbError where
  | success
  | ignore
  | noMemory
  | failed
  | other (code : Nat)
  deriving DecidableEq, Repr

/-- `err_t`: `ERR_OK` is 0. -/
abbrev ErrT := Int

def ERR_OK : ErrT := 0
def ERR_IF : ErrT := -12

structure Pbuf where
  id : Nat
  payload : List UInt8
  deriving DecidableEq, Repr

/-- `usb_control_setup_t`. -/
structure ControlSetup where
  bmRequestType : UInt8
  bRequest : UInt8
  wValue : UInt16
  wIndex : UInt16
  wLength : UInt16
  deriving DecidableEq, Repr

structure Netif where
  /-- `netif->mtu`, a `u16_t`. -/
  mtu : UInt16
  hwaddr : List UInt8
  up : Bool
  /-- `state->mtu`, set from the device's Ethernet descriptor. -/
  stateMtu : UInt16
  macIndex : UInt8
  queue : QueueT Pbuf
  /-- `state->read_data`: a heap buffer, or NULL. -/
  readData : Option Nat
  halted : Bool
  /-- The control requests sent. -/
  requests : List ControlSetup
  /-- The buffers of the IN transfers that usbdrvce has accepted and not completed. -/
  pending : List Nat
  /-- Heap buffers `malloc` has given out so far, and those given back to `free`. -/
  nextBuf : Nat
  freedBufs : List Nat
  /-- pbufs `pbuf_alloc` has given out so far, and those given back to `pbuf_free`. -/
  nextPbuf : Nat
  freed : List Pbuf
  /-- The calls of `netif->input`, with its result. -/
  handed : List (Pbuf × ErrT)

/-! ## Receiving -/

/-- The outcomes of the two calls `ecm_schedule_read` makes. -/
structure ReadOutcome where
  malloc : Bool
  schedule : UsbError

def ecmScheduleRead (o : ReadOutcome) (n : Netif) : UsbError × Netif :=
  if n.readData.isSome then (.failed, n)
  else if o.malloc = false then (.noMemory, { n with readData := none, halted := true })
  else
    let buf := n.nextBuf
    let n := { n with readData := some buf, nextBuf := buf + 1 }
    (o.schedule, if o.schedule = .success then { n with pending := n.pending ++ [buf] } else n)

/-- `error` of `usb_ClearEndpointHalt` is only logged. -/
def clearHalt (o : ReadOutcome) (n : Netif) : Netif :=
  if n.halted then
    let r := ecmScheduleRead o n
    if r.1 = .success then { r.2 with halted := false } else r.2
  else n

/-- A finished IN transfer: what usbdrvce passes to the callback, the bytes at
    `read_data`, and the outcomes of the calls the callback makes. -/
structure Completion where
  status : Nat
  size : Nat
  data : Nat → UInt8
  pbufAlloc : Bool
  read : ReadOutcome

/-- The bytes received. -/
def Completion.frame (c : Completion) : List UInt8 := (List.range c.size).map c.data

def ETHTYPE_IPV6 : UInt16 := 0x86DD

/-- `PP_HTONS` on the little-endian eZ80. -/
def PP_HTONS (x : UInt16) : UInt16 := ((x &&& 0x00ff) <<< 8) ||| ((x &&& 0xff00) >>> 8)

/-- `((struct eth_hdr *) read_data)->type`: the two bytes at offset 12, little-endian. -/
def Completion.type (c : Completion) : UInt16 := (c.data 12).toUInt16 + 256 * (c.data 13).toUInt16

/-- The pbuf filled by `pbuf_take`; `pbuf_alloc` and `pbuf_take` take a `u16_t` length. -/
def Completion.pbuf (c : Completion) (id : Nat) : Pbuf := ⟨id, (List.range (c.size % 65536)).map c.data⟩

/-- The first half of `ecm_read_callback`: the frame is copied and queued. -/
def enqueue (c : Completion) (n : Netif) : Netif :=
  if c.type ≠ PP_HTONS ETHTYPE_IPV6 ∧ c.type ≠ 0x9988 ∧ c.size ≠ 0 then
    if c.pbufAlloc then
      let p := c.pbuf n.nextPbuf
      let r := queueAdd n.queue (some p)
      if r.1 then { n with nextPbuf := n.nextPbuf + 1, queue := r.2 }
      else { n with nextPbuf := n.nextPbuf + 1, queue := r.2, freed := n.freed ++ [p] }
    else n
  else n

/-- `free(state->read_data)`, then NULL; `free(NULL)` does nothing. -/
def freeReadData (n : Netif) : Netif := { n with freedBufs := n.freedBufs ++ n.readData.toList, readData := none }

variable (USB_TRANSFER_FAILED : Nat)

def ecmReadCallback (c : Completion) (n : Netif) : UsbError × Netif :=
  let n := freeReadData (enqueue c n)
  if c.status ≠ 0 ∧ c.status &&& USB_TRANSFER_FAILED ≠ 0 then (.ignore, { n with halted := true })
  else (.success, (ecmScheduleRead c.read n).2)

/-- One pass of `nt_process` over the netif: the result of `netif->input`, and the
    outcomes of the calls `clear_halt` makes. -/
structure Pass where
  input : ErrT
  read : ReadOutcome

/-- The first half of a pass: one queued pbuf goes to `netif->input`. -/
def deliver (p : Pass) (n : Netif) : Netif :=
  let r := queueGet n.queue
  match r.1 with
  | some b =>
    { n with queue := r.2, handed := n.handed ++ [(b, p.input)],
             freed := if p.input ≠ ERR_OK then n.freed ++ [b] else n.freed }
  | none => { n with queue := r.2 }

def ntProcess (p : Pass) (n : Netif) : Netif := clearHalt p.read (deliver p n)

inductive Ev where
  | complete (c : Completion)
  | process (p : Pass)

def step (n : Netif) : Ev → Netif
  | .complete c =>
    match n.pending with
    | _ :: rest => (ecmReadCallback USB_TRANSFER_FAILED c { n with pending := rest }).2
    | [] => n
  | .process p => ntProcess p n

/-! ## Bringing the netif up -/

/-- The character codes are `'0'`, 0x30, and `'A'`, 0x41. -/
def wcharHexToInt (wchar : UInt16) : UInt8 :=
  if wchar < 0x41 then (wchar - 0x30).toUInt8 else (wchar - 0x41 + 0x0A).toUInt8

/-- `usb_GetStringDescriptor`'s result and the characters it left in `str_desc`. -/
structure StringOutcome where
  error : UsbError
  str : Nat → UInt16

def ecmGetMac (o : StringOutcome) (addr : List UInt8) : ErrT × List UInt8 :=
  if o.error ≠ .success then (ERR_IF, addr)
  else (ERR_OK, (List.range 6).map fun i =>
    (wcharHexToInt (o.str (2 * i)) <<< 4) ||| wcharHexToInt (o.str (2 * i + 1)))

def PACKET_TYPE_BROADCAST : UInt8 := (1 : UInt8) <<< 3
def PACKET_TYPE_DIRECTED : UInt8 := (1 : UInt8) <<< 2

/-- The `SetEthernetPacketFilter` request of `ecm_set_packet_filer`. -/
def packetFilter (filter : UInt8) : ControlSetup := ⟨0x21, 0x43, filter.toUInt16, 1, 0⟩

/-- The outcomes of the calls `ecm_init_netif` makes, and what its `mac` array holds
    before. -/
structure InitOutcome where
  string : StringOutcome
  mac : List UInt8
  read : ReadOutcome

/-- `ecm_init_netif`, which `netif_add` calls. `read_data` keeps what it held. -/
def ecmInitNetif (o : InitOutcome) (n : Netif) : ErrT × Netif :=
  let mac := (ecmGetMac o.string o.mac).2
  let n := { n with mtu := n.stateMtu, hwaddr := mac, queue := queueInit n.queue }
  let n := { n with requests := n.requests ++ [packetFilter (PACKET_TYPE_BROADCAST ||| PACKET_TYPE_DIRECTED)] }
  let n := { n with halted := false }
  let n := (ecmScheduleRead o.read n).2
  (ERR_OK, { n with up := true })

/-- The netif after `ecm_init_netif` and the events `es`. -/
def netifAfter (o : InitOutcome) (n : Netif) (es : List Ev) : Netif :=
  Nanotube.Lib.Runs.run (step USB_TRANSFER_FAILED) (ecmInitNetif o n).2 es

/-- A netif as `process_config_descriptor` passes it to `netif_add`: nothing has been
    scheduled, handed over or given back yet. The other fields of the freshly allocated
    `netif_state_t` hold anything. -/
def Fresh (n : Netif) : Prop :=
  n.pending = [] ∧ n.nextBuf = 0 ∧ n.freedBufs = [] ∧ n.nextPbuf = 0 ∧ n.freed = [] ∧ n.handed = []

end Nanotube.Device.Ecm
