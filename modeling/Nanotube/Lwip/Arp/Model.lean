/-
  Nanotube.Lwip.Arp.Model — the ARP cache (src/lwIP/core/ipv4/etharp.c; core/ipv4/ip4_addr.c
  `ip4_addr_isbroadcast_u32`).

  An entry maps the address of a next hop on an interface to a hardware address. While it is
  not known the entry is PENDING, with at most one packet that waits for it; a known address
  is STABLE, and is asked for again shortly before it expires.

  Packets are numbers. `taken` are the references the cache has taken to packets, `freed`
  those it has given back; `out` are the IP packets given to `ethernet_output`, with the next
  hop they are for, and `arpOut` the ARP packets. `heard` is the hardware address that was
  last announced for an address.
-/

import Mathlib.Data.List.FinRange
import Mathlib.Logic.Function.Basic

namespace Nanotube.Lwip.Arp

abbrev ARP_TABLE_SIZE : Nat := 10
def ARP_MAXAGE : Nat := 300
def ARP_MAXPENDING : Nat := 5
def ARP_AGE_REREQUEST_USED_UNICAST : Nat := ARP_MAXAGE - 30
def ARP_AGE_REREQUEST_USED_BROADCAST : Nat := ARP_MAXAGE - 15
def ARP_REQUEST : UInt16 := 1
def ARP_REPLY : UInt16 := 2
def LWIP_IANA_HWTYPE_ETHERNET : UInt16 := 1
def ETHTYPE_IP : UInt16 := 0x0800
def ETH_HWADDR_LEN : UInt8 := 6

/-- In host order. -/
abbrev Ip := UInt32

abbrev Mac := List UInt8

def ethbroadcast : Mac := [0xff, 0xff, 0xff, 0xff, 0xff, 0xff]
def ethzero : Mac := [0, 0, 0, 0, 0, 0]

/-- `num` stands for the pointer to the interface, and 0 for NULL; `broadcast` is
    NETIF_FLAG_BROADCAST. -/
structure Netif where
  num : Nat
  ipAddr : Ip
  netmask : Ip
  gw : Ip
  broadcast : Bool
  hwaddr : Mac
  deriving DecidableEq, Repr

inductive EtharpState where
  | empty
  | pending
  | stable
  | stableRerequesting1
  | stableRerequesting2
  deriving DecidableEq, Repr

/-- `>= ETHARP_STATE_STABLE` -/
def EtharpState.known : EtharpState → Bool
  | .empty | .pending => false
  | _ => true

structure Entry where
  q : Option Nat
  ipaddr : Ip
  netif : Nat
  ethaddr : Mac
  ctime : Nat
  state : EtharpState
  deriving DecidableEq, Repr

structure EtharpHdr where
  hwtype : UInt16
  proto : UInt16
  hwlen : UInt8
  protolen : UInt8
  opcode : UInt16
  shwaddr : Mac
  sipaddr : Ip
  dhwaddr : Mac
  dipaddr : Ip
  deriving DecidableEq, Repr

structure ArpFrame where
  netif : Nat
  dest : Mac
  hdr : EtharpHdr
  deriving DecidableEq, Repr

/-- No next hop: a broadcast or multicast packet. -/
structure IpFrame where
  netif : Nat
  dest : Mac
  hop : Option Ip
  packet : Nat
  deriving DecidableEq, Repr

abbrev Idx := Fin ARP_TABLE_SIZE

structure State where
  arpTable : Idx → Entry
  cachedEntry : Idx
  out : List IpFrame
  arpOut : List ArpFrame
  taken : List Nat
  freed : List Nat
  heard : Nat → Ip → Option Mac

/-! ## The code: addresses -/

def ip4AddrIsbroadcast (addr : Ip) (netif : Netif) : Bool :=
  if ~~~addr = 0 ∨ addr = 0 then true
  else if !netif.broadcast then false
  else if addr = netif.ipAddr then false
  else addr &&& netif.netmask = netif.ipAddr &&& netif.netmask &&
    addr &&& ~~~netif.netmask = 0xffffffff &&& ~~~netif.netmask

def ip4AddrIsmulticast (addr : Ip) : Bool := addr &&& 0xf0000000 = 0xe0000000

def ip4AddrIslinklocal (addr : Ip) : Bool := addr &&& 0xffff0000 = 0xa9fe0000

/-- The addresses that are not put into the cache. -/
def nonUnicast (addr : Ip) (netif : Netif) : Bool :=
  addr = 0 || ip4AddrIsbroadcast addr netif || ip4AddrIsmulticast addr

/-! ## The code: ARP packets -/

def setEntry (s : State) (i : Idx) (e : Entry) : State := { s with arpTable := Function.update s.arpTable i e }

/-- `mem` is whether the pbuf can be allocated; false is ERR_MEM. All of the callers send
    from the interface's own addresses. -/
def etharpRaw (s : State) (mem : Bool) (netif : Netif) (ethdst hwdst : Mac) (ipdst : Ip) (opcode : UInt16) : State × Bool :=
  if mem then
    ({ s with arpOut := s.arpOut ++ [⟨netif.num, ethdst, ⟨LWIP_IANA_HWTYPE_ETHERNET, ETHTYPE_IP, ETH_HWADDR_LEN, 4, opcode,
        netif.hwaddr, netif.ipAddr, hwdst, ipdst⟩⟩] }, true)
  else (s, false)

def etharpRequestDst (s : State) (mem : Bool) (netif : Netif) (ipaddr : Ip) (hwDstAddr : Mac) : State × Bool :=
  etharpRaw s mem netif hwDstAddr ethzero ipaddr ARP_REQUEST

def etharpRequest (s : State) (mem : Bool) (netif : Netif) (ipaddr : Ip) : State × Bool :=
  etharpRequestDst s mem netif ipaddr ethbroadcast

/-! ## The code: entries -/

/-- An entry after `etharp_free_entry`: lwipopts.h defines LWIP_DEBUG, so it is cleaned out. -/
def Entry.cleared : Entry := ⟨none, 0, 0, ethzero, 0, .empty⟩

def etharpFreeEntry (s : State) (i : Idx) : State :=
  { setEntry s i .cleared with freed := s.freed ++ (s.arpTable i).q.toList }

/-- One turn of the loop of `etharp_tmr`, with the interfaces as they are. -/
def tmrEntry (netifs : Nat → Netif) (mem : Idx → Bool) (s : State) (i : Idx) : State :=
  let e := s.arpTable i
  if e.state = .empty then s
  else
    let e := { e with ctime := e.ctime + 1 }
    let s := setEntry s i e
    if e.ctime ≥ ARP_MAXAGE ∨ e.state = .pending ∧ e.ctime ≥ ARP_MAXPENDING then etharpFreeEntry s i
    else match e.state with
      | .stableRerequesting1 => setEntry s i { e with state := .stableRerequesting2 }
      | .stableRerequesting2 => setEntry s i { e with state := .stable }
      | .pending => (etharpRequest s (mem i) (netifs e.netif) e.ipaddr).1
      | _ => s

def etharpTmr (netifs : Nat → Netif) (mem : Idx → Bool) (s : State) : State :=
  (List.finRange ARP_TABLE_SIZE).foldl (tmrEntry netifs mem) s

inductive Flag where
  | tryHard
  | findOnly
  deriving DecidableEq, Repr

def matching (s : State) (ipaddr : Ip) (netif : Nat) : Option Idx :=
  (List.finRange ARP_TABLE_SIZE).find? fun i =>
    (s.arpTable i).state ≠ .empty ∧ (s.arpTable i).ipaddr = ipaddr ∧ (s.arpTable i).netif = netif

def firstEmpty (s : State) : Option Idx := (List.finRange ARP_TABLE_SIZE).find? fun i => (s.arpTable i).state = .empty

/-- The last of the oldest entries of one kind: one turn of the loop. -/
def elder (s : State) (kind : Entry → Bool) (old : Nat × Option Idx) (i : Idx) : Nat × Option Idx :=
  if kind (s.arpTable i) ∧ (s.arpTable i).ctime ≥ old.1 then ((s.arpTable i).ctime, some i) else old

def oldest (s : State) (kind : Entry → Bool) : Option Idx :=
  ((List.finRange ARP_TABLE_SIZE).foldl (elder s kind) (0, none)).2

/-- `old_stable`, `old_pending` and `old_queue`, in this order. -/
def recyclable (s : State) : Option Idx :=
  (oldest s fun e => e.state.known).or
    ((oldest s fun e => e.state = .pending && e.q.isNone).or (oldest s fun e => e.state = .pending && e.q.isSome))

/-- The end of `etharp_find_entry`. -/
def occupy (s : State) (i : Idx) (ipaddr : Ip) (netif : Nat) : State :=
  setEntry s i { s.arpTable i with ipaddr := ipaddr, ctime := 0, netif := netif }

/-- None is ERR_MEM. -/
def etharpFindEntry (s : State) (ipaddr : Ip) (flag : Flag) (netif : Nat) : State × Option Idx :=
  match matching s ipaddr netif with
  | some i => (s, some i)
  | none =>
    match flag with
    | .findOnly => (s, none)
    | .tryHard =>
      match firstEmpty s with
      | some i => (occupy s i ipaddr netif, some i)
      | none =>
        match recyclable s with
        | some i => (occupy (etharpFreeEntry s i) i ipaddr netif, some i)
        | none => (s, none)

/-- An IP packet is given to `ethernet_output`. -/
def sendIp (s : State) (netif : Netif) (dest : Mac) (hop : Option Ip) (q : Nat) : State :=
  { s with out := s.out ++ [⟨netif.num, dest, hop, q⟩] }

def hear (s : State) (netif : Nat) (ipaddr : Ip) (ethaddr : Mac) : State :=
  { s with heard := Function.update s.heard netif (Function.update (s.heard netif) ipaddr (some ethaddr)) }

/-- The packet that waits is sent and given back. -/
def flush (s : State) (netif : Netif) (ethaddr : Mac) (ipaddr : Ip) (q : Option Nat) : State :=
  match q with
  | none => s
  | some p => { sendIp s netif ethaddr (some ipaddr) p with freed := s.freed ++ [p] }

/-- The entry once the address is known. -/
def Entry.settle (e : Entry) (netif : Nat) (ethaddr : Mac) : Entry :=
  { e with state := .stable, netif := netif, ethaddr := ethaddr, ctime := 0, q := none }

def etharpUpdateArpEntry (s : State) (netif : Netif) (ipaddr : Ip) (ethaddr : Mac) (flag : Flag) : State :=
  if nonUnicast ipaddr netif then s
  else
    match etharpFindEntry (hear s netif.num ipaddr ethaddr) ipaddr flag netif.num with
    | (s, none) => s
    | (s, some i) =>
      let e := s.arpTable i
      flush (setEntry s i (e.settle netif.num ethaddr)) netif ethaddr ipaddr e.q

/-- ARP for IPv4 over Ethernet. -/
def EtharpHdr.valid (hdr : EtharpHdr) : Bool :=
  hdr.hwtype = LWIP_IANA_HWTYPE_ETHERNET && hdr.hwlen = ETH_HWADDR_LEN && hdr.protolen = 4 && hdr.proto = ETHTYPE_IP

def forUs (netif : Netif) (hdr : EtharpHdr) : Bool := netif.ipAddr ≠ 0 && hdr.dipaddr = netif.ipAddr

def etharpInput (s : State) (mem : Bool) (netif : Netif) (hdr : EtharpHdr) : State :=
  if !hdr.valid then s
  else
    let s := etharpUpdateArpEntry s netif hdr.sipaddr hdr.shwaddr (if forUs netif hdr then .tryHard else .findOnly)
    if hdr.opcode = ARP_REQUEST ∧ forUs netif hdr then
      (etharpRaw s mem netif hdr.shwaddr hdr.shwaddr hdr.sipaddr ARP_REPLY).1
    else s

/-! ## The code: sending -/

/-- The entry is used when it is about to expire. -/
def rerequest (s : State) (mem : Bool) (netif : Netif) (i : Idx) (hwDstAddr : Mac) : State :=
  let r := etharpRequestDst s mem netif (s.arpTable i).ipaddr hwDstAddr
  if r.2 then setEntry r.1 i { s.arpTable i with state := .stableRerequesting1 } else r.1

def etharpOutputToArpIndex (s : State) (mem : Bool) (netif : Netif) (q : Nat) (i : Idx) : State :=
  let e := s.arpTable i
  let s :=
    if e.state = .stable then
      if e.ctime ≥ ARP_AGE_REREQUEST_USED_BROADCAST then rerequest s mem netif i ethbroadcast
      else if e.ctime ≥ ARP_AGE_REREQUEST_USED_UNICAST then rerequest s mem netif i e.ethaddr
      else s
    else s
  sendIp s netif e.ethaddr (some e.ipaddr) q

/-- A packet is kept in a pending entry, in the place of the one before. `keep` is the
    packet with a reference more, or its copy; none when there is no memory for that. -/
def enqueue (s : State) (i : Idx) (keep : Option Nat) : State :=
  match keep with
  | none => s
  | some p =>
    let e := s.arpTable i
    { setEntry s i { e with q := some p } with taken := s.taken ++ [p], freed := s.freed ++ e.q.toList }

/-- A new entry waits for an answer. -/
def pend (s : State) (i : Idx) (netif : Nat) : State :=
  if (s.arpTable i).state = .empty then setEntry s i { s.arpTable i with state := .pending, netif := netif } else s

/-- `etharp_query` once there is an entry. -/
def queryEntry (s : State) (mem : Bool) (keep : Option Nat) (netif : Netif) (ipaddr : Ip) (q : Option Nat) (i : Idx) : State :=
  let isNewEntry := (s.arpTable i).state = .empty
  let s := pend s i netif.num
  let s := if isNewEntry ∨ q = none then (etharpRequest s mem netif ipaddr).1 else s
  match q with
  | none => s
  | some q =>
    if (s.arpTable i).state.known then sendIp { s with cachedEntry := i } netif (s.arpTable i).ethaddr (some ipaddr) q
    else enqueue s i keep

def etharpQuery (s : State) (mem : Bool) (keep : Option Nat) (netif : Netif) (ipaddr : Ip) (q : Option Nat) : State :=
  if nonUnicast ipaddr netif then s
  else
    match etharpFindEntry s ipaddr .tryHard netif.num with
    | (s, none) => s
    | (s, some i) => queryEntry s mem keep netif ipaddr q i

/-- None is ERR_RTE. -/
def nextHop (netif : Netif) (ipaddr : Ip) : Option Ip :=
  if ipaddr &&& netif.netmask ≠ netif.ipAddr &&& netif.netmask ∧ !ip4AddrIslinklocal ipaddr then
    if netif.gw ≠ 0 then some netif.gw else none
  else some ipaddr

def multicastMac (ipaddr : Ip) : Mac :=
  [0x01, 0x00, 0x5e, (ipaddr >>> 16).toUInt8 &&& 0x7f, (ipaddr >>> 8).toUInt8, ipaddr.toUInt8]

/-- The entry of a next hop that is known. -/
def isFor (e : Entry) (netif : Nat) (dstAddr : Ip) : Bool := e.state.known && e.netif = netif && dstAddr = e.ipaddr

def etharpOutput (s : State) (mem : Bool) (keep : Option Nat) (netif : Netif) (q : Nat) (ipaddr : Ip) : State :=
  if ip4AddrIsbroadcast ipaddr netif then sendIp s netif ethbroadcast none q
  else if ip4AddrIsmulticast ipaddr then sendIp s netif (multicastMac ipaddr) none q
  else
    match nextHop netif ipaddr with
    | none => s
    | some dstAddr =>
      if isFor (s.arpTable s.cachedEntry) netif.num dstAddr then etharpOutputToArpIndex s mem netif q s.cachedEntry
      else
        match (List.finRange ARP_TABLE_SIZE).find? fun i => isFor (s.arpTable i) netif.num dstAddr with
        | some i => etharpOutputToArpIndex { s with cachedEntry := i } mem netif q i
        | none => etharpQuery s mem keep netif dstAddr (some q)

def cleanupEntry (netif : Nat) (s : State) (i : Idx) : State :=
  if (s.arpTable i).state ≠ .empty ∧ (s.arpTable i).netif = netif then etharpFreeEntry s i else s

def etharpCleanupNetif (s : State) (netif : Nat) : State := (List.finRange ARP_TABLE_SIZE).foldl (cleanupEntry netif) s

inductive Ev where
  | input (mem : Bool) (netif : Netif) (hdr : EtharpHdr)
  | output (mem : Bool) (keep : Option Nat) (netif : Netif) (q : Nat) (ipaddr : Ip)
  | query (mem : Bool) (keep : Option Nat) (netif : Netif) (ipaddr : Ip) (q : Option Nat)
  | tmr (netifs : Nat → Netif) (mem : Idx → Bool)
  | cleanupNetif (netif : Nat)

def step (s : State) : Ev → State
  | .input mem netif hdr => etharpInput s mem netif hdr
  | .output mem keep netif q ipaddr => etharpOutput s mem keep netif q ipaddr
  | .query mem keep netif ipaddr q => etharpQuery s mem keep netif ipaddr q
  | .tmr netifs mem => etharpTmr netifs mem s
  | .cleanupNetif netif => etharpCleanupNetif s netif

end Nanotube.Lwip.Arp
