/-
  Nanotube.Irc.Client — the IRC layer's entry points (src/irc.c) and what can happen to a
  connection: calls by the application, callbacks by lwIP, and lwIP freeing a pcb by
  itself (a reset, a timeout, an abort).

  The layer registers no `tcp_err` callback, so when lwIP frees the pcb nothing in the
  connection changes. pcbs are numbered as `tcp_new` gives them out, so a number never
  stands for another pcb later.
-/

import Nanotube.Irc.Recv

namespace Nanotube.Irc

open Nanotube.Device.Ecm (ErrT ERR_OK)

def ERR_MEM : ErrT := -1
def ERR_INPROGRESS : ErrT := -5
def ERR_ARG : ErrT := -16

variable (lwip : Nat → ErrT)

/-! ## Sending -/

/-- `sprintf` of a line into an array, then `irc_send_raw` of it. -/
def sendLine (arr : Arr) (text : List UInt8) (s : St) : ErrT × St :=
  ircSendRaw lwip text text.length (s.act (.write arr 0 (text.length + 1)))

/-- "PRIVMSG %s :%s\r\n" -/
def privmsgLine (channel message : List UInt8) : List UInt8 :=
  ['P', 'R', 'I', 'V', 'M', 'S', 'G', ' '].map byte ++ channel ++ [' ', ':'].map byte ++ message ++ [CR, LF]

def ircSend (channel message : List UInt8) (s : St) : ErrT × St := sendLine lwip .text (privmsgLine channel message) s

def ircAway (message : List UInt8) (s : St) : ErrT × St :=
  sendLine lwip .text (['A', 'W', 'A', 'Y', ' '].map byte ++ message ++ [CR, LF]) s

def ircJoin (channel : List UInt8) (s : St) : ErrT × St :=
  sendLine lwip .line (['J', 'O', 'I', 'N', ' '].map byte ++ channel ++ [CR, LF]) s

def ircPart (channel : List UInt8) (s : St) : ErrT × St :=
  sendLine lwip .line (['P', 'A', 'R', 'T', ' '].map byte ++ channel ++ [CR, LF]) s

def ircNick (nick : List UInt8) (s : St) : ErrT × St :=
  sendLine lwip .line (['N', 'I', 'C', 'K', ' '].map byte ++ nick ++ [CR, LF]) s

/-! ## Connecting and closing -/

/-- `dns_gethostbyname`: its result, and the address it stores when it knows it already.
    Only after ERR_INPROGRESS does lwIP call `name_resolved`. -/
structure DnsOutcome where
  result : ErrT
  addr : Nat

/-- `irc_init`; `tcpNew` is false when `tcp_new` returns NULL. -/
def ircInit (port : UInt16) (nick realname : List UInt8) (tcpNew : Bool) (dns : DnsOutcome) (s : St) : ErrT × St :=
  let port := if port = 0 then 6667 else port
  let s := { s with conn := { s.conn with port := port } }
  if nick.length ≥ 10 then (ERR_ARG, s)
  else
    let s := { s with conn := { s.conn with nick := nick } }
    if realname.length ≥ 32 then (ERR_ARG, s)
    else
      let s := { s with conn := { s.conn with realname := realname } }
      if tcpNew = false then (ERR_MEM, { s with conn := { s.conn with pcb := none } })
      else
        let s := { s with conn := { s.conn with pcb := some s.nextPcb, identified := false }, nextPcb := s.nextPcb + 1 }
        (dns.result, if dns.result = ERR_OK then { s with conn := { s.conn with server := dns.addr } } else s)

/-- `name_resolved`: the DNS callback, with NULL when the name has no address. -/
def nameResolved (ipaddr : Option Nat) (s : St) : St :=
  let s := if ipaddr.isNone then s.act .nullRead else s
  let s := s.call .arg s.conn.pcb
  s.call (.connect ipaddr s.conn.port) s.conn.pcb

/-- `on_connect`; `main`'s callback only logs. -/
def onConnect (s : St) : ErrT × St := (ERR_OK, s.call .recv s.conn.pcb)

/-- `irc_close`; `now` is true when `tcp_close` frees the pcb at once. -/
def ircClose (now : Bool) (s : St) : ErrT × St :=
  let s := s.call .close s.conn.pcb
  let freed := if now then s.freed ++ s.conn.pcb.toList else s.freed
  (ERR_OK, { s with conn := { s.conn with pcb := none }, freed := freed })

/-! ## Runs -/

inductive Ev where
  | init (port : UInt16) (nick realname : List UInt8) (tcpNew : Bool) (dns : DnsOutcome)
  | nameResolved (ipaddr : Option Nat)
  | connected
  | recv (tpcb : Nat) (p : Option Segment) (err : ErrT)
  | send (channel message : List UInt8)
  | sendRaw (message : List UInt8) (len : Nat)
  | away (message : List UInt8)
  | join (channel : List UInt8)
  | part (channel : List UInt8)
  | nick (nick : List UInt8)
  | close (now : Bool)
  /-- lwIP frees a pcb by itself. -/
  | lwipFree (pcb : Nat)

/-- lwIP calls `recv_func` with a pcb that it has not freed. -/
def step (s : St) : Ev → St
  | .init port nick realname tcpNew dns => (ircInit port nick realname tcpNew dns s).2
  | .nameResolved ipaddr => nameResolved ipaddr s
  | .connected => (onConnect s).2
  | .recv tpcb p err => if tpcb ∈ s.freed then s else (recvFunc lwip tpcb p err s).2
  | .send channel message => (ircSend lwip channel message s).2
  | .sendRaw message len => (ircSendRaw lwip message len s).2
  | .away message => (ircAway lwip message s).2
  | .join channel => (ircJoin lwip channel s).2
  | .part channel => (ircPart lwip channel s).2
  | .nick nick => (ircNick lwip nick s).2
  | .close now => (ircClose now s).2
  | .lwipFree pcb => if pcb < s.nextPcb then { s with freed := s.freed ++ [pcb] } else s

/-- Before the first `irc_init`: the connection is all zero. -/
def start : St :=
  { conn := { server := 0, port := 0, nick := [], realname := [], pcb := none, identified := false },
    calls := [], acts := [], nextPcb := 0, freed := [] }

end Nanotube.Irc
