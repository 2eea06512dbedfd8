/-
  Nanotube.Irc.Message — one line from the server (src/irc.c `process_message`,
  `irc_send_raw`; src/main.c `irc_privmsg_callback`).

  A C string is a list of bytes, without its NUL; memory is the list of bytes from the
  received payload on, and a pointer an offset into it. `memcmp` of a message with a
  pattern is a test that the message starts with the pattern, since a shorter message
  differs from it at its NUL.

  `St` is the connection with what the IRC layer has done so far: the lwIP functions it
  called, with the pcb each was given, the callbacks it made, and its writes to the
  arrays `channel`, `sender`, `response` and `buffer`. A write past the end of an array is
  recorded like any other; what it destroys is not modelled, so what is said of a run from
  there on is not about the code. Where that matters, the writes are asked to stay inside
  (`Intact`). The result of the `k`-th call to lwIP is `lwip k`.
-/

import Nanotube.Lib.Frames
import Nanotube.Device.Ecm

namespace Nanotube.Irc

open Nanotube.Device.Ecm (ErrT ERR_OK)

def byte (c : Char) : UInt8 := c.toNat.toUInt8

def CR : UInt8 := 13
def LF : UInt8 := 10
def SPACE : UInt8 := 32

/-- `struct irc_conn`, without the callbacks, which are `main`'s. -/
structure Conn where
  server : Nat
  port : UInt16
  nick : List UInt8
  realname : List UInt8
  pcb : Option Nat
  identified : Bool
  deriving DecidableEq, Repr

/-- The lwIP functions the IRC layer calls on a pcb. -/
inductive TcpFn where
  | arg
  | connect (ipaddr : Option Nat) (port : UInt16)
  | recv
  | write (bytes : List UInt8)
  | output
  | recved (len : Nat)
  | close
  deriving DecidableEq, Repr

/-- A call of one of them: the pcb, NULL if `none`, and whether lwIP has freed it before. -/
structure TcpCall where
  fn : TcpFn
  pcb : Option Nat
  freed : Bool
  deriving DecidableEq, Repr

/-- The arrays on the stack: those of `process_message`, the 512 bytes of `irc_send` and
    `irc_away`, and the 64 bytes of `irc_join`, `irc_part` and `irc_nick`. -/
inductive Arr where
  | channel
  | sender
  | response
  | buffer
  | text
  | line
  deriving DecidableEq, Repr

def Arr.size : Arr → Nat
  | .channel | .sender | .response => 32
  | .buffer => 256
  | .text => 512
  | .line => 64

inductive Act where
  /-- `process_message` was called with this string. -/
  | message (text : List UInt8)
  /-- `len` bytes were written to an array from index `start` on. -/
  | write (arr : Arr) (start len : Nat)
  | privmsg (channel sender content : List UInt8)
  /-- `nick_len` was computed from a NULL `nick_end`. -/
  | wildCopy
  /-- A NULL address was read through. -/
  | nullRead
  deriving DecidableEq, Repr

structure St where
  conn : Conn
  calls : List TcpCall
  acts : List Act
  /-- pcbs given out by `tcp_new`, and those lwIP has freed. -/
  nextPcb : Nat
  freed : List Nat

variable (lwip : Nat → ErrT)

def St.act (s : St) (a : Act) : St := { s with acts := s.acts ++ [a] }

/-- Calls an lwIP function on `pcb`. -/
def St.call (s : St) (fn : TcpFn) (pcb : Option Nat) : St :=
  { s with calls := s.calls ++ [⟨fn, pcb, pcb.any (s.freed.contains ·)⟩] }

/-- `irc_send_raw`; the log line it prints is not modelled. -/
def ircSendRaw (message : List UInt8) (len : Nat) (s : St) : ErrT × St :=
  let err := lwip s.calls.length
  let s := s.call (.write (message.take len)) s.conn.pcb
  if err ≠ ERR_OK then (err, s)
  else
    let err := lwip s.calls.length
    let s := s.call .output s.conn.pcb
    if err ≠ ERR_OK then (err, s) else (ERR_OK, s)

/-! ## Strings in memory -/

/-- The string at offset `i`: the bytes up to the first NUL. -/
def cstr (mem : List UInt8) (i : Nat) : List UInt8 := (mem.drop i).takeWhile (· ≠ 0)

/-- `strchr`: the offset of the first `c` in a string. -/
def strchr (s : List UInt8) (c : UInt8) : Option Nat := s.findIdx? (· == c)

/-- `strstr(&mem[i], "\r\n")`. -/
def strstrCrlf (mem : List UInt8) (i : Nat) : Option Nat := (Lib.Frames.find CR LF (cstr mem i)).map (i + ·)

/-- Two bytes of memory replaced. -/
def set2 (mem : List UInt8) (i : Nat) (a b : UInt8) : List UInt8 := (mem.set i a).set (i + 1) b

/-! ## main's callback -/

def commandz : List UInt8 := ['c', 'o', 'm', 'm', 'a', 'n', 'd', 'z'].map byte

/-- `irc_privmsg_callback`: a line "> text" from commandz is sent on as a raw line, with
    the CRLF put after it in place and the two bytes there restored afterwards. -/
def ircPrivmsgCallback (mem : List UInt8) (sender : List UInt8) (message : Nat) (s : St) : List UInt8 × St :=
  if sender = commandz ∧ ['>', ' '].map byte <+: cstr mem message then
    let quoted := message + 2
    let len := (cstr mem quoted).length
    let ending := quoted + len
    let bkp0 := mem.getD ending 0
    let bkp1 := mem.getD (ending + 1) 0
    let mem := set2 mem ending CR LF
    let s := (ircSendRaw lwip (mem.drop quoted) (len + 2) s).2
    (set2 mem ending bkp0 bkp1, s)
  else (mem, s)

/-! ## process_message -/

/-- "NOTICE AUTH :*** Checking Ident" -/
def checkingIdent : List UInt8 :=
  ['N', 'O', 'T', 'I', 'C', 'E', ' ', 'A', 'U', 'T', 'H', ' ', ':', '*', '*', '*', ' ',
   'C', 'h', 'e', 'c', 'k', 'i', 'n', 'g', ' ', 'I', 'd', 'e', 'n', 't'].map byte

/-- `sprintf(buffer, "USER %s 0 * :%s\r\nNICK %s\r\n", nick, realname, nick)`. -/
def registration (conn : Conn) : List UInt8 :=
  ['U', 'S', 'E', 'R', ' '].map byte ++ conn.nick ++ [' ', '0', ' ', '*', ' ', ':'].map byte ++ conn.realname ++
    [CR, LF] ++ ['N', 'I', 'C', 'K', ' '].map byte ++ conn.nick ++ [CR, LF]

def PING : List UInt8 := ['P', 'I', 'N', 'G'].map byte

def PRIVMSG : List UInt8 := ['P', 'R', 'I', 'V', 'M', 'S', 'G'].map byte

/-- The reply to a PING whose command part is `command`; `len` is a `uint8_t`. -/
def processPing (command : List UInt8) (s : St) : St :=
  let len := command.length % 256
  if len + 2 > Arr.response.size then s
  else
    let response := ((command.take len).set 1 (byte 'O')) ++ [CR, LF]
    let s := (((s.act (.write .response 0 len)).act (.write .response 1 1)).act (.write .response len 1)).act
      (.write .response (len + 1) 1)
    (ircSendRaw lwip response (len + 2) s).2

/-- What follows once `command` is known to be a PRIVMSG. `base` is the offset of the
    message in memory, `cmd` that of the command in the message, and `userLen` the length
    of its prefix, 0 if it has none. -/
def processPrivmsg (mem : List UInt8) (base : Nat) (message : List UInt8) (cmd userLen : Nat) (s : St) :
    List UInt8 × St :=
  match strchr (message.drop cmd) SPACE with
  | none => (mem, s)
  | some i =>
    let target := cmd + i + 1
    match strchr (message.drop target) SPACE with
    | none => (mem, s)
    | some targetLen =>
      let content := target + targetLen + 1
      let content := if (message.drop content).head? = some (byte ':') then content + 1 else content
      let nickLen := if userLen ≠ 0 then (strchr message (byte '!')).map (· - 1) else some 0
      let channel := (message.drop target).take targetLen
      let s := (s.act (.write .channel 0 targetLen)).act (.write .channel targetLen 1)
      match nickLen with
      | none => (mem, s.act .wildCopy)
      | some nickLen =>
        let sender := (message.drop 1).take nickLen
        let s := (s.act (.write .sender 0 nickLen)).act (.write .sender nickLen 1)
        ircPrivmsgCallback lwip mem sender (base + content) (s.act (.privmsg channel sender (message.drop content)))

/-- The command of a message that is not the ident notice. -/
def processCommand (mem : List UInt8) (base : Nat) (message : List UInt8) (cmd userLen : Nat) (s : St) :
    List UInt8 × St :=
  if PING <+: message.drop cmd then (mem, processPing lwip (message.drop cmd) s)
  else if ¬ PRIVMSG <+: message.drop cmd then (mem, s)
  else processPrivmsg lwip mem base message cmd userLen s

def processMessage (mem : List UInt8) (base : Nat) (s : St) : List UInt8 × St :=
  let message := cstr mem base
  let s := s.act (.message message)
  if s.conn.identified = false ∧ checkingIdent <+: message then
    let buffer := registration s.conn
    let s := s.act (.write .buffer 0 (buffer.length + 1))
    let s := (ircSendRaw lwip buffer buffer.length s).2
    (mem, { s with conn := { s.conn with identified := true } })
  else if message.head? = some (byte ':') then
    -- the prefix ends at the first space
    match strchr message SPACE with
    | none => (mem, s)
    | some userLen => processCommand lwip mem base message (userLen + 1) userLen s
  else processCommand lwip mem base message 0 0 s

end Nanotube.Irc
