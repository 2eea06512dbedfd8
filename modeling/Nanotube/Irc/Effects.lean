/-
  Nanotube.Irc.Effects — what handling received data can do to the state.

  `process_message` records what it does, sends with `tcp_write` and `tcp_output` on the
  connection's pcb, and sets `identified`. A relation between states that is a preorder
  and that these keep (`Effect`) therefore holds between the state before and the state
  after every function of the receive path.
-/

import Nanotube.Irc.Client

namespace Nanotube.Irc

open Nanotube.Device.Ecm (ErrT ERR_OK)

structure Effect (R : St → St → Prop) : Prop where
  refl : ∀ s, R s s
  trans : ∀ {s s' s''}, R s s' → R s' s'' → R s s''
  act : ∀ s a, R s (s.act a)
  write : ∀ s bytes, R s (s.call (.write bytes) s.conn.pcb)
  output : ∀ s, R s (s.call .output s.conn.pcb)
  identified : ∀ s : St, R s { s with conn := { s.conn with identified := true } }

namespace Effect

variable {R : St → St → Prop} (hR : Effect R) (lwip : Nat → ErrT)

include hR

theorem act2 (s : St) (a b : Act) : R s ((s.act a).act b) := hR.trans (hR.act s a) (hR.act _ b)

theorem sendRaw (message : List UInt8) (len : Nat) (s : St) : R s (ircSendRaw lwip message len s).2 := by
  have hwrite := hR.write s (message.take len)
  have hboth := hR.trans hwrite (hR.output _)
  simp only [ircSendRaw]
  split
  · exact hwrite
  · split
    · exact hboth
    · exact hboth

theorem sendLine (arr : Arr) (text : List UInt8) (s : St) : R s (sendLine lwip arr text s).2 :=
  hR.trans (hR.act s _) (hR.sendRaw lwip _ _ _)

theorem ping (command : List UInt8) (s : St) : R s (processPing lwip command s) := by
  simp only [processPing]
  split
  · exact hR.refl s
  · exact hR.trans (hR.trans (hR.act2 s _ _) (hR.act2 _ _ _)) (hR.sendRaw lwip _ _ _)

theorem privmsgCallback (mem sender : List UInt8) (message : Nat) (s : St) :
    R s (ircPrivmsgCallback lwip mem sender message s).2 := by
  unfold ircPrivmsgCallback
  split
  · exact hR.sendRaw lwip _ _ s
  · exact hR.refl s

theorem privmsg (mem : List UInt8) (base : Nat) (message : List UInt8) (cmd userLen : Nat) (s : St) :
    R s (processPrivmsg lwip mem base message cmd userLen s).2 := by
  unfold processPrivmsg
  split
  · exact hR.refl s
  · dsimp only
    split
    · exact hR.refl s
    · split
      · exact hR.trans (hR.act2 s _ _) (hR.act _ _)
      · exact hR.trans (hR.trans (hR.trans (hR.act2 s _ _) (hR.act2 _ _ _)) (hR.act _ _))
          (hR.privmsgCallback lwip _ _ _ _)

theorem command (mem : List UInt8) (base : Nat) (message : List UInt8) (cmd userLen : Nat) (s : St) :
    R s (processCommand lwip mem base message cmd userLen s).2 := by
  unfold processCommand
  split
  · exact hR.ping lwip _ s
  · split
    · exact hR.refl s
    · exact hR.privmsg lwip mem base message cmd userLen s

theorem message (mem : List UInt8) (base : Nat) (s : St) : R s (processMessage lwip mem base s).2 := by
  have hm := hR.act s (.message (cstr mem base))
  simp only [processMessage]
  split
  · have hwritten := hR.trans hm (hR.act _ (.write .buffer 0 ((registration s.conn).length + 1)))
    have hsent := hR.trans hwritten (hR.sendRaw lwip (registration s.conn) (registration s.conn).length _)
    exact hR.trans hsent (hR.identified _)
  · split
    · split
      · exact hm
      · exact hR.trans hm (hR.command lwip _ _ _ _ _ _)
    · exact hR.trans hm (hR.command lwip _ _ _ _ _ _)

theorem recvLoop (fuel : Nat) (mem : List UInt8) (current : Nat) (s : St) :
    R s (recvLoop lwip fuel mem current s).2 := by
  induction fuel generalizing mem current s with
  | zero => exact hR.refl s
  | succ fuel ih =>
    simp only [Irc.recvLoop]
    split
    · exact hR.refl s
    · exact hR.trans (hR.message lwip _ _ s) (ih _ _ _)

end Effect

end Nanotube.Irc
