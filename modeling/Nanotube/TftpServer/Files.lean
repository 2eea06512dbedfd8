/-
  Nanotube.TftpServer.Files — the file functions of the server (src/tftp.c `tftp_open`,
  `tftp_close`, `tftp_read`, `tftp_write`, `tftpContext`).

  The four functions pass their arguments on to fileioc, the library for the calculator's
  variables. It is not part of the program, so its functions are parameters (`Fileioc`), and
  what is used of them is a hypothesis of each result: `Appends` says what `ti_Write` does
  to a slot opened for writing, `Reads` what `ti_Read` gives and which variables the calls
  leave alone.

  `ram` is a small store with these properties; it shows that they can be had together.
-/

import Nanotube.TftpServer.Model

namespace Nanotube.TftpServer

open Nanotube.Device.Transmit (Chain totLen load)

/-- The functions of fileioc that are called, over the state `φ` of the variables. A slot is
    a byte, and 0 is none. `tiOpen` is with "w" or else "r"; `tiRead` gives the bytes it has
    read and `tiWrite` the number of those it has stored, the chunks being single bytes. -/
structure Fileioc (φ : Type) where
  tiOpen : φ → List UInt8 → Bool → UInt8 × φ
  tiClose : φ → UInt8 → φ
  tiRead : φ → UInt8 → Nat → List UInt8 × φ
  tiWrite : φ → UInt8 → List UInt8 → Nat × φ

variable {φ : Type}

/-- The C string at the start of an array. -/
def cStr (bs : List UInt8) : List UInt8 := bs.takeWhile (· ≠ 0)

/-! ## The code -/

def tftpOpen (io : Fileioc φ) (f : φ) (fname _mode : List UInt8) (write : Bool) : Option UInt8 × φ :=
  let r := io.tiOpen f (cStr fname) write
  (if r.1 = 0 then none else some r.1, r.2)

def tftpClose (io : Fileioc φ) (f : φ) (handle : UInt8) : φ := io.tiClose f handle

/-- The result is not negative. -/
def tftpRead (io : Fileioc φ) (f : φ) (handle : UInt8) (bytes : Nat) : Option (List UInt8) × φ :=
  let r := io.tiRead f handle bytes
  (some r.1, r.2)

/-- All bytes of the chain are asked for, from the payload of its first pbuf on. -/
def tftpWrite (io : Fileioc φ) (f : φ) (handle : UInt8) (e : Packet) (p : Chain) : Int × φ :=
  let r := io.tiWrite f handle (load e.mem p.first.payload (totLen p.pbufs))
  (r.1, r.2)

def tftpContext (io : Fileioc φ) : Context φ UInt8 := ⟨tftpOpen io, tftpClose io, tftpRead io, tftpWrite io⟩

theorem tftpOpen_eq_some {io : Fileioc φ} {f f' : φ} {fname mode : List UInt8} {write : Bool} {h : UInt8}
    (hopen : (tftpContext io).openFile f fname mode write = (some h, f')) :
    io.tiOpen f (cStr fname) write = (h, f') ∧ h ≠ 0 := by
  simp only [tftpContext, tftpOpen, Prod.mk.injEq] at hopen
  obtain ⟨hslot, rfl⟩ := hopen
  split at hslot
  next => cases hslot
  next hne =>
    obtain rfl := Option.some.inj hslot
    exact ⟨rfl, hne⟩

/-! ## What is used of fileioc -/

/-- `written f h` is what was stored through the slot `h` since it was opened for writing:
    nothing at first, and then the bytes that each `ti_Write` says it has stored. -/
structure Appends (io : Fileioc φ) (written : φ → UInt8 → List UInt8) : Prop where
  opened : ∀ {f f' : φ} {name : List UInt8} {h : UInt8}, io.tiOpen f name true = (h, f') → h ≠ 0 → written f' h = []
  few : ∀ f h data, (io.tiWrite f h data).1 ≤ data.length
  write : ∀ f h data, written (io.tiWrite f h data).2 h = written f h ++ data.take (io.tiWrite f h data).1

/-- What the files are to a reader: the variables by name, and the variable of a slot with
    the offset into it. -/
structure View (φ : Type) where
  vars : φ → List UInt8 → Option (List UInt8)
  place : φ → UInt8 → Option (List UInt8 × Nat)

/-- A slot is opened at the start of its variable, which is there if it was opened for
    reading. Reading takes the bytes from the offset on and changes no variable; opening for
    writing and writing change no other variable, and closing none. -/
structure Reads (io : Fileioc φ) (v : View φ) : Prop where
  opened : ∀ {f f' : φ} {name : List UInt8} {write : Bool} {h : UInt8}, io.tiOpen f name write = (h, f') → h ≠ 0 →
    v.place f' h = some (name, 0)
  exists_of_opened : ∀ {f f' : φ} {name : List UInt8} {h : UInt8}, io.tiOpen f name false = (h, f') → h ≠ 0 →
    ∃ c, v.vars f name = some c
  open_vars : ∀ f name n write, write = false ∨ n ≠ name →
    v.vars (io.tiOpen f name write).2 n = v.vars f n
  read : ∀ {f h name off c} (count : Nat), v.place f h = some (name, off) → v.vars f name = some c →
    (io.tiRead f h count).1 = (c.drop off).take count ∧
      v.place (io.tiRead f h count).2 h = some (name, off + ((c.drop off).take count).length) ∧
      v.vars (io.tiRead f h count).2 = v.vars f
  write : ∀ {f h name off} (data : List UInt8), v.place f h = some (name, off) →
    (∃ off', v.place (io.tiWrite f h data).2 h = some (name, off')) ∧
      ∀ n ≠ name, v.vars (io.tiWrite f h data).2 n = v.vars f n
  close : ∀ f h, v.vars (io.tiClose f h) = v.vars f

/-! ## A small store -/

/-- Variables by name, the open slot with the name of its variable and the offset, and the
    bytes that are left. -/
structure Ram where
  vars : List UInt8 → Option (List UInt8)
  slot : Option (List UInt8 × Nat)
  space : Nat

def Ram.set (name v : List UInt8) (f : Ram) : Ram := { f with vars := fun n => if n = name then some v else f.vars n }

/-- There is one slot, with the number 1. -/
def ram : Fileioc Ram where
  tiOpen f name write :=
    if write then (1, { Ram.set name [] f with slot := some (name, 0) })
    else if (f.vars name).isSome then (1, { f with slot := some (name, 0) })
    else (0, f)
  tiClose f _ := { f with slot := none }
  tiRead f _ count :=
    match f.slot with
    | none => ([], f)
    | some (name, off) =>
      let data := (((f.vars name).getD []).drop off).take count
      (data, { f with slot := some (name, off + data.length) })
  tiWrite f _ data :=
    match f.slot with
    | none => (0, f)
    | some (name, off) =>
      let stored := min data.length f.space
      (stored, { Ram.set name ((f.vars name).getD [] ++ data.take stored) f with
        slot := some (name, off + stored), space := f.space - stored })

def Ram.written (f : Ram) (_ : UInt8) : List UInt8 := (f.slot.bind fun s => f.vars s.1).getD []

def ramView : View Ram := ⟨Ram.vars, fun f _ => f.slot⟩

theorem ram_appends : Appends ram Ram.written where
  opened := by
    intro f f' name h hopen _
    simp only [ram, if_true, Prod.mk.injEq] at hopen
    rw [← hopen.2]
    simp [Ram.written, Ram.set]
  few f h data := by
    simp only [ram]
    split
    · exact Nat.zero_le _
    · exact Nat.min_le_left _ _
  write f h data := by
    simp only [ram]
    split
    next hslot => simp [Ram.written, hslot]
    next name off hslot => simp [Ram.written, Ram.set, hslot]

theorem ram_reads : Reads ram ramView where
  opened := by
    intro f f' name write h hopen hne
    simp only [ram] at hopen
    split at hopen
    · rw [← (Prod.mk.inj hopen).2]
      rfl
    · split at hopen
      · rw [← (Prod.mk.inj hopen).2]
        rfl
      · exact absurd (Prod.mk.inj hopen).1.symm hne
  exists_of_opened := by
    intro f f' name h hopen hne
    simp only [ram, Bool.false_eq_true, if_false] at hopen
    split at hopen
    next hsome => exact Option.isSome_iff_exists.mp hsome
    next => exact absurd (Prod.mk.inj hopen).1.symm hne
  open_vars := by
    intro f name n write h
    simp only [ram]
    split
    next hw =>
      rcases h with h | h
      · rw [h] at hw
        cases hw
      · exact if_neg h
    next => split <;> rfl
  read := by
    intro f h name off c count hplace hvar
    simp [ram, show f.slot = some (name, off) from hplace, show f.vars name = some c from hvar, ramView]
  write := by
    intro f h name off data hplace
    simp only [ram, show f.slot = some (name, off) from hplace]
    exact ⟨⟨_, rfl⟩, fun n hn => if_neg hn⟩
  close _ _ := rfl

/-- The variable "a", with three bytes, and space for `space` more. -/
def threeBytes (space : Nat) : Ram := ⟨fun n => if n = [97] then some [1, 2, 3] else none, none, space⟩

/-- A packet of one pbuf, from the client at 7, port 1069. -/
def onePbuf (bs : List UInt8) : Packet := ⟨7, 1069, fun a => bs.getD a 0, ⟨⟨0, bs.length⟩, []⟩⟩

/-- "a" in mode "octet". -/
def askForA : Packet := onePbuf [0, 1, 97, 0, 111, 99, 116, 101, 116, 0]

def ackOf (blknum : UInt16) : Packet := onePbuf (ackBytes blknum)

end Nanotube.TftpServer
