/-
  Nanotube.Log — the log in flash (src/log.c `log_init`, `mainlog`; src/asm/flash.asm).

  LOGINIT leaves an archived variable of `LOG_SIZE` bytes, all 0xFF, and `mainlog` fills it
  from the front; what lies behind the variable belongs to others. `flash_write` hands the
  bytes to the boot code's `ti.WriteFlash`, which is not in the repository: `program` says
  what becomes of a byte, and all that is assumed of it is that an erased one takes the new
  value (`WritesErased`). So a byte can be relied on only when it is written once. A line
  starts with a time stamp, which `mainlog` puts in when the byte in front of `offset` is a
  newline, after it has tested that the string fits with 12 bytes to spare.

  `int` and pointers have 24 bits: `BitVec 24`. `flash` is indexed by the distance from
  `pos`, so that `pos[offset - 1]` is at distance -1 when `offset` is 0. What is drawn on
  the screen is not modelled.

  Proved: over any calls, with any strings and counter values, the offsets written are
  0, 1, 2, … in this order and inside the log, what is there are the strings that were
  accepted, each with its stamp of 11 characters behind a newline, and no other byte of the
  flash changes (`log_append_only`).
-/

import Mathlib.Data.List.Basic
import Nanotube.Lib.Runs

namespace Nanotube.Log

open Nanotube.Lib.Runs

abbrev UInt24 := BitVec 24

def LOG_SIZE : Nat := 64000

def NEWLINE : UInt8 := 10

/-- `%u`: the decimal digits. -/
def decimal (n : Nat) : List UInt8 := (Nat.toDigits 10 n).map fun c => c.toNat.toUInt8

/-- `sprintf(time_string, "[%8u] ", time)`, with `time` the `timer_3_Counter / 33`, which
    is cut to 24 bits. -/
def timeString (timer : UInt32) : List UInt8 :=
  let time : UInt24 := BitVec.ofNat 24 (timer / 33).toNat
  0x5B :: ((decimal time.toNat).leftpad 8 0x20 ++ [0x5D, 0x20])

structure St where
  /-- `pos` is not NULL. -/
  pos : Bool
  offset : UInt24
  /-- The flash, from `pos` on. -/
  flash : UInt24 → UInt8
  /-- The calls of `flash_write`: the place, from `pos` on, and the data. -/
  writes : List (UInt24 × List UInt8)

section Code

/- What programming a byte makes of the byte that was there and the one that is written. -/
variable (program : UInt8 → UInt8 → UInt8)

/-- `flash_write`, with `ti.WriteFlash`. -/
def flashWrite (loc : UInt24) (data : List UInt8) (s : St) : St :=
  { s with
    flash := fun a => match data[(a - loc).toNat]? with
      | some b => program (s.flash a) b
      | none => s.flash a
    writes := s.writes ++ [(loc, data)] }

/-- `flash_write(&pos[offset], data, length)`, then `offset += length`. -/
def put (data : List UInt8) (s : St) : St :=
  { flashWrite program s.offset data s with offset := s.offset + BitVec.ofNat 24 data.length }

/-- `log_init`: `var` is the flash from the data of the log variable on, if it exists. -/
def logInit (var : Option (UInt24 → UInt8)) (s : St) : Bool × St :=
  match var with
  | none => (false, s)
  | some flash =>
    let s := { s with pos := true, flash := flash, offset := 0 }
    if s.flash 0 ≠ 0xFF then (false, s) else (true, s)

def mainlog (timer : UInt32) (str : List UInt8) (s : St) : St :=
  let length : UInt24 := BitVec.ofNat 24 str.length
  if s.pos = false then s
  else if s.offset + length < BitVec.ofNat 24 (LOG_SIZE - 12) then
    let s := if s.flash (s.offset - 1) = NEWLINE then put program ((timeString timer).take 11) s else s
    put program str s
  else s

end Code

/-! ## The time stamp -/

/-- A 24-bit number has at most 8 digits. -/
theorem length_decimal_le (time : UInt24) : (decimal time.toNat).length ≤ 8 := by
  have hlt : time.toNat < 10 ^ 8 := Nat.lt_trans time.isLt (by decide)
  rw [decimal, List.length_map]
  exact (Nat.length_toDigits_le_iff (by decide) (by decide)).mpr hlt

theorem length_timeString (timer : UInt32) : (timeString timer).length = 11 := by
  have hle := length_decimal_le (BitVec.ofNat 24 (timer / 33).toNat)
  simp only [timeString, List.length_cons, List.length_append, List.length_leftpad, List.length_nil]
  omega

/-! ## What the log should hold -/

/-- A call of `mainlog`: the counter and the string. -/
structure Call where
  timer : UInt32
  str : List UInt8

/-- The string fits behind `log`, with 12 bytes to spare. -/
def Call.Accepted (c : Call) (log : List UInt8) : Prop := log.length + c.str.length < LOG_SIZE - 12

instance (c : Call) (log : List UInt8) : Decidable (c.Accepted log) := inferInstanceAs (Decidable (_ < _))

/-- The byte in front of the end of the log; `front` is the one in front of the log. -/
def lastByte (front : UInt8) (log : List UInt8) : UInt8 := log.getLast?.getD front

/-- The stamp of a string behind `log`: it has one at the start of a line. -/
def stamp (front : UInt8) (timer : UInt32) (log : List UInt8) : List UInt8 :=
  if lastByte front log = NEWLINE then timeString timer else []

/-- The log after one more call. -/
def append (front : UInt8) (log : List UInt8) (c : Call) : List UInt8 :=
  if c.Accepted log then log ++ stamp front c.timer log ++ c.str else log

/-- The offsets that were written, in the order of writing. -/
def written (s : St) : List Nat := s.writes.flatMap fun w => (List.range w.2.length).map (w.1.toNat + ·)

/-- The log area holds `log` and is otherwise as it was in `flash`. -/
structure Holds (flash : UInt24 → UInt8) (log : List UInt8) (s : St) : Prop where
  pos : s.pos = true
  offset : s.offset.toNat = log.length
  room : log.length + 1 < LOG_SIZE
  contents : ∀ a, s.flash a = log[a.toNat]?.getD (flash a)
  once : written s = List.range log.length

/-- An erased byte takes the value that is written. -/
def WritesErased (program : UInt8 → UInt8 → UInt8) : Prop := ∀ b, program 0xFF b = b

/-- The log area is erased. -/
def Erased (flash : UInt24 → UInt8) : Prop := ∀ a : UInt24, a.toNat < LOG_SIZE → flash a = 0xFF

/-! ## One write -/

variable {program : UInt8 → UInt8 → UInt8} {flash : UInt24 → UInt8} {log : List UInt8} {s : St}

/-- The distance from `offset` to a byte in front of it is too large for the data. -/
theorem toNat_sub_offset (h : Holds flash log s) (a : UInt24) :
    (a - s.offset).toNat = if log.length ≤ a.toNat then a.toNat - log.length else a.toNat + 0x1000000 - log.length := by
  have ha := a.isLt
  have hr := h.room
  have ho := h.offset
  simp only [LOG_SIZE] at hr
  rw [BitVec.toNat_sub, ho]
  split <;> omega

theorem put_holds (hprogram : WritesErased program) (herased : Erased flash) (h : Holds flash log s) {data : List UInt8}
    (hroom : log.length + data.length + 1 < LOG_SIZE) : Holds flash (log ++ data) (put program data s) := by
  have ho := h.offset
  have hsize : LOG_SIZE = 64000 := rfl
  refine ⟨h.pos, ?_, ?_, ?_, ?_⟩
  · simp only [put, BitVec.toNat_add, BitVec.toNat_ofNat, List.length_append, ho]
    omega
  · simpa using hroom
  · intro a
    have hsub := toNat_sub_offset h a
    simp only [put, flashWrite, h.contents a]
    by_cases hle : log.length ≤ a.toNat
    · rw [hsub, if_pos hle, List.getElem?_append_right hle, List.getElem?_eq_none hle]
      cases hd : data[a.toNat - log.length]? with
      | none => rfl
      | some b =>
        have hlt : a.toNat - log.length < data.length := (List.getElem?_eq_some_iff.mp hd).1
        have hff : flash a = 0xFF := herased a (by omega)
        simpa [hff] using hprogram b
    · have hnone : data[(a - s.offset).toNat]? = none := by
        rw [hsub, if_neg hle]
        exact List.getElem?_eq_none (by omega)
      rw [hnone, List.getElem?_append_left (by omega)]
  · have hw : written (put program data s) = written s ++ (List.range data.length).map (s.offset.toNat + ·) := by
      simp [written, put, flashWrite]
    rw [hw, h.once, ho, List.length_append, List.range_add]

/-! ## One call -/

/-- `pos[offset - 1]`. -/
theorem lastByte_eq (h : Holds flash log s) : s.flash (s.offset - 1) = lastByte (flash (-1)) log := by
  have ho := h.offset
  have hr := h.room
  simp only [LOG_SIZE] at hr
  rw [h.contents, lastByte]
  rcases List.eq_nil_or_concat' log with rfl | ⟨init, x, rfl⟩
  · have h0 : s.offset = 0 := BitVec.eq_of_toNat_eq ho
    rw [h0]
    rfl
  · have hone : BitVec.toNat (1 : UInt24) = 1 := rfl
    have hlast : (s.offset - 1).toNat = init.length := by
      rw [BitVec.toNat_sub, ho, hone]
      simp only [List.length_append, List.length_singleton] at hr ⊢
      omega
    rw [hlast, List.getElem?_concat_length, List.getLast?_concat, Option.getD_some, Option.getD_some]

/-- The test of `mainlog` does not overflow. -/
theorem accepted_iff (h : Holds flash log s) {c : Call} (hlen : c.str.length < 0x1000000 - LOG_SIZE) :
    s.offset + BitVec.ofNat 24 c.str.length < BitVec.ofNat 24 (LOG_SIZE - 12) ↔ c.Accepted log := by
  have hr := h.room
  have ho := h.offset
  unfold Call.Accepted
  simp only [LOG_SIZE] at hlen hr ⊢
  rw [BitVec.lt_def, BitVec.toNat_add, BitVec.toNat_ofNat, BitVec.toNat_ofNat, ho]
  omega

theorem mainlog_holds (hprogram : WritesErased program) (herased : Erased flash) (h : Holds flash log s) {c : Call}
    (hlen : c.str.length < 0x1000000 - LOG_SIZE) :
    Holds flash (append (flash (-1)) log c) (mainlog program c.timer c.str s) := by
  have hacc := accepted_iff h hlen
  have hpos : ¬ s.pos = false := by simp [h.pos]
  simp only [mainlog, append, if_neg hpos]
  by_cases ha : c.Accepted log
  · rw [if_pos (hacc.mpr ha), if_pos ha, lastByte_eq h, stamp]
    unfold Call.Accepted at ha
    simp only [LOG_SIZE] at ha
    by_cases hnl : lastByte (flash (-1)) log = NEWLINE
    · have hts := length_timeString c.timer
      rw [if_pos hnl, if_pos hnl, ← hts, List.take_length]
      have hroom : log.length + (timeString c.timer).length + 1 < LOG_SIZE := by
        rw [hts]
        simp only [LOG_SIZE]
        omega
      have hstamped := put_holds hprogram herased h hroom
      refine put_holds hprogram herased hstamped ?_
      rw [List.length_append, hts]
      simp only [LOG_SIZE]
      omega
    · rw [if_neg hnl, if_neg hnl, List.append_nil]
      exact put_holds hprogram herased h (by simp only [LOG_SIZE]; omega)
  · rw [if_neg fun hlt => ha (hacc.mp hlt), if_neg ha]
    exact h

/-! ## All calls -/

def step (program : UInt8 → UInt8 → UInt8) (s : St) (c : Call) : St := mainlog program c.timer c.str s

/-- The log after the calls `cs`. -/
def logged (front : UInt8) (cs : List Call) : List UInt8 := cs.foldl (append front) []

theorem run_holds (hprogram : WritesErased program) (herased : Erased flash) (h : Holds flash log s) {cs : List Call}
    (hcs : ∀ c ∈ cs, c.str.length < 0x1000000 - LOG_SIZE) :
    Holds flash (cs.foldl (append (flash (-1))) log) (run (step program) s cs) := by
  induction cs generalizing log s with
  | nil => exact h
  | cons c cs ih =>
    have hstep := mainlog_holds hprogram herased h (hcs c List.mem_cons_self)
    exact ih hstep fun c' hc' => hcs c' (List.mem_cons_of_mem _ hc')

/-- `log_init` on an erased log succeeds, and leaves an empty log. -/
theorem logInit_holds (herased : Erased flash) (hs : s.writes = []) :
    (logInit (some flash) s).1 = true ∧ Holds flash [] (logInit (some flash) s).2 := by
  have h0 : flash 0 = 0xFF := herased 0 (by decide)
  have hinit : logInit (some flash) s = (true, { s with pos := true, flash := flash, offset := 0 }) :=
    if_neg (not_not.mpr h0)
  rw [hinit]
  exact ⟨rfl, rfl, rfl, by decide, fun a => by simp, by simp [written, hs]⟩

/-- After a successful `log_init` on an erased log, and any calls: the offsets written are
    those of the log, each once and in order, the flash holds the accepted strings with
    their stamps and is otherwise unchanged, and every stamp fits `time_string`. -/
theorem log_append_only (hprogram : WritesErased program) (herased : Erased flash) (hs : s.writes = []) {cs : List Call}
    (hcs : ∀ c ∈ cs, c.str.length < 0x1000000 - LOG_SIZE) :
    (logInit (some flash) s).1 = true ∧
      (∀ o ∈ written (run (step program) (logInit (some flash) s).2 cs), o < LOG_SIZE) ∧
      written (run (step program) (logInit (some flash) s).2 cs) = List.range (logged (flash (-1)) cs).length ∧
      (∀ a, (run (step program) (logInit (some flash) s).2 cs).flash a = (logged (flash (-1)) cs)[a.toNat]?.getD (flash a)) ∧
      ∀ c ∈ cs, (timeString c.timer).length = 11 := by
  obtain ⟨hok, hinit⟩ := logInit_holds herased hs
  have hend := run_holds hprogram herased hinit hcs
  refine ⟨hok, ?_, hend.once, hend.contents, fun c _ => length_timeString c.timer⟩
  intro o ho
  rw [hend.once] at ho
  exact Nat.lt_trans (List.mem_range.mp ho) (Nat.lt_of_succ_lt hend.room)

/-- An erased log behind a newline. -/
def erasedLog : UInt24 → UInt8 := fun a => if a.toNat < LOG_SIZE then 0xFF else NEWLINE

def unset : St := ⟨false, 0, fun _ => 0, []⟩

/-- "hi\n", then "x". -/
def twoLines : List Call := [⟨330, [0x68, 0x69, NEWLINE]⟩, ⟨0xFFFFFFFF, [0x78]⟩]

/-- Bits that are 0 stay 0. -/
def clearsBits (old new : UInt8) : UInt8 := old &&& new

def asBytes (text : List Char) : List UInt8 := text.map fun c => c.toNat.toUInt8

theorem two_lines_are_stamped :
    written (run (step clearsBits) (logInit (some erasedLog) unset).2 twoLines) = List.range 26 ∧
      ((List.range 28).map fun a =>
          (run (step clearsBits) (logInit (some erasedLog) unset).2 twoLines).flash (BitVec.ofNat 24 a)) =
        asBytes ("[      10] hi\n".toList ++ "[12710012] x".toList) ++ [0xFF, 0xFF] := by
  have hlog : logged (erasedLog (-1)) twoLines = asBytes ("[      10] hi\n".toList ++ "[12710012] x".toList) := by
    decide +kernel
  have hclears : WritesErased clearsBits := fun _ => UInt8.neg_one_and
  have herased : Erased erasedLog := fun a ha => if_pos ha
  have hshort : ∀ c ∈ twoLines, c.str.length < 0x1000000 - LOG_SIZE := by decide
  obtain ⟨-, -, hwritten, hflash, -⟩ := log_append_only hclears herased (s := unset) rfl hshort
  refine ⟨by rw [hwritten, hlog]; rfl, ?_⟩
  simp only [hflash, hlog]
  decide +kernel

end Nanotube.Log
