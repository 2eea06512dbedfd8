/-
  Nanotube.Device.Mac — the address of a netif (src/device/ecm.c `wchar_hex_to_int`,
  `ecm_get_mac`, `ecm_init_netif`).

  The device gives its address as a string descriptor of 12 hexadecimal digits.
  `usb_GetStringDescriptor` fills as much of `str_desc` as the string has, the digits are
  decoded without a range check, and `ecm_get_mac` reports a failed request by its result,
  which `ecm_init_netif` does not look at.

  Proved: whatever the device answers and whatever was on the stack, the netif has the
  address the device spells, or is not brought up, if and only if the request succeeded
  with 12 digits of the alphabet 0-9, A-F (`mac_iff`); in that case the netif comes up with
  that address. A failed request brings it up with what `mac` held
  (`a_failed_request_brings_up_garbage`).
-/

import Nanotube.Device.ReadPath

namespace Nanotube.Device.Ecm

/-! ## What the device says -/

/-- The answer to the request for the string descriptor: an error, or the characters of the
    string, of which `str_desc` takes 12. -/
inductive MacAnswer where
  | error (e : UsbError) (failed : e ≠ .success)
  | string (chars : List UInt16) (fits : chars.length ≤ 12)

/-- `stack` is what `str_desc.str` holds before; a string overwrites its start. -/
def MacAnswer.outcome (stack : Nat → UInt16) : MacAnswer → StringOutcome
  | .error e _ => ⟨e, stack⟩
  | .string chars _ => ⟨.success, fun i => chars.getD i (stack i)⟩

/-- The digits 0-9 and A-F. -/
def cdcDigits : List UInt16 :=
  [0x30, 0x31, 0x32, 0x33, 0x34, 0x35, 0x36, 0x37, 0x38, 0x39, 0x41, 0x42, 0x43, 0x44, 0x45, 0x46]

/-- The upper-case hexadecimal digit of a number below 16. -/
def hexDigit (n : UInt8) : UInt16 := if n < 10 then 0x30 + n.toUInt16 else 0x41 + (n.toUInt16 - 10)

/-- The hexadecimal spelling of an address, the upper half of each byte first. -/
def spelling (addr : List UInt8) : List UInt16 :=
  addr.flatMap fun b : UInt8 => [hexDigit (b >>> 4), hexDigit (b &&& 0x0F)]

/-- The answer is an address: 12 digits. -/
def MacAnswer.Address : MacAnswer → Prop
  | .error _ _ => False
  | .string chars _ => chars.length = 12 ∧ ∀ c ∈ chars, c ∈ cdcDigits

/-- The answer is `addr`, spelled out. -/
def MacAnswer.Spells (addr : List UInt8) : MacAnswer → Prop
  | .error _ _ => False
  | .string chars _ => addr.length = 6 ∧ spelling addr = chars

/-! ## Decoding -/

/-- Two digits are decoded to the byte they spell. -/
theorem hexDigit_wcharHexToInt : ∀ c ∈ cdcDigits, ∀ d ∈ cdcDigits,
    hexDigit (((wcharHexToInt c <<< 4) ||| wcharHexToInt d) >>> 4) = c ∧
      hexDigit (((wcharHexToInt c <<< 4) ||| wcharHexToInt d) &&& 0x0F) = d := by
  -- over the 16 digits, not over all characters
  have htable : (cdcDigits.all fun c => cdcDigits.all fun d =>
      hexDigit (((wcharHexToInt c <<< 4) ||| wcharHexToInt d) >>> 4) = c ∧
        hexDigit (((wcharHexToInt c <<< 4) ||| wcharHexToInt d) &&& 0x0F) = d) = true := by
    decide +kernel
  intro c hc d hd
  exact of_decide_eq_true (List.all_eq_true.mp (List.all_eq_true.mp htable c hc) d hd)

theorem spelling_digits {str : Nat → UInt16} (h : ∀ i < 12, str i ∈ cdcDigits) :
    spelling ((List.range 6).map fun i => (wcharHexToInt (str (2 * i)) <<< 4) ||| wcharHexToInt (str (2 * i + 1))) =
      (List.range 12).map str := by
  rw [spelling, List.flatMap_map]
  have hpairs : ∀ i ∈ List.range 6,
      [hexDigit (((wcharHexToInt (str (2 * i)) <<< 4) ||| wcharHexToInt (str (2 * i + 1))) >>> 4),
        hexDigit (((wcharHexToInt (str (2 * i)) <<< 4) ||| wcharHexToInt (str (2 * i + 1))) &&& 0x0F)] =
      [str (2 * i), str (2 * i + 1)] := by
    intro i hi
    have hi := List.mem_range.mp hi
    obtain ⟨hupper, hlower⟩ := hexDigit_wcharHexToInt _ (h (2 * i) (by omega)) _ (h (2 * i + 1) (by omega))
    rw [hupper, hlower]
  rw [List.flatMap_congr hpairs]
  rfl

theorem ecmGetMac_address {a : MacAnswer} (h : a.Address) (stack : Nat → UInt16) (mac : List UInt8) :
    a.Spells (ecmGetMac (a.outcome stack) mac).2 := by
  cases a with
  | error e failed => exact h.elim
  | string chars fits =>
    obtain ⟨hlen, hdigits⟩ := h
    have hstr : (List.range 12).map (fun i => chars.getD i (stack i)) = chars := by
      apply List.ext_getElem
      · simp [hlen]
      · intro i hi hi'
        simp [List.getD_eq_getElem?_getD, List.getElem?_eq_getElem hi']
    have hdigit : ∀ i < 12, chars.getD i (stack i) ∈ cdcDigits := by
      intro i hi
      rw [List.getD_eq_getElem?_getD, List.getElem?_eq_getElem (by omega)]
      exact hdigits _ (List.getElem_mem _)
    refine ⟨by simp [ecmGetMac, MacAnswer.outcome], ?_⟩
    simp only [ecmGetMac, MacAnswer.outcome, ne_eq, not_true_eq_false, if_false]
    rw [spelling_digits hdigit, hstr]

/-! ## Bringing the netif up -/

/-- `ecm_init_netif` with the device's answer, what was on the stack before, and the
    outcome of scheduling the first read. -/
def initWith (a : MacAnswer) (stack : Nat → UInt16) (mac : List UInt8) (read : ReadOutcome) (n : Netif) :
    ErrT × Netif :=
  ecmInitNetif ⟨a.outcome stack, mac, read⟩ n

/-- A netif that is up has the device's address; otherwise the result is an error. -/
structure OwnAddress (a : MacAnswer) (r : ErrT × Netif) : Prop where
  ok : r.1 = ERR_OK → a.Address ∧ a.Spells r.2.hwaddr
  failed : ¬ a.Address → r.1 ≠ ERR_OK ∧ r.2.up = false

/-- The netif is brought up with the device's address, or refused, if and only if the
    device answered with an address. -/
theorem mac_iff (a : MacAnswer) (stack : Nat → UInt16) (mac : List UInt8) (read : ReadOutcome) (n : Netif) :
    (OwnAddress a (initWith a stack mac read n) ↔ a.Address) ∧
      (a.Address → (initWith a stack mac read n).1 = ERR_OK ∧ (initWith a stack mac read n).2.up = true ∧
        a.Spells (initWith a stack mac read n).2.hwaddr) := by
  obtain ⟨hok, hup, -, hmac, -⟩ := initNetif_sets ⟨a.outcome stack, mac, read⟩ n
  have hspells : a.Address → a.Spells (initWith a stack mac read n).2.hwaddr := by
    intro ha
    rw [initWith, hmac]
    exact ecmGetMac_address ha stack mac
  refine ⟨⟨fun h => (h.ok hok).1, fun ha => ⟨fun _ => ⟨ha, hspells ha⟩, fun hn => absurd ha hn⟩⟩, ?_⟩
  exact fun ha => ⟨hok, hup, hspells ha⟩

/-- "0123456789AB". -/
def goodAnswer : MacAnswer :=
  .string [0x30, 0x31, 0x32, 0x33, 0x34, 0x35, 0x36, 0x37, 0x38, 0x39, 0x41, 0x42] (by decide)

theorem goodAnswer_address : goodAnswer.Address := by
  -- its characters are the first 12 of `cdcDigits`
  refine ⟨rfl, fun c hc => ?_⟩
  exact List.mem_of_mem_take (i := 12) hc

theorem a_good_answer_is_the_address :
    OwnAddress goodAnswer (initWith goodAnswer (fun _ => 0xFFFF) [] goodRead (malloced none)) ∧
      (initWith goodAnswer (fun _ => 0xFFFF) [] goodRead (malloced none)).2.hwaddr =
        [0x01, 0x23, 0x45, 0x67, 0x89, 0xAB] :=
  ⟨(mac_iff goodAnswer (fun _ => 0xFFFF) [] goodRead (malloced none)).1.mpr goodAnswer_address, by decide⟩

def failedRequest : MacAnswer := .error .failed (by decide)

/-- "0a0a0a0a0a0a": lower-case digits. -/
def lowerCase : MacAnswer :=
  .string [0x30, 0x61, 0x30, 0x61, 0x30, 0x61, 0x30, 0x61, 0x30, 0x61, 0x30, 0x61] (by decide)

/-- The netif after answer `a`, with DE:AD:BE:EF:00:01 in `mac`. -/
def initOver (a : MacAnswer) : ErrT × Netif :=
  initWith a (fun _ => 0) [0xDE, 0xAD, 0xBE, 0xEF, 0x00, 0x01] goodRead (malloced none)

/-- After a failed request the netif comes up with what `mac` held, after lower-case digits
    with 2A in place of 0A. -/
theorem a_failed_request_brings_up_garbage :
    (initOver failedRequest).1 = ERR_OK ∧ (initOver failedRequest).2.up = true ∧
      (initOver failedRequest).2.hwaddr = [0xDE, 0xAD, 0xBE, 0xEF, 0x00, 0x01] ∧
      ¬ OwnAddress failedRequest (initOver failedRequest) ∧
      (initOver lowerCase).2.hwaddr = List.replicate 6 0x2A ∧ ¬ OwnAddress lowerCase (initOver lowerCase) := by
  refine ⟨rfl, rfl, rfl, ?_, by decide, ?_⟩
  · intro h
    exact (h.ok rfl).1
  · intro h
    exact absurd ((h.ok rfl).1.2 0x61 (by decide)) (by decide)

end Nanotube.Device.Ecm
