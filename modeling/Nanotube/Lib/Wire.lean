/-
  Nanotube.Lib.Wire — 16-bit fields in network order.

  `be16` writes one, `read16` reads the one at an offset; what stands before an offset does
  not matter to the read (`read16_append`).
-/

import Mathlib.Data.List.GetD

namespace Nanotube.Lib.Wire

def be16 (n : UInt16) : List UInt8 := [(n >>> 8).toUInt8, n.toUInt8]

/-- Bytes that are missing are read as 0. -/
def read16 (bs : List UInt8) (offset : Nat) : UInt16 :=
  256 * (bs.getD offset 0).toUInt16 + (bs.getD (offset + 1) 0).toUInt16

theorem be16_toNat (n : UInt16) : 256 * (n >>> 8).toUInt8.toNat + n.toUInt8.toNat = n.toNat := by
  have h := UInt16.toNat_lt n
  rw [UInt16.toNat_toUInt8, UInt16.toNat_toUInt8, UInt16.toNat_shiftRight, Nat.shiftRight_eq_div_pow]
  change 256 * (n.toNat / 256 % 256) + n.toNat % 256 = n.toNat
  omega

theorem be16_decode (n : UInt16) : (256 : UInt16) * (n >>> 8).toUInt8.toUInt16 + n.toUInt8.toUInt16 = n := by
  have h := be16_toNat n
  have hlt := UInt16.toNat_lt n
  rw [← UInt16.toNat_inj, UInt16.toNat_add, UInt16.toNat_mul, UInt8.toNat_toUInt16, UInt8.toNat_toUInt16]
  change (256 * (n >>> 8).toUInt8.toNat % 65536 + n.toUInt8.toNat) % 65536 = n.toNat
  omega

theorem be16_encode (a b : UInt8) : be16 (256 * a.toUInt16 + b.toUInt16) = [a, b] := by
  have ha := UInt8.toNat_lt a
  have hb := UInt8.toNat_lt b
  have hn : (256 * a.toUInt16 + b.toUInt16).toNat = 256 * a.toNat + b.toNat := by
    rw [UInt16.toNat_add, UInt16.toNat_mul, UInt8.toNat_toUInt16, UInt8.toNat_toUInt16]
    change (256 * a.toNat % 65536 + b.toNat) % 65536 = _
    omega
  have hhi : ((256 * a.toUInt16 + b.toUInt16) >>> 8).toUInt8 = a := by
    rw [← UInt8.toNat_inj, UInt16.toNat_toUInt8, UInt16.toNat_shiftRight, Nat.shiftRight_eq_div_pow, hn]
    change (256 * a.toNat + b.toNat) / 256 % 256 = a.toNat
    omega
  have hlo : (256 * a.toUInt16 + b.toUInt16).toUInt8 = b := by
    rw [← UInt8.toNat_inj, UInt16.toNat_toUInt8, hn]
    change (256 * a.toNat + b.toNat) % 256 = b.toNat
    omega
  rw [be16, hhi, hlo]

theorem read16_be16 (n : UInt16) (bs : List UInt8) : read16 (be16 n ++ bs) 0 = n := be16_decode n

theorem read16_append (as bs : List UInt8) (offset : Nat) :
    read16 (as ++ bs) (as.length + offset) = read16 bs offset := by
  have hget : ∀ i, (as ++ bs).getD (as.length + i) 0 = bs.getD i 0 := by
    intro i
    rw [List.getD_append_right _ _ _ _ (Nat.le_add_right _ _), Nat.add_sub_cancel_left]
  rw [read16, Nat.add_assoc, hget, hget]
  rfl

end Nanotube.Lib.Wire
