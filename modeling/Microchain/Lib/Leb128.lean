import Mathlib.Data.UInt

/-!
# LEB128

Numbers as bytes of seven bits each, the lowest first, every byte but the last with its
high bit set; a signed number takes its sign from bit 6 of the last byte. A decoder
takes as many bytes as there are. Each has two rules: what the last byte stands for, and
what a byte in front of a number adds to it.
-/

namespace Microchain.Lib

/-- An unsigned number and the bytes after it. -/
def ulebDecode : List UInt8 → Option (Nat × List UInt8)
  | [] => none
  | b :: s =>
    if b.toNat < 128 then some (b.toNat, s)
    else (ulebDecode s).map fun r => (b.toNat - 128 + 128 * r.1, r.2)

/-- A signed number and the bytes after it. -/
def slebDecode : List UInt8 → Option (Int × List UInt8)
  | [] => none
  | b :: s =>
    if b.toNat < 64 then some ((b.toNat : Int), s)
    else if b.toNat < 128 then some ((b.toNat : Int) - 128, s)
    else (slebDecode s).map fun r => ((b.toNat : Int) - 128 + 128 * r.1, r.2)

variable {b : UInt8} {s rest : List UInt8}

theorem ulebDecode_last (h : b.toNat < 128) : ulebDecode (b :: s) = some (b.toNat, s) :=
  if_pos h

theorem ulebDecode_more (h : 128 ≤ b.toNat) {n : Nat} (hs : ulebDecode s = some (n, rest)) :
    ulebDecode (b :: s) = some (b.toNat - 128 + 128 * n, rest) := by
  rw [ulebDecode, if_neg (Nat.not_lt.mpr h), hs, Option.map_some]

/-- A last byte without the sign bit. -/
theorem slebDecode_nonneg (h : b.toNat < 64) : slebDecode (b :: s) = some ((b.toNat : Int), s) :=
  if_pos h

/-- A last byte with the sign bit. -/
theorem slebDecode_neg (h : 64 ≤ b.toNat) (hlt : b.toNat < 128) :
    slebDecode (b :: s) = some ((b.toNat : Int) - 128, s) := by
  rw [slebDecode, if_neg (Nat.not_lt.mpr h), if_pos hlt]

theorem slebDecode_more (h : 128 ≤ b.toNat) {n : Int} (hs : slebDecode s = some (n, rest)) :
    slebDecode (b :: s) = some ((b.toNat : Int) - 128 + 128 * n, rest) := by
  rw [slebDecode, if_neg (by omega), if_neg (by omega), hs, Option.map_some]

end Microchain.Lib
