import Mathlib.Data.List.Basic
import Microchain.Eosio.Name

/-!
# Hex strings (`hex.hpp`, `unhex` in `from_json.hpp`)

`hex` writes two upper-case digits a byte, `unhex` reads digits of either case.
A cursor of a connection is the hex string of a key in binary, so beside
`unhex_hex` this file proves that the two key types, `uint32_t` and
`eosio::name`, read back from their bytes.
-/

namespace Microchain.Eosio

/-- The lambda `nibble` of `hex`. -/
def nibble (i : UInt8) : UInt8 := if i ≤ 9 then '0'.toUInt8 + i else 'A'.toUInt8 + i - 10

/-- `hex` -/
def hex (bytes : Bytes) : Bytes := bytes.flatMap fun (b : UInt8) => [nibble (b >>> 4), nibble (b &&& 0xf)]

/-- The lambda `get_digit` of `unhex`. -/
def getDigit (c : UInt8) : Option UInt8 :=
  if '0'.toUInt8 ≤ c ∧ c ≤ '9'.toUInt8 then some (c - '0'.toUInt8)
  else if 'a'.toUInt8 ≤ c ∧ c ≤ 'f'.toUInt8 then some (c - 'a'.toUInt8 + 10)
  else if 'A'.toUInt8 ≤ c ∧ c ≤ 'F'.toUInt8 then some (c - 'A'.toUInt8 + 10)
  else none

/-- `unhex`: `none` when it returns false. Behind an odd last digit it reads the
terminating zero, which is no digit. -/
def unhex : Bytes → Option Bytes
  | [] => some []
  | [_] => none
  | c :: d :: s => do
    let h ← getDigit c
    let l ← getDigit d
    let rest ← unhex s
    some ((h <<< 4 ||| l) :: rest)

/-! ## Round trips -/

theorem getDigit_nibble {i : UInt8} (hi : i < 16) : getDigit (nibble i) = some i := by
  have hcases : ∀ n : Fin 16, getDigit (nibble (UInt8.ofNat n)) = some (UInt8.ofNat n) := by
    decide
  have hlt : i.toNat < 16 := hi
  simpa using hcases ⟨i.toNat, hlt⟩

/-- A byte is its two halves. -/
theorem byte_halves (b : UInt8) : (b >>> 4) <<< 4 ||| (b &&& 0xf) = b := by
  have hcases : ∀ n : Fin 256,
      (UInt8.ofNat n >>> 4) <<< 4 ||| (UInt8.ofNat n &&& 0xf) = UInt8.ofNat n := by
    decide +kernel
  simpa using hcases ⟨b.toNat, b.toNat_lt⟩

theorem halves_lt (b : UInt8) : b >>> 4 < 16 ∧ b &&& 0xf < 16 := by
  have hcases : ∀ n : Fin 256, UInt8.ofNat n >>> 4 < 16 ∧ UInt8.ofNat n &&& 0xf < 16 := by
    decide +kernel
  simpa using hcases ⟨b.toNat, b.toNat_lt⟩

/-- **A hex string reads back as its bytes.** -/
theorem unhex_hex (bytes : Bytes) : unhex (hex bytes) = some bytes := by
  induction bytes with
  | nil => rfl
  | cons b bytes ih =>
    obtain ⟨hhigh, hlow⟩ := halves_lt b
    show unhex (nibble (b >>> 4) :: nibble (b &&& 0xf) :: hex bytes) = some (b :: bytes)
    rw [unhex, getDigit_nibble hhigh, getDigit_nibble hlow, ih]
    show some (((b >>> 4) <<< 4 ||| (b &&& 0xf)) :: bytes) = some (b :: bytes)
    rw [byte_halves]

theorem hex_eq_nil {bytes : Bytes} : hex bytes = [] ↔ bytes = [] := by
  cases bytes with
  | nil => simp [hex]
  | cons b bytes => simp [hex]

/-- The byte from bit `k` on, put back where it was, has the bits of the number there. -/
theorem getLsbD_byte {w : Nat} (v : BitVec w) (k i : Nat) (hi : i < w) :
    (((v >>> k).setWidth 8).setWidth w <<< k).getLsbD i =
      (decide (k ≤ i) && decide (i < k + 8) && v.getLsbD i) := by
  rw [BitVec.getLsbD_shiftLeft, BitVec.getLsbD_setWidth, BitVec.getLsbD_setWidth,
    BitVec.getLsbD_ushiftRight]
  by_cases hk : k ≤ i
  · rw [Nat.add_sub_cancel' hk]
    have h1 : i - k < w := by omega
    have h2 : i - k < 8 ↔ i < k + 8 := by omega
    simp [hi, hk, h1, h2]
  · simp [hk, Nat.lt_of_not_le hk]

theorem uint32FromBin_toBin (n : UInt32) (s : Bytes) :
    uint32FromBin (uint32ToBin n ++ s) = .ok (n, s) := by
  simp only [uint32ToBin, List.cons_append, List.nil_append, uint32FromBin, Except.ok.injEq,
    Prod.mk.injEq, and_true]
  -- every bit comes from the one byte it is in
  refine UInt32.toBitVec_inj.mp (BitVec.eq_of_getLsbD_eq fun i hi => ?_)
  have hbyte := fun k => getLsbD_byte n.toBitVec k i hi
  have hfirst := hbyte 0
  rw [BitVec.ushiftRight_zero, BitVec.shiftLeft_zero] at hfirst
  simp only [UInt32.toBitVec_or, BitVec.getLsbD_or]
  show (BitVec.getLsbD ((n.toBitVec.setWidth 8).setWidth 32) i ||
    BitVec.getLsbD (((n.toBitVec >>> 8).setWidth 8).setWidth 32 <<< 8) i ||
    BitVec.getLsbD (((n.toBitVec >>> 16).setWidth 8).setWidth 32 <<< 16) i ||
    BitVec.getLsbD (((n.toBitVec >>> 24).setWidth 8).setWidth 32 <<< 24) i) = _
  simp only [hfirst, hbyte]
  cases n.toBitVec.getLsbD i with
  | false => simp
  | true =>
    simp only [Bool.and_true, Bool.or_eq_true, Bool.and_eq_true, decide_eq_true_eq]
    omega

theorem uint64FromBin_toBin (n : UInt64) (s : Bytes) :
    uint64FromBin (uint64ToBin n ++ s) = .ok (n, s) := by
  simp only [uint64ToBin, List.cons_append, List.nil_append, uint64FromBin, Except.ok.injEq,
    Prod.mk.injEq, and_true]
  -- every bit comes from the one byte it is in
  refine UInt64.toBitVec_inj.mp (BitVec.eq_of_getLsbD_eq fun i hi => ?_)
  have hbyte := fun k => getLsbD_byte n.toBitVec k i hi
  have hfirst := hbyte 0
  rw [BitVec.ushiftRight_zero, BitVec.shiftLeft_zero] at hfirst
  simp only [UInt64.toBitVec_or, BitVec.getLsbD_or]
  show (BitVec.getLsbD ((n.toBitVec.setWidth 8).setWidth 64) i ||
    BitVec.getLsbD (((n.toBitVec >>> 8).setWidth 8).setWidth 64 <<< 8) i ||
    BitVec.getLsbD (((n.toBitVec >>> 16).setWidth 8).setWidth 64 <<< 16) i ||
    BitVec.getLsbD (((n.toBitVec >>> 24).setWidth 8).setWidth 64 <<< 24) i ||
    BitVec.getLsbD (((n.toBitVec >>> 32).setWidth 8).setWidth 64 <<< 32) i ||
    BitVec.getLsbD (((n.toBitVec >>> 40).setWidth 8).setWidth 64 <<< 40) i ||
    BitVec.getLsbD (((n.toBitVec >>> 48).setWidth 8).setWidth 64 <<< 48) i ||
    BitVec.getLsbD (((n.toBitVec >>> 56).setWidth 8).setWidth 64 <<< 56) i) = _
  simp only [hfirst, hbyte]
  cases n.toBitVec.getLsbD i with
  | false => simp
  | true =>
    simp only [Bool.and_true, Bool.or_eq_true, Bool.and_eq_true, decide_eq_true_eq]
    omega

theorem nameFromBin_toBin (n : Name) (s : Bytes) :
    nameFromBin (nameToBin n ++ s) = .ok (n, s) := by
  rw [nameFromBin, nameToBin, uint64FromBin_toBin]
  rfl

end Microchain.Eosio
