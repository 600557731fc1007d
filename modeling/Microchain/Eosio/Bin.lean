import Mathlib.Data.List.Basic

/-!
# The eosio binary format (`to_bin.hpp`, `from_bin.hpp`)

The encoders and decoders the micro chain uses, over byte lists. An encoder
returns the bytes it writes. A decoder takes the rest of an `input_stream` and
returns a value with the bytes left, or the text `eosio::check` fails with.

`size_t` is 32 bits wide in the wasm build, so the size prefixes are `UInt32`
and the "Varuint too big" check of `varuint32_to_bin` cannot fire.
-/

namespace Microchain.Eosio

/-- Contents of a `std::vector<char>` or a `std::string`. -/
abbrev Bytes := List UInt8

/-- A decoder over an `input_stream`: the value read and the bytes remaining. -/
abbrev FromBin (α : Type) := Bytes → Except String (α × Bytes)

/-- `convert_stream_error(stream_error::overrun)` -/
def overrun : String := "Stream overrun"

/-- `convert_stream_error(stream_error::invalid_varuint_encoding)` -/
def invalidVaruintEncoding : String := "Invalid varuint encoding"

/-- `convert_stream_error(stream_error::bad_variant_index)` -/
def badVariantIndex : String := "Bad variant index"

/-! ## Encoders -/

/-- The two bytes of a `uint16_t` in memory (little endian). -/
def uint16ToBin (n : UInt16) : Bytes := [n.toUInt8, (n >>> 8).toUInt8]

/-- The four bytes of a `uint32_t` in memory (little endian). -/
def uint32ToBin (n : UInt32) : Bytes :=
  [n.toUInt8, (n >>> 8).toUInt8, (n >>> 16).toUInt8, (n >>> 24).toUInt8]

/-- The eight bytes of a `uint64_t` in memory (little endian). -/
def uint64ToBin (n : UInt64) : Bytes :=
  [n.toUInt8, (n >>> 8).toUInt8, (n >>> 16).toUInt8, (n >>> 24).toUInt8,
   (n >>> 32).toUInt8, (n >>> 40).toUInt8, (n >>> 48).toUInt8, (n >>> 56).toUInt8]

/-- The loop of `varuint32_to_bin`; five rounds empty a 32-bit value. -/
def varuint32ToBinLoop : Nat → UInt32 → Bytes
  | 0, _ => []
  | rounds + 1, val =>
    let rest := val >>> 7
    if rest = 0 then [(val &&& 0x7f).toUInt8]
    else ((val &&& 0x7f) ||| 0x80).toUInt8 :: varuint32ToBinLoop rounds rest

/-- `varuint32_to_bin` -/
def varuint32ToBin (val : UInt32) : Bytes := varuint32ToBinLoop 5 val

/-- The loop of `sleb64_to_bin`; ten rounds empty a 64-bit value. Shifting an `int64_t`
to the right divides it, rounding down. -/
def sleb64ToBinLoop : Nat → Int → Bytes
  | 0, _ => []
  | rounds + 1, val =>
    let b := UInt8.ofNat (val % 128).toNat
    if val / 64 = val / 128 then [b]
    else (b ||| 0x80) :: sleb64ToBinLoop rounds (val / 128)

/-- `sleb64_to_bin` -/
def sleb64ToBin (val : Int) : Bytes := sleb64ToBinLoop 10 val

/-- `to_bin(const std::vector<T>&)` with the encoder of an element. -/
def vectorToBin {α : Type} (elemToBin : α → Bytes) (v : List α) : Bytes :=
  varuint32ToBin (UInt32.ofNat v.length) ++ v.flatMap elemToBin

/-- `to_bin` of a `std::vector<char>` or a `std::string`: the size, then the
bytes as they are. -/
def bytesToBin (v : Bytes) : Bytes := vectorToBin (fun b => [b]) v

/-- `to_bin(const std::optional<T>&)` -/
def optionalToBin {α : Type} (elemToBin : α → Bytes) : Option α → Bytes
  | none => [0]
  | some v => 1 :: elemToBin v

/-! ## Decoders -/

/-- `input_stream::read` -/
def readBytes (size : Nat) : FromBin Bytes := fun s =>
  if size ≤ s.length then .ok (s.take size, s.drop size) else .error overrun

/-- `from_bin(uint8_t&)` -/
def uint8FromBin : FromBin UInt8
  | [] => .error overrun
  | b :: s => .ok (b, s)

/-- `from_bin(uint16_t&)` -/
def uint16FromBin : FromBin UInt16
  | b0 :: b1 :: s => .ok (b0.toUInt16 ||| (b1.toUInt16 <<< 8), s)
  | _ => .error overrun

/-- `from_bin(uint32_t&)` -/
def uint32FromBin : FromBin UInt32
  | b0 :: b1 :: b2 :: b3 :: s =>
    .ok (b0.toUInt32 ||| (b1.toUInt32 <<< 8) ||| (b2.toUInt32 <<< 16) |||
      (b3.toUInt32 <<< 24), s)
  | _ => .error overrun

/-- `from_bin(uint64_t&)` -/
def uint64FromBin : FromBin UInt64
  | b0 :: b1 :: b2 :: b3 :: b4 :: b5 :: b6 :: b7 :: s =>
    .ok (b0.toUInt64 ||| (b1.toUInt64 <<< 8) ||| (b2.toUInt64 <<< 16) |||
      (b3.toUInt64 <<< 24) ||| (b4.toUInt64 <<< 32) ||| (b5.toUInt64 <<< 40) |||
      (b6.toUInt64 <<< 48) ||| (b7.toUInt64 <<< 56), s)
  | _ => .error overrun

/-- The loop of `varuint32_from_bin`. `check(shift < 35)` admits five rounds. -/
def varuint32FromBinLoop : Nat → UInt32 → UInt32 → FromBin UInt32
  | 0, _, _, _ => .error invalidVaruintEncoding
  | rounds + 1, shift, result, s => do
    let (b, s) ← uint8FromBin s
    let result := result ||| ((b &&& 0x7f).toUInt32 <<< shift)
    if b &&& 0x80 ≠ 0 then varuint32FromBinLoop rounds (shift + 7) result s
    else .ok (result, s)

/-- `varuint32_from_bin` -/
def varuint32FromBin : FromBin UInt32 := varuint32FromBinLoop 5 0 0

/-- The loop of `sleb_from_bin<int32_t>`. `check(shift < 32)` admits five rounds.
The result is the two's complement of the value. -/
def sleb32FromBinLoop : Nat → UInt32 → UInt32 → FromBin UInt32
  | 0, _, _, _ => .error invalidVaruintEncoding
  | rounds + 1, shift, result, s => do
    let (b, s) ← uint8FromBin s
    let result := result ||| ((b &&& 0x7f).toUInt32 <<< shift)
    let shift := shift + 7
    if b &&& 0x80 ≠ 0 then sleb32FromBinLoop rounds shift result s
    -- the sign is extended where the last byte leaves bits over
    else if shift < 32 ∧ b &&& 0x40 ≠ 0 then .ok (result ||| -(1 <<< shift), s)
    else .ok (result, s)

/-- `sleb32_from_bin` -/
def sleb32FromBin : FromBin UInt32 := sleb32FromBinLoop 5 0 0

/-- The loop of `varuint64_from_bin`. `check(shift < 70)` admits ten rounds. -/
def varuint64FromBinLoop : Nat → UInt64 → UInt64 → FromBin UInt64
  | 0, _, _, _ => .error invalidVaruintEncoding
  | rounds + 1, shift, result, s => do
    let (b, s) ← uint8FromBin s
    let result := result ||| ((b &&& 0x7f).toUInt64 <<< shift)
    if b &&& 0x80 ≠ 0 then varuint64FromBinLoop rounds (shift + 7) result s
    else .ok (result, s)

/-- `varuint64_from_bin` -/
def varuint64FromBin : FromBin UInt64 := varuint64FromBinLoop 10 0 0

/-- The loop of `sleb_from_bin<int64_t>`. `check(shift < 64)` admits ten rounds.
The result is the two's complement of the value. -/
def sleb64FromBinLoop : Nat → UInt64 → UInt64 → FromBin UInt64
  | 0, _, _, _ => .error invalidVaruintEncoding
  | rounds + 1, shift, result, s => do
    let (b, s) ← uint8FromBin s
    let result := result ||| ((b &&& 0x7f).toUInt64 <<< shift)
    let shift := shift + 7
    if b &&& 0x80 ≠ 0 then sleb64FromBinLoop rounds shift result s
    else if shift < 64 ∧ b &&& 0x40 ≠ 0 then .ok (result ||| -(1 <<< shift), s)
    else .ok (result, s)

/-- `sleb64_from_bin` -/
def sleb64FromBin : FromBin UInt64 := sleb64FromBinLoop 10 0 0

/-- `from_bin(input_stream&)` where `size_t` is 64 bits wide. -/
def inputStreamFromBin : FromBin Bytes := fun s => do
  let (size, s) ← varuint64FromBin s
  readBytes size.toNat s

/-- `from_bin(std::string&)` -/
def stringFromBin : FromBin Bytes := fun s => do
  let (size, s) ← varuint32FromBin s
  readBytes size.toNat s

/-- `size` elements one after the other. -/
def elementsFromBin {α : Type} (elemFromBin : FromBin α) : Nat → FromBin (List α)
  | 0, s => .ok ([], s)
  | size + 1, s => do
    let (e, s) ← elemFromBin s
    let (es, s) ← elementsFromBin elemFromBin size s
    .ok (e :: es, s)

/-- `from_bin(std::vector<T>&)` for an element type that is not read bitwise. -/
def vectorFromBin {α : Type} (elemFromBin : FromBin α) : FromBin (List α) := fun s => do
  let (size, s) ← varuint32FromBin s
  elementsFromBin elemFromBin size.toNat s

end Microchain.Eosio
