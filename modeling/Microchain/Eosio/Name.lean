import Microchain.Eosio.Bin

/-!
# Names, checksums and time points (`name.hpp`, `fixed_bytes.hpp`, `time.hpp`)
-/

namespace Microchain.Eosio

/-! ## `eosio::name` -/

/-- `char_to_name_digit` -/
def charToNameDigit (c : Char) : UInt64 :=
  if 'a' ≤ c ∧ c ≤ 'z' then UInt64.ofNat (c.toNat - 'a'.toNat) + 6
  else if '1' ≤ c ∧ c ≤ '5' then UInt64.ofNat (c.toNat - '1'.toNat) + 1
  else 0

/-- The loop of `string_to_name`: the first twelve characters take five bits
each from the top, the thirteenth the low four bits. -/
def stringToNameLoop : Nat → List Char → UInt64
  | _, [] => 0
  | i, c :: cs =>
    if i < 12 then
      ((charToNameDigit c &&& 0x1f) <<< UInt64.ofNat (64 - 5 * (i + 1))) |||
        stringToNameLoop (i + 1) cs
    else charToNameDigit c &&& 0x0f

/-- `string_to_name` -/
def stringToName (s : String) : UInt64 := stringToNameLoop 0 s.toList

/-- `eosio::name` -/
structure Name where
  value : UInt64 := 0
deriving DecidableEq, Repr

/-- The `_n` literal. -/
def Name.ofString (s : String) : Name := ⟨stringToName s⟩

def nameToBin (n : Name) : Bytes := uint64ToBin n.value

def nameFromBin : FromBin Name := fun s => do
  let (value, s) ← uint64FromBin s
  .ok (⟨value⟩, s)

/-! ## `checksum256` -/

/-- `fixed_bytes<32>`: four 64-bit words. -/
structure Checksum256 where
  value : Vector UInt64 4 := Vector.replicate 4 0
deriving DecidableEq, Repr

/-- `write_be<uint8_t>` of one word. -/
def wordToBytes (w : UInt64) : Bytes := (uint64ToBin w).reverse

/-- `to_bin(const fixed_bytes&)`, through `extract_as_byte_array`. -/
def checksum256ToBin (c : Checksum256) : Bytes := c.value.toList.flatMap wordToBytes

/-! ## Time -/

/-- `eosio::time_point`, as the `int64_t` count of microseconds. -/
structure TimePoint where
  elapsed : Int64 := 0
deriving DecidableEq, Repr

def timePointToBin (t : TimePoint) : Bytes := uint64ToBin t.elapsed.toUInt64

/-- `eosio::block_timestamp` -/
structure BlockTimestamp where
  slot : UInt32 := 0
deriving DecidableEq, Repr

def blockIntervalMs : Int64 := 500

/-- The year 2000. -/
def blockTimestampEpoch : Int64 := 946684800000

/-- `block_timestamp::to_time_point` -/
def BlockTimestamp.toTimePoint (t : BlockTimestamp) : TimePoint :=
  let msec := t.slot.toUInt64.toInt64 * blockIntervalMs + blockTimestampEpoch
  ⟨msec * 1000⟩

end Microchain.Eosio
