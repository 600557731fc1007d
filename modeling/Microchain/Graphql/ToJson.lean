import Mathlib.Data.List.DropRight
import Microchain.Graphql.Interpreter
import Microchain.Lib.Json
import Microchain.Lib.Utf8

/-!
# JSON output (`to_json.hpp`, `chain_conversions.hpp`)

The `to_json` overloads of the types a query can come to. Each writes one JSON value:

- `isString_stringToJson`: of bytes, a string that reads back as their text;
- `isNumber_intToJson`, `isString_intToJson`: of an integer, a number or a string of digits;
- `spells_toJson`: a text of the value, for every type.

The UTF-8 validator is that of a library: `validate` is given the four bytes a
`stream_adaptor` holds, and says how many it took when it accepts.
-/

namespace Microchain.Graphql

open Eosio Lib

/-! ## Strings -/

/-- A byte that `to_json` does not escape. -/
def isPlain (c : UInt8) : Bool :=
  decide (c ≠ quote ∧ c ≠ backslash ∧ 32 ≤ c ∧ c ≠ 127)

/-- `stream_adaptor`: four bytes, zeros behind the end of the source. -/
def streamAdaptor (src : Bytes) : Bytes :=
  src.take 4 ++ List.replicate (4 - (src.take 4).length) 0

/-- `hex_digits` -/
def hexDigits : Bytes := ascii "0123456789ABCDEF"

def hexDigit (i : UInt8) : UInt8 := hexDigits.getD i.toNat 0

/-- The two digits of a byte. -/
def hexPair (c : UInt8) : Bytes := [hexDigit (c >>> 4), hexDigit (c &&& 15)]

/-- What is written for a byte that is not plain. -/
def escape (c : UInt8) : Bytes :=
  if c = quote then ascii "\\\""
  else if c = backslash then ascii "\\\\"
  else if c = 0x08 then ascii "\\b"
  else if c = 0x0C then ascii "\\f"
  else if c = '\n'.toUInt8 then ascii "\\n"
  else if c = '\r'.toUInt8 then ascii "\\r"
  else if c = '\t'.toUInt8 then ascii "\\t"
  else ascii "\\u00" ++ hexPair c

section Strings

variable (validate : Bytes → Option Nat)

/-- The loop over a run of plain bytes: characters as they are, `?` for a byte that
begins none. An accepted character has a byte at least. -/
def runToJson : Bytes → Bytes
  | [] => []
  | c :: run =>
    match validate (streamAdaptor (c :: run)) with
    | some idx => (c :: run).take idx ++ runToJson (run.drop (idx - 1))
    | none => '?'.toUInt8 :: runToJson run
termination_by run => run.length
decreasing_by
  all_goals simp only [List.length_drop, List.length_cons]; omega

/-- The loop of `to_json(std::string_view)`. -/
def bytesToJson (sv : Bytes) : Bytes :=
  runToJson validate (sv.takeWhile isPlain) ++
    match _hrest : sv.dropWhile isPlain with
    | [] => []
    | c :: rest => escape c ++ bytesToJson rest
termination_by sv.length
decreasing_by
  have hle : (sv.dropWhile isPlain).length ≤ sv.length := (List.dropWhile_sublist _).length_le
  rw [_hrest, List.length_cons] at hle
  omega

/-- `to_json(std::string_view)` -/
def stringToJson (sv : Bytes) : Bytes := ascii "\"" ++ bytesToJson validate sv ++ ascii "\""

end Strings

/-- What `to_json` relies on: the validator accepts a buffer that begins with a
character, and takes that. -/
def ValidatesUtf8 (validate : Bytes → Option Nat) : Prop :=
  ∀ buf : Bytes, buf.length = 4 → validate buf = (decodeChar? buf).map Char.utf8Size

/-! ## Numbers and hex strings -/

/-- `to_json(bool)` -/
def boolToJson (value : Bool) : Bytes := if value then ascii "true" else ascii "false"

/-- The loop of `int_to_json`: the digits from the last one on. -/
def intToJsonLoop (uvalue : Nat) : Bytes :=
  let c := '0'.toUInt8 + UInt8.ofNat (uvalue % 10)
  if uvalue / 10 = 0 then [c] else c :: intToJsonLoop (uvalue / 10)
termination_by uvalue
decreasing_by omega

/-- `int_to_json` of an unsigned type. A type of more than four bytes is quoted. -/
def intToJson (quoted : Bool) (value : Nat) : Bytes :=
  let quotes := if quoted then ascii "\"" else []
  (quotes ++ intToJsonLoop value ++ quotes).reverse

/-- `to_json_hex` -/
def toJsonHex (data : Bytes) : Bytes := ascii "\"" ++ data.flatMap hexPair ++ ascii "\""

/-! ## Names -/

/-- The loop of `name_to_string`: five bits for each character but the last. -/
def nameToStringLoop : Nat → UInt64 → Bytes → Bytes
  | 0, _, str => str
  | n + 1, tmp, str =>
    let c := (ascii ".12345abcdefghijklmnopqrstuvwxyz").getD (tmp &&& 0x1f).toNat 0
    nameToStringLoop n (tmp >>> 5) (c :: str)

/-- `name_to_string`, without the dots at the end. -/
def nameToString (name : UInt64) : Bytes :=
  let last := (ascii ".12345abcdefghijklmnopqrstuvwxyz").getD (name &&& 0x0f).toNat 0
  (nameToStringLoop 12 (name >>> 4) [last]).rdropWhile (· = '.'.toUInt8)

/-! ## Time points -/

/-- `year_month_day` -/
structure YearMonthDay where
  year : UInt32
  month : UInt32
  day : UInt32
deriving DecidableEq, Repr

/-- `year_month_day::from_days` -/
def YearMonthDay.fromDays (ds : Int) : YearMonthDay :=
  let z := ds + 719468
  let era := (if 0 ≤ z then z else z - 146096).tdiv 146097
  let doe := UInt32.ofInt (z - era * 146097)
  let yoe := (doe - doe / 1460 + doe / 36524 - doe / 146096) / 365
  let y : Int := yoe.toNat + era * 400
  let doy := doe - (365 * yoe + yoe / 4 - yoe / 100)
  let mp := (5 * doy + 2) / 153
  let d := doy - (153 * mp + 2) / 5 + 1
  let m := if mp < 10 then mp + 3 else mp - 9
  ⟨UInt32.ofInt (y + if m ≤ 2 then 1 else 0), m, d⟩

/-- The digits of `append_uint`, from the last one on. -/
def appendUintLoop : Nat → UInt32 → Bytes
  | 0, _ => []
  | digits + 1, value =>
    ('0'.toUInt8 + (value % 10).toUInt8) :: appendUintLoop digits (value / 10)

/-- `append_uint` -/
def appendUint (value : UInt32) (digits : Nat) : Bytes := (appendUintLoop digits value).reverse

/-- `microseconds_to_str` -/
def microsecondsToStr (microseconds : UInt64) : Bytes :=
  let us := microseconds.toInt64.toInt
  let sd := us.fdiv 86400000000
  let ymd := YearMonthDay.fromDays sd
  let ms := UInt32.ofInt (us.fdiv 1000 - sd * 86400000)
  appendUint ymd.year 4 ++ ascii "-" ++ appendUint ymd.month 2 ++ ascii "-" ++
    appendUint ymd.day 2 ++ ascii "T" ++ appendUint (ms / 3600000 % 60) 2 ++ ascii ":" ++
    appendUint (ms / 60000 % 60) 2 ++ ascii ":" ++ appendUint (ms / 1000 % 60) 2 ++ ascii "." ++
    appendUint (ms % 1000) 3

/-- The `to_json` overloads. The stream is a `time_point_include_z_stream`. -/
def toJson (validate : Bytes → Option Nat) : Scalar → Bytes
  | .boolean value => boolToJson value
  | .uint32 value => intToJson false value.toNat
  | .uint64 value => intToJson true value.toNat
  | .string value => stringToJson validate value
  | .bytes value => toJsonHex value
  | .name value => stringToJson validate (nameToString value.value)
  | .checksum256 value => toJsonHex (checksum256ToBin value)
  | .timePoint value =>
    stringToJson validate (microsecondsToStr value.elapsed.toUInt64 ++ ascii "Z")

/-! ## What a string reads back as -/

theorem streamAdaptor_length (src : Bytes) : (streamAdaptor src).length = 4 := by
  rw [streamAdaptor, List.length_append, List.length_replicate]
  exact Nat.add_sub_cancel' (by rw [List.length_take]; exact Nat.min_le_left _ _)

/-- The zeros belong to no character. -/
theorem decodeChar?_streamAdaptor (c : UInt8) (run : Bytes) :
    decodeChar? (streamAdaptor (c :: run)) = decodeChar? (c :: run) := by
  rw [← decodeChar?_take (c :: run), streamAdaptor]
  cases hpad : 4 - ((c :: run).take 4).length with
  | zero => rw [List.replicate_zero, List.append_nil]
  | succ k =>
    rw [List.replicate_succ]
    exact decodeChar?_append (by decide) c (run.take 3) _

section Strings

variable {validate : Bytes → Option Nat}

theorem runToJson_eq (h : ValidatesUtf8 validate) (run : Bytes) :
    runToJson validate run = utf8 (readable run) := by
  have hvalidate : ∀ c run, validate (streamAdaptor (c :: run)) =
      (decodeChar? (c :: run)).map Char.utf8Size := by
    intro c run
    rw [h _ (streamAdaptor_length _), decodeChar?_streamAdaptor]
  induction run using bytes_induction with
  | nil => rw [runToJson, readable_nil, utf8_nil]
  | char c run ih =>
    rw [readable_utf8EncodeChar, utf8_cons, ← ih]
    have hdecode := decodeChar?_utf8EncodeChar c run
    have hlength := String.length_utf8EncodeChar c
    cases hc : String.utf8EncodeChar c with
    | nil => exact absurd hc (utf8EncodeChar_ne_nil c)
    | cons b bs =>
      rw [hc, List.cons_append] at hdecode
      rw [hc] at hlength
      rw [List.cons_append, runToJson, hvalidate, hdecode]
      show (b :: (bs ++ run)).take c.utf8Size ++
        runToJson validate ((bs ++ run).drop (c.utf8Size - 1)) = b :: bs ++ runToJson validate run
      rw [← hlength, ← List.cons_append, List.take_left, List.length_cons, Nat.add_sub_cancel,
        List.drop_left]
  | other c run hnone ih =>
    rw [runToJson, hvalidate, hnone, readable_none hnone, utf8_cons, ← ih]
    rfl

/-- What is written for a character. -/
def escapeChar (c : Char) : List Char :=
  if c.val < 128 ∧ ¬ isPlain c.val.toUInt8 then (escape c.val.toUInt8).map charOfByte else [c]

/-- A run of plain bytes is written as it is. -/
theorem flatMap_escapeChar_of_plain {run : Bytes} (h : ∀ b ∈ run, isPlain b) :
    (readable run).flatMap escapeChar = readable run := by
  induction run using bytes_induction with
  | nil => simp
  | char c run ih =>
    have hc : escapeChar c = [c] := by
      refine if_neg ?_
      rintro ⟨hlt, hplain⟩
      exact hplain (h _ (by rw [utf8EncodeChar_ascii hlt]; simp))
    rw [readable_utf8EncodeChar, List.flatMap_cons, hc,
      ih fun b hb => h b (List.mem_append_right _ hb)]
    rfl
  | other b run hnone ih =>
    have hmark : escapeChar '?' = ['?'] := by decide
    rw [readable_none hnone, List.flatMap_cons, hmark,
      ih fun b hb => h b (List.mem_cons_of_mem _ hb)]
    rfl

/-- A byte that is escaped is a character, and so is every byte of its escape. -/
theorem escape_ascii {c : UInt8} (h : ¬ isPlain c) :
    c < 128 ∧ escapeChar (charOfByte c) = (escape c).map charOfByte ∧ ∀ b ∈ escape c, b < 128 := by
  have hcases : ∀ n : Fin 256, ¬ isPlain (UInt8.ofNat n) → UInt8.ofNat n < 128 ∧
      escapeChar (charOfByte (UInt8.ofNat n)) = (escape (UInt8.ofNat n)).map charOfByte ∧
      ∀ b ∈ escape (UInt8.ofNat n), b < 128 := by decide +kernel
  have hc := hcases ⟨c.toNat, c.toNat_lt⟩
  rw [UInt8.ofNat_toNat] at hc
  exact hc h

/-- What is between the quotes. -/
theorem bytesToJson_eq (h : ValidatesUtf8 validate) (sv : Bytes) :
    bytesToJson validate sv = utf8 ((readable sv).flatMap escapeChar) := by
  induction hn : sv.length using Nat.strongRecOn generalizing sv with
  | ind n ih =>
    have hplain : ∀ b ∈ sv.takeWhile isPlain, isPlain b := fun b hb => List.mem_takeWhile_imp hb
    have hsplit : sv.takeWhile isPlain ++ sv.dropWhile isPlain = sv :=
      List.takeWhile_append_dropWhile
    rw [bytesToJson, runToJson_eq h]
    cases hrest : sv.dropWhile isPlain with
    | nil =>
      rw [hrest, List.append_nil] at hsplit
      rw [hsplit] at hplain ⊢
      rw [flatMap_escapeChar_of_plain hplain]
      exact List.append_nil _
    | cons c rest =>
      have hc : ¬ isPlain c := by
        have hhead := List.head?_dropWhile_not isPlain sv
        rw [hrest] at hhead
        simpa using hhead
      obtain ⟨hlt, hescape, hascii⟩ := escape_ascii hc
      have hlength : rest.length < n := by
        have hle : (sv.dropWhile isPlain).length ≤ sv.length :=
          (List.dropWhile_sublist _).length_le
        rw [hrest, List.length_cons] at hle
        omega
      rw [hrest] at hsplit
      -- the escaped byte is below 128, so the run in front of it is read apart
      have hread : readable sv =
          readable (sv.takeWhile isPlain) ++ charOfByte c :: readable rest := by
        rw [← readable_cons hlt, ← readable_append hlt, hsplit]
      rw [hread, List.flatMap_append, flatMap_escapeChar_of_plain hplain, List.flatMap_cons, hescape,
        utf8_append, utf8_append, utf8_map_charOfByte hascii, ← ih _ hlength rest rfl]

/-- An escape is a short one, or that of a UTF-16 unit. -/
theorem escapeChar_cases {c : Char} (hlt : c.val < 128) (hplain : ¬ isPlain c.val.toUInt8) :
    (∃ d, escapeChar c = ['\\', d] ∧ Json.shortEscape d = some c) ∨
      ∃ high low, escapeChar c = ['\\', 'u', '0', '0', high, low] ∧
        Json.hex4 '0' '0' high low = some c.toNat := by
  have hcases : ∀ n : Fin 256, ¬ isPlain (UInt8.ofNat n) →
      let c := charOfByte (UInt8.ofNat n)
      (escapeChar c = ['\\', (escapeChar c).getD 1 c] ∧
        Json.shortEscape ((escapeChar c).getD 1 c) = some c) ∨
      (escapeChar c = ['\\', 'u', '0', '0', (escapeChar c).getD 4 c, (escapeChar c).getD 5 c] ∧
        Json.hex4 '0' '0' ((escapeChar c).getD 4 c) ((escapeChar c).getD 5 c) = some c.toNat) := by
    decide +kernel
  have hc := hcases ⟨c.val.toUInt8.toNat, c.val.toUInt8.toNat_lt⟩
  rw [UInt8.ofNat_toNat, charOfByte_toUInt8 hlt] at hc
  rcases hc hplain with ⟨hescape, hshort⟩ | ⟨hescape, hhex⟩
  · exact .inl ⟨_, hescape, hshort⟩
  · exact .inr ⟨_, _, hescape, hhex⟩

theorem isUnescaped_charOfByte {b : UInt8} (hplain : isPlain b) (hlt : b < 128) :
    Json.isUnescaped (charOfByte b) := by
  have hcases : ∀ n : Fin 256, isPlain (UInt8.ofNat n) → UInt8.ofNat n < 128 →
      Json.isUnescaped (charOfByte (UInt8.ofNat n)) := by decide +kernel
  have hb := hcases ⟨b.toNat, b.toNat_lt⟩
  rw [UInt8.ofNat_toNat] at hb
  exact hb hplain hlt

theorem isUnescaped_of_plain {c : Char} (h : ¬ (c.val < 128 ∧ ¬ isPlain c.val.toUInt8)) :
    Json.isUnescaped c := by
  by_cases hlt : c.val < 128
  · have hplain : isPlain c.val.toUInt8 := by_contra fun hplain => h ⟨hlt, hplain⟩
    have hbyte : c.val.toUInt8 < 128 := by
      rw [UInt8.lt_iff_toNat_lt, UInt32.toNat_toUInt8]
      exact Nat.lt_of_le_of_lt (Nat.mod_le _ _) hlt
    rw [← charOfByte_toUInt8 hlt]
    exact isUnescaped_charOfByte hplain hbyte
  · refine decide_eq_true ⟨?_, ?_, ?_⟩
    · exact UInt32.le_trans (by decide) (UInt32.not_lt.mp hlt)
    · rintro rfl
      exact hlt (by decide)
    · rintro rfl
      exact hlt (by decide)

/-- **What is written for a character reads back as the character.** -/
theorem unescape_escapeChar (c : Char) (rest : List Char) :
    Json.unescape (escapeChar c ++ rest) = (Json.unescape rest).map (c :: ·) := by
  by_cases hplain : c.val < 128 ∧ ¬ isPlain c.val.toUInt8
  · rcases escapeChar_cases hplain.1 hplain.2 with ⟨d, hescape, hshort⟩ | ⟨high, low, hescape, hhex⟩
    · rw [hescape]
      exact Json.unescape_short hshort rest
    · have hunit : c.toNat < 0xD800 := Nat.lt_trans hplain.1 (by decide)
      have hunescape := Json.unescape_hex4 hhex hunit rest
      rw [Char.ofNat_toNat] at hunescape
      rw [hescape]
      exact hunescape
  · rw [escapeChar, if_neg hplain]
    exact Json.unescape_unescaped (isUnescaped_of_plain hplain) rest

theorem unescape_flatMap_escapeChar (text : List Char) :
    Json.unescape (text.flatMap escapeChar) = some text := by
  induction text with
  | nil => rfl
  | cons c text ih =>
    rw [List.flatMap_cons, unescape_escapeChar, ih]
    rfl

/-- **A string is written as a JSON string that reads back as its text.** -/
theorem isString_stringToJson (h : ValidatesUtf8 validate) (sv : Bytes) :
    ∃ string, stringToJson validate sv = utf8 string ∧ Json.IsString (readable sv) string := by
  refine ⟨'"' :: (readable sv).flatMap escapeChar ++ ['"'], ?_,
    (readable sv).flatMap escapeChar, unescape_flatMap_escapeChar _, rfl⟩
  rw [stringToJson, bytesToJson_eq h, utf8_append, utf8_cons]
  rfl

end Strings

/-! ## Strings without escapes -/

/-- Plain ASCII bytes between quotes. -/
theorem isString_of_plain {body : Bytes} (h : ∀ b ∈ body, isPlain b ∧ b < 128) :
    ∃ string, ascii "\"" ++ body ++ ascii "\"" = utf8 string ∧
      Json.IsString (body.map charOfByte) string := by
  refine ⟨'"' :: body.map charOfByte ++ ['"'], ?_, body.map charOfByte, ?_, rfl⟩
  · rw [utf8_append, utf8_cons, utf8_map_charOfByte fun b hb => (h b hb).2]
    rfl
  · refine Json.unescape_of_unescaped fun c hc => ?_
    obtain ⟨b, hb, rfl⟩ := List.mem_map.mp hc
    exact isUnescaped_charOfByte (h b hb).1 (h b hb).2

theorem hexPair_plain (c : UInt8) : ∀ b ∈ hexPair c, isPlain b ∧ b < 128 := by
  have hcases : ∀ n : Fin 256, ∀ b ∈ hexPair (UInt8.ofNat n), isPlain b ∧ b < 128 := by
    decide +kernel
  simpa using hcases ⟨c.toNat, c.toNat_lt⟩

theorem isString_toJsonHex (data : Bytes) :
    ∃ string, toJsonHex data = utf8 string ∧
      Json.IsString ((data.flatMap hexPair).map charOfByte) string := by
  refine isString_of_plain fun b hb => ?_
  obtain ⟨c, -, hc⟩ := List.mem_flatMap.mp hb
  exact hexPair_plain c b hc

/-! ## Numbers -/

theorem digit_cases {n : Nat} (h : n < 10) : let b := '0'.toUInt8 + UInt8.ofNat n
    isPlain b ∧ b < 128 ∧ ('0' ≤ charOfByte b ∧ charOfByte b ≤ '9') ∧
      (charOfByte b = '0' → n = 0) := by
  have hcases : ∀ n : Fin 10, let b := '0'.toUInt8 + UInt8.ofNat n
      isPlain b ∧ b < 128 ∧ ('0' ≤ charOfByte b ∧ charOfByte b ≤ '9') ∧
        (charOfByte b = '0' → n.val = 0) := by decide
  exact hcases ⟨n, h⟩

/-- One round of the loop. -/
theorem intToJsonLoop_eq (n : Nat) : intToJsonLoop n =
    if n / 10 = 0 then ['0'.toUInt8 + UInt8.ofNat (n % 10)]
    else ('0'.toUInt8 + UInt8.ofNat (n % 10)) :: intToJsonLoop (n / 10) := by
  rw [intToJsonLoop]

theorem mem_intToJsonLoop {n : Nat} {b : UInt8} (h : b ∈ intToJsonLoop n) :
    ∃ m < 10, b = '0'.toUInt8 + UInt8.ofNat m := by
  induction n using Nat.strongRecOn with
  | ind n ih =>
    rw [intToJsonLoop_eq] at h
    split at h
    · exact ⟨n % 10, Nat.mod_lt _ (by decide), List.mem_singleton.mp h⟩
    · rcases List.mem_cons.mp h with rfl | hb
      · exact ⟨n % 10, Nat.mod_lt _ (by decide), rfl⟩
      · exact ih (n / 10) (by omega) hb

theorem intToJsonLoop_ne_nil (n : Nat) : intToJsonLoop n ≠ [] := by
  rw [intToJsonLoop_eq]
  split <;> exact List.cons_ne_nil _ _

/-- The first digit is a zero for zero only. -/
theorem getLast?_intToJsonLoop {n : Nat} (h : n ≠ 0) :
    ∃ m < 10, m ≠ 0 ∧ (intToJsonLoop n).getLast? = some ('0'.toUInt8 + UInt8.ofNat m) := by
  induction n using Nat.strongRecOn with
  | ind n ih =>
    rw [intToJsonLoop_eq]
    split
    · exact ⟨n % 10, Nat.mod_lt _ (by decide), by omega, rfl⟩
    · next hdiv =>
      obtain ⟨m, hm, hne, hlast⟩ := ih (n / 10) (by omega) hdiv
      refine ⟨m, hm, hne, ?_⟩
      rw [← hlast]
      exact List.getLast?_cons_of_ne_nil (intToJsonLoop_ne_nil _)

/-- The digits of a number. -/
def digitsText (n : Nat) : List Char := (intToJsonLoop n).reverse.map charOfByte

/-- A number of up to four bytes is a JSON number. -/
theorem isNumber_intToJson (n : Nat) :
    intToJson false n = utf8 (digitsText n) ∧ Json.IsNumber (digitsText n) := by
  have hdigits : ∀ b ∈ (intToJsonLoop n).reverse, ∃ m < 10, b = '0'.toUInt8 + UInt8.ofNat m :=
    fun b hb => mem_intToJsonLoop (List.mem_reverse.mp hb)
  constructor
  · rw [digitsText, utf8_map_charOfByte]
    · simp [intToJson]
    · intro b hb
      obtain ⟨m, hm, rfl⟩ := hdigits b hb
      exact (digit_cases hm).2.1
  · refine ⟨[], digitsText n, [], [], by simp, .inl rfl, ⟨⟨?_, ?_⟩, ?_⟩, .inl rfl, .inl rfl⟩
    · simpa [digitsText] using intToJsonLoop_ne_nil n
    · intro c hc
      obtain ⟨b, hb, rfl⟩ := List.mem_map.mp hc
      obtain ⟨m, hm, rfl⟩ := hdigits b hb
      exact (digit_cases hm).2.2.1
    · by_cases hn : n = 0
      · subst hn
        exact .inl (by decide +kernel)
      · obtain ⟨m, hm, hne, hlast⟩ := getLast?_intToJsonLoop hn
        refine .inr ?_
        rw [digitsText, List.head?_map, List.head?_reverse, hlast]
        exact fun hzero => hne ((digit_cases hm).2.2.2 (Option.some.inj hzero))

/-- A larger one is a string of digits. -/
theorem isString_intToJson (n : Nat) :
    ∃ string, intToJson true n = utf8 string ∧ Json.IsString (digitsText n) string := by
  have hplain : ∀ b ∈ (intToJsonLoop n).reverse, isPlain b ∧ b < 128 := by
    intro b hb
    obtain ⟨m, hm, rfl⟩ := mem_intToJsonLoop (List.mem_reverse.mp hb)
    exact ⟨(digit_cases hm).1, (digit_cases hm).2.1⟩
  obtain ⟨string, hstring, his⟩ := isString_of_plain hplain
  refine ⟨string, ?_, his⟩
  rw [← hstring]
  simp [intToJson, ascii]

/-! ## Scalars -/

/-- The JSON value of a scalar. The string of valid UTF-8 is its text (`readable_utf8`). -/
def Scalar.json : Scalar → Json
  | .boolean value => .boolean value
  | .uint32 value => .number (digitsText value.toNat)
  | .uint64 value => .string (digitsText value.toNat)
  | .string value => .string (readable value)
  | .bytes value => .string ((value.flatMap hexPair).map charOfByte)
  | .name value => .string (readable (nameToString value.value))
  | .checksum256 value => .string (((checksum256ToBin value).flatMap hexPair).map charOfByte)
  | .timePoint value =>
    .string (readable (microsecondsToStr value.elapsed.toUInt64 ++ ascii "Z"))

/-- **`to_json` writes a text of the value.** -/
theorem spells_toJson {validate : Bytes → Option Nat} (h : ValidatesUtf8 validate)
    (value : Scalar) :
    ∃ text, toJson validate value = utf8 text ∧ Json.Spells value.json text := by
  have hstring : ∀ sv, ∃ text, stringToJson validate sv = utf8 text ∧
      Json.Spells (.string (readable sv)) text := by
    intro sv
    obtain ⟨string, hstring, his⟩ := isString_stringToJson h sv
    exact ⟨string, hstring, .string his⟩
  have hhex : ∀ data, ∃ text, toJsonHex data = utf8 text ∧
      Json.Spells (.string ((data.flatMap hexPair).map charOfByte)) text := by
    intro data
    obtain ⟨string, hstring, his⟩ := isString_toJsonHex data
    exact ⟨string, hstring, .string his⟩
  cases value with
  | boolean value =>
    cases value with
    | false => exact ⟨_, (by decide : boolToJson false = utf8 ['f', 'a', 'l', 's', 'e']), .false⟩
    | true => exact ⟨_, (by decide : boolToJson true = utf8 ['t', 'r', 'u', 'e']), .true⟩
  | uint32 value =>
    obtain ⟨htext, hnumber⟩ := isNumber_intToJson value.toNat
    exact ⟨_, htext, .number hnumber⟩
  | uint64 value =>
    obtain ⟨string, hstring, his⟩ := isString_intToJson value.toNat
    exact ⟨string, hstring, .string his⟩
  | string value => exact hstring value
  | bytes value => exact hhex value
  | name value => exact hstring _
  | checksum256 value => exact hhex _
  | timePoint value => exact hstring _

end Microchain.Graphql
