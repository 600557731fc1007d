import Microchain.Eosio.Bin
import Microchain.Lib.Except

/-!
# The token stream (`gql_stream` in `graphql.hpp`)

`skip` reads one token. It sets three fields, and its callers look at any of them:
`current_type`, `current_value` and `current_puncuator`, which is zero for everything
but a punctuator. An unterminated string is left with the type of the token before
it; an error is never left.

Every token that is not `eof` or an error is paid for with input, and reading on from
one of those two changes nothing: `measure` goes down with every `skip` but the last
(`measure_skip_lt`, `measure_skip_le`).
-/

namespace Microchain.Graphql

open Eosio Lib

/-- `gql_stream::token_type` -/
inductive TokenType where
  | unstarted
  | eof
  | error
  | punctuator
  | name
  | string
  | integer
  | floating
deriving DecidableEq, Repr

/-- `gql_stream`. `input` is what remains of it. -/
structure GqlStream where
  input : Bytes
  currentType : TokenType := .unstarted
  currentValue : Bytes := []
  currentPuncuator : UInt8 := 0
deriving DecidableEq, Repr

/-- The bytes of an ASCII literal. -/
def ascii (s : String) : Bytes := s.toList.map Char.toUInt8

/-! ## Characters -/

/-- Whitespace and commas. -/
def ignored : Bytes := ascii "\n\r \t,"

/-- The punctuators of one character. -/
def punctuators : Bytes := ascii "$!&():=@[]\x7b|\x7d"

/-- The double quote. -/
def quote : UInt8 := 0x22

def backslash : UInt8 := 0x5C

/-- `std::isdigit` -/
def isDigit (c : UInt8) : Bool := decide ('0'.toUInt8 ≤ c ∧ c ≤ '9'.toUInt8)

/-- `std::isalpha` -/
def isAlpha (c : UInt8) : Bool :=
  decide ('a'.toUInt8 ≤ c ∧ c ≤ 'z'.toUInt8 ∨ 'A'.toUInt8 ≤ c ∧ c ≤ 'Z'.toUInt8)

def isNameStart (c : UInt8) : Bool := decide (c = '_'.toUInt8) || isAlpha c

def isNameContinue (c : UInt8) : Bool := decide (c = '_'.toUInt8) || isAlpha c || isDigit c

/-! ## The parts of `skip` -/

/-- What `skip` passes over before a token: whitespace, commas, comments and byte order
marks. The flag says that it is inside a comment, which ends before a line end. -/
def skipIgnored : Bool → Bytes → Bytes
  | _, [] => []
  | true, c :: rest =>
    if c = '\n'.toUInt8 ∨ c = '\r'.toUInt8 then skipIgnored false rest else skipIgnored true rest
  | false, c :: rest =>
    if c ∈ ignored then skipIgnored false rest
    else if c = '#'.toUInt8 then skipIgnored true rest
    else if c = 0xEF then
      match rest with
      | b :: d :: rest' => if b = 0xBB ∧ d = 0xBF then skipIgnored false rest' else c :: rest
      | _ => c :: rest
    else c :: rest

/-- A string behind its opening quote: the text and what is behind the closing quote,
`none` when there is none. A backslash takes the next character with it. -/
def scanString : Bytes → Option (Bytes × Bytes)
  | [] => none
  | c :: rest =>
    if c = quote then some ([], rest)
    else if c = backslash then
      match rest with
      | [] => none
      | d :: rest' => (scanString rest').map fun r => (c :: d :: r.1, r.2)
    else (scanString rest).map fun r => (c :: r.1, r.2)

/-- The digits behind a point or an exponent: there has to be one. -/
def scanDigits (s : Bytes) : Except Bytes Bytes :=
  if s.head?.any isDigit then .ok (s.dropWhile isDigit) else .error s

/-- A minus sign: a digit has to follow. -/
def scanSign (s : Bytes) : Except Bytes Bytes :=
  if s.head? = some '-'.toUInt8 then
    if s.tail.head?.any isDigit then .ok s.tail else .error s.tail
  else .ok s

/-- The integer part: a zero, or digits. -/
def scanInteger (s : Bytes) : Bytes :=
  if s.head? = some '0'.toUInt8 then s.tail else s.dropWhile isDigit

/-- The fraction, with the type the number then has. -/
def scanFraction (s : Bytes) : Except Bytes (TokenType × Bytes) :=
  if s.head? = some '.'.toUInt8 then (scanDigits s.tail).map fun s => (.floating, s)
  else .ok (.integer, s)

/-- The exponent. The only sign it can have is a minus. -/
def scanExponent (type : TokenType) (s : Bytes) : Except Bytes (TokenType × Bytes) :=
  if s.head? = some 'e'.toUInt8 ∨ s.head? = some 'E'.toUInt8 then
    let s := s.tail
    (scanDigits (if s.head? = some '-'.toUInt8 then s.tail else s)).map fun s => (.floating, s)
  else .ok (type, s)

/-- A number: its type and what is behind it, or what remains at the error. -/
def scanNumber (s : Bytes) : Except Bytes (TokenType × Bytes) := do
  let s ← scanSign s
  let (type, s) ← scanFraction (scanInteger s)
  let (type, s) ← scanExponent type s
  if s.head?.any isNameContinue then .error s else .ok (type, s)

/-- The token at the front of the input, `stale` being the type of the last one. -/
def lexToken (stale : TokenType) : Bytes → GqlStream
  | [] => { input := [], currentType := .eof }
  | c :: rest =>
    if c ∈ punctuators then
      { input := rest, currentType := .punctuator, currentValue := [c], currentPuncuator := c }
    else if c = '.'.toUInt8 ∧ rest.take 2 = ascii ".." then
      { input := rest.drop 2, currentType := .punctuator, currentValue := ascii "...",
        currentPuncuator := c }
    else if c = quote then
      if rest.take 2 = [quote, quote] then { input := c :: rest, currentType := .error }
      else
        match scanString rest with
        | none => { input := [], currentType := stale }
        | some (value, rest) => { input := rest, currentType := .string, currentValue := value }
    else if isNameStart c then
      { input := rest.dropWhile isNameContinue, currentType := .name,
        currentValue := c :: rest.takeWhile isNameContinue }
    else if c = '-'.toUInt8 ∨ isDigit c then
      match scanNumber (c :: rest) with
      | .error s => { input := s, currentType := .error }
      | .ok (type, s) =>
        { input := s, currentType := type,
          currentValue := (c :: rest).take ((c :: rest).length - s.length) }
    else { input := c :: rest, currentType := .error }

namespace GqlStream

/-- `gql_stream::skip` -/
def skip (s : GqlStream) : GqlStream :=
  if s.currentType = .error then s else lexToken s.currentType (skipIgnored false s.input)

/-- `gql_stream::gql_stream` -/
def new (input : Bytes) : GqlStream := skip { input }

end GqlStream

/-! ## Progress -/

theorem skipIgnored_length_le (comment : Bool) (s : Bytes) :
    (skipIgnored comment s).length ≤ s.length := by
  fun_induction skipIgnored comment s <;> simp_all <;> omega

theorem scanString_length_lt {s value rest : Bytes} (h : scanString s = some (value, rest)) :
    rest.length < s.length := by
  fun_induction scanString s generalizing value rest with
  | case1 => cases h
  | case2 s =>
    cases h
    exact Nat.lt_succ_self _
  | case3 => cases h
  | case4 d s _ ih =>
    obtain ⟨⟨value', rest'⟩, hscan, heq⟩ := Option.map_eq_some_iff.mp h
    cases heq
    have := ih hscan
    simp only [List.length_cons]
    omega
  | case5 c s _ _ ih =>
    obtain ⟨⟨value', rest'⟩, hscan, heq⟩ := Option.map_eq_some_iff.mp h
    cases heq
    exact Nat.lt_succ_of_lt (ih hscan)

theorem dropWhile_length_le (p : UInt8 → Bool) (s : Bytes) :
    (s.dropWhile p).length ≤ s.length := (List.dropWhile_sublist p).length_le

theorem tail_length_le (s : Bytes) : s.tail.length ≤ s.length := by
  rw [List.length_tail]
  omega

theorem scanDigits_length_le {s rest : Bytes} (h : scanDigits s = .ok rest) :
    rest.length ≤ s.length := by
  unfold scanDigits at h
  split at h
  · cases h
    exact dropWhile_length_le _ _
  · cases h

/-- Behind the sign of a number there is a digit. -/
theorem scanSign_digit {c : UInt8} {s rest : Bytes} (hc : c = '-'.toUInt8 ∨ isDigit c)
    (h : scanSign (c :: s) = .ok rest) :
    (∃ d rest', rest = d :: rest' ∧ isDigit d) ∧ rest.length ≤ (c :: s).length := by
  unfold scanSign at h
  simp only [List.head?_cons, Option.some.injEq] at h
  split at h
  · split at h
    · next hdigit =>
      cases h
      refine ⟨?_, tail_length_le _⟩
      rw [List.tail_cons] at hdigit ⊢
      cases s with
      | nil => cases hdigit
      | cons d s => exact ⟨d, s, rfl, hdigit⟩
    · cases h
  · next hsign =>
    cases h
    exact ⟨⟨c, s, rfl, hc.resolve_left hsign⟩, Nat.le_refl _⟩

theorem scanInteger_length_lt {d : UInt8} {s : Bytes} (hd : isDigit d) :
    (scanInteger (d :: s)).length < (d :: s).length := by
  unfold scanInteger
  split
  · exact Nat.lt_succ_self _
  · rw [List.dropWhile_cons_of_pos hd]
    exact Nat.lt_succ_of_le (dropWhile_length_le _ _)

/-- A fraction begins with a point and has digits behind it. -/
theorem scanFraction_cases {s rest : Bytes} {type : TokenType}
    (h : scanFraction s = .ok (type, rest)) :
    (s.head? = some '.'.toUInt8 ∧ scanDigits s.tail = .ok rest ∧ type = .floating) ∨
      (s.head? ≠ some '.'.toUInt8 ∧ rest = s ∧ type = .integer) := by
  unfold scanFraction at h
  split at h
  · next hpoint =>
    obtain ⟨rest', hdigits, heq⟩ := ok_of_map h
    cases heq
    exact Or.inl ⟨hpoint, hdigits, rfl⟩
  · next hpoint =>
    cases h
    exact Or.inr ⟨hpoint, rfl, rfl⟩

/-- An exponent has digits behind its letter and its sign. -/
theorem scanExponent_cases {s rest : Bytes} {type type' : TokenType}
    (h : scanExponent type s = .ok (type', rest)) :
    ((s.head? = some 'e'.toUInt8 ∨ s.head? = some 'E'.toUInt8) ∧
        scanDigits (if s.tail.head? = some '-'.toUInt8 then s.tail.tail else s.tail) = .ok rest ∧
        type' = .floating) ∨
      (¬ (s.head? = some 'e'.toUInt8 ∨ s.head? = some 'E'.toUInt8) ∧ rest = s ∧ type' = type) := by
  unfold scanExponent at h
  split at h
  · next hletter =>
    obtain ⟨rest', hdigits, heq⟩ := ok_of_map h
    cases heq
    exact Or.inl ⟨hletter, hdigits, rfl⟩
  · next hletter =>
    cases h
    exact Or.inr ⟨hletter, rfl, rfl⟩

/-- A number that is read has gone through its four parts, and no name follows it. -/
theorem scanNumber_ok {s rest : Bytes} {type : TokenType} (h : scanNumber s = .ok (type, rest)) :
    ∃ s₁ type₁ s₂, scanSign s = .ok s₁ ∧ scanFraction (scanInteger s₁) = .ok (type₁, s₂) ∧
      scanExponent type₁ s₂ = .ok (type, rest) ∧ ¬ rest.head?.any isNameContinue := by
  unfold scanNumber at h
  obtain ⟨s₁, hsign, h⟩ := ok_of_bind h
  obtain ⟨⟨type₁, s₂⟩, hfraction, h⟩ := ok_of_bind h
  obtain ⟨⟨type₂, s₃⟩, hexponent, h⟩ := ok_of_bind h
  dsimp only at h
  split at h
  · cases h
  · next hnone =>
    cases h
    exact ⟨s₁, type₁, s₂, hsign, hfraction, hexponent, hnone⟩

theorem scanFraction_length_le {s rest : Bytes} {type : TokenType}
    (h : scanFraction s = .ok (type, rest)) : rest.length ≤ s.length := by
  rcases scanFraction_cases h with ⟨-, hdigits, -⟩ | ⟨-, rfl, -⟩
  · exact Nat.le_trans (scanDigits_length_le hdigits) (tail_length_le s)
  · exact Nat.le_refl _

theorem scanExponent_length_le {s rest : Bytes} {type type' : TokenType}
    (h : scanExponent type s = .ok (type', rest)) : rest.length ≤ s.length := by
  rcases scanExponent_cases h with ⟨-, hdigits, -⟩ | ⟨-, rfl, -⟩
  · have hsign : (if s.tail.head? = some '-'.toUInt8 then s.tail.tail else s.tail).length
        ≤ s.length := by
      split
      · exact Nat.le_trans (tail_length_le _) (tail_length_le s)
      · exact tail_length_le s
    exact Nat.le_trans (scanDigits_length_le hdigits) hsign
  · exact Nat.le_refl _

/-- A number takes at least one character. -/
theorem scanNumber_length_lt {c : UInt8} {s rest : Bytes} {type : TokenType}
    (hc : c = '-'.toUInt8 ∨ isDigit c) (h : scanNumber (c :: s) = .ok (type, rest)) :
    rest.length < (c :: s).length := by
  obtain ⟨s₁, type₁, s₂, hsign, hfraction, hexponent, -⟩ := scanNumber_ok h
  -- only the integer part must have a digit; the other parts may be empty
  obtain ⟨⟨d, s', rfl, hd⟩, hle₁⟩ := scanSign_digit hc hsign
  have hlt := scanInteger_length_lt (s := s') hd
  have hle₂ := scanFraction_length_le hfraction
  have hle₃ := scanExponent_length_le hexponent
  omega

/-- A token is an error, or it takes input. -/
theorem lexToken_progress (stale : TokenType) (c : UInt8) (s : Bytes) :
    (lexToken stale (c :: s)).currentType = .error ∨
      (lexToken stale (c :: s)).input.length < (c :: s).length := by
  rw [lexToken]
  split
  · exact Or.inr (Nat.lt_succ_self _)
  split
  · refine Or.inr (Nat.lt_succ_of_le ?_)
    rw [List.length_drop]
    exact Nat.sub_le _ _
  split
  · split
    · exact Or.inl rfl
    · split
      · exact Or.inr (Nat.zero_lt_succ _)
      · next value rest hscan => exact Or.inr (Nat.lt_succ_of_lt (scanString_length_lt hscan))
  split
  · exact Or.inr (Nat.lt_succ_of_le (dropWhile_length_le _ _))
  split
  · next hc =>
    split
    · exact Or.inl rfl
    · next type rest hnum => exact Or.inr (scanNumber_length_lt hc hnum)
  · exact Or.inl rfl

namespace GqlStream

/-- Only a punctuator has its character in `current_puncuator`. -/
def Lexed (s : GqlStream) : Prop := s.currentPuncuator ≠ 0 → s.currentType = .punctuator

theorem lexToken_lexed (stale : TokenType) (input : Bytes) : (lexToken stale input).Lexed := by
  intro hpunct
  cases input with
  | nil => exact absurd rfl hpunct
  | cons c s =>
    revert hpunct
    rw [lexToken]
    split
    · intro _
      rfl
    split
    · intro _
      rfl
    split
    · split
      · exact fun h => absurd rfl h
      · split <;> exact fun h => absurd rfl h
    split
    · exact fun h => absurd rfl h
    split
    · split <;> exact fun h => absurd rfl h
    · exact fun h => absurd rfl h

theorem Lexed.skip {s : GqlStream} (h : s.Lexed) : s.skip.Lexed := by
  unfold GqlStream.skip
  split
  · exact h
  · exact lexToken_lexed _ _

theorem new_lexed (input : Bytes) : (new input).Lexed := lexToken_lexed _ _

theorem skip_of_error {s : GqlStream} (h : s.currentType = .error) : s.skip = s := if_pos h

/-- What is left to read. -/
def measure (s : GqlStream) : Nat :=
  match s.currentType with
  | .error => 0
  | .eof => 2 * s.input.length
  | _ => 2 * s.input.length + 1

theorem measure_le (s : GqlStream) : s.measure ≤ 2 * s.input.length + 1 := by
  unfold measure
  split <;> omega

theorem le_measure {s : GqlStream} (h : s.currentType ≠ .error) :
    2 * s.input.length ≤ s.measure := by
  unfold measure
  split
  · next herror => exact absurd herror h
  · exact Nat.le_refl _
  · exact Nat.le_succ _

theorem measure_of_error {s : GqlStream} (h : s.currentType = .error) : s.measure = 0 := by
  rw [measure, h]

/-- Reading on after a token that is not the last one. -/
theorem measure_skip_lt {s : GqlStream} (heof : s.currentType ≠ .eof)
    (herror : s.currentType ≠ .error) : s.skip.measure < s.measure := by
  have hs : s.measure = 2 * s.input.length + 1 := by
    unfold measure
    split
    · next h => exact absurd h herror
    · next h => exact absurd h heof
    · rfl
  have hle := skipIgnored_length_le false s.input
  rw [skip, if_neg herror, hs]
  cases hinput : skipIgnored false s.input with
  | nil => exact Nat.zero_lt_succ _
  | cons c rest =>
    rw [hinput] at hle
    rcases lexToken_progress s.currentType c rest with h | h
    · rw [measure_of_error h]
      exact Nat.zero_lt_succ _
    · have := measure_le (lexToken s.currentType (c :: rest))
      omega

/-- Reading on never makes more of it. -/
theorem measure_skip_le (s : GqlStream) : s.skip.measure ≤ s.measure := by
  by_cases herror : s.currentType = .error
  · exact Nat.le_of_eq (congrArg measure (skip_of_error herror))
  · by_cases heof : s.currentType = .eof
    · have hs := le_measure herror
      have hle := skipIgnored_length_le false s.input
      rw [skip, if_neg herror]
      cases hinput : skipIgnored false s.input with
      | nil => exact Nat.zero_le _
      | cons c rest =>
        rw [hinput] at hle
        rcases lexToken_progress s.currentType c rest with h | h
        · rw [measure_of_error h]
          exact Nat.zero_le _
        · have := measure_le (lexToken s.currentType (c :: rest))
          omega
    · exact Nat.le_of_lt (measure_skip_lt heof herror)

end GqlStream

end Microchain.Graphql
