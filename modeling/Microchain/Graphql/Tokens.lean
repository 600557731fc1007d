import Mathlib.Data.List.TakeWhile
import Microchain.Graphql.Stream

/-!
# The tokens that `gql_stream::skip` reads

The lexical grammar of the query language as relations on the characters, and how far
`skip` follows it. The relations say which text a token has and what may stand behind it;
the restrictions on what follows a number are those of the current edition of the
language, in which neither a name nor a digit nor a point may.

- `skipsIgnored_iff`: what `skip` passes over.
- `scanNumber_sound`, `scanNumber_complete`: numbers, without a plus sign.
- `skip_describes_iff`: **`skip` reads every token as the grammar has it, except** for an
  unterminated string, which leaves the type of the token before it, for a plus sign in an
  exponent, and for a point behind a floating number.
-/

namespace Microchain.Graphql

open Eosio

/-! ## The grammar -/

def isLineEnd (c : UInt8) : Bool := decide (c = '\n'.toUInt8 ∨ c = '\r'.toUInt8)

/-- The bytes of a byte order mark. -/
def byteOrderMark : Bytes := [0xEF, 0xBB, 0xBF]

/-- From the first text to the second there are only characters to ignore, and the second
starts with none. -/
inductive SkipsIgnored : Bytes → Bytes → Prop
  | character {c : UInt8} {rest s : Bytes} (hc : c ∈ ignored) (h : SkipsIgnored rest s) :
    SkipsIgnored (c :: rest) s
  | mark {rest s : Bytes} (h : SkipsIgnored rest s) : SkipsIgnored (byteOrderMark ++ rest) s
  | comment {text rest s : Bytes} (htext : ∀ c ∈ text, isLineEnd c = false)
    (hrest : ∀ c ∈ rest.head?, isLineEnd c = true) (h : SkipsIgnored rest s) :
    SkipsIgnored ('#'.toUInt8 :: text ++ rest) s
  | done {s : Bytes} (hchar : ∀ c ∈ s.head?, c ∉ ignored ∧ c ≠ '#'.toUInt8)
    (hmark : s.take 3 ≠ byteOrderMark) : SkipsIgnored s s

/-- A zero, or digits that do not start with one. -/
inductive NaturalPart : Bytes → Prop
  | zero : NaturalPart ['0'.toUInt8]
  | nonZero {d : UInt8} {digits : Bytes} (hd : isDigit d) (hzero : d ≠ '0'.toUInt8)
    (hdigits : ∀ c ∈ digits, isDigit c) : NaturalPart (d :: digits)

inductive IntegerPart : Bytes → Prop
  | positive {n : Bytes} (h : NaturalPart n) : IntegerPart n
  | negative {n : Bytes} (h : NaturalPart n) : IntegerPart ('-'.toUInt8 :: n)

/-- At least one digit. -/
structure Digits (digits : Bytes) : Prop where
  nonempty : digits ≠ []
  all : ∀ c ∈ digits, isDigit c

inductive FractionalPart : Bytes → Prop
  | mk {digits : Bytes} (h : Digits digits) : FractionalPart ('.'.toUInt8 :: digits)

/-- The sign of an exponent, and whether it is a plus. -/
inductive ExponentSign : Bool → Bytes → Prop
  | none : ExponentSign false []
  | minus : ExponentSign false ['-'.toUInt8]
  | plus : ExponentSign true ['+'.toUInt8]

inductive ExponentPart : Bool → Bytes → Prop
  | mk {plus : Bool} {e : UInt8} {sign digits : Bytes} (he : e = 'e'.toUInt8 ∨ e = 'E'.toUInt8)
    (hsign : ExponentSign plus sign) (h : Digits digits) : ExponentPart plus (e :: sign ++ digits)

/-- The text of a number, its type, and whether its exponent has a plus sign. -/
inductive NumberText : TokenType → Bool → Bytes → Prop
  | integer {i : Bytes} (hi : IntegerPart i) : NumberText .integer false i
  | fraction {i f : Bytes} (hi : IntegerPart i) (hf : FractionalPart f) :
    NumberText .floating false (i ++ f)
  | exponent {plus : Bool} {i e : Bytes} (hi : IntegerPart i) (he : ExponentPart plus e) :
    NumberText .floating plus (i ++ e)
  | both {plus : Bool} {i f e : Bytes} (hi : IntegerPart i) (hf : FractionalPart f)
    (he : ExponentPart plus e) : NumberText .floating plus (i ++ f ++ e)

/-- The text of a string: no quotes, but for those behind a backslash. -/
inductive StringText : Bytes → Prop
  | nil : StringText []
  | char {c : UInt8} {text : Bytes} (hquote : c ≠ quote) (hbackslash : c ≠ backslash)
    (h : StringText text) : StringText (c :: text)
  | escape (c : UInt8) {text : Bytes} (h : StringText text) : StringText (backslash :: c :: text)

/-- The input starts with a token: its type and its value, and what is behind it. -/
inductive Lexeme : Bytes → TokenType → Bytes → Bytes → Prop
  | eof : Lexeme [] .eof [] []
  | punctuator {c : UInt8} (hc : c ∈ punctuators) (rest : Bytes) :
    Lexeme (c :: rest) .punctuator [c] rest
  | spread (rest : Bytes) : Lexeme (ascii "..." ++ rest) .punctuator (ascii "...") rest
  | name {c : UInt8} {text rest : Bytes} (hc : isNameStart c) (htext : ∀ c ∈ text, isNameContinue c)
    (hrest : ∀ c ∈ rest.head?, isNameContinue c = false) :
    Lexeme (c :: text ++ rest) .name (c :: text) rest
  | number {type : TokenType} {plus : Bool} {text rest : Bytes} (htext : NumberText type plus text)
    (hrest : ∀ c ∈ rest.head?, isNameContinue c = false ∧ c ≠ '.'.toUInt8) :
    Lexeme (text ++ rest) type text rest
  -- an empty string in front of a quote is the start of a block string
  | string {text rest : Bytes} (htext : StringText text)
    (hblock : text = [] → rest.head? ≠ some quote) :
    Lexeme (quote :: text ++ quote :: rest) .string text rest

/-- The stream stands behind the token that the input starts with, and at an error when it
starts with none. -/
structure Describes (s : GqlStream) (input : Bytes) : Prop where
  token : ∀ type value rest, Lexeme input type value rest →
    s.currentType = type ∧ s.currentValue = value ∧ s.input = rest
  error : (¬ ∃ type value rest, Lexeme input type value rest) → s.currentType = .error

/-! ## What is ignored -/

theorem isLineEnd_ignored {c : UInt8} (h : isLineEnd c = true) : c ∈ ignored := by
  rcases of_decide_eq_true h with rfl | rfl <;> decide

theorem skipIgnored_character {c : UInt8} (hc : c ∈ ignored) (rest : Bytes) :
    skipIgnored false (c :: rest) = skipIgnored false rest := by
  rw [skipIgnored.eq_def]
  exact if_pos hc

theorem skipIgnored_mark (rest : Bytes) :
    skipIgnored false (byteOrderMark ++ rest) = skipIgnored false rest := by
  rw [skipIgnored.eq_def]
  rfl

/-- Inside a comment everything is passed up to the line end. -/
theorem skipIgnored_comment (s : Bytes) :
    skipIgnored true s = skipIgnored false (s.dropWhile fun c => !isLineEnd c) := by
  induction s with
  | nil => rfl
  | cons c rest ih =>
    by_cases hline : isLineEnd c = true
    · rw [List.dropWhile_cons_of_neg (by simp [hline]), skipIgnored,
        if_pos (of_decide_eq_true hline), skipIgnored_character (isLineEnd_ignored hline)]
    · rw [List.dropWhile_cons_of_pos (by simpa using hline), skipIgnored,
        if_neg (fun h => hline (decide_eq_true h)), ih]

theorem skipIgnored_hash (s : Bytes) :
    skipIgnored false ('#'.toUInt8 :: s) =
      skipIgnored false (s.dropWhile fun c => !isLineEnd c) := by
  rw [skipIgnored.eq_def, ← skipIgnored_comment]
  rfl

theorem skipIgnored_done {s : Bytes} (hchar : ∀ c ∈ s.head?, c ∉ ignored ∧ c ≠ '#'.toUInt8)
    (hmark : s.take 3 ≠ byteOrderMark) : skipIgnored false s = s := by
  cases s with
  | nil => rfl
  | cons c rest =>
    obtain ⟨hc, hhash⟩ := hchar c rfl
    rw [skipIgnored.eq_def]
    dsimp only
    rw [if_neg hc, if_neg hhash]
    split
    · next hfirst =>
      split
      · next b d rest' =>
        refine if_neg fun hmark' => hmark ?_
        rw [hfirst, hmark'.1, hmark'.2]
        rfl
      · rfl
    · rfl

/-- What a loop over the characters of a text passes, when the text is all of them. -/
theorem dropWhile_append_of_head {p : UInt8 → Bool} {text rest : Bytes}
    (htext : ∀ c ∈ text, p c = true) (hrest : ∀ c ∈ rest.head?, p c = false) :
    (text ++ rest).dropWhile p = rest := by
  rw [List.dropWhile_append_of_pos htext]
  cases rest with
  | nil => rfl
  | cons c rest => rw [List.dropWhile_cons_of_neg (by rw [hrest c rfl]; decide)]

theorem takeWhile_append_of_head {p : UInt8 → Bool} {text rest : Bytes}
    (htext : ∀ c ∈ text, p c = true) (hrest : ∀ c ∈ rest.head?, p c = false) :
    (text ++ rest).takeWhile p = text := by
  rw [List.takeWhile_append_of_pos htext]
  cases rest with
  | nil => exact List.append_nil _
  | cons c rest => rw [List.takeWhile_cons_of_neg (by rw [hrest c rfl]; decide), List.append_nil]

theorem head_dropWhile (p : UInt8 → Bool) (s : Bytes) :
    ∀ c ∈ (s.dropWhile p).head?, p c = false := by
  intro c hc
  have hnot := List.head?_dropWhile_not p s
  rw [hc] at hnot
  exact hnot

/-- **What `skip` passes over** is what the grammar ignores. -/
theorem skipsIgnored_iff {s s' : Bytes} : SkipsIgnored s s' ↔ skipIgnored false s = s' := by
  constructor
  · intro h
    induction h with
    | character hc _ ih => rw [skipIgnored_character hc, ih]
    | mark _ ih => rw [skipIgnored_mark, ih]
    | comment htext hrest _ ih =>
      rw [List.cons_append, skipIgnored_hash, dropWhile_append_of_head
        (fun c hc => by rw [htext c hc]; rfl) (fun c hc => by rw [hrest c hc]; rfl), ih]
    | done hchar hmark => exact skipIgnored_done hchar hmark
  · -- by the length of what is left: a comment is passed in one step
    rintro rfl
    induction hn : s.length using Nat.strongRecOn generalizing s with
    | _ n ih =>
      subst hn
      by_cases hmark : s.take 3 = byteOrderMark
      · obtain ⟨rest, rfl⟩ : ∃ rest, s = byteOrderMark ++ rest :=
          ⟨s.drop 3, by rw [← hmark, List.take_append_drop]⟩
        rw [skipIgnored_mark]
        refine .mark (ih rest.length ?_ rfl)
        rw [List.length_append]
        exact Nat.lt_add_of_pos_left (by decide)
      cases s with
      | nil => exact .done (fun c hc => by cases hc) hmark
      | cons c rest =>
        by_cases hc : c ∈ ignored
        · rw [skipIgnored_character hc]
          exact .character hc (ih rest.length (Nat.lt_succ_self _) rfl)
        by_cases hhash : c = '#'.toUInt8
        · subst hhash
          have hlen := dropWhile_length_le (fun c => !isLineEnd c) rest
          have hrest := ih _ (Nat.lt_succ_of_le hlen) rfl
          rw [← skipIgnored_hash] at hrest
          have htext : ∀ c ∈ rest.takeWhile (fun c => !isLineEnd c), isLineEnd c = false :=
            fun c hc => by simpa using List.mem_takeWhile_imp hc
          have hcomment := SkipsIgnored.comment htext
            (fun c hc => by simpa using head_dropWhile _ rest c hc) hrest
          rwa [List.cons_append, List.takeWhile_append_dropWhile] at hcomment
        · have hchar : ∀ d ∈ (c :: rest).head?, d ∉ ignored ∧ d ≠ '#'.toUInt8 := by
            rintro d ⟨⟩
            exact ⟨hc, hhash⟩
          rw [skipIgnored_done hchar hmark]
          exact .done hchar hmark

/-! ## Numbers -/

/-- What every byte is, by looking at all of them. -/
theorem forall_byte {P : UInt8 → Prop} (h : ∀ n : Fin 256, P (UInt8.ofNat n)) (c : UInt8) :
    P c := by
  simpa using h ⟨c.toNat, c.toNat_lt⟩

/-- A digit is a name character, and none of the signs and marks of a number. -/
theorem isDigit_class {c : UInt8} (h : isDigit c) :
    isNameContinue c ∧ c ≠ '-'.toUInt8 ∧ c ≠ '.'.toUInt8 := by
  revert h
  refine forall_byte (P := fun c => isDigit c →
    isNameContinue c ∧ c ≠ '-'.toUInt8 ∧ c ≠ '.'.toUInt8) ?_ c
  decide +kernel

/-- The first character of what is behind a number, which ends it. -/
def EndsNumber (rest : Bytes) : Prop := ∀ c ∈ rest.head?, isNameContinue c = false

theorem EndsNumber.not_digit {rest : Bytes} (h : EndsNumber rest) :
    ∀ c ∈ rest.head?, isDigit c = false := by
  intro c hc
  by_contra hdigit
  have := (isDigit_class (by simpa using hdigit)).1
  rw [h c hc] at this
  cases this

theorem EndsNumber.not_exponent {rest : Bytes} (h : EndsNumber rest) :
    ¬ (rest.head? = some 'e'.toUInt8 ∨ rest.head? = some 'E'.toUInt8) := by
  rintro (he | he)
  · exact absurd (h _ he) (by decide)
  · exact absurd (h _ he) (by decide)

theorem NaturalPart.head {n : Bytes} (h : NaturalPart n) :
    ∃ d digits, n = d :: digits ∧ isDigit d := by
  cases h with
  | zero => exact ⟨_, _, rfl, by decide⟩
  | nonZero hd _ _ => exact ⟨_, _, rfl, hd⟩

theorem Digits.head {digits : Bytes} (h : Digits digits) :
    ∃ d rest, digits = d :: rest ∧ isDigit d := by
  cases digits with
  | nil => exact absurd rfl h.nonempty
  | cons d rest => exact ⟨d, rest, rfl, h.all d (List.mem_cons_self ..)⟩

theorem scanDigits_append {digits rest : Bytes} (h : Digits digits)
    (hrest : ∀ c ∈ rest.head?, isDigit c = false) : scanDigits (digits ++ rest) = .ok rest := by
  obtain ⟨d, digits', heq, hd⟩ := h.head
  have hhead : (digits ++ rest).head?.any isDigit = true := by rw [heq]; simpa using hd
  rw [scanDigits, if_pos hhead, dropWhile_append_of_head h.all hrest]

theorem scanDigits_ok {s rest : Bytes} (h : scanDigits s = .ok rest) :
    ∃ digits, Digits digits ∧ s = digits ++ rest ∧ ∀ c ∈ rest.head?, isDigit c = false := by
  rw [scanDigits] at h
  split at h
  · next hhead =>
    cases h
    refine ⟨s.takeWhile isDigit, ⟨?_, fun c hc => List.mem_takeWhile_imp hc⟩,
      List.takeWhile_append_dropWhile.symm, head_dropWhile isDigit s⟩
    cases s with
    | nil => cases hhead
    | cons d s =>
      rw [List.takeWhile_cons_of_pos (by simpa using hhead)]
      exact List.cons_ne_nil _ _
  · cases h

/-- The sign is behind a minus, and a digit follows. -/
theorem scanSign_append {i : Bytes} (h : IntegerPart i) :
    ∃ n, NaturalPart n ∧ ∀ rest, scanSign (i ++ rest) = .ok (n ++ rest) := by
  cases h with
  | positive hn =>
    obtain ⟨d, digits, rfl, hd⟩ := hn.head
    refine ⟨_, hn, fun rest => if_neg fun hminus => ?_⟩
    exact (isDigit_class hd).2.1 (Option.some.inj hminus)
  | @negative n hn =>
    obtain ⟨d, digits, rfl, hd⟩ := hn.head
    refine ⟨_, hn, fun rest => ?_⟩
    rw [scanSign]
    exact (if_pos rfl).trans (if_pos (by simpa using hd))

theorem scanInteger_append {n rest : Bytes} (h : NaturalPart n)
    (hrest : ∀ c ∈ rest.head?, isDigit c = false) : scanInteger (n ++ rest) = rest := by
  cases h with
  | zero => rfl
  | @nonZero d digits hd hzero hdigits =>
    rw [scanInteger]
    refine (if_neg fun hhead => hzero (Option.some.inj hhead)).trans ?_
    exact dropWhile_append_of_head (List.forall_mem_cons.mpr ⟨hd, hdigits⟩) hrest

theorem scanFraction_none {rest : Bytes} (hrest : rest.head? ≠ some '.'.toUInt8) :
    scanFraction rest = .ok (.integer, rest) := if_neg hrest

theorem scanFraction_append {f rest : Bytes} (h : FractionalPart f)
    (hrest : ∀ c ∈ rest.head?, isDigit c = false) :
    scanFraction (f ++ rest) = .ok (.floating, rest) := by
  cases h with
  | mk hdigits =>
    rw [scanFraction]
    refine (if_pos rfl).trans ?_
    rw [List.cons_append, List.tail_cons, scanDigits_append hdigits hrest]
    rfl

theorem scanExponent_none {type : TokenType} {rest : Bytes} (hrest : EndsNumber rest) :
    scanExponent type rest = .ok (type, rest) := if_neg hrest.not_exponent

theorem scanExponent_cons {type : TokenType} {e : UInt8} (he : e = 'e'.toUInt8 ∨ e = 'E'.toUInt8)
    (s : Bytes) : scanExponent type (e :: s) =
      (scanDigits (if s.head? = some '-'.toUInt8 then s.tail else s)).map
        fun s => (.floating, s) := by
  rw [scanExponent]
  refine if_pos ?_
  rcases he with rfl | rfl
  · exact .inl rfl
  · exact .inr rfl

theorem scanExponent_append {type : TokenType} {e rest : Bytes} (h : ExponentPart false e)
    (hrest : EndsNumber rest) : scanExponent type (e ++ rest) = .ok (.floating, rest) := by
  cases h with
  | @mk e sign digits he hsign hdigits =>
    have hscan := scanDigits_append hdigits hrest.not_digit
    have hsigned : (if (sign ++ digits ++ rest).head? = some '-'.toUInt8
        then (sign ++ digits ++ rest).tail else sign ++ digits ++ rest) = digits ++ rest := by
      cases hsign with
      | none =>
        obtain ⟨d, digits', rfl, hd⟩ := hdigits.head
        exact if_neg fun hminus => (isDigit_class hd).2.1 (Option.some.inj hminus)
      | minus => exact if_pos rfl
    show scanExponent type (e :: (sign ++ digits ++ rest)) = _
    rw [scanExponent_cons he, hsigned, hscan]
    rfl

/-- A plus sign stands where the first digit is expected. -/
theorem scanExponent_plus (type : TokenType) {e : Bytes} (h : ExponentPart true e) (rest : Bytes) :
    ∃ left, scanExponent type (e ++ rest) = .error left := by
  cases h with
  | @mk e sign digits he hsign hdigits =>
    cases hsign with
    | plus =>
      show ∃ left, scanExponent type (e :: ('+'.toUInt8 :: (digits ++ rest))) = _
      rw [scanExponent_cons he]
      exact ⟨_, rfl⟩

/-- The scan of a number, part by part. -/
theorem scanNumber_parts {s s₁ s₃ s₄ : Bytes} {type type' : TokenType} (hsign : scanSign s = .ok s₁)
    (hfraction : scanFraction (scanInteger s₁) = .ok (type, s₃))
    (hexponent : scanExponent type s₃ = .ok (type', s₄)) (hends : EndsNumber s₄) :
    scanNumber s = .ok (type', s₄) := by
  have hnone : s₄.head?.any isNameContinue = false := by
    cases s₄ with
    | nil => rfl
    | cons c s₄ => exact hends c rfl
  rw [scanNumber, hsign]
  dsimp only [bind, Except.bind]
  rw [hfraction]
  dsimp only
  rw [hexponent]
  exact if_neg (by rw [hnone]; decide)

theorem scanNumber_error {s s₁ s₃ left : Bytes} {type : TokenType} (hsign : scanSign s = .ok s₁)
    (hfraction : scanFraction (scanInteger s₁) = .ok (type, s₃))
    (hexponent : scanExponent type s₃ = .error left) : scanNumber s = .error left := by
  rw [scanNumber, hsign]
  dsimp only [bind, Except.bind]
  rw [hfraction]
  dsimp only
  rw [hexponent]

theorem ExponentPart.head {plus : Bool} {e : Bytes} (h : ExponentPart plus e) (rest : Bytes) :
    ∀ c ∈ (e ++ rest).head?, isDigit c = false ∧ c ≠ '.'.toUInt8 := by
  obtain ⟨he, -, -⟩ := h
  rintro c ⟨⟩
  rcases he with rfl | rfl <;> decide

/-- The integer part in front of a fraction. -/
theorem scanInteger_fraction {n f : Bytes} (hn : NaturalPart n) (hf : FractionalPart f)
    (rest : Bytes) : scanInteger (n ++ (f ++ rest)) = f ++ rest := by
  refine scanInteger_append hn fun c hc => ?_
  obtain ⟨-⟩ := hf
  cases hc
  decide

/-- The integer part in front of an exponent: there is no fraction. -/
theorem scanFraction_exponent {plus : Bool} {n e : Bytes} (hn : NaturalPart n)
    (he : ExponentPart plus e) (rest : Bytes) :
    scanFraction (scanInteger (n ++ (e ++ rest))) = .ok (.integer, e ++ rest) := by
  rw [scanInteger_append hn fun c hc => (he.head rest c hc).1,
    scanFraction_none fun hdot => (he.head rest _ hdot).2 rfl]

/-- An integer part and a fraction in front of an exponent. -/
theorem scanFraction_both {plus : Bool} {n f e : Bytes} (hn : NaturalPart n)
    (hf : FractionalPart f) (he : ExponentPart plus e) (rest : Bytes) :
    scanFraction (scanInteger (n ++ (f ++ (e ++ rest)))) = .ok (.floating, e ++ rest) := by
  rw [scanInteger_fraction hn hf, scanFraction_append hf fun c hc => (he.head rest c hc).1]

/-- **A number of the grammar is read**, unless its exponent has a plus sign. Only behind an
integer a point matters, as it would make a fraction of it. -/
theorem scanNumber_complete {type : TokenType} {text rest : Bytes}
    (h : NumberText type false text) (hends : EndsNumber rest)
    (hpoint : type = .integer → rest.head? ≠ some '.'.toUInt8) :
    scanNumber (text ++ rest) = .ok (type, rest) := by
  cases h with
  | integer hi =>
    obtain ⟨n, hn, hsign⟩ := scanSign_append hi
    refine scanNumber_parts (hsign rest) ?_ (scanExponent_none hends) hends
    rw [scanInteger_append hn hends.not_digit, scanFraction_none (hpoint rfl)]
  | fraction hi hf =>
    obtain ⟨n, hn, hsign⟩ := scanSign_append hi
    rw [List.append_assoc]
    refine scanNumber_parts (hsign _) ?_ (scanExponent_none hends) hends
    rw [scanInteger_fraction hn hf, scanFraction_append hf hends.not_digit]
  | exponent hi he =>
    obtain ⟨n, hn, hsign⟩ := scanSign_append hi
    rw [List.append_assoc]
    exact scanNumber_parts (hsign _) (scanFraction_exponent hn he rest)
      (scanExponent_append he hends) hends
  | both hi hf he =>
    obtain ⟨n, hn, hsign⟩ := scanSign_append hi
    rw [List.append_assoc, List.append_assoc]
    exact scanNumber_parts (hsign _) (scanFraction_both hn hf he rest)
      (scanExponent_append he hends) hends

/-- A number with a plus sign is an error. -/
theorem scanNumber_plus {type : TokenType} {text : Bytes} (h : NumberText type true text)
    (rest : Bytes) : ∃ left, scanNumber (text ++ rest) = .error left := by
  cases h with
  | exponent hi he =>
    obtain ⟨n, hn, hsign⟩ := scanSign_append hi
    obtain ⟨left, hleft⟩ := scanExponent_plus .integer he rest
    rw [List.append_assoc]
    exact ⟨left, scanNumber_error (hsign _) (scanFraction_exponent hn he rest) hleft⟩
  | both hi hf he =>
    obtain ⟨n, hn, hsign⟩ := scanSign_append hi
    obtain ⟨left, hleft⟩ := scanExponent_plus .floating he rest
    rw [List.append_assoc, List.append_assoc]
    exact ⟨left, scanNumber_error (hsign _) (scanFraction_both hn hf he rest) hleft⟩

/-! What each part has read. -/

theorem scanSign_ok {c : UInt8} {s rest : Bytes} (hc : c = '-'.toUInt8 ∨ isDigit c)
    (h : scanSign (c :: s) = .ok rest) :
    (∃ d rest', rest = d :: rest' ∧ isDigit d) ∧
      (c :: s = rest ∨ c :: s = '-'.toUInt8 :: rest) := by
  refine ⟨(scanSign_digit hc h).1, ?_⟩
  unfold scanSign at h
  split at h
  · next hminus =>
    obtain rfl : c = '-'.toUInt8 := Option.some.inj hminus
    split at h
    · cases h
      exact .inr rfl
    · cases h
  · cases h
    exact .inl rfl

theorem scanInteger_ok {d : UInt8} (s : Bytes) (hd : isDigit d) :
    ∃ n, NaturalPart n ∧ d :: s = n ++ scanInteger (d :: s) := by
  unfold scanInteger
  split
  · next hzero =>
    obtain rfl : d = '0'.toUInt8 := Option.some.inj hzero
    exact ⟨_, .zero, rfl⟩
  · next hzero =>
    rw [List.dropWhile_cons_of_pos hd]
    refine ⟨d :: s.takeWhile isDigit, .nonZero hd (fun h => hzero (by rw [h]; rfl))
      fun c hc => List.mem_takeWhile_imp hc, ?_⟩
    rw [List.cons_append, List.takeWhile_append_dropWhile]

theorem scanFraction_ok {s rest : Bytes} {type : TokenType}
    (h : scanFraction s = .ok (type, rest)) :
    (rest = s ∧ type = .integer ∧ s.head? ≠ some '.'.toUInt8) ∨
      ∃ f, FractionalPart f ∧ s = f ++ rest ∧ type = .floating := by
  rcases scanFraction_cases h with ⟨hpoint, hdigits, rfl⟩ | ⟨hpoint, rfl, rfl⟩
  · obtain ⟨t, rfl⟩ : ∃ t, s = '.'.toUInt8 :: t := List.head?_eq_some_iff.mp hpoint
    obtain ⟨digits, hall, rfl, -⟩ := scanDigits_ok hdigits
    exact .inr ⟨_, ⟨hall⟩, rfl, rfl⟩
  · exact .inl ⟨rfl, rfl, hpoint⟩

theorem scanExponent_ok {s rest : Bytes} {type type' : TokenType}
    (h : scanExponent type s = .ok (type', rest)) :
    (rest = s ∧ type' = type) ∨
      ∃ e, ExponentPart false e ∧ s = e ++ rest ∧ type' = .floating := by
  rcases scanExponent_cases h with ⟨hhead, hdigits, rfl⟩ | ⟨-, rfl, rfl⟩
  · obtain ⟨e, t, rfl, he⟩ : ∃ e t, s = e :: t ∧ (e = 'e'.toUInt8 ∨ e = 'E'.toUInt8) := by
      rcases hhead with h' | h'
      · exact ⟨_, _, (List.head?_eq_some_iff.mp h').choose_spec, .inl rfl⟩
      · exact ⟨_, _, (List.head?_eq_some_iff.mp h').choose_spec, .inr rfl⟩
    rw [List.tail_cons] at hdigits
    -- the sign is taken off before the digits
    obtain ⟨sign, hsign, hsplit⟩ : ∃ sign, ExponentSign false sign ∧
        t = sign ++ if t.head? = some '-'.toUInt8 then t.tail else t := by
      split
      · next hminus =>
        obtain ⟨t', rfl⟩ := List.head?_eq_some_iff.mp hminus
        exact ⟨_, .minus, rfl⟩
      · exact ⟨_, .none, rfl⟩
    generalize (if t.head? = some '-'.toUInt8 then t.tail else t) = text at hdigits hsplit
    subst hsplit
    obtain ⟨digits, hall, rfl, -⟩ := scanDigits_ok hdigits
    exact .inr ⟨_, ⟨he, hsign, hall⟩, by simp, rfl⟩
  · exact .inl ⟨rfl, rfl⟩

/-- **What is read as a number is one**, and what is behind it ends it, but for a point
behind a floating one. -/
theorem scanNumber_sound {c : UInt8} {s rest : Bytes} {type : TokenType}
    (hc : c = '-'.toUInt8 ∨ isDigit c) (h : scanNumber (c :: s) = .ok (type, rest)) :
    ∃ text, NumberText type false text ∧ c :: s = text ++ rest ∧ EndsNumber rest ∧
      (type = .integer → rest.head? ≠ some '.'.toUInt8) := by
  obtain ⟨s₁, type₁, s₃, hsign, hfraction, hexponent, hnone⟩ := scanNumber_ok h
  have hends : EndsNumber rest := by
    intro x hx
    rw [Option.mem_def.mp hx] at hnone
    simpa using hnone
  obtain ⟨⟨d, s₂, rfl, hd⟩, hsigned⟩ := scanSign_ok hc hsign
  obtain ⟨n, hn, hint⟩ := scanInteger_ok s₂ hd
  -- the integer part, with its sign
  obtain ⟨i, hi, hfront⟩ : ∃ i, IntegerPart i ∧ c :: s = i ++ scanInteger (d :: s₂) := by
    rcases hsigned with heq | heq
    · exact ⟨n, .positive hn, heq.trans hint⟩
    · refine ⟨_, .negative hn, ?_⟩
      rw [heq, List.cons_append, ← hint]
  rw [hfront]
  rcases scanFraction_ok hfraction with ⟨rfl, rfl, hpoint⟩ | ⟨f, hf, hs₃, rfl⟩
  · rcases scanExponent_ok hexponent with ⟨rfl, rfl⟩ | ⟨e, he, hs₄, rfl⟩
    · exact ⟨i, .integer hi, rfl, hends, fun _ => hpoint⟩
    · refine ⟨i ++ e, .exponent hi he, ?_, hends, fun h => by cases h⟩
      rw [hs₄, List.append_assoc]
  · rcases scanExponent_ok hexponent with ⟨rfl, rfl⟩ | ⟨e, he, hs₄, rfl⟩
    · refine ⟨i ++ f, .fraction hi hf, ?_, hends, fun h => by cases h⟩
      rw [hs₃, List.append_assoc]
    · refine ⟨i ++ f ++ e, .both hi hf he, ?_, hends, fun h => by cases h⟩
      rw [hs₃, hs₄, List.append_assoc, List.append_assoc]

/-! ## Strings -/

/-- **The text of a string is read up to the closing quote.** -/
theorem scanString_append {text : Bytes} (h : StringText text) (rest : Bytes) :
    scanString (text ++ quote :: rest) = some (text, rest) := by
  induction h with
  | nil =>
    rw [List.nil_append, scanString.eq_def]
    exact if_pos rfl
  | char hquote hbackslash _ ih =>
    rw [List.cons_append, scanString.eq_def]
    dsimp only
    rw [if_neg hquote, if_neg hbackslash, ih]
    rfl
  | escape c _ ih =>
    rw [List.cons_append, List.cons_append, scanString.eq_def]
    dsimp only
    rw [if_neg (by decide), if_pos rfl, ih]
    rfl

theorem scanString_sound {s text rest : Bytes} (h : scanString s = some (text, rest)) :
    StringText text ∧ s = text ++ quote :: rest := by
  fun_induction scanString s generalizing text rest with
  | case1 => cases h
  | case2 s =>
    cases h
    exact ⟨.nil, rfl⟩
  | case3 => cases h
  | case4 d s hquote ih =>
    obtain ⟨⟨text', rest'⟩, hscan, heq⟩ := Option.map_eq_some_iff.mp h
    cases heq
    obtain ⟨htext, rfl⟩ := ih hscan
    exact ⟨.escape d htext, rfl⟩
  | case5 c s hquote hbackslash ih =>
    obtain ⟨⟨text', rest'⟩, hscan, heq⟩ := Option.map_eq_some_iff.mp h
    cases heq
    obtain ⟨htext, rfl⟩ := ih hscan
    exact ⟨.char hquote hbackslash htext, rfl⟩

/-- Without a quote in it a text does not end. -/
theorem scanString_open {text : Bytes} (h : StringText text) :
    scanString text = none ∧ scanString (text ++ [backslash]) = none := by
  induction h with
  | nil => exact ⟨rfl, rfl⟩
  | char hquote hbackslash _ ih =>
    obtain ⟨htext, hend⟩ := ih
    constructor
    · rw [scanString.eq_def]
      dsimp only
      rw [if_neg hquote, if_neg hbackslash, htext]
      rfl
    · rw [List.cons_append, scanString.eq_def]
      dsimp only
      rw [if_neg hquote, if_neg hbackslash, hend]
      rfl
  | escape c _ ih =>
    obtain ⟨htext, hend⟩ := ih
    constructor
    · rw [scanString.eq_def]
      dsimp only
      rw [if_neg (by decide), if_pos rfl, htext]
      rfl
    · rw [List.cons_append, List.cons_append, scanString.eq_def]
      dsimp only
      rw [if_neg (by decide), if_pos rfl, hend]
      rfl

theorem scanString_none_iff {s : Bytes} :
    scanString s = none ↔ ∃ text, StringText text ∧ (s = text ∨ s = text ++ [backslash]) := by
  constructor
  · intro h
    fun_induction scanString s with
    | case1 => exact ⟨[], .nil, .inl rfl⟩
    | case2 => cases h
    | case3 => exact ⟨[], .nil, .inr rfl⟩
    | case4 d s hquote ih =>
      obtain ⟨text, htext, hs⟩ := ih (Option.map_eq_none_iff.mp h)
      refine ⟨_, .escape d htext, ?_⟩
      rcases hs with rfl | rfl
      · exact .inl rfl
      · exact .inr rfl
    | case5 c s hquote hbackslash ih =>
      obtain ⟨text, htext, hs⟩ := ih (Option.map_eq_none_iff.mp h)
      refine ⟨_, .char hquote hbackslash htext, ?_⟩
      rcases hs with rfl | rfl
      · exact .inl rfl
      · exact .inr rfl
  · rintro ⟨text, htext, rfl | rfl⟩
    · exact (scanString_open htext).1
    · exact (scanString_open htext).2

/-- An opening quote without a closing one. -/
def Unterminated (input : Bytes) : Prop :=
  ∃ text, StringText text ∧ (input = quote :: text ∨ input = quote :: text ++ [backslash])

/-- A number with a plus sign in its exponent. -/
def PlusExponent (input : Bytes) : Prop :=
  ∃ type text rest, NumberText type true text ∧
    (∀ c ∈ rest.head?, isNameContinue c = false ∧ c ≠ '.'.toUInt8) ∧ input = text ++ rest

/-- A floating number with a point behind it, which is no token. -/
def PointBehind (input : Bytes) : Prop :=
  ∃ text rest, NumberText .floating false text ∧ rest.head? = some '.'.toUInt8 ∧
    input = text ++ rest

/-! ## Which token is taken -/

section Dispatch

variable {stale : TokenType} {c : UInt8} {rest : Bytes}

theorem isNameStart_class (h : isNameStart c) :
    c ∉ punctuators ∧ c ≠ '.'.toUInt8 ∧ c ≠ quote := by
  revert h
  refine forall_byte (P := fun c => isNameStart c →
    c ∉ punctuators ∧ c ≠ '.'.toUInt8 ∧ c ≠ quote) ?_ c
  decide +kernel

/-- The first character of a number. -/
theorem numberStart_class (h : c = '-'.toUInt8 ∨ isDigit c) :
    c ∉ punctuators ∧ c ≠ '.'.toUInt8 ∧ c ≠ quote ∧ isNameStart c = false := by
  revert h
  refine forall_byte (P := fun c => (c = '-'.toUInt8 ∨ isDigit c) →
    c ∉ punctuators ∧ c ≠ '.'.toUInt8 ∧ c ≠ quote ∧ isNameStart c = false) ?_ c
  decide +kernel

theorem lexToken_name (hc : isNameStart c) :
    lexToken stale (c :: rest) =
      { input := rest.dropWhile isNameContinue, currentType := .name,
        currentValue := c :: rest.takeWhile isNameContinue } := by
  obtain ⟨hpunct, hpoint, hquote⟩ := isNameStart_class hc
  rw [lexToken, if_neg hpunct, if_neg fun h => hpoint h.1, if_neg hquote, if_pos hc]

theorem lexToken_string {value rest' : Bytes} (hblock : rest.take 2 ≠ [quote, quote])
    (hscan : scanString rest = some (value, rest')) :
    lexToken stale (quote :: rest) =
      { input := rest', currentType := .string, currentValue := value } := by
  rw [lexToken, if_neg (by decide), if_neg fun h => absurd h.1 (by decide), if_pos rfl,
    if_neg hblock, hscan]

theorem lexToken_unterminated (hblock : rest.take 2 ≠ [quote, quote])
    (hscan : scanString rest = none) :
    lexToken stale (quote :: rest) = { input := [], currentType := stale } := by
  rw [lexToken, if_neg (by decide), if_neg fun h => absurd h.1 (by decide), if_pos rfl,
    if_neg hblock, hscan]

theorem lexToken_number {type : TokenType} {text rest : Bytes}
    (hhead : ∃ c s, text = c :: s ∧ (c = '-'.toUInt8 ∨ isDigit c))
    (hscan : scanNumber (text ++ rest) = .ok (type, rest)) :
    lexToken stale (text ++ rest) =
      { input := rest, currentType := type, currentValue := text } := by
  obtain ⟨c, s, rfl, hc⟩ := hhead
  obtain ⟨hpunct, hpoint, hquote, hname⟩ := numberStart_class hc
  rw [List.cons_append] at hscan ⊢
  rw [lexToken, if_neg hpunct, if_neg fun h => hpoint h.1, if_neg hquote,
    if_neg (by rw [hname]; decide), if_pos hc, hscan]
  have hlen : (c :: (s ++ rest)).length - rest.length = (c :: s).length := by
    rw [← List.cons_append, List.length_append]
    omega
  dsimp only
  rw [hlen, ← List.cons_append, List.take_left]

theorem lexToken_number_error {text rest left : Bytes}
    (hhead : ∃ c s, text = c :: s ∧ (c = '-'.toUInt8 ∨ isDigit c))
    (hscan : scanNumber (text ++ rest) = .error left) :
    (lexToken stale (text ++ rest)).currentType = .error := by
  obtain ⟨c, s, rfl, hc⟩ := hhead
  obtain ⟨hpunct, hpoint, hquote, hname⟩ := numberStart_class hc
  rw [List.cons_append] at hscan ⊢
  rw [lexToken, if_neg hpunct, if_neg fun h => hpoint h.1, if_neg hquote,
    if_neg (by rw [hname]; decide), if_pos hc, hscan]

theorem NumberText.head {type : TokenType} {plus : Bool} {text : Bytes}
    (h : NumberText type plus text) :
    ∃ c s, text = c :: s ∧ (c = '-'.toUInt8 ∨ isDigit c) := by
  have hinteger : ∀ {i : Bytes}, IntegerPart i →
      ∃ c s, i = c :: s ∧ (c = '-'.toUInt8 ∨ isDigit c) := by
    rintro i (⟨hn⟩ | ⟨hn⟩)
    · obtain ⟨d, digits, rfl, hd⟩ := hn.head
      exact ⟨d, digits, rfl, .inr hd⟩
    · exact ⟨_, _, rfl, .inl rfl⟩
  cases h with
  | integer hi => exact hinteger hi
  | fraction hi hf =>
    obtain ⟨c, s, rfl, hc⟩ := hinteger hi
    exact ⟨c, _, rfl, hc⟩
  | exponent hi he =>
    obtain ⟨c, s, rfl, hc⟩ := hinteger hi
    exact ⟨c, _, rfl, hc⟩
  | both hi hf he =>
    obtain ⟨c, s, rfl, hc⟩ := hinteger hi
    exact ⟨c, _, rfl, hc⟩

end Dispatch

/-! ## The token of an input -/

/-- An input that starts like a number has only a number for a token. -/
theorem Lexeme.number_of_start {c : UInt8} {s value rest : Bytes} {type : TokenType}
    (hc : c = '-'.toUInt8 ∨ isDigit c) (h : Lexeme (c :: s) type value rest) :
    ∃ plus, NumberText type plus value ∧
      (∀ c ∈ rest.head?, isNameContinue c = false ∧ c ≠ '.'.toUInt8) ∧ c :: s = value ++ rest := by
  obtain ⟨hpunct, hpoint, hquote, hname⟩ := numberStart_class hc
  generalize hinput : c :: s = input at h
  cases h with
  | eof => cases hinput
  | punctuator hc' =>
    cases hinput
    exact absurd hc' hpunct
  | spread =>
    cases hinput
    exact absurd rfl hpoint
  | name hc' =>
    cases hinput
    rw [hname] at hc'
    cases hc'
  | number htext hrest => exact ⟨_, htext, hrest, rfl⟩
  | string =>
    cases hinput
    exact absurd rfl hquote

/-- An input that starts like a string has only a string for a token. -/
theorem Lexeme.string_of_start {s value rest : Bytes} {type : TokenType}
    (h : Lexeme (quote :: s) type value rest) :
    type = .string ∧ StringText value ∧ s = value ++ quote :: rest ∧
      (value = [] → rest.head? ≠ some quote) := by
  generalize hinput : quote :: s = input at h
  cases h with
  | eof => cases hinput
  | punctuator hc =>
    cases hinput
    exact absurd hc (by decide)
  | spread => cases hinput
  | name hc =>
    cases hinput
    exact absurd hc (by decide)
  | number htext =>
    obtain ⟨c, t, rfl, hc⟩ := htext.head
    cases hinput
    exact absurd hc (by decide)
  | string htext hblock =>
    cases hinput
    exact ⟨rfl, htext, rfl, hblock⟩

/-- Two quotes behind an opening one. -/
theorem take_two_quotes_iff {text rest : Bytes} (h : StringText text) :
    (text ++ quote :: rest).take 2 = [quote, quote] ↔ text = [] ∧ rest.head? = some quote := by
  cases h with
  | nil =>
    cases rest with
    | nil => simp
    | cons c rest => simp
  | char hquote hbackslash h =>
    refine iff_of_false (fun htake => hquote (List.cons.inj htake).1) fun h => by cases h.1
  | escape c h =>
    refine iff_of_false (fun htake => ?_) fun h => by cases h.1
    exact absurd (List.cons.inj htake).1 (by decide)

/-- **Every token of the grammar is taken**, but for a number with a plus sign. -/
theorem lexToken_complete {stale type : TokenType} {input value rest : Bytes}
    (h : Lexeme input type value rest) (hplus : ¬ PlusExponent input) :
    (lexToken stale input).currentType = type ∧ (lexToken stale input).currentValue = value ∧
      (lexToken stale input).input = rest := by
  cases h with
  | eof => exact ⟨rfl, rfl, rfl⟩
  | punctuator hc =>
    rw [lexToken, if_pos hc]
    exact ⟨rfl, rfl, rfl⟩
  | spread rest =>
    rw [show ascii "..." ++ rest = '.'.toUInt8 :: (ascii ".." ++ rest) from rfl, lexToken,
      if_neg (by decide), if_pos ⟨rfl, rfl⟩]
    exact ⟨rfl, rfl, rfl⟩
  | @name c text rest hc htext hrest =>
    rw [List.cons_append, lexToken_name hc, dropWhile_append_of_head htext hrest,
      takeWhile_append_of_head htext hrest]
    exact ⟨rfl, rfl, rfl⟩
  | @number _ plus _ _ htext hrest =>
    cases plus with
    | true => exact absurd ⟨type, value, rest, htext, hrest, rfl⟩ hplus
    | false =>
      rw [lexToken_number htext.head (scanNumber_complete htext (fun c hc => (hrest c hc).1)
        fun _ hpoint => (hrest _ hpoint).2 rfl)]
      exact ⟨rfl, rfl, rfl⟩
  | string htext hblock =>
    have hquotes : (value ++ quote :: rest).take 2 ≠ [quote, quote] := by
      rw [Ne, take_two_quotes_iff htext]
      exact fun h => hblock h.1 h.2
    rw [List.cons_append, lexToken_string hquotes (scanString_append htext rest)]
    exact ⟨rfl, rfl, rfl⟩

/-- **What is taken is a token of the grammar**, but for an unterminated string and a floating
number with a point behind it. -/
theorem lexToken_sound {stale : TokenType} {input : Bytes}
    (htype : (lexToken stale input).currentType ≠ .error) (hstring : ¬ Unterminated input)
    (hpoint : ¬ PointBehind input) : ∃ type value rest, Lexeme input type value rest := by
  cases input with
  | nil => exact ⟨_, _, _, .eof⟩
  | cons c s =>
    by_cases hpunct : c ∈ punctuators
    · exact ⟨_, _, _, .punctuator hpunct s⟩
    by_cases hspread : c = '.'.toUInt8 ∧ s.take 2 = ascii ".."
    · obtain ⟨rfl, htake⟩ := hspread
      have hs : s = ascii ".." ++ s.drop 2 := by rw [← htake, List.take_append_drop]
      rw [hs]
      exact ⟨_, _, _, .spread (s.drop 2)⟩
    by_cases hquote : c = quote
    · subst hquote
      rw [lexToken, if_neg hpunct, if_neg hspread, if_pos rfl] at htype
      split at htype
      · exact absurd rfl htype
      next hblock =>
      cases hscan : scanString s with
      | none =>
        obtain ⟨text, htext, hs⟩ := scanString_none_iff.mp hscan
        refine absurd ⟨text, htext, ?_⟩ hstring
        rcases hs with rfl | rfl
        · exact .inl rfl
        · exact .inr rfl
      | some r =>
        obtain ⟨text, rest⟩ := r
        obtain ⟨htext, rfl⟩ := scanString_sound hscan
        rw [take_two_quotes_iff htext] at hblock
        exact ⟨_, _, _, .string htext fun hnil hhead => hblock ⟨hnil, hhead⟩⟩
    by_cases hname : isNameStart c
    · have htext : ∀ d ∈ s.takeWhile isNameContinue, isNameContinue d :=
        fun d hd => List.mem_takeWhile_imp hd
      have htoken := Lexeme.name hname htext (head_dropWhile isNameContinue s)
      rw [List.cons_append, List.takeWhile_append_dropWhile] at htoken
      exact ⟨_, _, _, htoken⟩
    by_cases hnumber : c = '-'.toUInt8 ∨ isDigit c
    · rw [lexToken, if_neg hpunct, if_neg hspread, if_neg hquote, if_neg hname, if_pos hnumber]
        at htype
      cases hscan : scanNumber (c :: s) with
      | error left =>
        rw [hscan] at htype
        exact absurd rfl htype
      | ok r =>
        obtain ⟨type, rest⟩ := r
        obtain ⟨text, htext, hsplit, hends, hinteger⟩ := scanNumber_sound hnumber hscan
        rw [hsplit] at hpoint ⊢
        refine ⟨_, _, _, .number htext fun d hd => ⟨hends d hd, ?_⟩⟩
        rintro rfl
        -- only a floating number leaves a point
        cases htext with
        | integer hi => exact hinteger rfl hd
        | fraction hi hf => exact hpoint ⟨_, _, .fraction hi hf, hd, rfl⟩
        | exponent hi he => exact hpoint ⟨_, _, .exponent hi he, hd, rfl⟩
        | both hi hf he => exact hpoint ⟨_, _, .both hi hf he, hd, rfl⟩
    · rw [lexToken, if_neg hpunct, if_neg hspread, if_neg hquote, if_neg hname, if_neg hnumber]
        at htype
      exact absurd rfl htype

/-! ## How far `skip` follows the grammar -/

/-- An unterminated string is no token, and leaves the type of the token before it. -/
theorem Unterminated.not_describes {stale : TokenType} (hstale : stale ≠ .error) {input : Bytes}
    (h : Unterminated input) : ¬ Describes (lexToken stale input) input := by
  obtain ⟨body, rfl, hscan⟩ : ∃ body, input = quote :: body ∧ scanString body = none := by
    obtain ⟨text, htext, rfl | rfl⟩ := h
    · exact ⟨_, rfl, (scanString_open htext).1⟩
    · exact ⟨_, rfl, (scanString_open htext).2⟩
  have hblock : body.take 2 ≠ [quote, quote] := by
    intro htake
    have hbody : body = quote :: quote :: body.drop 2 := by
      conv_lhs => rw [← List.take_append_drop 2 body, htake]
      rfl
    rw [hbody, scanString.eq_def] at hscan
    cases (if_pos rfl).symm.trans hscan
  intro hdescribes
  rw [lexToken_unterminated hblock hscan] at hdescribes
  refine hstale (hdescribes.error ?_)
  rintro ⟨type, value, rest, htoken⟩
  obtain ⟨-, htext, rfl, -⟩ := htoken.string_of_start
  rw [scanString_append htext] at hscan
  cases hscan

/-- A number with a plus sign is a token, and taken for an error. -/
theorem PlusExponent.not_describes {stale : TokenType} {input : Bytes} (h : PlusExponent input) :
    ¬ Describes (lexToken stale input) input := by
  obtain ⟨type, text, rest, htext, hrest, rfl⟩ := h
  obtain ⟨left, hleft⟩ := scanNumber_plus htext rest
  intro hdescribes
  have htype := (hdescribes.token type text rest (.number htext hrest)).1
  rw [lexToken_number_error htext.head hleft] at htype
  subst htype
  cases htext

/-- A floating number in front of a point is no token, and taken for one. -/
theorem PointBehind.not_describes {stale : TokenType} {input : Bytes} (h : PointBehind input) :
    ¬ Describes (lexToken stale input) input := by
  obtain ⟨text, rest, htext, hpoint, rfl⟩ := h
  have hends : EndsNumber rest := by
    intro c hc
    obtain rfl : c = '.'.toUInt8 := Option.some.inj ((Option.mem_def.mp hc).symm.trans hpoint)
    decide
  have hscan := scanNumber_complete htext hends fun h => by cases h
  intro hdescribes
  rw [lexToken_number htext.head hscan] at hdescribes
  refine absurd (hdescribes.error ?_) (by simp)
  rintro ⟨type, value, rest', htoken⟩
  obtain ⟨c, s, rfl, hc⟩ := htext.head
  obtain ⟨plus, hvalue, hrest, hsplit⟩ := Lexeme.number_of_start hc htoken
  have hsplit : c :: s ++ rest = value ++ rest' := hsplit
  rw [hsplit] at hscan
  -- the token would end where the scan does, in front of the point
  cases plus with
  | true =>
    obtain ⟨left, hleft⟩ := scanNumber_plus hvalue rest'
    rw [hleft] at hscan
    cases hscan
  | false =>
    have hsame := scanNumber_complete hvalue (fun c hc => (hrest c hc).1)
      fun _ hdot => (hrest _ hdot).2 rfl
    rw [hsame] at hscan
    cases hscan
    exact (hrest _ hpoint).2 rfl

/-- **A token is read as the grammar has it** unless the input starts with an unterminated
string, with a number that has a plus sign in its exponent, or with a floating number in
front of a point. -/
theorem lexToken_describes_iff {stale : TokenType} (hstale : stale ≠ .error) (input : Bytes) :
    Describes (lexToken stale input) input ↔
      ¬ Unterminated input ∧ ¬ PlusExponent input ∧ ¬ PointBehind input := by
  constructor
  · intro h
    exact ⟨fun hstring => hstring.not_describes hstale h, fun hplus => hplus.not_describes h,
      fun hpoint => hpoint.not_describes h⟩
  · rintro ⟨hstring, hplus, hpoint⟩
    refine ⟨fun type value rest htoken => lexToken_complete htoken hplus, fun hnone => ?_⟩
    by_contra htype
    exact hnone (lexToken_sound htype hstring hpoint)

/-- **What `skip` reads**: an error stays, and otherwise the stream is behind the token that
starts at the first character that is not ignored, exactly when no unterminated string, no
number with a plus sign in its exponent and no floating number in front of a point is
there. -/
theorem skip_describes_iff (s : GqlStream) :
    (s.currentType = .error → s.skip = s) ∧
      ∃ input, (∀ input', SkipsIgnored s.input input' ↔ input' = input) ∧
        (s.currentType ≠ .error → (Describes s.skip input ↔
          ¬ Unterminated input ∧ ¬ PlusExponent input ∧ ¬ PointBehind input)) := by
  refine ⟨GqlStream.skip_of_error, skipIgnored false s.input, fun input' => ?_, fun htype => ?_⟩
  · rw [skipsIgnored_iff]
    exact eq_comm
  · rw [GqlStream.skip, if_neg htype]
    exact lexToken_describes_iff htype _

/-- Behind a name, an unterminated string is a name. -/
theorem unterminated_keeps_type :
    (GqlStream.new (ascii "a \"b")).skip.currentType = .name ∧
      SkipsIgnored (GqlStream.new (ascii "a \"b")).input (ascii "\"b") ∧
      ¬ Describes (GqlStream.new (ascii "a \"b")).skip (ascii "\"b") := by
  have hstring : Unterminated (ascii "\"b") :=
    ⟨ascii "b", .char (by decide) (by decide) .nil, .inl rfl⟩
  refine ⟨by decide, skipsIgnored_iff.mpr (by decide), ?_⟩
  exact @Unterminated.not_describes .name (by decide) _ hstring

end Microchain.Graphql
