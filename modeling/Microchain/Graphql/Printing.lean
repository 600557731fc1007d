import Microchain.Graphql.Document
import Microchain.Graphql.Tokens

/-!
# The text of a document

A document is printed token by token, with a space between two of them unless one is a
punctuator. What is behind a token then ends it, and behind that the next one starts.

- `lexToken_text`: one token is read back;
- `isText_print`: **a printed document is a text of it**.
-/

namespace Microchain.Graphql

open Eosio

/-! ## Printing -/

/-- A token that the lexer can make. -/
inductive Token.Sound : Token → Prop
  | word {c : UInt8} {text : Bytes} (hc : isNameStart c) (htext : ∀ c ∈ text, isNameContinue c) :
    Sound (.word (c :: text))
  | punct {c : UInt8} (hc : c ∈ punctuators) : Sound ⟨.punctuator, [c], c⟩
  | string {text : Bytes} (htext : StringText text) : Sound ⟨.string, text, 0⟩
  | number {type : TokenType} {text : Bytes} (htext : NumberText type false text) :
    Sound ⟨type, text, 0⟩

/-- A name or a punctuator. -/
def Token.isPlain (token : Token) : Bool :=
  match token.type with
  | .name =>
    token.value.head?.any isNameStart && token.value.tail.all isNameContinue &&
      token.puncuator == 0
  | .punctuator => token.value == [token.puncuator] && punctuators.contains token.puncuator
  | _ => false

theorem Token.Sound.of_isPlain {token : Token} (h : token.isPlain) : token.Sound := by
  obtain ⟨type, value, puncuator⟩ := token
  cases type with
  | name =>
    simp only [isPlain, Bool.and_eq_true, beq_iff_eq] at h
    obtain ⟨⟨hhead, htail⟩, rfl⟩ := h
    cases value with
    | nil => cases hhead
    | cons c text => exact .word hhead (List.all_eq_true.mp htail)
  | punctuator =>
    simp only [isPlain, Bool.and_eq_true, beq_iff_eq, List.contains_iff_mem] at h
    obtain ⟨rfl, hc⟩ := h
    exact .punct hc
  | _ => cases h

/-- One number among names and punctuators. -/
theorem sound_number {digits : Bytes} (h : NaturalPart digits) {before after : List Token}
    (hbefore : before.all Token.isPlain) (hafter : after.all Token.isPlain) :
    ∀ t ∈ before ++ (Literal.integer digits).token :: after, t.Sound := by
  intro t ht
  rcases List.mem_append.mp ht with ht | ht
  · exact .of_isPlain (List.all_eq_true.mp hbefore t ht)
  · rcases List.mem_cons.mp ht with rfl | ht
    · exact .number (.integer (.positive h))
    · exact .of_isPlain (List.all_eq_true.mp hafter t ht)

def Token.text (token : Token) : Bytes :=
  if token.type = .string then quote :: token.value ++ [quote] else token.value

/-- What stands between a token and those behind it. -/
def gap (token : Token) : List Token → Bytes
  | [] => []
  | next :: _ => if token.type = .punctuator ∨ next.type = .punctuator then [] else ascii " "

def printTokens : List Token → Bytes
  | [] => []
  | token :: tokens => token.text ++ (gap token tokens ++ printTokens tokens)

/-- The text of a document. -/
def Document.print (doc : Document) : Bytes := printTokens doc.tokens

/-! ## Reading back -/

section Reading

variable {token : Token} {tokens : List Token}

theorem NumberText.type {type : TokenType} {plus : Bool} {text : Bytes}
    (h : NumberText type plus text) : type = .integer ∨ type = .floating := by
  cases h with
  | integer => exact .inl rfl
  | fraction => exact .inr rfl
  | exponent => exact .inr rfl
  | both => exact .inr rfl

theorem Token.Sound.type_ne_error (h : token.Sound) : token.type ≠ .error := by
  cases h with
  | word => exact fun h => by cases h
  | punct => exact fun h => by cases h
  | string => exact fun h => by cases h
  | number htext =>
    rcases htext.type with rfl | rfl
    · exact fun h => by cases h
    · exact fun h => by cases h

/-- How a token starts. -/
theorem Token.Sound.first (h : token.Sound) :
    ∃ c s, token.text = c :: s ∧ c ∉ ignored ∧ c ≠ '#'.toUInt8 ∧ c ≠ 0xEF ∧
      (token.type = .punctuator → c ∈ punctuators) := by
  have hclass : ∀ c : UInt8, isNameStart c ∨ c ∈ punctuators ∨ c = quote ∨ c = '-'.toUInt8 ∨
      isDigit c → c ∉ ignored ∧ c ≠ '#'.toUInt8 ∧ c ≠ 0xEF := by
    intro c
    refine forall_byte (P := fun c => (isNameStart c ∨ c ∈ punctuators ∨ c = quote ∨
      c = '-'.toUInt8 ∨ isDigit c) → c ∉ ignored ∧ c ≠ '#'.toUInt8 ∧ c ≠ 0xEF) ?_ c
    decide +kernel
  cases h with
  | @word c text hc htext =>
    obtain ⟨hignored, hhash, hmark⟩ := hclass c (.inl hc)
    exact ⟨c, text, rfl, hignored, hhash, hmark, fun h => by cases h⟩
  | @punct c hc =>
    obtain ⟨hignored, hhash, hmark⟩ := hclass c (.inr (.inl hc))
    exact ⟨c, [], rfl, hignored, hhash, hmark, fun _ => hc⟩
  | @string text htext =>
    obtain ⟨hignored, hhash, hmark⟩ := hclass quote (.inr (.inr (.inl rfl)))
    exact ⟨quote, text ++ [quote], rfl, hignored, hhash, hmark, fun h => by cases h⟩
  | @number type text htext =>
    obtain ⟨c, s, rfl, hc⟩ := htext.head
    obtain ⟨hignored, hhash, hmark⟩ := hclass c (.inr (.inr (.inr hc)))
    rcases htext.type with rfl | rfl
    · exact ⟨c, s, rfl, hignored, hhash, hmark, fun h => by cases h⟩
    · exact ⟨c, s, rfl, hignored, hhash, hmark, fun h => by cases h⟩

/-- What ends a token that is no punctuator. -/
def EndsToken (rest : Bytes) : Prop :=
  ∀ c ∈ rest.head?, isNameContinue c = false ∧ c ≠ '.'.toUInt8 ∧ c ≠ quote

/-- **A token is read back.** -/
theorem lexToken_text (h : token.Sound) (stale : TokenType) {rest : Bytes}
    (hrest : token.type ≠ .punctuator → EndsToken rest) :
    lexToken stale (token.text ++ rest) =
      ⟨rest, token.type, token.value, token.puncuator⟩ := by
  cases h with
  | @word c text hc htext =>
    have hends : ∀ c ∈ rest.head?, isNameContinue c = false :=
      fun c hc => (hrest (fun h => by cases h) c hc).1
    show lexToken stale (c :: (text ++ rest)) = _
    rw [lexToken_name hc, dropWhile_append_of_head htext hends,
      takeWhile_append_of_head htext hends]
    rfl
  | @punct c hc =>
    show lexToken stale (c :: rest) = _
    rw [lexToken, if_pos hc]
  | @string text htext =>
    have hquotes : (text ++ quote :: rest).take 2 ≠ [quote, quote] := by
      rw [Ne, take_two_quotes_iff htext]
      exact fun h => (hrest (fun h => by cases h) quote h.2).2.2 rfl
    show lexToken stale (quote :: (text ++ [quote]) ++ rest) = _
    rw [List.cons_append, List.append_assoc, List.singleton_append,
      lexToken_string hquotes (scanString_append htext rest)]
  | @number type text htext =>
    have htype : type ≠ .punctuator ∧ type ≠ .string := by
      rcases htext.type with rfl | rfl
      · exact ⟨by decide, by decide⟩
      · exact ⟨by decide, by decide⟩
    have hends := hrest htype.1
    rw [Token.text, if_neg htype.2]
    show lexToken stale (text ++ rest) = _
    rw [lexToken_number htext.head (scanNumber_complete htext (fun c hc => (hends c hc).1)
      fun _ hpoint => (hends _ hpoint).2.1 rfl)]

theorem print_head (h : ∀ t ∈ tokens, t.Sound) :
    skipIgnored false (printTokens tokens) = printTokens tokens := by
  cases tokens with
  | nil => rfl
  | cons token tokens =>
    obtain ⟨c, s, htext, hignored, hhash, hmark, -⟩ := (h token (List.mem_cons_self ..)).first
    rw [printTokens, htext, List.cons_append]
    refine skipIgnored_done (fun c' hc' => ?_) fun hbom => hmark (List.cons.inj hbom).1
    obtain rfl := Option.some.inj hc'
    exact ⟨hignored, hhash⟩

/-- What is printed behind a token ends it. -/
theorem endsToken_gap (h : ∀ t ∈ tokens, t.Sound) (htype : token.type ≠ .punctuator) :
    EndsToken (gap token tokens ++ printTokens tokens) := by
  have hclass : ∀ c : UInt8, c ∈ punctuators ∨ c = ' '.toUInt8 →
      isNameContinue c = false ∧ c ≠ '.'.toUInt8 ∧ c ≠ quote := by
    intro c
    refine forall_byte (P := fun c => (c ∈ punctuators ∨ c = ' '.toUInt8) →
      isNameContinue c = false ∧ c ≠ '.'.toUInt8 ∧ c ≠ quote) ?_ c
    decide +kernel
  intro c hc
  refine hclass c ?_
  cases tokens with
  | nil => cases hc
  | cons next tokens =>
    rw [gap] at hc
    split at hc
    · next hpunct =>
      obtain ⟨d, s, htext, -, -, -, hd⟩ := (h next (List.mem_cons_self ..)).first
      rw [List.nil_append, printTokens, htext] at hc
      obtain rfl := Option.some.inj hc
      exact .inl (hd (hpunct.resolve_left htype))
    · obtain rfl := Option.some.inj hc
      exact .inr rfl

theorem skipIgnored_gap (h : ∀ t ∈ tokens, t.Sound) :
    skipIgnored false (gap token tokens ++ printTokens tokens) = printTokens tokens := by
  cases tokens with
  | nil => rfl
  | cons next tokens =>
    rw [gap]
    split
    · exact print_head h
    · show skipIgnored false (' '.toUInt8 :: printTokens (next :: tokens)) = _
      rw [skipIgnored_character (by decide)]
      exact print_head h

/-- Tokens are read back one after the other. -/
theorem reads_print (h : ∀ t ∈ tokens, t.Sound) {s : GqlStream} (htype : s.currentType ≠ .error)
    (hinput : skipIgnored false s.input = printTokens tokens) :
    Reads tokens s.skip { input := [], currentType := .eof } := by
  induction tokens generalizing s with
  | nil =>
    show _ = s.skip
    rw [GqlStream.skip, if_neg htype, hinput]
    rfl
  | cons token tokens ih =>
    have htoken := h token (List.mem_cons_self ..)
    have hrest : ∀ t ∈ tokens, t.Sound := fun t ht => h t (List.mem_cons_of_mem _ ht)
    have hskip : s.skip = ⟨gap token tokens ++ printTokens tokens, token.type, token.value,
        token.puncuator⟩ := by
      rw [GqlStream.skip, if_neg htype, hinput, printTokens,
        lexToken_text htoken _ fun hpunct => endsToken_gap hrest hpunct]
    rw [hskip]
    exact ⟨rfl, ih hrest htoken.type_ne_error (skipIgnored_gap hrest)⟩

/-- **A printed document** is a text of it. -/
theorem isText_print {doc : Document} (h : ∀ t ∈ doc.tokens, t.Sound) :
    doc.IsText doc.print :=
  ⟨_, reads_print h (fun h => by cases h) (print_head h), rfl⟩

end Reading

end Microchain.Graphql
