import Mathlib.Data.List.Basic

/-!
# JSON texts

The grammar of JSON, as a relation between a value and the texts that spell it
(`Spells`, `IsText`). A string is known from what is between its quotes (`unescape`):
characters that stand for themselves, short escapes and escaped UTF-16 units. Texts
without space are put together with the `compact` lemmas.
-/

namespace Microchain.Lib

/-- A JSON value. A number is known by its text. -/
inductive Json where
  | null
  | boolean (value : Bool)
  | number (text : List Char)
  | string (text : List Char)
  | array (elems : List Json)
  | object (members : List (List Char × Json))

namespace Json

/-! ## Strings -/

/-- A character that stands for itself in a string. -/
def isUnescaped (c : Char) : Bool := decide (0x20 ≤ c.val ∧ c ≠ '"' ∧ c ≠ '\\')

/-- What a short escape stands for. -/
def shortEscape : Char → Option Char
  | '"' => some '"'
  | '\\' => some '\\'
  | '/' => some '/'
  | 'b' => some '\x08'
  | 'f' => some '\x0c'
  | 'n' => some '\n'
  | 'r' => some '\r'
  | 't' => some '\t'
  | _ => none

def hexDigit (c : Char) : Option Nat :=
  if '0' ≤ c ∧ c ≤ '9' then some (c.toNat - '0'.toNat)
  else if 'a' ≤ c ∧ c ≤ 'f' then some (c.toNat - 'a'.toNat + 10)
  else if 'A' ≤ c ∧ c ≤ 'F' then some (c.toNat - 'A'.toNat + 10)
  else none

/-- Four hexadecimal digits. -/
def hex4 (a b c d : Char) : Option Nat := do
  let a ← hexDigit a
  let b ← hexDigit b
  let c ← hexDigit c
  let d ← hexDigit d
  some (((a * 16 + b) * 16 + c) * 16 + d)

/-- The text of a string, from what is between its quotes. A surrogate has to have its
other half. -/
def unescape : List Char → Option (List Char)
  | [] => some []
  | '\\' :: 'u' :: a :: b :: c :: d :: rest =>
    match hex4 a b c d with
    | none => none
    | some unit =>
      if unit < 0xD800 ∨ 0xE000 ≤ unit then (unescape rest).map (Char.ofNat unit :: ·)
      else
        match rest with
        | '\\' :: 'u' :: a :: b :: c :: d :: rest =>
          match hex4 a b c d with
          | none => none
          | some low =>
            if unit < 0xDC00 ∧ 0xDC00 ≤ low ∧ low < 0xE000 then
              (unescape rest).map
                (Char.ofNat (0x10000 + (unit - 0xD800) * 0x400 + (low - 0xDC00)) :: ·)
            else none
        | _ => none
  | '\\' :: c :: rest =>
    match shortEscape c with
    | none => none
    | some c => (unescape rest).map (c :: ·)
  | c :: rest => if isUnescaped c then (unescape rest).map (c :: ·) else none

theorem unescape_unescaped {c : Char} (h : isUnescaped c) (rest : List Char) :
    unescape (c :: rest) = (unescape rest).map (c :: ·) := by
  have hc : c ≠ '\\' := (of_decide_eq_true h).2.2
  rw [unescape, if_pos h]
  · exact fun _ _ _ _ _ hbackslash => absurd hbackslash hc
  · exact fun _ _ hbackslash => absurd hbackslash hc

/-- Characters that stand for themselves. -/
theorem unescape_of_unescaped {text : List Char} (h : ∀ c ∈ text, isUnescaped c) :
    unescape text = some text := by
  induction text with
  | nil => rfl
  | cons c text ih =>
    rw [unescape_unescaped (h c List.mem_cons_self), ih fun c hc => h c (List.mem_cons_of_mem _ hc)]
    rfl

theorem unescape_short {c d : Char} (h : shortEscape c = some d) (rest : List Char) :
    unescape ('\\' :: c :: rest) = (unescape rest).map (d :: ·) := by
  have hu : c ≠ 'u' := by
    rintro rfl
    cases h
  rw [unescape, h]
  exact fun _ _ _ _ _ hc => absurd hc hu

theorem unescape_hex4 {a b c d : Char} {unit : Nat} (h : hex4 a b c d = some unit)
    (hunit : unit < 0xD800) (rest : List Char) :
    unescape ('\\' :: 'u' :: a :: b :: c :: d :: rest) =
      (unescape rest).map (Char.ofNat unit :: ·) := by
  rw [unescape.eq_2, h]
  exact if_pos (Or.inl hunit)

/-! ## The grammar -/

/-- Whitespace. -/
def IsSpace (text : List Char) : Prop := ∀ c ∈ text, c ∈ [' ', '\t', '\n', '\r']

def IsDigits (text : List Char) : Prop := text ≠ [] ∧ ∀ c ∈ text, '0' ≤ c ∧ c ≤ '9'

/-- The integer part of a number: a zero, or digits that do not begin with one. -/
def IsInteger (text : List Char) : Prop := IsDigits text ∧ (text = ['0'] ∨ text.head? ≠ some '0')

/-- A number: an optional minus, an integer, an optional fraction and an optional
exponent. -/
def IsNumber (text : List Char) : Prop :=
  ∃ minus integer fraction exponent, text = minus ++ integer ++ fraction ++ exponent ∧
    (minus = [] ∨ minus = ['-']) ∧ IsInteger integer ∧
    (fraction = [] ∨ ∃ digits, IsDigits digits ∧ fraction = '.' :: digits) ∧
    (exponent = [] ∨ ∃ e sign digits, (e = 'e' ∨ e = 'E') ∧
      (sign = [] ∨ sign = ['+'] ∨ sign = ['-']) ∧ IsDigits digits ∧ exponent = e :: sign ++ digits)

/-- A string with its quotes. -/
def IsString (text string : List Char) : Prop :=
  ∃ body, unescape body = some text ∧ string = '"' :: body ++ ['"']

mutual

/-- `Spells value text`: the text is one of the value, without space around it. -/
inductive Spells : Json → List Char → Prop
  | null : Spells .null ['n', 'u', 'l', 'l']
  | true : Spells (.boolean true) ['t', 'r', 'u', 'e']
  | false : Spells (.boolean false) ['f', 'a', 'l', 's', 'e']
  | number {text : List Char} (h : IsNumber text) : Spells (.number text) text
  | string {text string : List Char} (h : IsString text string) : Spells (.string text) string
  | array {elems : List Json} {text : List Char} (h : SpellsElems elems text) :
      Spells (.array elems) ('[' :: text ++ [']'])
  | object {members : List (List Char × Json)} {text : List Char}
      (h : SpellsMembers members text) : Spells (.object members) ('{' :: text ++ ['}'])

/-- What is between the brackets of an array. -/
inductive SpellsElems : List Json → List Char → Prop
  | nil {space : List Char} (h : IsSpace space) : SpellsElems [] space
  | last {elem : Json} {before text after : List Char} (hbefore : IsSpace before)
      (h : Spells elem text) (hafter : IsSpace after) :
      SpellsElems [elem] (before ++ text ++ after)
  | cons {elem : Json} {elems : List Json} {before text after rest : List Char}
      (hbefore : IsSpace before) (h : Spells elem text) (hafter : IsSpace after)
      (hne : elems ≠ []) (hrest : SpellsElems elems rest) :
      SpellsElems (elem :: elems) (before ++ text ++ after ++ ',' :: rest)

/-- What is between the braces of an object. -/
inductive SpellsMembers : List (List Char × Json) → List Char → Prop
  | nil {space : List Char} (h : IsSpace space) : SpellsMembers [] space
  | last {name : List Char} {value : Json} {text : List Char} (h : SpellsMember name value text) :
      SpellsMembers [(name, value)] text
  | cons {name : List Char} {value : Json} {members : List (List Char × Json)}
      {text rest : List Char} (h : SpellsMember name value text) (hne : members ≠ [])
      (hrest : SpellsMembers members rest) :
      SpellsMembers ((name, value) :: members) (text ++ ',' :: rest)

/-- One member with the space around its parts. -/
inductive SpellsMember : List Char → Json → List Char → Prop
  | mk {name string : List Char} {value : Json} {a b c d text : List Char} (ha : IsSpace a)
      (hname : IsString name string) (hb : IsSpace b) (hc : IsSpace c) (h : Spells value text)
      (hd : IsSpace d) : SpellsMember name value (a ++ string ++ b ++ ':' :: c ++ text ++ d)

end

/-- A JSON text: a value with space around it. -/
def IsText (value : Json) (text : List Char) : Prop :=
  ∃ before spelled after, IsSpace before ∧ Spells value spelled ∧ IsSpace after ∧
    text = before ++ spelled ++ after

/-! ## Texts without space -/

theorem isSpace_nil : IsSpace [] := List.forall_mem_nil _

theorem SpellsElems.cons_compact {elem : Json} {elems : List Json} {text rest : List Char}
    (h : Spells elem text) (hrest : SpellsElems elems rest) :
    SpellsElems (elem :: elems) (text ++ if elems = [] then [] else ',' :: rest) := by
  split
  · next hnil =>
    subst hnil
    simpa using SpellsElems.last isSpace_nil h isSpace_nil
  · next hne => simpa using SpellsElems.cons isSpace_nil h isSpace_nil hne hrest

theorem SpellsMember.compact {name string : List Char} {value : Json} {text : List Char}
    (hname : IsString name string) (h : Spells value text) :
    SpellsMember name value (string ++ ':' :: text) := by
  simpa using SpellsMember.mk isSpace_nil hname isSpace_nil isSpace_nil h isSpace_nil

theorem SpellsMembers.cons_compact {name : List Char} {value : Json}
    {members : List (List Char × Json)} {text rest : List Char} (h : SpellsMember name value text)
    (hrest : SpellsMembers members rest) :
    SpellsMembers ((name, value) :: members) (text ++ if members = [] then [] else ',' :: rest) := by
  split
  · next hnil =>
    subst hnil
    simpa using SpellsMembers.last h
  · next hne => exact SpellsMembers.cons h hne hrest

end Json

end Microchain.Lib
