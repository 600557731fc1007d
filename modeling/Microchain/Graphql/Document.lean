import Microchain.Graphql.Answer
import Microchain.Graphql.Schema

/-!
# Query documents

What a query is before it is read: a tree of fields with aliases, scalar arguments and
nested selection sets (`Document`), written as a sequence of tokens (`Document.tokens`)
and given to the interpreter as a text that lexes to them (`Document.IsText`).

- `Document.Valid`: the document selects what its schema has, with arguments that fit;
- `Document.eval`: its evaluation, by recursion on the document. A method that aborts
  ends it with its message.
-/

namespace Microchain.Graphql

open Eosio

/-! ## Tokens -/

/-- What the callers of `skip` look at. -/
structure Token where
  type : TokenType
  value : Bytes
  puncuator : UInt8
deriving DecidableEq, Repr

def GqlStream.token (s : GqlStream) : Token := ⟨s.currentType, s.currentValue, s.currentPuncuator⟩

namespace Token

def word (value : Bytes) : Token := ⟨.name, value, 0⟩

def punct (c : Char) : Token := ⟨.punctuator, [c.toUInt8], c.toUInt8⟩

end Token

/-- Reading `tokens` from `s` leads to `s'`. -/
def Reads : List Token → GqlStream → GqlStream → Prop
  | [], s, s' => s' = s
  | token :: tokens, s, s' => s.token = token ∧ Reads tokens s.skip s'

instance : (tokens : List Token) → (s s' : GqlStream) → Decidable (Reads tokens s s')
  | [], s, s' => inferInstanceAs (Decidable (s' = s))
  | token :: tokens, s, s' =>
    have : Decidable (Reads tokens s.skip s') := instDecidableReads tokens s.skip s'
    inferInstanceAs (Decidable (s.token = token ∧ Reads tokens s.skip s'))

theorem reads_append {tokens tokens' : List Token} {s s' : GqlStream} :
    Reads (tokens ++ tokens') s s' ↔ ∃ mid, Reads tokens s mid ∧ Reads tokens' mid s' := by
  induction tokens generalizing s with
  | nil => simp [Reads]
  | cons token tokens ih => simp [Reads, ih, and_assoc]

/-! ## The tree -/

/-- A scalar in an argument list. A name is a boolean or null, or an enumeration value. -/
inductive Literal where
  | string (value : Bytes)
  | integer (text : Bytes)
  | floating (text : Bytes)
  | name (value : Bytes)
deriving DecidableEq, Repr

def Literal.token : Literal → Token
  | string value => ⟨.string, value, 0⟩
  | integer text => ⟨.integer, text, 0⟩
  | floating text => ⟨.floating, text, 0⟩
  | name value => .word value

structure Argument where
  name : Bytes
  value : Literal
deriving DecidableEq, Repr

def Argument.tokens (arg : Argument) : List Token := [.word arg.name, .punct ':', arg.value.token]

/-- A field of a selection set. -/
inductive Field where
  | mk (aliasName : Option Bytes) (name : Bytes) (args : List Argument)
      (selection : Option (List Field))

/-- What a member of the answer is called. -/
def Field.responseName : Field → Bytes
  | mk aliasName name _ _ => aliasName.getD name

/-- An argument list, which is not empty when it is there. -/
def argTokens (args : List Argument) : List Token :=
  if args = [] then [] else .punct '(' :: args.flatMap Argument.tokens ++ [.punct ')']

mutual

def Field.tokens : Field → List Token
  | .mk aliasName name args selection =>
    (aliasName.map fun a => [.word a, .punct ':']).getD [] ++ .word name :: argTokens args ++
      selectionTokens selection

def selectionTokens : Option (List Field) → List Token
  | none => []
  | some fields => .punct '{' :: fieldsTokens fields ++ [.punct '}']

def fieldsTokens : List Field → List Token
  | [] => []
  | field :: fields => field.tokens ++ fieldsTokens fields

end

/-- How a query begins: with its selection set, or with `query` and an optional name. -/
inductive Operation where
  | anonymous
  | query (name : Option Bytes)
deriving DecidableEq, Repr

def Operation.tokens : Operation → List Token
  | anonymous => []
  | query name => .word (ascii "query") :: (name.map fun name => [.word name]).getD []

/-- A document with one query. -/
structure Document where
  operation : Operation
  fields : List Field

def Document.tokens (doc : Document) : List Token :=
  doc.operation.tokens ++ selectionTokens (some doc.fields)

/-- A text of the document: its tokens, then the end. Whitespace, commas and comments
are left to the lexer. -/
def Document.IsText (doc : Document) (query : Bytes) : Prop :=
  ∃ s, Reads doc.tokens (GqlStream.new query) s ∧ s.currentType = .eof

/-! ## Validity -/

/-- The value of a number, which can be given as a string. -/
def coerceNumber (min max : Int) (text : Bytes) : Option (Except String ArgValue) :=
  match fromChars min max text with
  | .ok value [] => some (.ok (.number value))
  | _ => none

/-- The value of a literal for a parameter type, when it is one of it. A conversion can
abort. -/
def Literal.coerce : ArgType → Literal → Option (Except String ArgValue)
  | .string, string value => some (.ok (.string value))
  | .boolean, name value =>
    if value = ascii "true" then some (.ok (.boolean true))
    else if value = ascii "false" then some (.ok (.boolean false))
    else none
  | .integer min max, string text => coerceNumber min max text
  | .integer min max, integer text => coerceNumber min max text
  | .integer min max, floating text => coerceNumber min max text
  | .fromString convert, string value => some (convert value)
  | _, _ => none

/-- An explicit null for an optional parameter. -/
def Argument.IsAbsent (arg : Argument) (param : Param) : Prop :=
  param.isOptional = true ∧ arg.value = .name (ascii "null")

instance (arg : Argument) (param : Param) : Decidable (arg.IsAbsent param) :=
  inferInstanceAs (Decidable (_ ∧ _))

/-- An argument list for some parameters: known names, each once, values of their types,
and nothing required left out. -/
structure ValidArgs (params : List Param) (args : List Argument) : Prop where
  nodup : (args.map Argument.name).Nodup
  known : ∀ arg ∈ args, ∃ param ∈ params, param.name = arg.name ∧
    (arg.IsAbsent param ∨ (arg.value.coerce param.type).isSome)
  required : ∀ param ∈ params, param.isOptional = false → param.name ∈ args.map Argument.name

instance (params : List Param) (args : List Argument) : Decidable (ValidArgs params args) :=
  decidable_of_iff ((args.map Argument.name).Nodup ∧
      (∀ arg ∈ args, ∃ param ∈ params, param.name = arg.name ∧
        (arg.IsAbsent param ∨ (arg.value.coerce param.type).isSome)) ∧
      ∀ param ∈ params, param.isOptional = false → param.name ∈ args.map Argument.name)
    ⟨fun h => ⟨h.1, h.2.1, h.2.2⟩, fun h => ⟨h.nodup, h.known, h.required⟩⟩

section Valid

variable {T : Type} (schema : GqlSchema T)

mutual

/-- A field of an object type: a member of it, with arguments that fit, and a selection
set exactly when there is something to select from. -/
def Field.Valid : T → Field → Prop
  | type, .mk _ name args selection => ∃ decl, (schema type).find? (·.name = name) = some decl ∧
      ValidArgs decl.params args ∧ SelectionValid decl.type.leaf selection

def SelectionValid : Option T → Option (List Field) → Prop
  | none, none => True
  | some type, some fields => FieldsValid type fields
  | _, _ => False

def FieldsValid : T → List Field → Prop
  | _, [] => True
  | type, field :: fields => field.Valid type ∧ FieldsValid type fields

end

mutual

def Field.decidableValid : (type : T) → (field : Field) → Decidable (field.Valid schema type)
  | type, .mk aliasName name args selection =>
    match hfind : (schema type).find? (·.name = name) with
    | none => isFalse fun ⟨_, hdecl, _⟩ => by
      rw [hfind] at hdecl
      cases hdecl
    | some decl =>
      have : Decidable (SelectionValid schema decl.type.leaf selection) :=
        selectionDecidable decl.type.leaf selection
      decidable_of_iff (ValidArgs decl.params args ∧
          SelectionValid schema decl.type.leaf selection)
        ⟨fun h => ⟨decl, hfind, h⟩, fun ⟨_, hdecl, h⟩ => by
          rw [hfind] at hdecl
          cases hdecl
          exact h⟩

def selectionDecidable : (type : Option T) → (selection : Option (List Field)) →
    Decidable (SelectionValid schema type selection)
  | none, none => isTrue trivial
  | some type, some fields => fieldsDecidable type fields
  | none, some _ => isFalse id
  | some _, none => isFalse id

def fieldsDecidable : (type : T) → (fields : List Field) →
    Decidable (FieldsValid schema type fields)
  | _, [] => isTrue trivial
  | type, field :: fields =>
    have : Decidable (field.Valid schema type) := field.decidableValid type
    have : Decidable (FieldsValid schema type fields) := fieldsDecidable type fields
    inferInstanceAs (Decidable (_ ∧ _))

end

/-- A document that queries a value of type `type`. -/
def Document.Valid (doc : Document) (type : GqlType T) : Prop :=
  SelectionValid schema type.leaf (some doc.fields)

instance (doc : Document) (type : GqlType T) : Decidable (doc.Valid schema type) :=
  selectionDecidable schema type.leaf (some doc.fields)

end Valid

/-! ## Evaluation -/

/-- The value of an argument: none where it is null. -/
def Argument.eval (params : List Param) (arg : Argument) : Except String (Option ArgValue) :=
  match params.find? (·.name = arg.name) with
  | none => .ok none
  | some param =>
    if arg.IsAbsent param then .ok none
    else ((arg.value.coerce param.type).map fun value => value.map some).getD (.ok none)

/-- An argument with its name. -/
def Argument.evalNamed (params : List Param) (arg : Argument) :
    Except String (Bytes × Option ArgValue) :=
  (arg.eval params).map fun value => (arg.name, value)

/-- What a parameter is given, by its name. -/
def givenValue (given : List (Bytes × Option ArgValue)) (param : Param) : Option ArgValue :=
  (given.find? (·.1 = param.name)).bind (·.2)

/-- The arguments of a call, in the order of the parameters. -/
def evalArgs (params : List Param) (args : List Argument) :
    Except String (List (Option ArgValue)) := do
  let given ← args.mapM (Argument.evalNamed params)
  .ok (params.map (givenValue given))

section Eval

variable {O : Type} (members : O → List (Member O))

/-- The value of a member: that of a data member, or what the method returns. -/
def Member.eval : Member O → List Argument → Except String (Value O)
  | .field _ value, _ => .ok value
  | .method _ params call, args => do
    let values ← evalArgs params args
    call values

mutual

/-- The answer for a value, `select` being that for an object. -/
def answerValue (select : O → Except String Answer) : Value O → Except String Answer
  | .scalar value => .ok (.scalar value)
  | .null => .ok .null
  | .ref value => answerValue select value
  | .list elems => do
    let answers ← answerElems select elems
    .ok (.list answers)
  | .object object => select object

def answerElems (select : O → Except String Answer) :
    List (Value O) → Except String (List Answer)
  | [] => .ok []
  | elem :: elems => do
    let answer ← answerValue select elem
    let answers ← answerElems select elems
    .ok (answer :: answers)

end

mutual

/-- The answer to a field of an object. -/
def Field.eval : Field → O → Except String Answer
  | .mk _ name args selection, object =>
    match (members object).find? (·.name = name) with
    | none => .ok .null
    | some member => do
      let value ← member.eval args
      answerValue (evalSelection selection) value

/-- The answer for an object: a member for each selected field, under its alias. -/
def evalSelection : Option (List Field) → O → Except String Answer
  | none, _ => .ok .null
  | some fields, object => do
    let fields ← evalFields fields object
    .ok (.object fields)

def evalFields : List Field → O → Except String (List (Bytes × Answer))
  | [], _ => .ok []
  | field :: fields, object => do
    let answer ← field.eval object
    let answers ← evalFields fields object
    .ok ((field.responseName, answer) :: answers)

end

/-- The evaluation of a document on a root value. In a valid document every name is
found, and objects are the values with a selection set. -/
def Document.eval (doc : Document) (root : Value O) : Except String Answer :=
  answerValue (evalSelection members (some doc.fields)) root

end Eval

end Microchain.Graphql
