import Microchain.Eosio.Name
import Microchain.Graphql.Stream
import Microchain.Lib.Run

/-!
# The query interpreter (`gql_query` in `graphql.hpp`)

One traversal reads the query and writes the answer. Every loop iteration and every
recursive call of the loops of the source takes one unit of fuel; `Run.running` says
that there was none left. A failure is either what the source hands to `error`, after
which every caller returns false, or an `eosio::check` that aborts the instance.

The templates dispatch on the C++ type of a value. `Value` has one constructor for
each overload of `gql_query`. An object is opaque: `members` lists what
`eosio_for_each_field` visits, data members and const methods, so that a type may
refer to itself through a method. `toJson` is the family of `to_json` overloads for
the types that are written as they are.

The output stream is `string_stream`, for which indentation and line ends do nothing.
-/

namespace Microchain.Graphql

open Eosio Lib

/-- A value that `to_json` writes. -/
inductive Scalar where
  | boolean (value : Bool)
  | uint32 (value : UInt32)
  | uint64 (value : UInt64)
  | string (value : Bytes)
  | bytes (value : Bytes)
  | name (value : Name)
  | checksum256 (value : Checksum256)
  | timePoint (value : TimePoint)
deriving DecidableEq, Repr

/-- A value, by the overload of `gql_query` it goes to: arithmetic types and those with
`use_json_string_for_gql`; an empty optional or a null pointer; a full one, or a
reference; a container; a reflected type. -/
inductive Value (O : Type) where
  | scalar (value : Scalar)
  | null
  | ref (value : Value O)
  | list (elems : List (Value O))
  | object (object : O)

/-- An argument after parsing. -/
inductive ArgValue where
  | string (value : Bytes)
  | boolean (value : Bool)
  | number (value : Int)
  | name (value : Name)
deriving DecidableEq, Repr

/-- The type of an argument, by the overload of `gql_parse_arg` it goes to. An integer
type is given by its bounds; a type that is read from a string, by its conversion, which
fails with the message of the check. -/
inductive ArgType where
  | string
  | boolean
  | integer (min max : Int)
  | fromString (convert : Bytes → Except String ArgValue)

/-- An argument of a method. -/
structure Param where
  name : Bytes
  type : ArgType
  isOptional : Bool

/-- A member of an object: a data member, or a const method. Calling a method can abort. -/
inductive Member (O : Type) where
  | field (name : Bytes) (value : Value O)
  | method (name : Bytes) (params : List Param)
      (call : List (Option ArgValue) → Except String (Value O))

def Member.name {O : Type} : Member O → Bytes
  | field name _ => name
  | method name _ _ => name

/-- Why an evaluation stops. -/
inductive GqlFailure where
  | error (message : Bytes)
  | abort (message : String)
deriving DecidableEq, Repr

/-- An evaluation with bounded fuel. -/
abbrev Gql (α : Type) := Run GqlFailure α

/-- `return error(message)` -/
def error {α : Type} (message : Bytes) : Gql α := .fails (.error message)

/-- A computation that can abort. -/
def aborting {α : Type} : Except String α → Gql α
  | .ok a => .returns a
  | .error message => .fails (.abort message)

def isPunct (s : GqlStream) (c : Char) : Prop := s.currentPuncuator = c.toUInt8

instance (s : GqlStream) (c : Char) : Decidable (isPunct s c) :=
  inferInstanceAs (Decidable (s.currentPuncuator = c.toUInt8))

/-! ## Arguments -/

/-- What `std::from_chars` reports. -/
inductive FromChars where
  | ok (value : Int) (rest : Bytes)
  | invalidArgument
  | resultOutOfRange
deriving DecidableEq, Repr

/-- The value of a string of digits. -/
def digitsValue (digits : Bytes) : Nat :=
  digits.foldl (fun n c => 10 * n + (c - '0'.toUInt8).toNat) 0

/-- `std::from_chars` for an integer type. Only a signed type takes a minus sign. -/
def fromChars (min max : Int) (s : Bytes) : FromChars :=
  let negative := decide (min < 0 ∧ s.head? = some '-'.toUInt8)
  let s := if negative then s.tail else s
  let digits := s.takeWhile isDigit
  if digits = [] then .invalidArgument
  else
    let value : Int := if negative then - digitsValue digits else digitsValue digits
    if value < min ∨ max < value then .resultOutOfRange
    else .ok value (s.dropWhile isDigit)

/-- `gql_parse_arg` -/
def gqlParseArg (type : ArgType) (s : GqlStream) : Gql (ArgValue × GqlStream) :=
  match type with
  | .string =>
    if s.currentType = .string then .returns (.string s.currentValue, s.skip)
    else error (ascii "expected String")
  | .boolean =>
    if s.currentType = .name ∧ s.currentValue = ascii "true" then .returns (.boolean true, s.skip)
    else if s.currentType = .name ∧ s.currentValue = ascii "false" then
      .returns (.boolean false, s.skip)
    else error (ascii "expected Boolean")
  | .integer min max =>
    if s.currentType ≠ .integer ∧ s.currentType ≠ .floating ∧ s.currentType ≠ .string then
      error (ascii "expected number or stringified number")
    else
      match fromChars min max s.currentValue with
      -- all of the text must be the number
      | .ok value [] => .returns (.number value, s.skip)
      | .resultOutOfRange => error (ascii "number is out of range")
      | _ => error (ascii "expected number or stringified number")
  | .fromString convert =>
    if s.currentType = .string then do
      let value ← aborting (convert s.currentValue)
      .returns (value, s.skip)
    else error (ascii "expected String")

/-- `args` and `filled` -/
structure Args where
  values : List (Option ArgValue)
  filled : List Bool

def Args.empty (params : List Param) : Args :=
  ⟨params.map fun _ => none, params.map fun _ => false⟩

/-- `filled[i] = true`, with the value that was parsed. -/
def Args.fill (args : Args) (i : Nat) (value : Option ArgValue) : Args :=
  ⟨args.values.set i value, args.filled.set i true⟩

/-- `gql_parse_args`: the argument whose name is the current token. The flag is
`found`. -/
def gqlParseArgs : Nat → List Param → Args → GqlStream → Gql (Bool × Args × GqlStream)
  | _, [], args, s => .returns (false, args, s)
  | i, param :: params, args, s =>
    if s.currentValue ≠ param.name then gqlParseArgs (i + 1) params args s
    else
      let s := s.skip
      if ¬ isPunct s ':' then error (ascii "expected :")
      else if (args.filled[i]?).any (· = true) then error (ascii "duplicate arg")
      else
        let s := s.skip
        -- an optional argument that is null is given, without a value
        if param.isOptional ∧ s.currentType = .name ∧ s.currentValue = ascii "null" then
          .returns (true, args.fill i none, s.skip)
        else do
          let (value, s) ← gqlParseArg param.type s
          .returns (true, args.fill i (some value), s)

/-- The loop over the arguments between the parentheses. -/
def gqlArgsLoop (params : List Param) : Nat → Args → GqlStream → Gql (Args × GqlStream)
  | 0, _, _ => .running
  | fuel + 1, args, s =>
    if s.currentType = .name then do
      let (found, args, s) ← gqlParseArgs 0 params args s
      if found then gqlArgsLoop params fuel args s
      else error (ascii "unknown arg '" ++ s.currentValue ++ ascii "'")
    else .returns (args, s)

/-- The argument list of a method, when there is one. -/
def gqlArgList (params : List Param) (fuel : Nat) (s : GqlStream) : Gql (Args × GqlStream) :=
  if isPunct s '(' then
    let s := s.skip
    if isPunct s ')' then error (ascii "empty arg list")
    else do
      let (args, s) ← gqlArgsLoop params fuel (Args.empty params) s
      if ¬ isPunct s ')' then error (ascii "expected )") else .returns (args, s.skip)
  else .returns (Args.empty params, s)

/-- `gql_mark_optional` and the loop behind it: the first argument that is missing. -/
def missingArg (params : List Param) (args : Args) : Option Param :=
  ((params.zip args.filled).find? fun p => !(p.1.isOptional || p.2)).map (·.1)

/-- The value of a member: that of a field, or the result of a method. -/
def gqlMember {O : Type} (member : Member O) (fuel : Nat) (s : GqlStream) :
    Gql (Value O × GqlStream) :=
  match member with
  | .field _ value => .returns (value, s)
  | .method _ params call => do
    let (args, s) ← gqlArgList params fuel s
    match missingArg params args with
    | some param => error (ascii "function missing required arg '" ++ param.name ++ ascii "'")
    | none => do
      let value ← aborting (call args.values)
      .returns (value, s)

/-! ## Selection sets -/

/-- The loop of `gql_skip_selection_set`, behind the opening brace. A nested call tests
the brace that was just tested, so it is the loop again. -/
def gqlSkipLoop : Nat → GqlStream → Gql GqlStream
  | 0, _ => .running
  | fuel + 1, s =>
    -- a lexical error is no end of the input, and `skip` stays on it
    if s.currentType = .eof then error (ascii "expected \x7d")
    else if isPunct s '{' then do
      let s ← gqlSkipLoop fuel s.skip
      gqlSkipLoop fuel s
    else if isPunct s '}' then .returns s.skip
    else gqlSkipLoop fuel s.skip

/-- `gql_skip_selection_set` -/
def gqlSkipSelectionSet (fuel : Nat) (s : GqlStream) : Gql GqlStream :=
  if ¬ isPunct s '{' then .returns s else gqlSkipLoop fuel s.skip

/-- The alias and the name of a field. -/
def gqlFieldName (s : GqlStream) : Gql (Bytes × Bytes × GqlStream) :=
  let aliasName := s.currentValue
  let s := s.skip
  -- the name that was read is the alias
  if isPunct s ':' then
    let s := s.skip
    if s.currentType ≠ .name then error (ascii "expected name after :")
    else .returns (aliasName, s.currentValue, s.skip)
  else .returns (aliasName, aliasName, s)

/-- What stands between two members or two elements. -/
def separator (first : Bool) : Bytes := if first then [] else ascii ","

section Query

variable {O : Type} (members : O → List (Member O)) (toJson : Scalar → Bytes)

mutual

/-- `gql_query`: the text it writes, and the stream behind what it reads. -/
def gqlQuery : Nat → Value O → GqlStream → Gql (Bytes × GqlStream)
  | 0, _, _ => .running
  | fuel + 1, value, s =>
    match value with
    | .scalar value => .returns (toJson value, s)
    | .null => do
      -- a selection set behind a null is read, but not checked
      let s ← gqlSkipSelectionSet fuel s
      .returns (ascii "null", s)
    | .ref value => gqlQuery fuel value s
    | .list elems => do
      let out ← gqlElements fuel true elems s
      let s ← gqlSkipSelectionSet fuel s
      .returns (ascii "[" ++ out ++ ascii "]", s)
    | .object object =>
      if ¬ isPunct s '{' then error (ascii "expected \x7b")
      else do
        let (out, s) ← gqlFields fuel true object s.skip
        if ¬ isPunct s '}' then error (ascii "expected \x7d")
        else .returns (ascii "\x7b" ++ out ++ ascii "\x7d", s.skip)

/-- The loop over a container: each element reads a copy of the stream. -/
def gqlElements : Nat → Bool → List (Value O) → GqlStream → Gql Bytes
  | 0, _, _, _ => .running
  | fuel + 1, first, elems, s =>
    match elems with
    | [] => .returns []
    | elem :: elems => do
      -- the next element starts where this one did
      let (out, _) ← gqlQuery fuel elem s
      let outs ← gqlElements fuel false elems s
      .returns (separator first ++ out ++ outs)

/-- The loop over the fields of a selection set. -/
def gqlFields : Nat → Bool → O → GqlStream → Gql (Bytes × GqlStream)
  | 0, _, _, _ => .running
  | fuel + 1, first, object, s =>
    if s.currentType = .name then do
      let (aliasName, fieldName, s) ← gqlFieldName s
      match (members object).find? (·.name = fieldName) with
      | none => error (fieldName ++ ascii " not found")
      | some member => do
        let (value, s) ← gqlMember member fuel s
        let (out, s) ← gqlQuery fuel value s
        let (outs, s) ← gqlFields fuel false object s
        .returns (separator first ++ toJson (.string aliasName) ++ ascii ":" ++ out ++ outs, s)
    else .returns ([], s)

end

/-! ## The entry points -/

/-- `gql_query_root`, up to the selection set. -/
def gqlOperation (s : GqlStream) : Gql GqlStream :=
  if s.currentType = .name then
    if s.currentValue = ascii "query" then
      let s := s.skip
      let s := if s.currentType = .name then s.skip else s
      if isPunct s '(' then error (ascii "variables not supported")
      else if isPunct s '@' then error (ascii "directives not supported")
      else .returns s
    else if s.currentValue = ascii "subscriptions" then
      error (ascii "subscriptions not supported")
    else if s.currentValue = ascii "mutation" then error (ascii "mutations not supported")
    else if s.currentValue = ascii "fragment" then error (ascii "fragments not supported")
    else error (ascii "expected query")
  else .returns s

/-- `gql_query_root`, behind the selection set. -/
def gqlEndOfInput (s : GqlStream) : Gql Unit :=
  if s.currentType = .eof then .returns ()
  else if s.currentType = .name ∧ s.currentValue = ascii "query" then
    error (ascii "multiple queries not supported")
  else if s.currentType = .name ∧ s.currentValue = ascii "fragment" then
    error (ascii "fragments not supported")
  else if s.currentType = .name ∧ s.currentValue = ascii "subscription" then
    error (ascii "subscriptions not supported")
  else if s.currentType = .name ∧ s.currentValue = ascii "mutation" then
    error (ascii "mutations not supported")
  else error (ascii "expected end of input")

/-- `gql_query_root` -/
def gqlQueryRoot (fuel : Nat) (value : Value O) (s : GqlStream) : Gql Bytes := do
  let s ← gqlOperation s
  let (out, s) ← gqlQuery members toJson fuel value s
  let _ ← gqlEndOfInput s
  .returns out

/-- The errors form of an answer. -/
def errorsForm (message : Bytes) : Bytes :=
  ascii "\x7b\"errors\": \x7b\"message\": " ++ toJson (.string message) ++ ascii "\x7d\x7d"

/-- `gql_query(value, query, variables)`: the answer. What is left of a failure is an
abort. -/
def gqlQueryString (fuel : Nat) (value : Value O) (query vars : Bytes) : Run String Bytes :=
  if vars ≠ [] then
    .returns (errorsForm toJson (ascii "variables not supported; argument must be empty"))
  else
    match gqlQueryRoot members toJson fuel value (GqlStream.new query) with
    | .running => .running
    | .fails (.abort message) => .fails message
    | .fails (.error message) => .returns (errorsForm toJson message)
    | .returns out => .returns (ascii "\x7b\"data\": " ++ out ++ ascii "\x7d")

end Query

end Microchain.Graphql
