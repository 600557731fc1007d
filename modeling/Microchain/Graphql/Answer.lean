import Microchain.Graphql.Progress
import Microchain.Graphql.ToJson

/-!
# What a query answers

`Answer` is the tree behind the text `gql_query` writes, `Answers` says that it is made
of the members of a value, and `gqlQuery_answers` that whatever the interpreter returns
is the text of such a tree.

- `gqlQueryString_json`: **an answer is one JSON text**, of the data form or of the errors
  form, and its strings read back as the strings of the source.
-/

namespace Microchain.Graphql

open Eosio Lib

/-- What is written for a value. The fields of an object come with their aliases. -/
inductive Answer where
  | null
  | scalar (value : Scalar)
  | list (elems : List Answer)
  | object (fields : List (Bytes × Answer))

namespace Answer

section Render

variable (toJson : Scalar → Bytes)

mutual

/-- The text of an answer. -/
def render : Answer → Bytes
  | null => ascii "null"
  | scalar value => toJson value
  | list elems => ascii "[" ++ renderElems true elems ++ ascii "]"
  | object fields => ascii "\x7b" ++ renderFields true fields ++ ascii "\x7d"

def renderElems : Bool → List Answer → Bytes
  | _, [] => []
  | first, elem :: elems => separator first ++ render elem ++ renderElems false elems

def renderFields : Bool → List (Bytes × Answer) → Bytes
  | _, [] => []
  | first, (aliasName, answer) :: fields =>
    separator first ++ toJson (.string aliasName) ++ ascii ":" ++ render answer ++
      renderFields false fields

end

end Render

mutual

/-- The JSON value of an answer. -/
def json : Answer → Json
  | null => .null
  | scalar value => value.json
  | list elems => .array (jsonElems elems)
  | object fields => .object (jsonFields fields)

def jsonElems : List Answer → List Json
  | [] => []
  | elem :: elems => json elem :: jsonElems elems

def jsonFields : List (Bytes × Answer) → List (List Char × Json)
  | [] => []
  | (aliasName, answer) :: fields => (readable aliasName, json answer) :: jsonFields fields

end

end Answer

/-! ## The text of an answer -/

section Text

variable {validate : Bytes → Option Nat}

mutual

/-- The text of an answer is a JSON text of its value. -/
theorem Answer.spells_render (h : ValidatesUtf8 validate) : ∀ answer : Answer,
    ∃ text, answer.render (toJson validate) = utf8 text ∧ Json.Spells answer.json text
  | .null => ⟨_, (by decide : ascii "null" = utf8 ['n', 'u', 'l', 'l']), .null⟩
  | .scalar value => spells_toJson h value
  | .list elems => by
    obtain ⟨text, htext, hspells⟩ := Answer.spells_renderElems h elems
    refine ⟨'[' :: text ++ [']'], ?_, .array hspells⟩
    rw [Answer.render, htext, utf8_append]
    rfl
  | .object fields => by
    obtain ⟨text, htext, hspells⟩ := Answer.spells_renderFields h fields
    refine ⟨'\x7b' :: text ++ ['\x7d'], ?_, .object hspells⟩
    rw [Answer.render, htext, utf8_append]
    rfl

theorem Answer.spells_renderElems (h : ValidatesUtf8 validate) : ∀ elems : List Answer,
    ∃ text, Answer.renderElems (toJson validate) true elems = utf8 text ∧
      Json.SpellsElems (Answer.jsonElems elems) text
  | [] => ⟨[], rfl, .nil Json.isSpace_nil⟩
  | elem :: elems => by
    obtain ⟨text, htext, hspells⟩ := Answer.spells_render h elem
    obtain ⟨rest, hrest, hspellsRest⟩ := Answer.spells_renderElems h elems
    refine ⟨_, ?_, Json.SpellsElems.cons_compact hspells hspellsRest⟩
    rw [Answer.renderElems, htext, utf8_append]
    cases elems with
    | nil => rfl
    | cons elem elems =>
      rw [Answer.jsonElems, if_neg (List.cons_ne_nil _ _), utf8_cons, ← hrest]
      rfl

theorem Answer.spells_renderFields (h : ValidatesUtf8 validate) :
    ∀ fields : List (Bytes × Answer),
      ∃ text, Answer.renderFields (toJson validate) true fields = utf8 text ∧
        Json.SpellsMembers (Answer.jsonFields fields) text
  | [] => ⟨[], rfl, .nil Json.isSpace_nil⟩
  | (aliasName, answer) :: fields => by
    obtain ⟨string, hstring, his⟩ := isString_stringToJson h aliasName
    obtain ⟨text, htext, hspells⟩ := Answer.spells_render h answer
    obtain ⟨rest, hrest, hspellsRest⟩ := Answer.spells_renderFields h fields
    refine ⟨_, ?_, Json.SpellsMembers.cons_compact (Json.SpellsMember.compact his hspells)
      hspellsRest⟩
    have hname : toJson validate (.string aliasName) = utf8 string := hstring
    have hcolon : utf8 (':' :: text) = ascii ":" ++ utf8 text := rfl
    rw [Answer.renderFields, hname, htext, utf8_append, utf8_append, hcolon]
    cases fields with
    | nil => simp [separator, Answer.renderFields, Answer.jsonFields]
    | cons field fields =>
      have htail : Answer.renderFields (toJson validate) false (field :: fields) =
          ascii "," ++ utf8 rest := hrest ▸ rfl
      have hcomma : utf8 (',' :: rest) = ascii "," ++ utf8 rest := rfl
      rw [Answer.jsonFields, if_neg (List.cons_ne_nil _ _), htail, hcomma]
      simp [separator]

end

end Text

/-! ## What the interpreter writes -/

/-- `member` can give `value`: a data member has it, a method returns it. -/
def Member.Gives {O : Type} : Member O → Value O → Prop
  | .field _ value', value => value = value'
  | .method _ _ call, value => ∃ args, call args = .ok value

section Query

variable {O : Type} (members : O → List (Member O))

mutual

/-- The answer is made of the value: the same scalars, null where nothing is, an element
for each element, and for an object values its members give. -/
inductive Answers : Value O → Answer → Prop
  | scalar (value : Scalar) : Answers (.scalar value) (.scalar value)
  | null : Answers .null .null
  | ref {value : Value O} {answer : Answer} (h : Answers value answer) : Answers (.ref value) answer
  | list {elems : List (Value O)} {answers : List Answer} (h : AnswersElems elems answers) :
      Answers (.list elems) (.list answers)
  | object {object : O} {fields : List (Bytes × Answer)} (h : AnswersFields object fields) :
      Answers (.object object) (.object fields)

inductive AnswersElems : List (Value O) → List Answer → Prop
  | nil : AnswersElems [] []
  | cons {elem : Value O} {elems : List (Value O)} {answer : Answer} {answers : List Answer}
      (h : Answers elem answer) (hrest : AnswersElems elems answers) :
      AnswersElems (elem :: elems) (answer :: answers)

inductive AnswersFields : O → List (Bytes × Answer) → Prop
  | nil {object : O} : AnswersFields object []
  | cons {object : O} {aliasName : Bytes} {member : Member O} {value : Value O} {answer : Answer}
      {fields : List (Bytes × Answer)} (hmember : member ∈ members object)
      (hgives : member.Gives value) (h : Answers value answer)
      (hrest : AnswersFields object fields) :
      AnswersFields object ((aliasName, answer) :: fields)

end

variable {members}

theorem gqlMember_gives (member : Member O) (fuel : Nat) (s : GqlStream) :
    (gqlMember member fuel s).All fun r => member.Gives r.1 := by
  cases member with
  | field name value => exact Run.All.returns rfl
  | method name params call =>
    refine Run.All.any_bind fun r => ?_
    dsimp only
    cases missingArg params r.1 with
    | some param => exact Run.All.fails
    | none =>
      cases hcall : call r.1.values with
      | error message => exact Run.All.fails
      | ok value => exact Run.All.returns ⟨r.1.values, hcall⟩

/-- What the three functions of the interpreter write, by the fuel. -/
theorem gql_answers (toJson : Scalar → Bytes) (fuel : Nat) :
    (∀ value s, (gqlQuery members toJson fuel value s).All fun r =>
      ∃ answer, Answers members value answer ∧ r.1 = answer.render toJson) ∧
    (∀ first elems s, (gqlElements members toJson fuel first elems s).All fun out =>
      ∃ answers, AnswersElems members elems answers ∧
        out = Answer.renderElems toJson first answers) ∧
    ∀ first object s, (gqlFields members toJson fuel first object s).All fun r =>
      ∃ fields, AnswersFields members object fields ∧
        r.1 = Answer.renderFields toJson first fields := by
  induction fuel with
  | zero => exact ⟨fun _ _ => Run.All.running, fun _ _ _ => Run.All.running,
      fun _ _ _ => Run.All.running⟩
  | succ fuel ih =>
    obtain ⟨hquery, helements, hfields⟩ := ih
    refine ⟨fun value s => ?_, fun first elems s => ?_, fun first object s => ?_⟩
    · -- each rule of `Answers` is one branch of the interpreter
      cases value with
      | scalar value => exact Run.All.returns ⟨_, .scalar value, rfl⟩
      | null =>
        refine Run.All.any_bind fun _ => ?_
        exact Run.All.returns ⟨.null, .null, rfl⟩
      | ref value =>
        intro r hr
        obtain ⟨answer, hanswer, hout⟩ := hquery value s r hr
        exact ⟨answer, .ref hanswer, hout⟩
      | list elems =>
        refine (helements true elems s).bind fun out hout => ?_
        obtain ⟨answers, hanswers, rfl⟩ := hout
        refine Run.All.any_bind fun _ => ?_
        exact Run.All.returns ⟨.list answers, .list hanswers, rfl⟩
      | object object =>
        rw [gqlQuery_object]
        split
        · exact Run.All.fails
        · refine (hfields true object s.skip).bind fun r hr => ?_
          obtain ⟨fields, hanswers, hout⟩ := hr
          split
          · exact Run.All.fails
          · exact Run.All.returns ⟨.object fields, .object hanswers, by rw [hout]; rfl⟩
    · cases elems with
      | nil => exact Run.All.returns ⟨[], .nil, rfl⟩
      | cons elem elems =>
        rw [gqlElements_cons]
        refine (hquery elem s).bind fun out hout => ?_
        obtain ⟨answer, hanswer, hout⟩ := hout
        refine (helements false elems s).bind fun outs houts => ?_
        obtain ⟨answers, hanswers, houts⟩ := houts
        exact Run.All.returns ⟨answer :: answers, .cons hanswer hanswers, by rw [hout, houts]; rfl⟩
    · rw [gqlFields_succ]
      split
      · refine Run.All.any_bind fun names => ?_
        cases hfind : (members object).find? (·.name = names.2.1) with
        | none => exact Run.All.fails
        | some member =>
          -- the member gives a value, and that value the answer of the field
          refine (gqlMember_gives member fuel names.2.2).bind fun v hv => ?_
          refine (hquery v.1 v.2).bind fun out hout => ?_
          obtain ⟨answer, hanswer, hout⟩ := hout
          refine (hfields false object out.2).bind fun outs houts => ?_
          obtain ⟨fields, hanswers, houts⟩ := houts
          refine Run.All.returns ⟨(names.1, answer) :: fields,
            .cons (List.mem_of_find?_eq_some hfind) hv hanswer hanswers, ?_⟩
          rw [hout, houts]
          rfl
      · exact Run.All.returns ⟨[], .nil, rfl⟩

theorem gqlQueryRoot_answers (toJson : Scalar → Bytes) (fuel : Nat) (value : Value O)
    (s : GqlStream) :
    (gqlQueryRoot members toJson fuel value s).All fun out =>
      ∃ answer, Answers members value answer ∧ out = answer.render toJson := by
  refine Run.All.any_bind fun s' => ?_
  refine ((gql_answers toJson fuel).1 value s').bind fun r hr => ?_
  exact Run.All.any_bind fun _ => Run.All.returns hr

/-! ## The two forms -/

/-- The bytes are a JSON text of the value. -/
def IsJson (value : Json) (out : Bytes) : Prop := ∃ text, out = utf8 text ∧ Json.IsText value text

/-- An object with one member, the way both forms are written. -/
theorem spells_singleton {name text : List Char} {value : Json}
    (hname : name.all Json.isUnescaped) (h : Json.Spells value text) :
    Json.Spells (.object [(name, value)])
      ('\x7b' :: ('"' :: name ++ ['"'] ++ ':' :: ' ' :: text) ++ ['\x7d']) := by
  refine .object (.last ?_)
  have hstring : Json.IsString name ('"' :: name ++ ['"']) :=
    ⟨name, Json.unescape_of_unescaped (List.all_eq_true.mp hname), rfl⟩
  simpa using Json.SpellsMember.mk Json.isSpace_nil hstring Json.isSpace_nil
    (by simp [Json.IsSpace] : Json.IsSpace [' ']) h Json.isSpace_nil

theorem isJson_of_spells {value : Json} {text : List Char} (h : Json.Spells value text) :
    IsJson value (utf8 text) :=
  ⟨text, rfl, [], text, [], Json.isSpace_nil, h, Json.isSpace_nil, by simp⟩

theorem isJson_data {value : Json} {text : List Char} (h : Json.Spells value text) :
    IsJson (.object [("data".toList, value)])
      (ascii "\x7b\"data\": " ++ utf8 text ++ ascii "\x7d") := by
  have hbefore : utf8 "\x7b\"data\": ".toList = ascii "\x7b\"data\": " := by decide
  have hafter : utf8 "\x7d".toList = ascii "\x7d" := by decide
  have hjson := isJson_of_spells (spells_singleton
    (by decide : "data".toList.all Json.isUnescaped) h)
  rw [← hbefore, ← hafter, ← utf8_append, ← utf8_append]
  exact hjson

theorem isJson_errorsForm {validate : Bytes → Option Nat} (h : ValidatesUtf8 validate)
    (message : Bytes) :
    IsJson (.object [("errors".toList, .object [("message".toList, .string (readable message))])])
      (errorsForm (toJson validate) message) := by
  obtain ⟨string, hstring, his⟩ := isString_stringToJson h message
  have hmessage : toJson validate (.string message) = utf8 string := hstring
  have hbefore : utf8 "\x7b\"errors\": \x7b\"message\": ".toList =
      ascii "\x7b\"errors\": \x7b\"message\": " := by decide
  have hafter : utf8 "\x7d\x7d".toList = ascii "\x7d\x7d" := by decide
  have hjson := isJson_of_spells
    (spells_singleton (by decide : "errors".toList.all Json.isUnescaped)
      (spells_singleton (by decide : "message".toList.all Json.isUnescaped) (.string his)))
  rw [errorsForm, hmessage, ← hbefore, ← hafter, ← utf8_append, ← utf8_append]
  simpa using hjson

/-- **An answer is one JSON text**: the data form of an answer made of the value, or the
errors form. A string of valid UTF-8 reads back as it is. -/
theorem gqlQueryString_json {validate : Bytes → Option Nat} (h : ValidatesUtf8 validate)
    {fuel : Nat} {value : Value O} {query vars out : Bytes}
    (hout : gqlQueryString members (toJson validate) fuel value query vars = .returns out) :
    ((∃ answer, Answers members value answer ∧
        IsJson (.object [("data".toList, answer.json)]) out) ∨
      ∃ message, IsJson (.object [("errors".toList,
        .object [("message".toList, .string (readable message))])]) out) ∧
    ∀ text, (Scalar.string (utf8 text)).json = .string text := by
  refine ⟨?_, fun text => congrArg Json.string (readable_utf8 text)⟩
  unfold gqlQueryString at hout
  split at hout
  · cases hout
    exact .inr ⟨_, isJson_errorsForm h _⟩
  split at hout
  · cases hout
  · cases hout
  · cases hout
    exact .inr ⟨_, isJson_errorsForm h _⟩
  · next data hdata =>
    obtain ⟨answer, hanswer, rfl⟩ := gqlQueryRoot_answers _ _ _ _ data hdata
    obtain ⟨text, htext, hspells⟩ := answer.spells_render h
    cases hout
    rw [htext]
    exact .inl ⟨answer, hanswer, isJson_data hspells⟩

/-- A string with a quote and a byte that begins no character. -/
theorem gqlQueryString_json_example :
    let members : Unit → List (Member Unit) := fun _ =>
      [.field (ascii "a") (.scalar (.string [quote, 0xFF]))]
    let out := ascii "\x7b\"data\": \x7b\"a\":\"\\\"?\"\x7d\x7d"
    ((∃ answer, Answers members (.object ()) answer ∧
        IsJson (.object [("data".toList, answer.json)]) out) ∨
      ∃ message, IsJson (.object [("errors".toList,
        .object [("message".toList, .string (readable message))])]) out) ∧
    ∀ text, (Scalar.string (utf8 text)).json = .string text := by
  have hout : gqlQueryString
      (fun _ : Unit => [.field (ascii "a") (.scalar (.string [quote, 0xFF]))])
      (toJson fun buf => (decodeChar? buf).map Char.utf8Size) 4 (.object ())
      (ascii "\x7ba\x7d") [] =
      .returns (ascii "\x7b\"data\": \x7b\"a\":\"\\\"?\"\x7d\x7d") := by
    decide +kernel
  exact gqlQueryString_json (fun _ _ => rfl) hout

end Query

end Microchain.Graphql
