import Mathlib.Data.List.Forall2
import Microchain.Graphql.Interpreter

/-!
# Schemas

The C++ types behind the values: what `gql_query` is instantiated with, and what
`get_gql_schema` prints. A value of the model is not typed, so its type is a relation
(`HasType`), and a schema is one of the members of every object (`Conforms`).

What the interpreter looks up in an object is what the schema has for its type
(`Conforms.find`).
-/

namespace Microchain.Graphql

open Eosio

/-- The type of a value, `T` being the reflected types. A reference has the type of
what it refers to. -/
inductive GqlType (T : Type) where
  | scalar
  | object (type : T)
  | nullable (type : GqlType T)
  | list (type : GqlType T)

/-- The object type at the bottom of a type: what a selection set selects from. -/
def GqlType.leaf {T : Type} : GqlType T → Option T
  | scalar => none
  | object type => some type
  | nullable type => type.leaf
  | list type => type.leaf

/-- A member: its name, its parameters and the type of its value. A data member has no
parameters. -/
structure FieldDef (T : Type) where
  name : Bytes
  params : List Param
  type : GqlType T
  nodup : (params.map Param.name).Nodup

/-- The members of every reflected type. -/
abbrev GqlSchema (T : Type) := T → List (FieldDef T)

section Types

variable {O T : Type} (typeOf : O → T)

/-- A value of a type. -/
inductive HasType : Value O → GqlType T → Prop
  | scalar (value : Scalar) : HasType (.scalar value) .scalar
  | object (object : O) : HasType (.object object) (.object (typeOf object))
  | null {type : GqlType T} : HasType .null (.nullable type)
  | full {value : Value O} {type : GqlType T} (h : HasType value type) :
      HasType (.ref value) (.nullable type)
  | reference {value : Value O} {type : GqlType T} (h : HasType value type) :
      HasType (.ref value) type
  | list {elems : List (Value O)} {type : GqlType T} (h : ∀ elem ∈ elems, HasType elem type) :
      HasType (.list elems) (.list type)

/-- A member is what the schema says: a method returns values of its type. -/
def Member.HasType : Member O → FieldDef T → Prop
  | .field name value, decl =>
    decl.name = name ∧ decl.params = [] ∧ Graphql.HasType typeOf value decl.type
  | .method name params call, decl =>
    decl.name = name ∧ decl.params = params ∧
      ∀ args value, call args = .ok value → Graphql.HasType typeOf value decl.type

/-- Every object has the members of its type. -/
def Conforms (schema : GqlSchema T) (members : O → List (Member O)) : Prop :=
  ∀ object, List.Forall₂ (Member.HasType typeOf) (members object) (schema (typeOf object))

variable {typeOf}

theorem Member.HasType.name_eq {member : Member O} {decl : FieldDef T}
    (h : member.HasType typeOf decl) : decl.name = member.name := by
  cases member with
  | field name value => exact h.1
  | method name params call => exact h.1

/-- In two lists that are related element by element a search stops at the same place. -/
theorem find_of_forall₂ {α β : Type} {r : α → β → Prop} {p : α → Bool} {q : β → Bool}
    (hpq : ∀ a b, r a b → p a = q b) {as : List α} {bs : List β} (h : List.Forall₂ r as bs) :
    (as.find? p = none ∧ bs.find? q = none) ∨
      ∃ a b, as.find? p = some a ∧ bs.find? q = some b ∧ r a b := by
  induction h with
  | nil => exact .inl ⟨rfl, rfl⟩
  | @cons a b as bs hab _ ih =>
    have heq := hpq a b hab
    cases hq : q b with
    | true => exact .inr ⟨a, b, List.find?_cons_of_pos (heq.trans hq), List.find?_cons_of_pos hq, hab⟩
    | false =>
      rw [List.find?_cons_of_neg (by simp [heq, hq]), List.find?_cons_of_neg (by simp [hq])]
      exact ih

/-- A name is found in an object as in the schema. -/
theorem Conforms.find {schema : GqlSchema T} {members : O → List (Member O)}
    (h : Conforms typeOf schema members) (object : O) (name : Bytes) :
    ((members object).find? (·.name = name) = none ∧
      (schema (typeOf object)).find? (·.name = name) = none) ∨
      ∃ member decl, (members object).find? (·.name = name) = some member ∧
        (schema (typeOf object)).find? (·.name = name) = some decl ∧
        member.HasType typeOf decl :=
  find_of_forall₂ (fun member decl hmember => by rw [hmember.name_eq]) (h object)

end Types

end Microchain.Graphql
