import Microchain.Graphql.Validity

/-!
# Skipping a selection set agrees with evaluating it

`gql_skip_selection_set` counts braces, `gql_query` interprets what is between them.
Where a value is written as `null`, or as a list whose elements read copies of the
stream, the skip stands for the evaluation. **From every stream, an evaluation of a value
that is built over objects ends where the skip ends** (`gqlQuery_skips`), so that neither
moves what comes behind.

A scalar alone is no such value: it leaves a selection set where it is.
-/

namespace Microchain.Graphql

open Eosio Lib

section Skipping

variable {O : Type} {members : O → List (Member O)} {toJson : Scalar → Bytes}

/-- A value of an object type, or of an optional, pointer, reference or list built over
one. -/
inductive OverObjects : Value O → Prop
  | null : OverObjects .null
  | ref {value : Value O} (h : OverObjects value) : OverObjects (.ref value)
  | list {elems : List (Value O)} (h : ∀ elem ∈ elems, OverObjects elem) :
    OverObjects (.list elems)
  | object (object : O) : OverObjects (.object object)

/-- An object needs a brace, and a closing one where its fields end. A stream that stands
at an error does not move from the first to the second. -/
theorem Fits.skips_object_any {object : O} {s s' : GqlStream}
    (h : Fits members (.object object) s s') : Returns (gqlSkipSelectionSet · s) s' := by
  cases h with
  | @object _ _ s' hopen hfields hclose =>
    by_cases herror : s.currentType = .error
    · rw [GqlStream.skip_of_error herror] at hfields
      cases hfields with
      | done hname => exact absurd hclose (not_isPunct_of_isPunct hopen (by decide))
      | field hvalue _ _ =>
        have hname := hvalue.1
        rw [herror] at hname
        cases hname
    · -- behind the brace only the lexer has written the fields
      have hlexed : s.skip.Lexed := by
        rw [GqlStream.skip, if_neg herror]
        exact GqlStream.lexToken_lexed _ _
      exact returns_skip_of_passes hopen (hfields.passes hlexed hclose) hclose

/-- **A selection set that fits a value over objects is skipped to the same end.** -/
theorem Fits.skips_overObjects {value : Value O} (hvalue : OverObjects value) {s s' : GqlStream}
    (h : Fits members value s s') : Returns (gqlSkipSelectionSet · s) s' := by
  induction hvalue with
  | null =>
    cases h with
    | null hskip => exact hskip
  | ref _ ih =>
    cases h with
    | ref h => exact ih h
  | list _ _ =>
    cases h with
    | list _ _ hskip => exact hskip
  | object object => exact h.skips_object_any

/-- Every element of a list ends where the one skip behind the list does. -/
theorem Fits.elem_end {elems : List (Value O)} (helems : ∀ elem ∈ elems, OverObjects elem)
    {s s' : GqlStream} (h : Fits members (.list elems) s s') {elem : Value O}
    (helem : elem ∈ elems) : Fits members elem s s' := by
  cases h with
  | list ends hends hskip =>
    have hend := skip_unique ((hends elem helem).skips_overObjects (helems elem helem)) hskip
    rw [← hend]
    exact hends elem helem

/-- **Skipping agrees with evaluating.** Where the evaluation of a value over objects
succeeds, the skip from the same stream succeeds and leaves the same stream; so does a
null in the place of the value, and every element of a list does on its copy. -/
theorem gqlQuery_skips {value : Value O} (hvalue : OverObjects value) {s s' : GqlStream}
    {out : Bytes} (h : Returns (gqlQuery members toJson · value s) (out, s')) :
    Returns (gqlSkipSelectionSet · s) s' ∧
      Returns (gqlQuery members toJson · .null s) (ascii "null", s') ∧
      ∀ elems, value = .list elems → ∀ elem ∈ elems,
        ∃ text, Returns (gqlQuery members toJson · elem s) (text, s') := by
  have hfits : Fits members value s s' := fits_iff.mp ⟨out, h⟩
  have hskip := hfits.skips_overObjects hvalue
  refine ⟨hskip, ?_, ?_⟩
  · refine Returns.succ (gqlQuery_null members toJson · _) ?_
    exact hskip.bind (gqlSkipSelectionSet_mono s) (fun _ => Mono.const _) ⟨0, rfl⟩
  · rintro elems rfl elem helem
    cases hvalue with
    | list helems => exact (hfits.elem_end helems helem).returns toJson

/-- A string that holds a brace, behind the alias of a member with an argument. -/
theorem gqlQuery_skips_example :
    Returns (gqlSkipSelectionSet · (GqlStream.new (ascii "\x7bb: a(x: \"\x7d\")\x7d c")))
      (GqlStream.new (ascii "c")) := by
  have hvalue : OverObjects (.list [.object (), .null] : Value Unit) := by
    refine .list fun elem helem => ?_
    rcases List.mem_pair.mp helem with rfl | rfl
    · exact .object ()
    · exact .null
  have h : Returns (gqlQuery (fun _ => [.method (ascii "a") [⟨ascii "x", .string, false⟩]
        fun _ => .ok (.scalar (.boolean true))]) (fun _ => []) · (.list [.object (), .null])
        (GqlStream.new (ascii "\x7bb: a(x: \"\x7d\")\x7d c")))
      (ascii "[\x7b:\x7d,null]", GqlStream.new (ascii "c")) := ⟨20, by decide +kernel⟩
  exact (gqlQuery_skips hvalue h).1

end Skipping

end Microchain.Graphql
