import Microchain.Graphql.Termination

/-!
# Which queries abort

An `eosio::check` fails in the middle of an evaluation only where a member is read: in
the conversion of an argument, or in the method. `Reaches value s object t` says that
the evaluation of `value` from `s` comes to a field of `object` at `t`.

- `Reaches.fails`: a field that fails makes the evaluation fail;
- `gqlQuery_aborts_iff`: an evaluation aborts exactly when it comes to a field that does.
-/

namespace Microchain.Graphql

open Eosio Lib

section Query

variable {O : Type} (members : O → List (Member O)) (toJson : Scalar → Bytes)

/-- The evaluation of a value from `s` comes to the loop over the fields of `object` at
`t`. -/
inductive Reaches : Value O → GqlStream → O → GqlStream → Prop
  | ref {value : Value O} {s t : GqlStream} {object : O} (h : Reaches value s object t) :
    Reaches (.ref value) s object t
  | element {before after : List (Value O)} {elem : Value O} {s t : GqlStream} {object : O}
      (hreturn : ∀ elem ∈ before, ∃ r, Returns (gqlQuery members toJson · elem s) r)
      (h : Reaches elem s object t) : Reaches (.list (before ++ elem :: after)) s object t
  | here {object : O} {s t : GqlStream} (hopen : isPunct s '{')
      (hreach : FieldsReach members toJson object s.skip t) : Reaches (.object object) s object t
  | field {object object' : O} {s s' t : GqlStream} {r : Value O × GqlStream}
      (hopen : isPunct s '{') (hreach : FieldsReach members toJson object s.skip s')
      (hvalue : FieldValue members object s' r) (h : Reaches r.1 r.2 object' t) :
      Reaches (.object object) s object' t

/-- The field of `object` at `t` fails: in its arguments, or in its method. -/
def FieldFails (object : O) (t : GqlStream) (failure : GqlFailure) : Prop :=
  t.currentType = .name ∧ ∃ names member, gqlFieldName t = .returns names ∧
    (members object).find? (·.name = names.2.1) = some member ∧
    Fails (gqlMember member · names.2.2) failure

variable {members toJson}

/-! ## A field that fails -/

theorem FieldFails.fails {object : O} {t : GqlStream} {failure : GqlFailure}
    (h : FieldFails members object t failure) (first : Bool) :
    Fails (gqlFields members toJson · first object t) failure := by
  obtain ⟨hname, names, member, hnames, hfind, hmember⟩ := h
  obtain ⟨fuel, hfuel⟩ := hmember
  have hfuel : gqlMember member fuel names.2.2 = .fails failure := hfuel
  refine ⟨fuel + 1, ?_⟩
  show gqlFields members toJson (fuel + 1) first object t = .fails failure
  rw [gqlFields_succ, if_pos hname, hnames, Run.returns_bind, hfind]
  dsimp only
  rw [hfuel, Run.fails_bind]

theorem gqlFields_fails_of_value {object : O} {s : GqlStream} {r : Value O × GqlStream}
    (hvalue : FieldValue members object s r) {failure : GqlFailure}
    (hfails : Fails (gqlQuery members toJson · r.1 r.2) failure) (first : Bool) :
    Fails (gqlFields members toJson · first object s) failure := by
  obtain ⟨names, member, hmember, hsucc⟩ := gqlFields_of_value hvalue first
  refine Fails.succ hsucc (hmember.fails_bind (gqlMember_mono member _) (fun v => ?_) hfails.bind)
  exact (gqlQuery_mono members toJson _ _).bind fun _ =>
    (gqlFields_mono members toJson _ _ _).bind fun _ => Mono.const _

theorem FieldsReach.fails {object : O} {s s' : GqlStream} {failure : GqlFailure}
    (h : FieldsReach members toJson object s s')
    (hfails : ∀ first, Fails (gqlFields members toJson · first object s') failure)
    (first : Bool) : Fails (gqlFields members toJson · first object s) failure := by
  induction h generalizing first with
  | here s => exact hfails first
  | @field s s' r out hvalue hreturns _ ih =>
    obtain ⟨names, member, hmember, hsucc⟩ := gqlFields_of_value hvalue first
    refine Fails.succ hsucc (hmember.fails_bind (gqlMember_mono member _) (fun v => ?_) ?_)
    · exact (gqlQuery_mono members toJson _ _).bind fun _ =>
        (gqlFields_mono members toJson _ _ _).bind fun _ => Mono.const _
    · exact hreturns.fails_bind (gqlQuery_mono members toJson _ _)
        (fun _ => (gqlFields_mono members toJson _ _ _).bind fun _ => Mono.const _)
        (ih hfails false).bind

theorem gqlElements_fails {before after : List (Value O)} {elem : Value O} {s : GqlStream}
    {failure : GqlFailure}
    (hreturn : ∀ elem ∈ before, ∃ r, Returns (gqlQuery members toJson · elem s) r)
    (hfails : Fails (gqlQuery members toJson · elem s) failure) (first : Bool) :
    Fails (gqlElements members toJson · first (before ++ elem :: after) s) failure := by
  induction before generalizing first with
  | nil => exact Fails.succ (gqlElements_cons members toJson · first elem after s) hfails.bind
  | cons e before ih =>
    obtain ⟨r, hr⟩ := hreturn e List.mem_cons_self
    refine Fails.succ (gqlElements_cons members toJson · first e _ s) ?_
    exact hr.fails_bind (gqlQuery_mono members toJson _ _)
      (fun _ => (gqlElements_mono members toJson _ _ _).bind fun _ => Mono.const _)
      (ih (fun d hd => hreturn d (List.mem_cons_of_mem _ hd)) false).bind

/-- **A field that fails makes the evaluation fail.** -/
theorem Reaches.fails {value : Value O} {s t : GqlStream} {object : O} {failure : GqlFailure}
    (h : Reaches members toJson value s object t) (hfails : FieldFails members object t failure) :
    Fails (gqlQuery members toJson · value s) failure := by
  induction h with
  | ref _ ih => exact Fails.succ (gqlQuery_ref members toJson · _ _) (ih hfails)
  | element hreturn _ ih =>
    exact Fails.succ (gqlQuery_list members toJson · _ _)
      (gqlElements_fails hreturn (ih hfails) true).bind
  | @here object s t hopen hreach =>
    refine Fails.succ (fun n => (gqlQuery_object members toJson n object s).trans
      (if_neg (not_not.mpr hopen))) ?_
    exact (hreach.fails hfails.fails true).bind
  | @field object object' s s' t r hopen hreach hvalue _ ih =>
    refine Fails.succ (fun n => (gqlQuery_object members toJson n object s).trans
      (if_neg (not_not.mpr hopen))) ?_
    exact (hreach.fails (gqlFields_fails_of_value hvalue (ih hfails)) true).bind

/-! ## How a method fails -/

/-- A method fails in its arguments, for one that is missing, or in the call. -/
theorem gqlMethod_fails_iff {name : Bytes} {params : List Param}
    {call : List (Option ArgValue) → Except String (Value O)} {s : GqlStream}
    {failure : GqlFailure} :
    Fails (gqlMember (.method name params call) · s) failure ↔
      Fails (gqlArgList params · s) failure ∨
        ∃ r, Returns (gqlArgList params · s) r ∧
          ((∃ param, missingArg params r.1 = some param ∧ failure =
            .error (ascii "function missing required arg '" ++ param.name ++ ascii "'")) ∨
          missingArg params r.1 = none ∧
            ∃ message, call r.1.values = .error message ∧ failure = .abort message) := by
  constructor
  · rintro ⟨fuel, h⟩
    rcases fails_of_bind h with hargs | ⟨r, hr, hrest⟩
    · exact .inl ⟨fuel, hargs⟩
    refine .inr ⟨r, ⟨fuel, hr⟩, ?_⟩
    dsimp only at hrest
    -- the arguments are there: one is missing, or the call itself fails
    cases hmissing : missingArg params r.1 with
    | some param =>
      rw [hmissing] at hrest
      cases hrest
      exact .inl ⟨param, rfl, rfl⟩
    | none =>
      rw [hmissing] at hrest
      cases hcall : call r.1.values with
      | error message =>
        simp only [hcall, aborting, Run.fails_bind] at hrest
        cases hrest
        exact .inr ⟨rfl, message, rfl, rfl⟩
      | ok value =>
        simp only [hcall, aborting, Run.returns_bind] at hrest
        cases hrest
  · rintro (hargs | ⟨r, ⟨fuel, hr⟩, hcase⟩)
    · exact hargs.bind
    have hr : gqlArgList params fuel s = .returns r := hr
    refine ⟨fuel, ?_⟩
    show gqlMember (.method name params call) fuel s = .fails failure
    rw [gqlMember, hr, Run.returns_bind]
    dsimp only
    rcases hcase with ⟨param, hmissing, rfl⟩ | ⟨hmissing, message, hcall, rfl⟩
    · rw [hmissing]
      rfl
    · rw [hmissing]
      dsimp only
      rw [hcall]
      rfl

/-! ## Every abort is that of a field -/

/-- The failures that are not reported. -/
def GqlFailure.IsAbort : GqlFailure → Prop
  | .error _ => False
  | .abort _ => True

theorem error_neverAborts {α : Type} (message : Bytes) :
    (error message : Gql α).NeverFails GqlFailure.IsAbort := Run.NeverFails.fails id

/-- No conversion of an argument fails. -/
def Converts (params : List Param) : Prop :=
  ∀ param ∈ params, ∀ convert, param.type = .fromString convert →
    ∀ s, ∃ value, convert s = .ok value

theorem gqlParseArg_neverAborts {type : ArgType}
    (h : ∀ convert, type = .fromString convert → ∀ s, ∃ value, convert s = .ok value)
    (s : GqlStream) : (gqlParseArg type s).NeverFails GqlFailure.IsAbort := by
  cases type with
  | string =>
    rw [gqlParseArg]
    split
    · exact Run.NeverFails.returns _
    · exact error_neverAborts _
  | boolean =>
    rw [gqlParseArg]
    split_ifs <;> first | exact error_neverAborts _ | exact Run.NeverFails.returns _
  | integer min max =>
    rw [gqlParseArg]
    split
    · exact error_neverAborts _
    split
    · exact Run.NeverFails.returns _
    · exact error_neverAborts _
    · exact error_neverAborts _
  | fromString convert =>
    rw [gqlParseArg]
    split
    · obtain ⟨value, hvalue⟩ := h convert rfl s.currentValue
      rw [hvalue]
      exact Run.NeverFails.returns _
    · exact error_neverAborts _

theorem gqlParseArgs_neverAborts {params : List Param} (h : Converts params) (i : Nat) (args : Args)
    (s : GqlStream) : (gqlParseArgs i params args s).NeverFails GqlFailure.IsAbort := by
  induction params generalizing i args s with
  | nil => exact Run.NeverFails.returns _
  | cons param params ih =>
    unfold gqlParseArgs
    dsimp only
    split
    · exact ih (fun p hp => h p (List.mem_cons_of_mem _ hp)) (i + 1) args s
    split
    · exact error_neverAborts _
    split
    · exact error_neverAborts _
    split
    · exact Run.NeverFails.returns _
    · exact (gqlParseArg_neverAborts (h param List.mem_cons_self) _).bind
        fun _ => Run.NeverFails.returns _

theorem gqlArgsLoop_neverAborts {params : List Param} (h : Converts params) (fuel : Nat)
    (args : Args) (s : GqlStream) :
    (gqlArgsLoop params fuel args s).NeverFails GqlFailure.IsAbort := by
  induction fuel generalizing args s with
  | zero => exact Run.NeverFails.running
  | succ fuel ih =>
    unfold gqlArgsLoop
    split
    · refine (gqlParseArgs_neverAborts h 0 args s).bind fun r => ?_
      dsimp only
      split
      · exact ih _ _
      · exact error_neverAborts _
    · exact Run.NeverFails.returns _

theorem gqlArgList_neverAborts {params : List Param} (h : Converts params) (fuel : Nat)
    (s : GqlStream) : (gqlArgList params fuel s).NeverFails GqlFailure.IsAbort := by
  unfold gqlArgList
  dsimp only
  split
  · split
    · exact error_neverAborts _
    · refine (gqlArgsLoop_neverAborts h fuel _ _).bind fun r => ?_
      split
      · exact error_neverAborts _
      · exact Run.NeverFails.returns _
  · exact Run.NeverFails.returns _

/-- Reading the member cannot abort. -/
def Member.Safe : Member O → Prop
  | .field _ _ => True
  | .method _ params call => Converts params ∧ ∀ values, ∃ value, call values = .ok value

theorem Member.Safe.not_aborts {member : Member O} (h : member.Safe) (s : GqlStream)
    (message : String) : ¬ Fails (gqlMember member · s) (.abort message) := by
  cases member with
  | field name value =>
    rintro ⟨fuel, hfuel⟩
    cases hfuel
  | method name params call =>
    obtain ⟨hconverts, hcall⟩ := h
    intro hfails
    rcases gqlMethod_fails_iff.mp hfails with ⟨fuel, hargs⟩ | ⟨r, -, ⟨_, -, he⟩ | ⟨-, e, he, -⟩⟩
    · exact gqlArgList_neverAborts hconverts fuel s _ hargs trivial
    · cases he
    · obtain ⟨value, hvalue⟩ := hcall r.1.values
      rw [hvalue] at he
      cases he

theorem gqlFieldName_neverAborts (s : GqlStream) :
    (gqlFieldName s).NeverFails GqlFailure.IsAbort := by
  unfold gqlFieldName
  dsimp only
  split
  · split
    · exact error_neverAborts _
    · exact Run.NeverFails.returns _
  · exact Run.NeverFails.returns _

theorem gqlSkipLoop_neverAborts (fuel : Nat) (s : GqlStream) :
    (gqlSkipLoop fuel s).NeverFails GqlFailure.IsAbort := by
  induction fuel generalizing s with
  | zero => exact Run.NeverFails.running
  | succ fuel ih =>
    rw [gqlSkipLoop_succ]
    split
    · exact error_neverAborts _
    split
    · exact (ih s.skip).bind ih
    split
    · exact Run.NeverFails.returns _
    · exact ih s.skip

theorem gqlSkipSelectionSet_neverAborts (fuel : Nat) (s : GqlStream) :
    (gqlSkipSelectionSet fuel s).NeverFails GqlFailure.IsAbort := by
  unfold gqlSkipSelectionSet
  split
  · exact Run.NeverFails.returns _
  · exact gqlSkipLoop_neverAborts fuel s.skip

/-- The loop over the fields of `object` aborts at a field of it, or in the value of
one. -/
def FieldsAbort (members : O → List (Member O)) (toJson : Scalar → Bytes) (object : O)
    (s : GqlStream) (message : String) : Prop :=
  ∃ s', FieldsReach members toJson object s s' ∧
    (FieldFails members object s' (.abort message) ∨
      ∃ r object' t, FieldValue members object s' r ∧ Reaches members toJson r.1 r.2 object' t ∧
        FieldFails members object' t (.abort message))

/-- With any fuel, for the three functions at once. -/
theorem gql_aborts (message : String) (fuel : Nat) :
    (∀ value s, gqlQuery members toJson fuel value s = .fails (.abort message) →
      ∃ object t, Reaches members toJson value s object t ∧
        FieldFails members object t (.abort message)) ∧
    (∀ first elems s, gqlElements members toJson fuel first elems s = .fails (.abort message) →
      ∃ before elem after, elems = before ++ elem :: after ∧
        (∀ elem ∈ before, ∃ r, Returns (gqlQuery members toJson · elem s) r) ∧
        ∃ object t, Reaches members toJson elem s object t ∧
          FieldFails members object t (.abort message)) ∧
    ∀ first object s, gqlFields members toJson fuel first object s = .fails (.abort message) →
      FieldsAbort members toJson object s message := by
  induction fuel with
  | zero => exact ⟨nofun, nofun, nofun⟩
  | succ fuel ih =>
    obtain ⟨hquery, helements, hfields⟩ := ih
    refine ⟨fun value s h => ?_, fun first elems s h => ?_, fun first object s h => ?_⟩
    · -- a value: a scalar aborts nowhere, and skipping a selection set never does
      cases value with
      | scalar value => cases h
      | null =>
        rcases fails_of_bind h with hskip | ⟨_, -, hrest⟩
        · exact absurd trivial (gqlSkipSelectionSet_neverAborts fuel s _ hskip)
        · cases hrest
      | ref value =>
        obtain ⟨object, t, hreach, hfails⟩ := hquery value s h
        exact ⟨object, t, .ref hreach, hfails⟩
      | list elems =>
        rcases fails_of_bind h with helems | ⟨_, -, hrest⟩
        · obtain ⟨before, elem, after, rfl, hreturn, object, t, hreach, hfails⟩ :=
            helements true elems s helems
          exact ⟨object, t, .element hreturn hreach, hfails⟩
        · rcases fails_of_bind hrest with hskip | ⟨_, -, hrest⟩
          · exact absurd trivial (gqlSkipSelectionSet_neverAborts fuel s _ hskip)
          · cases hrest
      | object object =>
        rw [gqlQuery_object] at h
        split at h
        · cases h
        · next hopen =>
          rcases fails_of_bind h with hloop | ⟨r, -, hrest⟩
          · obtain ⟨s', hreach, hhere | ⟨r, object', t, hvalue, hinner, hfails⟩⟩ :=
              hfields true object s.skip hloop
            · exact ⟨object, s', .here (not_not.mp hopen) hreach, hhere⟩
            · exact ⟨object', t, .field (not_not.mp hopen) hreach hvalue hinner, hfails⟩
          · split at hrest <;> cases hrest
    · -- a list: the first element that aborts, those before it returned
      cases elems with
      | nil => cases h
      | cons elem elems =>
        rw [gqlElements_cons] at h
        rcases fails_of_bind h with hfirst | ⟨r, hr, hrest⟩
        · exact ⟨[], elem, elems, rfl, by simp, hquery elem s hfirst⟩
        · rcases fails_of_bind hrest with helems | ⟨_, -, hrest⟩
          · obtain ⟨before, e, after, rfl, hreturn, hreach⟩ := helements false elems s helems
            refine ⟨elem :: before, e, after, rfl, ?_, hreach⟩
            exact List.forall_mem_cons.mpr ⟨⟨r, fuel, hr⟩, hreturn⟩
          · cases hrest
    · rw [gqlFields_succ] at h
      split at h
      · next hname =>
        rcases fails_of_bind h with hfield | ⟨names, hnames, hrest⟩
        · exact absurd trivial (gqlFieldName_neverAborts s _ hfield)
        cases hfind : (members object).find? (·.name = names.2.1) with
        | none =>
          rw [hfind] at hrest
          cases hrest
        | some member =>
          rw [hfind] at hrest
          rcases fails_of_bind hrest with hmember | ⟨v, hv, hrest⟩
          · -- the field itself
            exact ⟨s, .here s, .inl ⟨hname, names, member, hnames, hfind, fuel, hmember⟩⟩
          have hvalue : FieldValue members object s v :=
            ⟨hname, names, member, hnames, hfind, fuel, hv⟩
          rcases fails_of_bind hrest with hinner | ⟨out, hout, hrest⟩
          · -- the value of the field
            obtain ⟨object', t, hreach, hfails⟩ := hquery v.1 v.2 hinner
            exact ⟨s, .here s, .inr ⟨v, object', t, hvalue, hreach, hfails⟩⟩
          rcases fails_of_bind hrest with hloop | ⟨_, -, hrest⟩
          · -- a later field
            obtain ⟨s', hreach, hfails⟩ := hfields false object out.2 hloop
            exact ⟨s', .field hvalue ⟨fuel, hout⟩ hreach, hfails⟩
          · cases hrest
      · cases h

/-- **An evaluation aborts exactly when it comes to a field that does.** -/
theorem gqlQuery_aborts_iff {value : Value O} {s : GqlStream} {message : String} :
    Fails (gqlQuery members toJson · value s) (.abort message) ↔
      ∃ object t, Reaches members toJson value s object t ∧
        FieldFails members object t (.abort message) := by
  constructor
  · rintro ⟨fuel, h⟩
    exact (gql_aborts message fuel).1 value s h
  · rintro ⟨object, t, hreach, hfails⟩
    exact hreach.fails hfails

/-! ## Whole queries -/

theorem gqlOperation_neverAborts (s : GqlStream) :
    (gqlOperation s).NeverFails GqlFailure.IsAbort := by
  unfold gqlOperation
  dsimp only
  split_ifs <;> first | exact error_neverAborts _ | exact Run.NeverFails.returns _

theorem gqlEndOfInput_neverAborts (s : GqlStream) :
    (gqlEndOfInput s).NeverFails GqlFailure.IsAbort := by
  unfold gqlEndOfInput
  split_ifs
  · exact Run.NeverFails.returns _
  all_goals exact error_neverAborts _

/-- What the exported function makes of a value. -/
theorem gqlQueryString_of_returns {root : Value O} {query : Bytes} {s s' : GqlStream}
    (hs : gqlOperation (GqlStream.new query) = .returns s) {out : Bytes}
    (hout : Returns (gqlQuery members toJson · root s) (out, s')) (heof : s'.currentType = .eof) :
    Returns (gqlQueryString members toJson · root query [])
      (ascii "\x7b\"data\": " ++ out ++ ascii "\x7d") := by
  obtain ⟨fuel, hfuel⟩ := hout
  have hfuel : gqlQuery members toJson fuel root s = .returns (out, s') := hfuel
  have hend : gqlEndOfInput s' = .returns () := if_pos heof
  have hroot : gqlQueryRoot members toJson fuel root (GqlStream.new query) = .returns out := by
    rw [gqlQueryRoot, hs, Run.returns_bind, hfuel, Run.returns_bind]
    dsimp only
    rw [hend, Run.returns_bind]
  refine ⟨fuel, ?_⟩
  show gqlQueryString members toJson fuel root query [] = _
  rw [gqlQueryString, if_neg (not_not.mpr rfl), hroot]

variable (members toJson)

/-- What the exported function makes of a failure. -/
theorem gqlQueryString_of_fails {root : Value O} {query : Bytes} {s : GqlStream}
    (hs : gqlOperation (GqlStream.new query) = .returns s) {failure : GqlFailure}
    (hfails : Fails (gqlQuery members toJson · root s) failure) :
    match failure with
    | .error message => Returns (gqlQueryString members toJson · root query [])
        (errorsForm toJson message)
    | .abort message => Fails (gqlQueryString members toJson · root query []) message := by
  obtain ⟨fuel, hfuel⟩ := hfails
  have hfuel : gqlQuery members toJson fuel root s = .fails failure := hfuel
  have hroot : gqlQueryRoot members toJson fuel root (GqlStream.new query) = .fails failure := by
    rw [gqlQueryRoot, hs, Run.returns_bind, hfuel, Run.fails_bind]
  cases failure with
  | error message =>
    refine ⟨fuel, ?_⟩
    show gqlQueryString members toJson fuel root query [] = _
    rw [gqlQueryString, if_neg (not_not.mpr rfl), hroot]
  | abort message =>
    refine ⟨fuel, ?_⟩
    show gqlQueryString members toJson fuel root query [] = _
    rw [gqlQueryString, if_neg (not_not.mpr rfl), hroot]

/-- **When a query aborts**: it is looked at, and its evaluation comes to a field that
aborts. -/
theorem gqlQueryString_aborts_iff (root : Value O) (query vars : Bytes) (message : String) :
    Fails (gqlQueryString members toJson · root query vars) message ↔
      vars = [] ∧ ∃ s object t, gqlOperation (GqlStream.new query) = .returns s ∧
        Reaches members toJson root s object t ∧
        FieldFails members object t (.abort message) := by
  constructor
  · rintro ⟨fuel, h⟩
    have h : gqlQueryString members toJson fuel root query vars = .fails message := h
    rw [gqlQueryString] at h
    split at h
    · cases h
    · next hvars =>
      refine ⟨not_not.mp hvars, ?_⟩
      cases hroot : gqlQueryRoot members toJson fuel root (GqlStream.new query) with
      | running =>
        rw [hroot] at h
        cases h
      | returns out =>
        rw [hroot] at h
        cases h
      | fails failure =>
        rw [hroot] at h
        cases failure with
        | error e => cases h
        | abort e =>
          obtain rfl : e = message := by
            cases h
            rfl
          rcases fails_of_bind hroot with hop | ⟨s, hs, hrest⟩
          · exact absurd trivial (gqlOperation_neverAborts _ _ hop)
          rcases fails_of_bind hrest with hquery | ⟨r, -, hrest⟩
          · obtain ⟨object, t, hreach, hfails⟩ := gqlQuery_aborts_iff.mp ⟨fuel, hquery⟩
            exact ⟨s, object, t, hs, hreach, hfails⟩
          · rcases fails_of_bind hrest with hend | ⟨_, -, hrest⟩
            · exact absurd trivial (gqlEndOfInput_neverAborts _ _ hend)
            · cases hrest
  · rintro ⟨rfl, s, object, t, hs, hreach, hfails⟩
    exact gqlQueryString_of_fails members toJson hs (hreach.fails hfails)

end Query

end Microchain.Graphql
