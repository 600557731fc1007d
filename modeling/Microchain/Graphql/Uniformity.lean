import Mathlib.Data.List.Forall2
import Mathlib.Data.Set.Basic
import Mathlib.Logic.Function.Iterate
import Microchain.Graphql.Validity

/-!
# One query over several values

`Accepts members root query` says that the whole query is valid for the root value, so
that it is answered in the data form (`isErrors_iff`). What a run over one value tells
about the run over another:

- `terminates_of_accepts`: a query that is accepted for some value returns for every
  value: there is no lexical error in it;
- `not_aborts_of_accepts`: if the values agree on what aborts (`Tame`), it does not abort
  for the other one either;
- `accepts_of_sparser`: what is accepted for a value is accepted for one with less in it;
- `decides_object`: **what is accepted for each value of a family is accepted for the type
  that has all in it that one of them has** (`Decides`).
-/

namespace Microchain.Graphql

open Eosio Lib

/-! ## Accepted queries -/

section Accepts

variable {O : Type} (members : O → List (Member O))

/-- The query is valid for the root value, up to the end of the input. -/
def Accepts (root : Value O) (query : Bytes) : Prop :=
  ∃ s s', gqlOperation (GqlStream.new query) = .returns s ∧ Fits members root s s' ∧
    s'.currentType = .eof

variable {members} {toJson : Scalar → Bytes} {root : Value O} {query : Bytes}

/-- The third byte tells the two forms of an answer apart. -/
theorem data_ne_errorsForm (text message : Bytes) :
    ascii "\x7b\"data\": " ++ text ++ ascii "\x7d" ≠ errorsForm toJson message := by
  intro heq
  have hbytes : ∀ rest rest' : Bytes,
      ascii "\x7b\"data\": " ++ rest ≠ ascii "\x7b\"errors\": \x7b\"message\": " ++ rest' :=
    fun rest rest' h => by cases h
  refine hbytes (text ++ ascii "\x7d") (toJson (.string message) ++ ascii "\x7d\x7d") ?_
  rw [← List.append_assoc, ← List.append_assoc]
  exact heq

/-- Nothing is read differently where the query is accepted. -/
theorem Accepts.not_fails {s : GqlStream} (h : Accepts members root query)
    (hs : gqlOperation (GqlStream.new query) = .returns s) (failure : GqlFailure) :
    ¬ Fails (gqlQuery members toJson · root s) failure := by
  obtain ⟨t, s', ht, hfits, -⟩ := h
  obtain rfl := Run.returns.inj (ht.symm.trans hs)
  obtain ⟨out, hout⟩ := hfits.returns toJson
  exact hout.not_fails (gqlQuery_mono members toJson root t)

/-- **An answer has the errors form exactly when the query is not accepted.** -/
theorem isErrors_iff {out : Bytes}
    (h : Returns (gqlQueryString members toJson · root query []) out) :
    (∃ message, out = errorsForm toJson message) ↔ ¬ Accepts members root query := by
  obtain ⟨fuel, h⟩ := h
  have h : gqlQueryString members toJson fuel root query [] = .returns out := h
  rw [gqlQueryString, if_neg (not_not.mpr rfl)] at h
  -- the query is answered in full, or the message is that of its first error
  cases hroot : gqlQueryRoot members toJson fuel root (GqlStream.new query) with
  | running =>
    rw [hroot] at h
    cases h
  | returns text =>
    rw [hroot] at h
    cases h
    obtain ⟨s, hs, hrest⟩ := returns_of_bind hroot
    obtain ⟨r, hr, hrest⟩ := returns_of_bind hrest
    obtain ⟨_, hend, -⟩ := returns_of_bind hrest
    refine iff_of_false ?_ (not_not.mpr ⟨s, r.2, hs, (gql_fits fuel).1 root s r hr, ?_⟩)
    · rintro ⟨message, heq⟩
      exact data_ne_errorsForm _ _ heq
    · by_contra heof
      rw [gqlEndOfInput, if_neg heof] at hend
      split_ifs at hend <;> cases hend
  | fails failure =>
    rw [hroot] at h
    cases failure with
    | abort message => cases h
    | error message =>
      cases h
      refine iff_of_true ⟨message, rfl⟩ fun haccepts => ?_
      rcases fails_of_bind hroot with hop | ⟨s, hs, hrest⟩
      · obtain ⟨s, -, hs, -⟩ := haccepts
        rw [hs] at hop
        cases hop
      rcases fails_of_bind hrest with hquery | ⟨r, hr, hrest⟩
      · exact haccepts.not_fails hs _ ⟨fuel, hquery⟩
      · -- behind the selection set there is the end of the input
        obtain ⟨t, s', ht, hfits, heof⟩ := haccepts
        obtain rfl := Run.returns.inj (ht.symm.trans hs)
        obtain ⟨out, hout⟩ := hfits.returns toJson
        obtain rfl := hout.unique (gqlQuery_mono members toJson root t) ⟨fuel, hr⟩
        have hend : gqlEndOfInput s' = .returns () := if_pos heof
        dsimp only at hrest
        rw [hend] at hrest
        cases hrest

end Accepts

/-! ## An accepted query has no lexical error -/

/-- No token from `s` on is an error. -/
def Clean (s : GqlStream) : Prop := ∀ n, (GqlStream.skip^[n] s).currentType ≠ .error

theorem Clean.skip (s : GqlStream) (h : Clean s) : Clean s.skip := fun n => h (n + 1)

theorem Clean.errorBeforeClose {s : GqlStream} (h : Clean s) (depth : Nat) :
    errorBeforeClose depth s = false := by
  fun_induction Graphql.errorBeforeClose depth s with
  | case1 => rfl
  | case2 depth s _ herror => exact absurd herror (h 0)
  | case3 depth s _ _ _ ih => exact ih h.skip
  | case4 => rfl
  | case5 s _ _ _ _ depth ih => exact ih h.skip
  | case6 depth s _ _ _ _ ih => exact ih h.skip

theorem scanFraction_type {s rest : Bytes} {type : TokenType}
    (h : scanFraction s = .ok (type, rest)) : type ≠ .eof := by
  rcases scanFraction_cases h with ⟨-, -, rfl⟩ | ⟨-, -, rfl⟩ <;> decide

theorem scanExponent_type {s rest : Bytes} {type type' : TokenType} (htype : type ≠ .eof)
    (h : scanExponent type s = .ok (type', rest)) : type' ≠ .eof := by
  rcases scanExponent_cases h with ⟨-, -, rfl⟩ | ⟨-, -, rfl⟩
  · decide
  · exact htype

theorem scanNumber_type {s rest : Bytes} {type : TokenType} (h : scanNumber s = .ok (type, rest)) :
    type ≠ .eof := by
  obtain ⟨_, _, _, -, hfraction, hexponent, -⟩ := scanNumber_ok h
  exact scanExponent_type (scanFraction_type hfraction) hexponent

/-- The end of the input is told at the end of the input. A string without an end has the
type of the token before it. -/
theorem lexToken_eof {stale : TokenType} {input : Bytes}
    (h : (lexToken stale input).currentType = .eof) : input = [] ∨ stale = .eof := by
  cases input with
  | nil => exact .inl rfl
  | cons c rest =>
    refine .inr ?_
    rw [lexToken] at h
    split at h
    · cases h
    split at h
    · cases h
    split at h
    · split at h
      · cases h
      split at h
      · exact h
      · cases h
    split at h
    · cases h
    split at h
    · split at h
      · cases h
      · next hnumber => exact absurd h (scanNumber_type hnumber)
    · cases h

/-- At the end nothing is left. -/
def EndsEmpty (s : GqlStream) : Prop := s.currentType = .eof → s.input = []

theorem EndsEmpty.skip (s : GqlStream) (h : EndsEmpty s) : EndsEmpty s.skip := by
  intro heof
  by_cases herror : s.currentType = .error
  · rw [GqlStream.skip_of_error herror, herror] at heof
    cases heof
  rw [GqlStream.skip, if_neg herror] at heof ⊢
  have hnil : skipIgnored false s.input = [] := by
    rcases lexToken_eof heof with hnil | hstale
    · exact hnil
    · rw [h hstale]
      rfl
  rw [hnil]
  rfl

/-- Behind the end there is the end. -/
theorem eof_skip {s : GqlStream} (h : EndsEmpty s) (heof : s.currentType = .eof) :
    s.skip.currentType = .eof := by
  rw [GqlStream.skip, if_neg (by rw [heof]; decide), h heof]
  rfl

theorem iterate_skip_eof {s : GqlStream} (h : EndsEmpty s) (heof : s.currentType = .eof)
    (n : Nat) : (GqlStream.skip^[n] s).currentType = .eof := by
  induction n generalizing s with
  | zero => exact heof
  | succ n ih => exact ih (EndsEmpty.skip s h) (eof_skip h heof)

theorem iterate_skip_error {s : GqlStream} (herror : s.currentType = .error) (n : Nat) :
    GqlStream.skip^[n] s = s :=
  Function.iterate_fixed (GqlStream.skip_of_error herror) n

theorem EndsEmpty.iterate {s : GqlStream} (h : EndsEmpty s) (n : Nat) :
    EndsEmpty (GqlStream.skip^[n] s) := by
  induction n generalizing s with
  | zero => exact h
  | succ n ih => exact ih (EndsEmpty.skip s h)

/-- A stream that comes to the end of the input has no error in it. -/
theorem Clean.of_eof {s : GqlStream} (h : EndsEmpty s) {n : Nat}
    (heof : (GqlStream.skip^[n] s).currentType = .eof) : Clean s := by
  intro k herror
  -- an error is never left, and neither is the end
  rcases Nat.le_total k n with hle | hle
  · obtain ⟨m, rfl⟩ := Nat.exists_eq_add_of_le' hle
    rw [Function.iterate_add_apply, iterate_skip_error herror, herror] at heof
    cases heof
  · obtain ⟨m, rfl⟩ := Nat.exists_eq_add_of_le' hle
    rw [Function.iterate_add_apply, iterate_skip_eof (h.iterate n) heof] at herror
    cases herror

theorem new_endsEmpty (query : Bytes) : EndsEmpty (GqlStream.new query) :=
  EndsEmpty.skip _ fun h => by cases h

section Terminates

variable {O : Type} {members : O → List (Member O)} {toJson : Scalar → Bytes}
  {P : GqlStream → Prop}

theorem FieldValue.keeps (hP : ∀ s, P s → P s.skip) {object : O} {s : GqlStream}
    {r : Value O × GqlStream} (hvalue : FieldValue members object s r) (h : P s) : P r.2 := by
  obtain ⟨-, names, member, hnames, -, fuel, hr⟩ := hvalue
  exact gqlMember_keeps hP member fuel (gqlFieldName_keeps hP (hP s h) names hnames) r hr

theorem FieldsReach.keeps (hP : ∀ s, P s → P s.skip) {object : O} {s s' : GqlStream}
    (hreach : FieldsReach members toJson object s s') (h : P s) : P s' := by
  induction hreach with
  | here s => exact h
  | field hvalue hreturns _ ih =>
    obtain ⟨fuel, hout⟩ := hreturns
    exact ih (gqlQuery_keeps members toJson hP (hvalue.keeps hP h) _ hout)

theorem Skips.keeps (hP : ∀ s, P s → P s.skip) {value : Value O} {s t : GqlStream}
    (hskips : Skips members toJson value s t) (h : P s) : P t := by
  induction hskips with
  | null s => exact h
  | ref _ ih => exact ih h
  | list _ => exact h
  | element _ _ ih => exact ih h
  | object _ hreach hvalue _ ih => exact ih (hvalue.keeps hP (hreach.keeps hP (hP _ h)))

theorem Fits.keeps (hP : ∀ s, P s → P s.skip) {value : Value O} {s s' : GqlStream}
    (hfits : Fits members value s s') (h : P s) : P s' := by
  obtain ⟨out, fuel, hout⟩ := hfits.returns fun _ => []
  exact gqlQuery_keeps members _ hP h _ hout

/-- **A query that is accepted for some value returns for every value.** -/
theorem terminates_of_accepts {O' : Type} {members' : O' → List (Member O')}
    {root : Value O} {root' : Value O'} {query : Bytes} (h : Accepts members root query) :
    Terminates (gqlQueryString members' toJson · root' query []) := by
  rw [gqlQueryString_terminates_iff]
  rintro - s t hs hskips ⟨-, hbad⟩
  obtain ⟨s₀, s', hs₀, hfits, heof⟩ := h
  obtain rfl := Run.returns.inj (hs₀.symm.trans hs)
  have hends := gqlOperation_keeps EndsEmpty.skip (new_endsEmpty query) s₀ hs
  -- all that the other evaluation can come to is read from the same stream
  obtain ⟨n, rfl⟩ := hfits.keeps (P := fun t => ∃ n, t = GqlStream.skip^[n] s₀)
    (fun t ⟨n, ht⟩ => ⟨n + 1, by rw [ht, Function.iterate_succ_apply']⟩) ⟨0, rfl⟩
  have hclean := hskips.keeps Clean.skip (Clean.of_eof hends heof)
  rw [hclean.skip.errorBeforeClose] at hbad
  cases hbad

end Terminates

/-! ## What aborts for one value only -/

section Tame

variable {O O' : Type} {members : O → List (Member O)} {members' : O' → List (Member O')}
  {toJson : Scalar → Bytes}

variable (members' toJson) in
/-- The evaluation of the value does not abort. -/
def Quiet (value : Value O') : Prop :=
  ∀ s message, ¬ Fails (gqlQuery members' toJson · value s) (.abort message)

variable (members members' toJson) in
/-- On what fits `value`, the evaluation of `value'` does not abort. -/
def Tame (value : Value O) (value' : Value O') : Prop :=
  ∀ s s', s.Lexed → Fits members value s s' → ¬ isPunct s' '{' →
    ∀ message, ¬ Fails (gqlQuery members' toJson · value' s) (.abort message)

theorem Quiet.tame {value' : Value O'} (h : Quiet members' toJson value') (value : Value O) :
    Tame members members' toJson value value' := fun s _ _ _ _ => h s

variable (members members' toJson) in
/-- The same for a member. A call does not abort where the other does not. -/
inductive MemberTame : Member O → Member O' → Prop
  | field (name : Bytes) {value : Value O} {value' : Value O'}
      (h : Tame members members' toJson value value') :
      MemberTame (.field name value) (.field name value')
  | method (name : Bytes) (params : List Param)
      {call : List (Option ArgValue) → Except String (Value O)}
      {call' : List (Option ArgValue) → Except String (Value O')}
      (h : ∀ args value, call args = .ok value →
        ∃ value', call' args = .ok value' ∧ Tame members members' toJson value value') :
      MemberTame (.method name params call) (.method name params call')

variable {object : O} {object' : O'} {s : GqlStream}

theorem MemberTame.name_eq {member : Member O} {member' : Member O'}
    (h : MemberTame members members' toJson member member') : member.name = member'.name := by
  cases h <;> rfl

/-- Where a member is read, the other one is too, from the same arguments. -/
theorem MemberTame.returns {member : Member O} {member' : Member O'}
    (h : MemberTame members members' toJson member member') {r : Value O × GqlStream}
    (hr : Returns (gqlMember member · s) r) :
    ∃ value', Returns (gqlMember member' · s) (value', r.2) ∧
      Tame members members' toJson r.1 value' := by
  cases h with
  | field name h =>
    obtain ⟨fuel, hfuel⟩ := hr
    cases hfuel
    exact ⟨_, ⟨0, rfl⟩, h⟩
  | method name params h =>
    obtain ⟨args, hargs, hmissing, hcall⟩ := gqlMethod_returns_iff.mp hr
    obtain ⟨value', hvalue', htame⟩ := h args.values r.1 hcall
    exact ⟨value', gqlMethod_returns_iff.mpr ⟨args, hargs, hmissing, hvalue'⟩, htame⟩

/-- The field of `object'` at a field of `object` that is read. -/
theorem FieldValue.tame
    (hmembers : List.Forall₂ (MemberTame members members' toJson) (members object)
      (members' object')) {r : Value O × GqlStream} (h : FieldValue members object s r) :
    (∀ failure, ¬ FieldFails members' object' s failure) ∧
      ∀ r', FieldValue members' object' s r' → r'.2 = r.2 ∧
        Tame members members' toJson r.1 r'.1 := by
  obtain ⟨-, names, member, hnames, hfind, hmember⟩ := h
  obtain ⟨member', hfind', hpair⟩ := find_of_related
    (r := fun member' member => MemberTame members members' toJson member member')
    (fun _ _ h => h.name_eq.symm) hmembers.flip hfind
  obtain ⟨value', hvalue', htame⟩ := hpair.returns hmember
  constructor
  · rintro failure ⟨-, names', m, hnames', hfindm, hfails⟩
    obtain rfl := Run.returns.inj (hnames.symm.trans hnames')
    obtain rfl := Option.some.inj (hfind'.symm.trans hfindm)
    exact hvalue'.not_fails (gqlMember_mono _ _) hfails
  · rintro r' ⟨-, names', m, hnames', hfindm, hr'⟩
    obtain rfl := Run.returns.inj (hnames.symm.trans hnames')
    obtain rfl := Option.some.inj (hfind'.symm.trans hfindm)
    obtain rfl := hvalue'.unique (gqlMember_mono _ _) hr'
    exact ⟨rfl, htame⟩

/-- The loops over the fields of both objects come to the same places: as long as there is
a name at the one of `object'`. -/
theorem FieldsReach.fit
    (hmembers : List.Forall₂ (MemberTame members members' toJson) (members object)
      (members' object')) {t : GqlStream} (hreach : FieldsReach members' toJson object' s t)
    {s' : GqlStream} (hfit : FieldsFit members object s s') (hlexed : s.Lexed)
    (hclose : isPunct s' '}') (hname : t.currentType = .name) :
    FieldsFit members object t s' ∧ t.Lexed := by
  induction hreach with
  | here s => exact ⟨hfit, hlexed⟩
  | @field s t r' out hvalue' hreturns hrest ih =>
    cases hfit with
    | done hdone => exact absurd hvalue'.1 hdone
    | @field _ _ mid _ r hvalue h hfit =>
      obtain ⟨hstream, -⟩ := (hvalue.tame hmembers).2 r' hvalue'
      have hlexed' := (hvalue.passes hlexed).lexed
      have hmid := (h.behind hlexed').lexed
      have hopen := hfit.not_open hmid hclose
      have hskip := h.skips hlexed' hopen
      have hfits' : Fits members' r'.1 r.2 out.2 := by
        rw [← hstream]
        exact fits_iff.mp ⟨out.1, hreturns⟩
      by_cases hopen' : isPunct out.2 '{'
      · -- no name comes behind it
        have hout := (hfits'.behind hlexed').lexed
        cases hrest with
        | here s => exact absurd hopen' (hout.not_isPunct (by rw [hname]; decide) (by decide))
        | field hvalue _ _ =>
          exact absurd hopen' (hout.not_isPunct (by rw [hvalue.1]; decide) (by decide))
      · have heq := skip_unique (hfits'.skips hlexed' hopen') hskip
        rw [heq] at ih
        exact ih hfit hmid hname

/-- **Objects are tame when their members are.** -/
theorem tame_object
    (hmembers : List.Forall₂ (MemberTame members members' toJson) (members object)
      (members' object')) : Tame members members' toJson (.object object) (.object object') := by
  intro s s' hlexed hfits _ message hfails
  cases hfits with
  | @object _ _ s' hopen hfields hclose =>
    obtain ⟨object₁, t, hreach, habort⟩ := gqlQuery_aborts_iff.mp hfails
    cases hreach with
    | here _ hreach =>
      -- a field of the object itself: the other one is read there
      obtain ⟨hfit, -⟩ := hreach.fit hmembers hfields hlexed.skip hclose habort.1
      cases hfit with
      | done hdone => exact hdone habort.1
      | field hvalue _ _ => exact (hvalue.tame hmembers).1 _ habort
    | @field _ _ _ s₁ _ r' _ hreach hvalue' hinner =>
      -- inside of the value of a field
      obtain ⟨hfit, hlexed'⟩ := hreach.fit hmembers hfields hlexed.skip hclose hvalue'.1
      cases hfit with
      | done hdone => exact hdone hvalue'.1
      | @field _ _ mid _ r hvalue h hrest =>
        obtain ⟨hstream, htame⟩ := (hvalue.tame hmembers).2 r' hvalue'
        have hlexed'' := (hvalue.passes hlexed').lexed
        have hopen' := hrest.not_open (h.behind hlexed'').lexed hclose
        refine htame r.2 mid hlexed'' h hopen' message ?_
        rw [← hstream]
        exact gqlQuery_aborts_iff.mpr ⟨object₁, t, hinner, habort⟩

/-- The objects in a value. -/
inductive Holds (P : O → Prop) : Value O → Prop
  | scalar (value : Scalar) : Holds P (.scalar value)
  | null : Holds P .null
  | ref {value : Value O} (h : Holds P value) : Holds P (.ref value)
  | list {elems : List (Value O)} (h : ∀ elem ∈ elems, Holds P elem) : Holds P (.list elems)
  | object {object : O} (h : P object) : Holds P (.object object)

/-- The same for a member: the value of a field, or every result of a method. -/
def Member.Holds (P : O → Prop) : Member O → Prop
  | .field _ value => Graphql.Holds P value
  | .method _ _ call => ∀ args value, call args = .ok value → Graphql.Holds P value

theorem FieldValue.holds {P : O → Prop} (h : ∀ member ∈ members object, member.Holds P)
    {r : Value O × GqlStream} (hvalue : FieldValue members object s r) : Holds P r.1 := by
  obtain ⟨-, names, member, -, hfind, hr⟩ := hvalue
  have hmember := h member (List.mem_of_find?_eq_some hfind)
  cases member with
  | field name value =>
    obtain ⟨fuel, hfuel⟩ := hr
    cases hfuel
    exact hmember
  | method name params call =>
    obtain ⟨args, -, -, hcall⟩ := gqlMethod_returns_iff.mp hr
    exact hmember _ _ hcall

/-- An evaluation stays among objects that are closed under reading members. -/
theorem Reaches.holds {P : O → Prop}
    (hP : ∀ object, P object → ∀ member ∈ members object, member.Holds P)
    {value : Value O} {t : GqlStream} (h : Reaches members toJson value s object t) :
    Holds P value → P object := by
  induction h with
  | ref _ ih =>
    rintro (_ | _ | hvalue)
    exact ih hvalue
  | element _ _ ih =>
    rintro (_ | _ | _ | hall)
    exact ih (hall _ (by simp))
  | here _ _ =>
    rintro (_ | _ | _ | _ | hobject)
    exact hobject
  | field _ _ hvalue _ ih =>
    rintro (_ | _ | _ | _ | hobject)
    exact ih (hvalue.holds (hP _ hobject))

/-- A query that is accepted for some value does not abort for a tame one. -/
theorem not_aborts_of_accepts {root : Value O} {root' : Value O'} {query : Bytes}
    (h : Accepts members root query) (htame : Tame members members' toJson root root')
    (message : String) : ¬ Fails (gqlQueryString members' toJson · root' query []) message := by
  intro hfails
  obtain ⟨-, s, object, t, hs, hreach, habort⟩ :=
    (gqlQueryString_aborts_iff members' toJson root' query [] message).mp hfails
  obtain ⟨s₀, s', hs₀, hfits, heof⟩ := h
  obtain rfl := Run.returns.inj (hs₀.symm.trans hs)
  have hlexed := (gqlOperation_behind (GqlStream.new_lexed query) s₀ hs).lexed
  have hopen : ¬ isPunct s' '{' :=
    (hfits.behind hlexed).lexed.not_isPunct (by rw [heof]; decide) (by decide)
  exact htame s₀ s' hlexed hfits hopen message (hreach.fails habort)

end Tame

/-! ## What fits every value of a family -/

section Decides

variable {O D : Type} {members : O → List (Member O)} {types : D → List (Member D)}

/-- **What is accepted for a value is accepted for one with less in it.** -/
theorem accepts_of_sparser {R : D → O → Prop} (hR : Simulates types members R)
    {type : Value D} {root : Value O} (hsparser : Sparser R type root) {query : Bytes}
    (h : Accepts members root query) : Accepts types type query := by
  obtain ⟨s, s', hs, hfits, heof⟩ := h
  have hlexed := (gqlOperation_behind (GqlStream.new_lexed query) s hs).lexed
  have hopen : ¬ isPunct s' '{' :=
    (hfits.behind hlexed).lexed.not_isPunct (by rw [heof]; decide) (by decide)
  exact ⟨s, s', hs, hfits.of_sparser hR hsparser hlexed hopen, heof⟩

variable (members types) in
/-- What fits every one of the values fits the type. -/
def Decides (values : Set (Value O)) (type : Value D) : Prop :=
  ∀ s s', s.Lexed → (∀ value ∈ values, Fits members value s s') → ¬ isPunct s' '{' →
    Fits types type s s'

/-- One value that has all in it is enough. -/
theorem decides_of_sparser {R : D → O → Prop} (hR : Simulates types members R)
    {values : Set (Value O)} {value : Value O} (hmem : value ∈ values) {type : Value D}
    (hsparser : Sparser R type value) : Decides members types values type :=
  fun _ _ hlexed hfits hopen => (hfits value hmem).of_sparser hR hsparser hlexed hopen

variable {ι : Type}

variable (members types) in
/-- The same for the members of a family of objects. The type of a method fails only where
the method does for one of them. -/
inductive MemberDecides : (ι → Member O) → Member D → Prop
  | field (name : Bytes) {values : ι → Value O} {type : Value D}
      (h : Decides members types (Set.range values) type) :
      MemberDecides (fun i => .field name (values i)) (.field name type)
  | method (name : Bytes) (params : List Param)
      {calls : ι → List (Option ArgValue) → Except String (Value O)}
      {call : List (Option ArgValue) → Except String (Value D)}
      (h : ∀ args (values : ι → Value O), (∀ i, calls i args = .ok (values i)) →
        ∃ type, call args = .ok type ∧ Decides members types (Set.range values) type) :
      MemberDecides (fun i => .method name params (calls i)) (.method name params call)

variable {family : List (ι → Member O)} {object : ι → O} {type : D}

/-- The members of a family are found at the same place. -/
theorem find_family (hdecides : List.Forall₂ (MemberDecides members types) family (types type))
    (hfamily : ∀ i, members (object i) = family.map (· i)) (i₀ : ι) {name : Bytes}
    {member₀ : Member O} (hfind : (members (object i₀)).find? (·.name = name) = some member₀) :
    ∃ member declared, (∀ i, (members (object i)).find? (·.name = name) = some (member i)) ∧
      (types type).find? (·.name = name) = some declared ∧
      MemberDecides members types member declared := by
  have hnames : ∀ (member : ι → Member O) (declared : Member D),
      MemberDecides members types member declared → ∀ i, (member i).name = declared.name := by
    rintro member declared (_ | _) i <;> rfl
  simp only [hfamily] at hfind ⊢
  clear hfamily
  generalize types type = declareds at hdecides ⊢
  induction hdecides with
  | nil => cases hfind
  | @cons member declared family rest hmember _ ih =>
    have hname := hnames member declared hmember
    by_cases heq : declared.name = name
    · refine ⟨member, declared, fun i => ?_, List.find?_cons_of_pos (by simpa using heq), hmember⟩
      exact List.find?_cons_of_pos (by simpa [hname] using heq)
    · have hskip : ∀ i, ((member :: family).map (· i)).find? (·.name = name) =
          (family.map (· i)).find? (·.name = name) :=
        fun i => List.find?_cons_of_neg (by simpa [hname] using heq)
      rw [hskip] at hfind
      obtain ⟨m, d, hm, hd, hpair⟩ := ih hfind
      refine ⟨m, d, fun i => (hskip i).trans (hm i), ?_, hpair⟩
      rw [List.find?_cons_of_neg (by simpa using heq)]
      exact hd

/-- The members of a family read the same arguments. -/
theorem MemberDecides.stream_eq {member : ι → Member O} {declared : Member D}
    (h : MemberDecides members types member declared) {s : GqlStream} {i j : ι}
    {r r' : Value O × GqlStream} (hr : Returns (gqlMember (member i) · s) r)
    (hr' : Returns (gqlMember (member j) · s) r') : r.2 = r'.2 := by
  cases h with
  | field name h =>
    obtain ⟨fuel, hfuel⟩ := hr
    obtain ⟨fuel', hfuel'⟩ := hr'
    cases hfuel
    cases hfuel'
    rfl
  | method name params h =>
    obtain ⟨args, hargs, -, -⟩ := gqlMethod_returns_iff.mp hr
    obtain ⟨args', hargs', -, -⟩ := gqlMethod_returns_iff.mp hr'
    exact (Prod.mk.inj (hargs.unique (gqlArgList_mono params s) hargs')).2

/-- The values of the members of a family at one place, and what they decide. -/
theorem MemberDecides.returns {member : ι → Member O} {declared : Member D}
    (h : MemberDecides members types member declared) {s t : GqlStream}
    {values : ι → Value O} (hr : ∀ i, Returns (gqlMember (member i) · s) (values i, t)) (i₀ : ι) :
    ∃ type, Returns (gqlMember declared · s) (type, t) ∧
      Decides members types (Set.range values) type := by
  cases h with
  | @field name values' type h =>
    have hpairs : ∀ i, (values' i, s) = (values i, t) := by
      intro i
      obtain ⟨fuel, hfuel⟩ := hr i
      exact Run.returns.inj hfuel
    obtain rfl : values' = values := funext fun i => (Prod.mk.inj (hpairs i)).1
    obtain rfl : s = t := (Prod.mk.inj (hpairs i₀)).2
    exact ⟨type, ⟨0, rfl⟩, h⟩
  | @method name params calls call h =>
    obtain ⟨args, hargs, hmissing, -⟩ := gqlMethod_returns_iff.mp (hr i₀)
    have hcalls : ∀ i, calls i args.values = .ok (values i) := by
      intro i
      obtain ⟨args', hargs', -, hcall⟩ := gqlMethod_returns_iff.mp (hr i)
      obtain rfl := (Prod.mk.inj (hargs.unique (gqlArgList_mono params s) hargs')).1
      exact hcall
    obtain ⟨type, hcall, hdecides⟩ := h args.values values hcalls
    exact ⟨type, gqlMethod_returns_iff.mpr ⟨args, hargs, hmissing, hcall⟩, hdecides⟩

/-- The values of a field of the family, and its type. -/
theorem FieldValue.decides (hdecides : List.Forall₂ (MemberDecides members types) family (types type))
    (hfamily : ∀ i, members (object i) = family.map (· i)) (i₀ : ι) {s : GqlStream}
    {r : ι → Value O × GqlStream} (hvalue : ∀ i, FieldValue members (object i) s (r i)) :
    (∀ i, (r i).2 = (r i₀).2) ∧ ∃ declared, FieldValue types type s (declared, (r i₀).2) ∧
      Decides members types (Set.range fun i => (r i).1) declared := by
  obtain ⟨hname, names, member₀, hnames, hfind₀, -⟩ := hvalue i₀
  obtain ⟨member, declared, hfind, hfind', hpair⟩ := find_family hdecides hfamily i₀ hfind₀
  have hmember : ∀ i, Returns (gqlMember (member i) · names.2.2) (r i) := by
    intro i
    obtain ⟨-, names', m, hnames', hfindm, hr⟩ := hvalue i
    obtain rfl := Run.returns.inj (hnames.symm.trans hnames')
    obtain rfl := Option.some.inj ((hfind i).symm.trans hfindm)
    exact hr
  have hstream : ∀ i, (r i).2 = (r i₀).2 := fun i => hpair.stream_eq (hmember i) (hmember i₀)
  have hall : ∀ i, Returns (gqlMember (member i) · names.2.2) ((r i).1, (r i₀).2) := by
    intro i
    rw [← hstream i]
    exact hmember i
  obtain ⟨vtype, hreturns, hvtype⟩ := hpair.returns hall i₀
  exact ⟨hstream, vtype, ⟨hname, names, declared, hnames, hfind', hreturns⟩, hvtype⟩

theorem FieldValue.unique {object : O} {s : GqlStream} {r r' : Value O × GqlStream}
    (h : FieldValue members object s r) (h' : FieldValue members object s r') : r = r' := by
  obtain ⟨-, names, member, hnames, hfind, hr⟩ := h
  obtain ⟨-, names', member', hnames', hfind', hr'⟩ := h'
  obtain rfl := Run.returns.inj (hnames.symm.trans hnames')
  obtain rfl := Option.some.inj (hfind.symm.trans hfind')
  exact hr.unique (gqlMember_mono member _) hr'

theorem FieldsFit.of_name {object : O} {s s' : GqlStream} (h : FieldsFit members object s s')
    (hname : s.currentType = .name) : ∃ r t, FieldValue members object s r ∧
      Fits members r.1 r.2 t ∧ FieldsFit members object t s' := by
  cases h with
  | done hdone => exact absurd hname hdone
  | field hvalue h hrest => exact ⟨_, _, hvalue, h, hrest⟩

/-- Along the fields of one object of the family. -/
theorem FieldsFit.decides
    (hdecides : List.Forall₂ (MemberDecides members types) family (types type))
    (hfamily : ∀ i, members (object i) = family.map (· i)) (i₀ : ι) :
    ∀ {object₀ : O} {s s' : GqlStream}, FieldsFit members object₀ s s' → s.Lexed →
      isPunct s' '}' → (∀ i, ∃ t, FieldsFit members (object i) s t ∧ isPunct t '}') →
      object₀ = object i₀ → FieldsFit types type s s'
  | _, _, _, .done hname, _, _, _, _ => .done hname
  | _, s, s', @FieldsFit.field _ _ _ _ mid _ r₀ hvalue h hrest, hlexed, hclose, hall, hobject => by
    have hfields : ∀ i, ∃ r t, FieldValue members (object i) s r ∧ Fits members r.1 r.2 t ∧
        ∃ s', FieldsFit members (object i) t s' ∧ isPunct s' '}' := by
      intro i
      obtain ⟨s', hfit, hclose⟩ := hall i
      obtain ⟨r, t, hvalue, h, hrest⟩ := hfit.of_name hvalue.1
      exact ⟨r, t, hvalue, h, s', hrest, hclose⟩
    choose r t hvalues hfits hrests using hfields
    obtain ⟨hstream, declared, hdeclared, hvtype⟩ :=
      FieldValue.decides hdecides hfamily i₀ hvalues
    have hr₀ : r₀ = r i₀ := FieldValue.unique (hobject ▸ hvalue) (hvalues i₀)
    have hlexed' := (hvalue.passes hlexed).lexed
    have hmid := (h.behind hlexed').lexed
    have hopen := hrest.not_open hmid hclose
    have hr : ∀ i, (r i).2 = r₀.2 := fun i => (hstream i).trans (congrArg Prod.snd hr₀.symm)
    -- what fits a value is what is skipped, so the values of the family end at one place
    have hend : ∀ i, t i = mid := by
      intro i
      obtain ⟨s', hrest', hclose'⟩ := hrests i
      have hfits' : Fits members (r i).1 r₀.2 (t i) := hr i ▸ hfits i
      have hopen' := hrest'.not_open (hfits'.behind hlexed').lexed hclose'
      exact skip_unique (hfits'.skips hlexed' hopen') (h.skips hlexed' hopen)
    rw [← hr₀] at hdeclared
    refine .field hdeclared (hvtype r₀.2 mid hlexed' ?_ hopen) (FieldsFit.decides hdecides hfamily i₀
      hrest hmid hclose (fun i => ?_) hobject)
    · rintro _ ⟨i, rfl⟩
      rw [← hend i, ← hr i]
      exact hfits i
    · rw [← hend i]
      exact hrests i

/-- **A family of objects decides a type when its members do.** -/
theorem decides_object (i₀ : ι) (family : List (ι → Member O))
    (hdecides : List.Forall₂ (MemberDecides members types) family (types type))
    (hfamily : ∀ i, members (object i) = family.map (· i)) :
    Decides members types (Set.range fun i => .object (object i)) (.object type) := by
  intro s s' hlexed hfits _
  have hfields : ∀ i, isPunct s '{' ∧ ∃ t, FieldsFit members (object i) s.skip t ∧
      isPunct t '}' ∧ s' = t.skip := by
    intro i
    cases hfits _ ⟨i, rfl⟩ with
    | object hopen hfields hclose => exact ⟨hopen, _, hfields, hclose, rfl⟩
  obtain ⟨hopen, t, hfields₀, hclose, rfl⟩ := hfields i₀
  refine .object hopen (hfields₀.decides hdecides hfamily i₀ hlexed.skip hclose (fun i => ?_) rfl)
    hclose
  obtain ⟨-, t, hfields, hclose, -⟩ := hfields i
  exact ⟨t, hfields, hclose⟩

/-- What is accepted for every object of the family is accepted for the type. -/
theorem accepts_of_decides (i₀ : ι)
    (h : Decides members types (Set.range fun i => .object (object i)) (.object type))
    {query : Bytes} (hall : ∀ i, Accepts members (.object (object i)) query) :
    Accepts types (.object type) query := by
  obtain ⟨s, s', hs, hfits, heof⟩ := hall i₀
  have hlexed := (gqlOperation_behind (GqlStream.new_lexed query) s hs).lexed
  have hopen : ¬ isPunct s' '{' :=
    (hfits.behind hlexed).lexed.not_isPunct (by rw [heof]; decide) (by decide)
  refine ⟨s, s', hs, h s s' hlexed ?_ hopen, heof⟩
  rintro _ ⟨i, rfl⟩
  obtain ⟨t, t', ht, hfits', -⟩ := hall i
  obtain rfl := Run.returns.inj (hs.symm.trans ht)
  rw [skip_unique (hfits.skips_object hlexed) (hfits'.skips_object hlexed)]
  exact hfits'

end Decides

end Microchain.Graphql
