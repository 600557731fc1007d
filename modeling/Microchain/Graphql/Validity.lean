import Mathlib.Tactic.Choose
import Microchain.Graphql.Abort
import Microchain.Graphql.Schema

/-!
# Which selection sets are valid for a value

`Fits members value s s'` is the reading half of `gql_query`: the selection set at `s` is
valid for `value` and ends at `s'`. No text is written, so it can also be asked of a value
that stands for a type. Three facts about it:

- `fits_iff`: `gql_query` returns exactly on the selection sets that fit;
- `Fits.skips`: a selection set that fits is what `gql_skip_selection_set` passes over, so
  two values that it fits agree on where it ends;
- `Fits.of_sparser`: **what fits a value fits every value that has less in it**.
-/

namespace Microchain.Graphql

open Eosio Lib

section Fits

variable {O : Type} (members : O → List (Member O))

mutual

/-- The selection set at `s` is valid for the value, and ends at `s'`. -/
inductive Fits : Value O → GqlStream → GqlStream → Prop
  -- `to_json` reads nothing: a selection set behind a scalar stays where it is
  | scalar (value : Scalar) (s : GqlStream) : Fits (.scalar value) s s
  | null {s s' : GqlStream} (hskip : Returns (gqlSkipSelectionSet · s) s') : Fits .null s s'
  | ref {value : Value O} {s s' : GqlStream} (h : Fits value s s') : Fits (.ref value) s s'
  -- every element reads a copy of the stream, and the end is that of the skip behind them
  | list {elems : List (Value O)} {s s' : GqlStream} (ends : Value O → GqlStream)
      (helems : ∀ elem ∈ elems, Fits elem s (ends elem))
      (hskip : Returns (gqlSkipSelectionSet · s) s') : Fits (.list elems) s s'
  | object {object : O} {s s' : GqlStream} (hopen : isPunct s '{')
      (hfields : FieldsFit object s.skip s') (hclose : isPunct s' '}') :
      Fits (.object object) s s'.skip

/-- The fields from `s` to `s'` are valid for the object. -/
inductive FieldsFit : O → GqlStream → GqlStream → Prop
  | done {object : O} {s : GqlStream} (hname : s.currentType ≠ .name) : FieldsFit object s s
  | field {object : O} {s t s' : GqlStream} {r : Value O × GqlStream}
      (hvalue : FieldValue members object s r) (h : Fits r.1 r.2 t)
      (hrest : FieldsFit object t s') : FieldsFit object s s'

end

variable {members} {toJson : Scalar → Bytes}

/-! ## What the interpreter returns -/

/-- What returns fits, for the three functions at once. -/
theorem gql_fits (fuel : Nat) :
    (∀ value s r, gqlQuery members toJson fuel value s = .returns r →
      Fits members value s r.2) ∧
    (∀ first elems s out, gqlElements members toJson fuel first elems s = .returns out →
      ∀ elem ∈ elems, ∃ t, Fits members elem s t) ∧
    ∀ first object s r, gqlFields members toJson fuel first object s = .returns r →
      FieldsFit members object s r.2 := by
  induction fuel with
  | zero => exact ⟨nofun, nofun, nofun⟩
  | succ fuel ih =>
    obtain ⟨hquery, helements, hfields⟩ := ih
    refine ⟨fun value s r h => ?_, fun first elems s out h => ?_, fun first object s r h => ?_⟩
    · cases value with
      | scalar value =>
        cases h
        exact .scalar value s
      | null =>
        obtain ⟨s', hskip, hr⟩ := returns_of_bind h
        cases hr
        exact .null ⟨fuel, hskip⟩
      | ref value => exact .ref (hquery value s r h)
      | list elems =>
        obtain ⟨out, helems, hrest⟩ := returns_of_bind h
        obtain ⟨s', hskip, hr⟩ := returns_of_bind hrest
        cases hr
        -- the ends of the elements are forgotten by the interpreter
        have : Nonempty GqlStream := ⟨s⟩
        choose! ends hends using helements true elems s out helems
        exact .list ends hends ⟨fuel, hskip⟩
      | object object =>
        rw [gqlQuery_object] at h
        split at h
        · cases h
        next hopen =>
        obtain ⟨r', hloop, hrest⟩ := returns_of_bind h
        split at hrest
        · cases hrest
        next hclose =>
        cases hrest
        exact .object (not_not.mp hopen) (hfields true object s.skip r' hloop) (not_not.mp hclose)
    · cases elems with
      | nil => exact List.forall_mem_nil _
      | cons elem elems =>
        rw [gqlElements_cons] at h
        obtain ⟨r, hr, hrest⟩ := returns_of_bind h
        obtain ⟨outs, houts, -⟩ := returns_of_bind hrest
        exact List.forall_mem_cons.mpr
          ⟨⟨r.2, hquery elem s r hr⟩, helements false elems s outs houts⟩
    · rw [gqlFields_succ] at h
      split at h
      · next hname =>
        obtain ⟨names, hnames, hrest⟩ := returns_of_bind h
        cases hfind : (members object).find? (·.name = names.2.1) with
        | none =>
          rw [hfind] at hrest
          cases hrest
        | some member =>
          rw [hfind] at hrest
          obtain ⟨v, hv, hrest⟩ := returns_of_bind hrest
          obtain ⟨out, hout, hrest⟩ := returns_of_bind hrest
          obtain ⟨outs, houts, hr⟩ := returns_of_bind hrest
          cases hr
          exact .field ⟨hname, names, member, hnames, hfind, fuel, hv⟩ (hquery v.1 v.2 out hout)
            (hfields false object out.2 outs houts)
      · next hname =>
        cases h
        exact .done hname

variable (toJson)

mutual

theorem Fits.returns : ∀ {value : Value O} {s s' : GqlStream}, Fits members value s s' →
    ∃ out, Returns (gqlQuery members toJson · value s) (out, s')
  | _, _, _, .scalar value s => ⟨toJson value, 1, rfl⟩
  | _, _, s', .null hskip => by
    refine ⟨ascii "null", Returns.succ (gqlQuery_null members toJson · _) ?_⟩
    exact hskip.bind (gqlSkipSelectionSet_mono _) (fun _ => Mono.const _) ⟨0, rfl⟩
  | _, _, _, .ref h => by
    obtain ⟨out, hout⟩ := Fits.returns h
    exact ⟨out, Returns.succ (gqlQuery_ref members toJson · _ _) hout⟩
  | _, s, s', .list ends helems hskip => by
    have hreturn : ∀ elem ∈ _, ∃ r, Returns (gqlQuery members toJson · elem s) r :=
      fun elem helem => by
        obtain ⟨out, hout⟩ := Fits.returns (helems elem helem)
        exact ⟨_, hout⟩
    obtain ⟨out, hout⟩ := gqlElements_returns hreturn true
    refine ⟨ascii "[" ++ out ++ ascii "]", Returns.succ (gqlQuery_list members toJson · _ s) ?_⟩
    refine hout.bind (gqlElements_mono members toJson _ _ _)
      (fun _ => (gqlSkipSelectionSet_mono s).bind fun _ => Mono.const _) ?_
    exact hskip.bind (gqlSkipSelectionSet_mono s) (fun _ => Mono.const _) ⟨0, rfl⟩
  | _, s, _, @Fits.object _ _ object _ _ hopen hfields hclose => by
    obtain ⟨out, hout⟩ := FieldsFit.returns hfields true
    refine ⟨ascii "\x7b" ++ out ++ ascii "\x7d", Returns.succ
      (fun n => (gqlQuery_object members toJson n object s).trans (if_neg (not_not.mpr hopen))) ?_⟩
    refine hout.bind (gqlFields_mono members toJson _ _ _) (fun _ => Mono.const _) ⟨0, ?_⟩
    exact if_neg (not_not.mpr hclose)

theorem FieldsFit.returns : ∀ {object : O} {s s' : GqlStream}, FieldsFit members object s s' →
    ∀ first, ∃ out, Returns (gqlFields members toJson · first object s) (out, s')
  | object, s, _, .done hname, first => by
    refine ⟨[], 1, ?_⟩
    show gqlFields members toJson 1 first object s = _
    rw [gqlFields_succ, if_neg hname]
  | object, s, s', .field hvalue h hrest, first => by
    obtain ⟨names, member, hmember, hsucc⟩ := @gqlFields_of_value O members toJson _ _ _ hvalue first
    obtain ⟨out, hout⟩ := Fits.returns h
    obtain ⟨outs, houts⟩ := FieldsFit.returns hrest false
    refine ⟨separator first ++ toJson (.string names.1) ++ ascii ":" ++ out ++ outs,
      Returns.succ hsucc ?_⟩
    refine hmember.bind (gqlMember_mono member _) (fun v => (gqlQuery_mono members toJson _ _).bind
      fun _ => (gqlFields_mono members toJson _ _ _).bind fun _ => Mono.const _) ?_
    refine hout.bind (gqlQuery_mono members toJson _ _)
      (fun _ => (gqlFields_mono members toJson _ _ _).bind fun _ => Mono.const _) ?_
    exact houts.bind (gqlFields_mono members toJson _ _ _) (fun _ => Mono.const _) ⟨0, rfl⟩

end

variable {toJson}

/-- **An evaluation returns exactly on a selection set that fits**, and leaves its end. -/
theorem fits_iff {value : Value O} {s s' : GqlStream} :
    (∃ out, Returns (gqlQuery members toJson · value s) (out, s')) ↔ Fits members value s s' := by
  constructor
  · rintro ⟨out, fuel, h⟩
    exact (gql_fits fuel).1 value s _ h
  · exact Fits.returns toJson

theorem Fits.behind {value : Value O} {s s' : GqlStream} (h : Fits members value s s')
    (hlexed : s.Lexed) : Behind s s' := by
  obtain ⟨out, hout⟩ := h.returns fun _ => []
  exact returns_behind hlexed hout

end Fits

/-! ## What the skipping loop passes over -/

theorem GqlStream.Lexed.not_isPunct {s : GqlStream} (h : s.Lexed)
    (htype : s.currentType ≠ .punctuator) {c : Char} (hc : c.toUInt8 ≠ 0) : ¬ isPunct s c := by
  intro hpunct
  refine htype (h ?_)
  rw [hpunct]
  exact hc

theorem not_isPunct_of_isPunct {s : GqlStream} {c d : Char} (h : isPunct s c)
    (hne : c.toUInt8 ≠ d.toUInt8) : ¬ isPunct s d := by
  intro hd
  exact hne (h.symm.trans hd)

/-- The skipping loop comes from `s` to `s'`, not looking at braces in between that do not
match. -/
structure Passes (s s' : GqlStream) : Prop where
  lexed : s'.Lexed
  loop : ∀ r, Returns (gqlSkipLoop · s') r → Returns (gqlSkipLoop · s) r

namespace Passes

variable {s s' s'' : GqlStream}

theorem refl (h : s.Lexed) : Passes s s := ⟨h, fun _ hr => hr⟩

theorem trans (h : Passes s s') (h' : Passes s' s'') : Passes s s'' :=
  ⟨h'.lexed, fun r hr => h.loop r (h'.loop r hr)⟩

/-- A token that is not a brace. -/
theorem skip (h : s.Lexed) (heof : s.currentType ≠ .eof) (hopen : ¬ isPunct s '{')
    (hclose : ¬ isPunct s '}') : Passes s s.skip :=
  ⟨h.skip, fun _ hr => Returns.succ (gqlSkipLoop_other heof hopen hclose) hr⟩

theorem skip_of_type (h : s.Lexed) (heof : s.currentType ≠ .eof)
    (hpunct : s.currentType ≠ .punctuator) : Passes s s.skip :=
  skip h heof (h.not_isPunct hpunct (by decide)) (h.not_isPunct hpunct (by decide))

theorem skip_of_name (h : s.Lexed) (hname : s.currentType = .name) : Passes s s.skip :=
  skip_of_type h (by rw [hname]; decide) (by rw [hname]; decide)

theorem skip_of_punct (h : s.Lexed) {c : Char} (hc : isPunct s c) (hzero : c.toUInt8 ≠ 0)
    (hopen : c.toUInt8 ≠ '{'.toUInt8) (hclose : c.toUInt8 ≠ '}'.toUInt8) : Passes s s.skip := by
  have htype : s.currentType = .punctuator := h (by rw [hc]; exact hzero)
  exact skip h (by rw [htype]; decide) (not_isPunct_of_isPunct hc hopen)
    (not_isPunct_of_isPunct hc hclose)

/-- A selection set with its braces. -/
theorem of_skip (h : s.Lexed) (hskip : Returns (gqlSkipSelectionSet · s) s') : Passes s s' := by
  obtain ⟨fuel, hfuel⟩ := hskip
  have hbehind := gqlSkipSelectionSet_keeps (Behind.keeps s) fuel (Behind.refl h) s' hfuel
  refine ⟨hbehind.lexed, fun r hr => ?_⟩
  dsimp only at hfuel
  rw [gqlSkipSelectionSet] at hfuel
  split at hfuel
  · cases hfuel
    exact hr
  · next hopen =>
    -- an open brace met by the loop starts the same nested loop
    have hopen := not_not.mp hopen
    have htype : s.currentType = .punctuator := h (by rw [hopen]; decide)
    refine Returns.succ (gqlSkipLoop_open (by rw [htype]; decide) hopen) ?_
    exact Returns.bind (gqlSkipLoop_mono _) gqlSkipLoop_mono ⟨fuel, hfuel⟩ hr

end Passes

section Parts

variable {s : GqlStream}

theorem gqlFieldName_passes (h : s.Lexed) (hname : s.currentType = .name) :
    (gqlFieldName s).All fun r => Passes s r.2.2 := by
  have hfirst := Passes.skip_of_name h hname
  unfold gqlFieldName
  dsimp only
  split
  · next hcolon =>
    have hsecond := Passes.skip_of_punct hfirst.lexed hcolon (by decide) (by decide) (by decide)
    split
    · exact Run.All.fails
    · next hname' =>
      have hthird := Passes.skip_of_name hsecond.lexed (not_not.mp hname')
      exact Run.All.returns ((hfirst.trans hsecond).trans hthird)
  · exact Run.All.returns hfirst

theorem gqlParseArg_passes (type : ArgType) (h : s.Lexed) :
    (gqlParseArg type s).All fun r => Passes s r.2 := by
  unfold gqlParseArg
  cases type with
  | string =>
    dsimp only
    split
    · next htype =>
      exact Run.All.returns (Passes.skip_of_type h (by rw [htype]; decide) (by rw [htype]; decide))
    · exact Run.All.fails
  | boolean =>
    dsimp only
    split
    · next hword => exact Run.All.returns (Passes.skip_of_name h hword.1)
    split
    · next hword => exact Run.All.returns (Passes.skip_of_name h hword.1)
    · exact Run.All.fails
  | integer min max =>
    dsimp only
    split
    · exact Run.All.fails
    next htype =>
    have hpass : Passes s s.skip := by
      refine Passes.skip_of_type h ?_ ?_ <;>
      · intro heq
        rw [heq] at htype
        exact htype (by decide)
    split
    · exact Run.All.returns hpass
    · exact Run.All.fails
    · exact Run.All.fails
  | fromString convert =>
    dsimp only
    split
    · next htype =>
      cases convert s.currentValue with
      | error message => exact Run.All.fails
      | ok value =>
        exact Run.All.returns
          (Passes.skip_of_type h (by rw [htype]; decide) (by rw [htype]; decide))
    · exact Run.All.fails

theorem gqlParseArgs_passes (i : Nat) (params : List Param) (args : Args) (h : s.Lexed)
    (hname : s.currentType = .name) : (gqlParseArgs i params args s).All fun r =>
      Passes s r.2.2 := by
  have hfirst := Passes.skip_of_name h hname
  induction params generalizing i with
  | nil => exact Run.All.returns (Passes.refl h)
  | cons param params ih =>
    rw [gqlParseArgs]
    dsimp only
    split
    · exact ih (i + 1)
    split
    · exact Run.All.fails
    next hcolon =>
    have hsecond := hfirst.trans
      (Passes.skip_of_punct hfirst.lexed (not_not.mp hcolon) (by decide) (by decide) (by decide))
    split
    · exact Run.All.fails
    split
    · next hnull =>
      exact Run.All.returns (hsecond.trans (Passes.skip_of_name hsecond.lexed hnull.2.1))
    · refine (gqlParseArg_passes param.type hsecond.lexed).bind fun r hr => ?_
      exact Run.All.returns (hsecond.trans hr)

theorem gqlArgsLoop_passes (params : List Param) (fuel : Nat) (args : Args) (h : s.Lexed) :
    (gqlArgsLoop params fuel args s).All fun r => Passes s r.2 := by
  induction fuel generalizing args s with
  | zero => exact Run.All.running
  | succ fuel ih =>
    rw [gqlArgsLoop_succ]
    split
    · next hname =>
      refine (gqlParseArgs_passes 0 params args h hname).bind fun r hr => ?_
      split
      · exact fun r' hr' => hr.trans (ih _ hr.lexed r' hr')
      · exact Run.All.fails
    · exact Run.All.returns (Passes.refl h)

theorem gqlArgList_passes (params : List Param) (fuel : Nat) (h : s.Lexed) :
    (gqlArgList params fuel s).All fun r => Passes s r.2 := by
  unfold gqlArgList
  split
  · next hparen =>
    have hfirst := Passes.skip_of_punct h hparen (by decide) (by decide) (by decide)
    dsimp only
    split
    · exact Run.All.fails
    · refine (gqlArgsLoop_passes params fuel _ hfirst.lexed).bind fun r hr => ?_
      split
      · exact Run.All.fails
      next hclose =>
      have hlast := Passes.skip_of_punct hr.lexed (not_not.mp hclose)
        (by decide) (by decide) (by decide)
      exact Run.All.returns ((hfirst.trans hr).trans hlast)
  · exact Run.All.returns (Passes.refl h)

/-- What a call of a method returns is known from its arguments. -/
theorem gqlMethod_returns_iff {O : Type} {name : Bytes} {params : List Param}
    {call : List (Option ArgValue) → Except String (Value O)} {r : Value O × GqlStream} :
    Returns (gqlMember (.method name params call) · s) r ↔
      ∃ args, Returns (gqlArgList params · s) (args, r.2) ∧ missingArg params args = none ∧
        call args.values = .ok r.1 := by
  constructor
  · rintro ⟨fuel, h⟩
    obtain ⟨⟨args, s'⟩, hargs, hrest⟩ := returns_of_bind h
    dsimp only at hrest
    cases hmissing : missingArg params args with
    | some param =>
      rw [hmissing] at hrest
      cases hrest
    | none =>
      rw [hmissing] at hrest
      obtain ⟨value, hcall, hr⟩ := returns_of_bind hrest
      cases hr
      refine ⟨args, ⟨fuel, hargs⟩, hmissing, ?_⟩
      cases hvalue : call args.values with
      | error message =>
        rw [hvalue] at hcall
        cases hcall
      | ok value' =>
        rw [hvalue] at hcall
        cases hcall
        rfl
  · rintro ⟨args, ⟨fuel, hargs⟩, hmissing, hcall⟩
    have hargs : gqlArgList params fuel s = .returns (args, r.2) := hargs
    refine ⟨fuel, ?_⟩
    show gqlMember (.method name params call) fuel s = .returns r
    rw [gqlMember, hargs, Run.returns_bind]
    dsimp only
    rw [hmissing]
    dsimp only
    rw [hcall]
    rfl

theorem gqlMember_passes {O : Type} {member : Member O} {r : Value O × GqlStream} (h : s.Lexed)
    (hr : Returns (gqlMember member · s) r) : Passes s r.2 := by
  cases member with
  | field name value =>
    obtain ⟨fuel, hfuel⟩ := hr
    cases hfuel
    exact Passes.refl h
  | method name params call =>
    obtain ⟨args, ⟨fuel, hargs⟩, -, -⟩ := gqlMethod_returns_iff.mp hr
    exact gqlArgList_passes params fuel h _ hargs

theorem FieldValue.passes {O : Type} {members : O → List (Member O)} {object : O}
    {r : Value O × GqlStream} (hvalue : FieldValue members object s r) (h : s.Lexed) :
    Passes s r.2 := by
  obtain ⟨hname, names, member, hnames, -, hmember⟩ := hvalue
  have hfirst := gqlFieldName_passes h hname names hnames
  exact hfirst.trans (gqlMember_passes hfirst.lexed hmember)

end Parts

/-! ## A selection set that fits is one to skip -/

section Skips

variable {O : Type} {members : O → List (Member O)}

theorem returns_skip_of_passes {s s' : GqlStream} (hopen : isPunct s '{')
    (hpass : Passes s.skip s') (hclose : isPunct s' '}') :
    Returns (gqlSkipSelectionSet · s) s'.skip := by
  have htype : s'.currentType = .punctuator := hpass.lexed (by rw [hclose]; decide)
  have hloop := gqlSkipLoop_close (by rw [htype]; decide)
    (not_isPunct_of_isPunct hclose (d := '{') (by decide)) hclose
  obtain ⟨fuel, hfuel⟩ := hpass.loop s'.skip ⟨1, hloop 0⟩
  exact ⟨fuel, (if_neg (not_not.mpr hopen)).trans hfuel⟩

/-- The next thing behind a value is a name or the closing brace. -/
theorem FieldsFit.not_open {object : O} {s s' : GqlStream} (h : FieldsFit members object s s')
    (hlexed : s.Lexed) (hclose : isPunct s' '}') : ¬ isPunct s '{' := by
  cases h with
  | done hname => exact not_isPunct_of_isPunct hclose (by decide)
  | field hvalue _ _ => exact hlexed.not_isPunct (by rw [hvalue.1]; decide) (by decide)

mutual

/-- **A selection set that fits is skipped to the same end**, unless the value is written as
it is and leaves a selection set behind. -/
theorem Fits.skips : ∀ {value : Value O} {s s' : GqlStream}, Fits members value s s' →
    s.Lexed → ¬ isPunct s' '{' → Returns (gqlSkipSelectionSet · s) s'
  | _, _, _, .scalar _ s, _, hopen => ⟨0, if_pos hopen⟩
  | _, _, _, .null hskip, _, _ => hskip
  | _, _, _, .ref h, hlexed, hopen => Fits.skips h hlexed hopen
  | _, _, _, .list _ _ hskip, _, _ => hskip
  | _, _, _, .object hopen hfields hclose, hlexed, _ =>
    returns_skip_of_passes hopen (FieldsFit.passes hfields hlexed.skip hclose) hclose

theorem FieldsFit.passes : ∀ {object : O} {s s' : GqlStream}, FieldsFit members object s s' →
    s.Lexed → isPunct s' '}' → Passes s s'
  | _, _, _, .done _, hlexed, _ => Passes.refl hlexed
  | _, _, _, .field hvalue h hrest, hlexed, hclose => by
    -- the name and the arguments hold no brace, the value closes the ones that it opens
    have hfirst := hvalue.passes hlexed
    have hbehind := h.behind hfirst.lexed
    have hopen := hrest.not_open hbehind.lexed hclose
    have hskip := Passes.of_skip hfirst.lexed (Fits.skips h hfirst.lexed hopen)
    exact (hfirst.trans hskip).trans (FieldsFit.passes hrest hbehind.lexed hclose)

end

/-- An object closes its selection set. -/
theorem Fits.skips_object {object : O} {s s' : GqlStream} (h : Fits members (.object object) s s')
    (hlexed : s.Lexed) : Returns (gqlSkipSelectionSet · s) s' := by
  cases h with
  | object hopen hfields hclose =>
    exact returns_skip_of_passes hopen (hfields.passes hlexed.skip hclose) hclose

/-- Two skips of one selection set end alike. -/
theorem skip_unique {s t t' : GqlStream} (h : Returns (gqlSkipSelectionSet · s) t)
    (h' : Returns (gqlSkipSelectionSet · s) t') : t = t' :=
  h.unique (gqlSkipSelectionSet_mono s) h'

end Skips

/-! ## What fits more also fits less -/

section Sparser

variable {O O' : Type}

/-- What is in `value` is in `value'` too, objects by `R`. -/
inductive Sparser (R : O → O' → Prop) : Value O → Value O' → Prop
  | scalar (x y : Scalar) : Sparser R (.scalar x) (.scalar y)
  | null (value' : Value O') : Sparser R .null value'
  | ref {value : Value O} {value' : Value O'} (h : Sparser R value value') :
    Sparser R (.ref value) (.ref value')
  | list {elems : List (Value O)} {elems' : List (Value O')} (fuller : Value O → Value O')
      (hmem : ∀ elem ∈ elems, fuller elem ∈ elems')
      (h : ∀ elem ∈ elems, Sparser R elem (fuller elem)) : Sparser R (.list elems) (.list elems')
  | object {object : O} {object' : O'} (h : R object object') :
    Sparser R (.object object) (.object object')

/-- The same for a member. A method gives an answer wherever the other does. -/
inductive MemberSparser (R : O → O' → Prop) : Member O → Member O' → Prop
  | field (name : Bytes) {value : Value O} {value' : Value O'} (h : Sparser R value value') :
    MemberSparser R (.field name value) (.field name value')
  | method (name : Bytes) (params : List Param)
      {call : List (Option ArgValue) → Except String (Value O)}
      {call' : List (Option ArgValue) → Except String (Value O')}
      (h : ∀ args value', call' args = .ok value' →
        ∃ value, call args = .ok value ∧ Sparser R value value') :
      MemberSparser R (.method name params call) (.method name params call')

/-- Objects are related through their members, in the order of the fields. -/
def Simulates (members : O → List (Member O)) (members' : O' → List (Member O'))
    (R : O → O' → Prop) : Prop :=
  ∀ object object', R object object' →
    List.Forall₂ (MemberSparser R) (members object) (members' object')

/-- Related members are found together. -/
theorem find_of_related {r : Member O → Member O' → Prop}
    (hname : ∀ member member', r member member' → member.name = member'.name)
    {ms : List (Member O)} {ms' : List (Member O')} (h : List.Forall₂ r ms ms') {name : Bytes}
    {member' : Member O'} (hfind : ms'.find? (·.name = name) = some member') :
    ∃ member, ms.find? (·.name = name) = some member ∧ r member member' := by
  have heq : ∀ m m', r m m' → decide (m.name = name) = decide (m'.name = name) :=
    fun m m' hm => by rw [hname m m' hm]
  rcases find_of_forall₂ heq h with ⟨-, hnone⟩ | ⟨m, m', hm, hm', hpair⟩
  · rw [hnone] at hfind
    cases hfind
  · obtain rfl := Option.some.inj (hm'.symm.trans hfind)
    exact ⟨m, hm, hpair⟩

theorem MemberSparser.name_eq {R : O → O' → Prop} {member : Member O} {member' : Member O'}
    (h : MemberSparser R member member') : member.name = member'.name := by
  cases h <;> rfl

theorem MemberSparser.returns {R : O → O' → Prop} {member : Member O} {member' : Member O'}
    (h : MemberSparser R member member') {s : GqlStream} {r' : Value O' × GqlStream}
    (hr : Returns (gqlMember member' · s) r') :
    ∃ value, Returns (gqlMember member · s) (value, r'.2) ∧ Sparser R value r'.1 := by
  cases h with
  | field name h =>
    obtain ⟨fuel, hfuel⟩ := hr
    cases hfuel
    exact ⟨_, ⟨0, rfl⟩, h⟩
  | method name params h =>
    obtain ⟨args, hargs, hmissing, hcall⟩ := gqlMethod_returns_iff.mp hr
    obtain ⟨value, hvalue, hsparser⟩ := h args.values r'.1 hcall
    exact ⟨value, gqlMethod_returns_iff.mpr ⟨args, hargs, hmissing, hvalue⟩, hsparser⟩

variable {members : O → List (Member O)} {members' : O' → List (Member O')} {R : O → O' → Prop}

theorem FieldValue.of_sparser (hR : Simulates members members' R) {object : O} {object' : O'}
    (hobject : R object object') {s : GqlStream} {r' : Value O' × GqlStream}
    (h : FieldValue members' object' s r') :
    ∃ value, FieldValue members object s (value, r'.2) ∧ Sparser R value r'.1 := by
  obtain ⟨hname, names, member', hnames, hfind', hmember'⟩ := h
  obtain ⟨member, hfind, hmember⟩ :=
    find_of_related (fun _ _ => MemberSparser.name_eq) (hR object object' hobject) hfind'
  obtain ⟨value, hvalue, hsparser⟩ := hmember.returns hmember'
  exact ⟨value, ⟨hname, names, member, hnames, hfind, hvalue⟩, hsparser⟩

mutual

/-- With a selection set that can be skipped, since a null skips it. -/
theorem Fits.sparser (hR : Simulates members members' R) : ∀ {value' : Value O'}
    {s s' : GqlStream}, Fits members' value' s s' → ∀ {value : Value O}, Sparser R value value' →
    s.Lexed → ∀ {t : GqlStream}, Returns (gqlSkipSelectionSet · s) t →
    ∃ s'', Fits members value s s'' ∧ (¬ isPunct s' '{' → s'' = s')
  | _, s, _, .scalar _ _, _, hsparser, _, t, hskip => by
    cases hsparser with
    | scalar x y => exact ⟨s, .scalar x s, fun _ => rfl⟩
    -- a null would skip the selection set that the scalar leaves, but then the object fails
    | null _ => exact ⟨t, .null hskip, fun hopen => skip_unique hskip ⟨0, if_pos hopen⟩⟩
  | _, _, s', .null hskip', _, hsparser, _, t, hskip => by
    cases hsparser with
    | null _ => exact ⟨s', .null hskip', fun _ => rfl⟩
  | _, _, _, .ref h, _, hsparser, hlexed, t, hskip => by
    cases hsparser with
    | ref hsparser =>
      obtain ⟨s'', hfits, heq⟩ := Fits.sparser hR h hsparser hlexed hskip
      exact ⟨s'', .ref hfits, heq⟩
    | null _ => exact ⟨t, .null hskip, fun hopen => skip_unique hskip (h.skips hlexed hopen)⟩
  | _, s, s', .list ends helems hskip', _, hsparser, hlexed, t, hskip => by
    cases hsparser with
    | null _ => exact ⟨s', .null hskip', fun _ => rfl⟩
    | @list elems _ fuller hmem hsparser =>
      have hfits : ∀ elem ∈ elems, ∃ t, Fits members elem s t := by
        intro elem helem
        obtain ⟨s'', hfits, -⟩ :=
          Fits.sparser hR (helems _ (hmem elem helem)) (hsparser elem helem) hlexed hskip
        exact ⟨s'', hfits⟩
      have : Nonempty GqlStream := ⟨s⟩
      choose! ends' hends' using hfits
      exact ⟨s', .list ends' hends' hskip', fun _ => rfl⟩
  | _, _, _, .object hopen hfields hclose, _, hsparser, hlexed, t, hskip => by
    have hskip' := returns_skip_of_passes hopen (hfields.passes hlexed.skip hclose) hclose
    cases hsparser with
    | null _ => exact ⟨t, .null hskip, fun _ => skip_unique hskip hskip'⟩
    | object hobject =>
      exact ⟨_, .object hopen (FieldsFit.sparser hR hfields hobject hlexed.skip hclose) hclose,
        fun _ => rfl⟩

theorem FieldsFit.sparser (hR : Simulates members members' R) : ∀ {object' : O'}
    {s s' : GqlStream}, FieldsFit members' object' s s' → ∀ {object : O}, R object object' →
    s.Lexed → isPunct s' '}' → FieldsFit members object s s'
  | _, _, _, .done hname, _, _, _, _ => .done hname
  | _, _, _, .field hvalue h hrest, _, hobject, hlexed, hclose => by
    obtain ⟨value, hvalue', hsparser⟩ := hvalue.of_sparser hR hobject
    have hmid := (hvalue.passes hlexed).lexed
    have hend := (h.behind hmid).lexed
    -- behind the value there is no brace to open, so both values end at one place
    have hopen := hrest.not_open hend hclose
    obtain ⟨t, hfits, heq⟩ := Fits.sparser hR h hsparser hmid (h.skips hmid hopen)
    rw [heq hopen] at hfits
    exact .field hvalue' hfits (FieldsFit.sparser hR hrest hobject hend hclose)

end

/-- **What fits a value fits every value that has less in it.** -/
theorem Fits.of_sparser (hR : Simulates members members' R) {value : Value O}
    {value' : Value O'} {s s' : GqlStream} (h : Fits members' value' s s')
    (hsparser : Sparser R value value') (hlexed : s.Lexed) (hopen : ¬ isPunct s' '{') :
    Fits members value s s' := by
  obtain ⟨s'', hfits, heq⟩ := h.sparser hR hsparser hlexed (h.skips hlexed hopen)
  rwa [heq hopen] at hfits

end Sparser

end Microchain.Graphql
