import Microchain.Graphql.Interpreter

/-!
# Fuel and progress of the interpreter

Facts about every function of the interpreter, each from what it does in one step. With
more fuel it only gets further (`gqlQuery_mono`). The stream it leaves comes from the one
it was given by calls of `skip`, so it has every property that `skip` keeps
(`gqlQuery_keeps`): it is not before the given one (`gqlQuery_behind`), and strictly
behind it where a loop goes on.
-/

namespace Microchain.Graphql

open Eosio Lib

/-- `s'` is where reading on from `s` can lead. -/
structure Behind (s s' : GqlStream) : Prop where
  lexed : s'.Lexed
  measure_le : s'.measure ≤ s.measure

theorem Behind.refl {s : GqlStream} (h : s.Lexed) : Behind s s := ⟨h, Nat.le_refl _⟩

theorem Behind.trans {s s' s'' : GqlStream} (h : Behind s s') (h' : Behind s' s'') :
    Behind s s'' := ⟨h'.lexed, Nat.le_trans h'.measure_le h.measure_le⟩

theorem Behind.skip {s : GqlStream} (h : s.Lexed) : Behind s s.skip :=
  ⟨h.skip, s.measure_skip_le⟩

theorem Behind.skip_of {s s' : GqlStream} (h : Behind s s') : Behind s s'.skip :=
  h.trans (Behind.skip h.lexed)

/-- Behind a name there is less to read. -/
theorem measure_skip_lt_of_name {s : GqlStream} (h : s.currentType = .name) :
    s.skip.measure < s.measure :=
  GqlStream.measure_skip_lt (by rw [h]; nofun) (by rw [h]; nofun)

/-- Behind a punctuator there is less to read. -/
theorem GqlStream.Lexed.measure_skip_lt {s : GqlStream} (h : s.Lexed) {c : Char}
    (hc : isPunct s c) (hne : c.toUInt8 ≠ 0) : s.skip.measure < s.measure := by
  have htype : s.currentType = .punctuator := h (by rw [hc]; exact hne)
  exact GqlStream.measure_skip_lt (by rw [htype]; nofun) (by rw [htype]; nofun)

/-! ## Parts without loops -/

section Keeps

variable {P : GqlStream → Prop} {s : GqlStream}

theorem gqlFieldName_keeps (hP : ∀ s, P s → P s.skip) (h : P s.skip) :
    (gqlFieldName s).All fun r => P r.2.2 := by
  unfold gqlFieldName
  dsimp only
  split
  · split
    · exact Run.All.fails
    · exact Run.All.returns (hP _ (hP _ h))
  · exact Run.All.returns h

theorem gqlParseArg_keeps (hP : ∀ s, P s → P s.skip) (type : ArgType) (h : P s) :
    (gqlParseArg type s).All fun r => P r.2 := by
  have hskip := hP s h
  unfold gqlParseArg
  cases type with
  | string =>
    dsimp only
    split
    · exact Run.All.returns hskip
    · exact Run.All.fails
  | boolean =>
    dsimp only
    split
    · exact Run.All.returns hskip
    split
    · exact Run.All.returns hskip
    · exact Run.All.fails
  | integer min max =>
    dsimp only
    split
    · exact Run.All.fails
    split
    · exact Run.All.returns hskip
    · exact Run.All.fails
    · exact Run.All.fails
  | fromString convert =>
    dsimp only
    split
    · cases convert s.currentValue with
      | error message => exact Run.All.fails
      | ok value => exact Run.All.returns hskip
    · exact Run.All.fails

theorem gqlParseArgs_keeps (hP : ∀ s, P s → P s.skip) (i : Nat) (params : List Param)
    (args : Args) (h : P s) : (gqlParseArgs i params args s).All fun r => P r.2.2 := by
  have hcolon := hP _ (hP _ h)
  induction params generalizing i with
  | nil => exact Run.All.returns h
  | cons param params ih =>
    rw [gqlParseArgs]
    dsimp only
    split
    · exact ih (i + 1)
    split
    · exact Run.All.fails
    split
    · exact Run.All.fails
    split
    · exact Run.All.returns (hP _ hcolon)
    · exact (gqlParseArg_keeps hP param.type hcolon).bind fun r hr => Run.All.returns hr

theorem gqlOperation_keeps (hP : ∀ s, P s → P s.skip) (h : P s) : (gqlOperation s).All P := by
  unfold gqlOperation
  split
  · split
    · have hnamed : P (if s.skip.currentType = .name then s.skip.skip else s.skip) := by
        split
        · exact hP _ (hP _ h)
        · exact hP _ h
      dsimp only
      generalize (if s.skip.currentType = .name then s.skip.skip else s.skip) = s' at hnamed
      split
      · exact Run.All.fails
      split
      · exact Run.All.fails
      · exact Run.All.returns hnamed
    split
    · exact Run.All.fails
    split
    · exact Run.All.fails
    split
    · exact Run.All.fails
    · exact Run.All.fails
  · exact Run.All.returns h

end Keeps

theorem Behind.keeps (s : GqlStream) : ∀ s', Behind s s' → Behind s s'.skip :=
  fun _ h => h.skip_of

theorem gqlFieldName_behind {s : GqlStream} (h : s.Lexed) :
    (gqlFieldName s).All fun r => Behind s.skip r.2.2 :=
  gqlFieldName_keeps (Behind.keeps s.skip) (Behind.refl h.skip)

theorem gqlParseArg_behind (type : ArgType) {s : GqlStream} (h : s.Lexed) :
    (gqlParseArg type s).All fun r => Behind s r.2 :=
  gqlParseArg_keeps (Behind.keeps s) type (Behind.refl h)

/-- An argument that is found has been read. -/
theorem gqlParseArgs_behind (i : Nat) (params : List Param) (args : Args) {s : GqlStream}
    (h : s.Lexed) (hname : s.currentType = .name) :
    (gqlParseArgs i params args s).All fun r =>
      Behind s r.2.2 ∧ (r.1 = true → r.2.2.measure < s.measure) := by
  induction params generalizing i with
  | nil => exact Run.All.returns ⟨Behind.refl h, nofun⟩
  | cons param params ih =>
    have hlt := measure_skip_lt_of_name hname
    have hcolon := (Behind.skip h).skip_of
    have hcolon_lt : s.skip.skip.measure < s.measure :=
      Nat.lt_of_le_of_lt s.skip.measure_skip_le hlt
    rw [gqlParseArgs]
    dsimp only
    split
    · exact ih (i + 1)
    split
    · exact Run.All.fails
    split
    · exact Run.All.fails
    split
    · exact Run.All.returns ⟨hcolon.skip_of,
        fun _ => Nat.lt_of_le_of_lt s.skip.skip.measure_skip_le hcolon_lt⟩
    · refine (gqlParseArg_behind param.type hcolon.lexed).bind fun r hr => ?_
      exact Run.All.returns ⟨hcolon.trans hr, fun _ => Nat.lt_of_le_of_lt hr.measure_le hcolon_lt⟩

theorem gqlOperation_behind {s : GqlStream} (h : s.Lexed) :
    (gqlOperation s).All fun r => Behind s r :=
  gqlOperation_keeps (Behind.keeps s) (Behind.refl h)

theorem error_settled {α : Type} (message : Bytes) : (error message : Gql α).Settled :=
  Run.Settled.fails _

theorem aborting_settled {α : Type} (x : Except String α) : (aborting x).Settled := by
  cases x with
  | error message => exact Run.Settled.fails _
  | ok a => exact Run.Settled.returns a

theorem gqlFieldName_settled (s : GqlStream) : (gqlFieldName s).Settled := by
  unfold gqlFieldName
  dsimp only
  split
  · split
    · exact error_settled _
    · exact Run.Settled.returns _
  · exact Run.Settled.returns _

theorem gqlParseArg_settled (type : ArgType) (s : GqlStream) : (gqlParseArg type s).Settled := by
  unfold gqlParseArg
  cases type with
  | string =>
    dsimp only
    split
    · exact Run.Settled.returns _
    · exact error_settled _
  | boolean =>
    dsimp only
    split
    · exact Run.Settled.returns _
    split
    · exact Run.Settled.returns _
    · exact error_settled _
  | integer min max =>
    dsimp only
    split
    · exact error_settled _
    split
    · exact Run.Settled.returns _
    · exact error_settled _
    · exact error_settled _
  | fromString convert =>
    dsimp only
    split
    · exact (aborting_settled _).bind fun _ => Run.Settled.returns _
    · exact error_settled _

theorem gqlParseArgs_settled (i : Nat) (params : List Param) (args : Args) (s : GqlStream) :
    (gqlParseArgs i params args s).Settled := by
  induction params generalizing i with
  | nil => exact Run.Settled.returns _
  | cons param params ih =>
    rw [gqlParseArgs]
    dsimp only
    split
    · exact ih (i + 1)
    split
    · exact error_settled _
    split
    · exact error_settled _
    split
    · exact Run.Settled.returns _
    · exact (gqlParseArg_settled _ _).bind fun _ => Run.Settled.returns _

theorem gqlOperation_settled (s : GqlStream) : (gqlOperation s).Settled := by
  unfold gqlOperation
  dsimp only
  repeat' split
  all_goals first | exact Run.Settled.returns _ | exact error_settled _

theorem gqlEndOfInput_settled (s : GqlStream) : (gqlEndOfInput s).Settled := by
  unfold gqlEndOfInput
  repeat' split
  all_goals first | exact Run.Settled.returns _ | exact error_settled _

/-! ## Loops -/

/-- One round of the loop over arguments, `loop` being the rest of it. -/
theorem gqlArgsLoop_succ (params : List Param) (fuel : Nat) (args : Args) (s : GqlStream) :
    gqlArgsLoop params (fuel + 1) args s =
      if s.currentType = .name then
        gqlParseArgs 0 params args s >>= fun r =>
          if r.1 then gqlArgsLoop params fuel r.2.1 r.2.2
          else error (ascii "unknown arg '" ++ r.2.2.currentValue ++ ascii "'")
      else .returns (args, s) := rfl

theorem gqlArgsLoop_mono (params : List Param) (args : Args) (s : GqlStream) :
    Mono fun fuel => gqlArgsLoop params fuel args s := by
  intro fuel
  induction fuel generalizing args s with
  | zero => exact Run.Upto.running _
  | succ fuel ih =>
    dsimp only
    rw [gqlArgsLoop_succ params fuel, gqlArgsLoop_succ params (fuel + 1)]
    split
    · refine Run.Upto.bind (Run.Upto.refl _) fun r => ?_
      split
      · exact ih _ _
      · exact Run.Upto.refl _
    · exact Run.Upto.refl _

theorem gqlArgsLoop_keeps {P : GqlStream → Prop} (hP : ∀ s, P s → P s.skip)
    (params : List Param) (fuel : Nat) (args : Args) {s : GqlStream} (h : P s) :
    (gqlArgsLoop params fuel args s).All fun r => P r.2 := by
  induction fuel generalizing args s with
  | zero => exact Run.All.running
  | succ fuel ih =>
    rw [gqlArgsLoop_succ]
    split
    · refine (gqlParseArgs_keeps hP 0 params args h).bind fun r hr => ?_
      split
      · exact ih _ hr
      · exact Run.All.fails
    · exact Run.All.returns h

/-- **The argument parser returns**: every argument it finds is paid for with input. -/
theorem gqlArgsLoop_terminates (params : List Param) (args : Args) {s : GqlStream}
    (h : s.Lexed) : Terminates fun fuel => gqlArgsLoop params fuel args s := by
  induction hm : s.measure using Nat.strongRecOn generalizing args s with
  | ind m ih =>
    subst hm
    refine Terminates.succ (gqlArgsLoop_succ params · args s) ?_
    split
    · next hname =>
      refine Terminates.settled_bind (gqlParseArgs_settled 0 params args s) fun r hr => ?_
      obtain ⟨hbehind, hlt⟩ := gqlParseArgs_behind 0 params args h hname r hr
      by_cases hfound : r.1 = true
      · simp only [hfound, if_true]
        exact ih _ (hlt hfound) r.2.1 hbehind.lexed rfl
      · simp only [if_neg hfound]
        exact ⟨0, error_settled _⟩
    · exact ⟨0, Run.Settled.returns _⟩

/-! ### Argument lists and members -/

theorem gqlArgList_mono (params : List Param) (s : GqlStream) :
    Mono fun fuel => gqlArgList params fuel s := by
  intro fuel
  dsimp only
  unfold gqlArgList
  split
  · dsimp only
    split
    · exact Run.Upto.refl _
    · exact (gqlArgsLoop_mono params _ _ fuel).bind fun r => Run.Upto.refl _
  · exact Run.Upto.refl _

theorem gqlArgList_keeps {P : GqlStream → Prop} (hP : ∀ s, P s → P s.skip)
    (params : List Param) (fuel : Nat) {s : GqlStream} (h : P s) :
    (gqlArgList params fuel s).All fun r => P r.2 := by
  unfold gqlArgList
  split
  · dsimp only
    split
    · exact Run.All.fails
    · refine (gqlArgsLoop_keeps hP params fuel _ (hP _ h)).bind fun r hr => ?_
      split
      · exact Run.All.fails
      · exact Run.All.returns (hP _ hr)
  · exact Run.All.returns h

theorem gqlArgList_terminates (params : List Param) {s : GqlStream} (h : s.Lexed) :
    Terminates fun fuel => gqlArgList params fuel s := by
  unfold gqlArgList
  split
  · dsimp only
    split
    · exact ⟨0, error_settled _⟩
    · refine Terminates.bind (gqlArgsLoop_mono params _ _) (fun r => Mono.const _)
        (gqlArgsLoop_terminates params _ h.skip) fun r _ => ⟨0, ?_⟩
      dsimp only
      split
      · exact error_settled _
      · exact Run.Settled.returns _
  · exact ⟨0, Run.Settled.returns _⟩

section Query

variable {O : Type}

theorem gqlMember_mono (member : Member O) (s : GqlStream) :
    Mono fun fuel => gqlMember member fuel s := by
  cases member with
  | field name value => exact Mono.const _
  | method name params call =>
    exact (gqlArgList_mono params s).bind fun r => Mono.const _

theorem gqlMember_keeps {P : GqlStream → Prop} (hP : ∀ s, P s → P s.skip) (member : Member O)
    (fuel : Nat) {s : GqlStream} (h : P s) : (gqlMember member fuel s).All fun r => P r.2 := by
  cases member with
  | field name value => exact Run.All.returns h
  | method name params call =>
    refine (gqlArgList_keeps hP params fuel h).bind fun r hr => ?_
    dsimp only
    cases missingArg params r.1 with
    | some param => exact Run.All.fails
    | none =>
      cases call r.1.values with
      | error message => exact Run.All.fails
      | ok value => exact Run.All.returns hr

theorem gqlMember_behind (member : Member O) (fuel : Nat) {s : GqlStream} (h : s.Lexed) :
    (gqlMember member fuel s).All fun r => Behind s r.2 :=
  gqlMember_keeps (Behind.keeps s) member fuel (Behind.refl h)

theorem gqlMember_terminates (member : Member O) {s : GqlStream} (h : s.Lexed) :
    Terminates fun fuel => gqlMember member fuel s := by
  cases member with
  | field name value => exact ⟨0, Run.Settled.returns _⟩
  | method name params call =>
    refine Terminates.bind (gqlArgList_mono params s) (fun r => Mono.const _)
      (gqlArgList_terminates params h) fun r _ => ⟨0, ?_⟩
    dsimp only
    cases missingArg params r.1 with
    | some param => exact error_settled _
    | none => exact (aborting_settled _).bind fun _ => Run.Settled.returns _

/-! ### Selection sets -/

theorem gqlSkipLoop_succ (fuel : Nat) (s : GqlStream) :
    gqlSkipLoop (fuel + 1) s =
      if s.currentType = .eof then error (ascii "expected \x7d")
      else if isPunct s '{' then gqlSkipLoop fuel s.skip >>= fun s => gqlSkipLoop fuel s
      else if isPunct s '}' then .returns s.skip
      else gqlSkipLoop fuel s.skip := rfl

theorem gqlSkipLoop_mono (s : GqlStream) : Mono fun fuel => gqlSkipLoop fuel s := by
  intro fuel
  induction fuel generalizing s with
  | zero => exact Run.Upto.running _
  | succ fuel ih =>
    dsimp only
    rw [gqlSkipLoop_succ fuel, gqlSkipLoop_succ (fuel + 1)]
    split
    · exact Run.Upto.refl _
    split
    · exact (ih s.skip).bind ih
    split
    · exact Run.Upto.refl _
    · exact ih s.skip

theorem gqlSkipLoop_keeps {P : GqlStream → Prop} (hP : ∀ s, P s → P s.skip) (fuel : Nat)
    {s : GqlStream} (h : P s) : (gqlSkipLoop fuel s).All P := by
  induction fuel generalizing s with
  | zero => exact Run.All.running
  | succ fuel ih =>
    rw [gqlSkipLoop_succ]
    split
    · exact Run.All.fails
    split
    · exact (ih (hP s h)).bind fun s' hs' => ih hs'
    split
    · exact Run.All.returns (hP s h)
    · exact ih (hP s h)

theorem gqlSkipLoop_behind (fuel : Nat) {s : GqlStream} (h : s.Lexed) :
    (gqlSkipLoop fuel s).All (Behind s) :=
  gqlSkipLoop_keeps (Behind.keeps s) fuel (Behind.refl h)

theorem gqlSkipSelectionSet_mono (s : GqlStream) :
    Mono fun fuel => gqlSkipSelectionSet fuel s := by
  unfold gqlSkipSelectionSet
  split
  · exact Mono.const _
  · exact gqlSkipLoop_mono s.skip

theorem gqlSkipSelectionSet_keeps {P : GqlStream → Prop} (hP : ∀ s, P s → P s.skip) (fuel : Nat)
    {s : GqlStream} (h : P s) : (gqlSkipSelectionSet fuel s).All P := by
  unfold gqlSkipSelectionSet
  split
  · exact Run.All.returns h
  · exact gqlSkipLoop_keeps hP fuel (hP s h)

variable (members : O → List (Member O)) (toJson : Scalar → Bytes)

/-! ### The interpreter -/

/-- One field, `rest` being the loop behind it: the name, the member, its value. -/
theorem gqlFields_succ (fuel : Nat) (first : Bool) (object : O) (s : GqlStream) :
    gqlFields members toJson (fuel + 1) first object s =
      if s.currentType = .name then
        gqlFieldName s >>= fun r =>
          match (members object).find? (·.name = r.2.1) with
          | none => error (r.2.1 ++ ascii " not found")
          | some member =>
            gqlMember member fuel r.2.2 >>= fun v =>
              gqlQuery members toJson fuel v.1 v.2 >>= fun out =>
                gqlFields members toJson fuel false object out.2 >>= fun outs =>
                  .returns (separator first ++ toJson (.string r.1) ++ ascii ":" ++ out.1 ++
                    outs.1, outs.2)
      else .returns ([], s) := rfl

theorem gqlElements_cons (fuel : Nat) (first : Bool) (elem : Value O) (elems : List (Value O))
    (s : GqlStream) :
    gqlElements members toJson (fuel + 1) first (elem :: elems) s =
      gqlQuery members toJson fuel elem s >>= fun out =>
        gqlElements members toJson fuel false elems s >>= fun outs =>
          .returns (separator first ++ out.1 ++ outs) := rfl

theorem gqlQuery_null (fuel : Nat) (s : GqlStream) :
    gqlQuery members toJson (fuel + 1) .null s =
      gqlSkipSelectionSet fuel s >>= fun s => .returns (ascii "null", s) := rfl

theorem gqlQuery_ref (fuel : Nat) (value : Value O) (s : GqlStream) :
    gqlQuery members toJson (fuel + 1) (.ref value) s =
      gqlQuery members toJson fuel value s := rfl

theorem gqlQuery_list (fuel : Nat) (elems : List (Value O)) (s : GqlStream) :
    gqlQuery members toJson (fuel + 1) (.list elems) s =
      gqlElements members toJson fuel true elems s >>= fun out =>
        gqlSkipSelectionSet fuel s >>= fun s =>
          .returns (ascii "[" ++ out ++ ascii "]", s) := rfl

theorem gqlQuery_object (fuel : Nat) (object : O) (s : GqlStream) :
    gqlQuery members toJson (fuel + 1) (.object object) s =
      if ¬ isPunct s '{' then error (ascii "expected \x7b")
      else gqlFields members toJson fuel true object s.skip >>= fun r =>
        if ¬ isPunct r.2 '}' then error (ascii "expected \x7d")
        else .returns (ascii "\x7b" ++ r.1 ++ ascii "\x7d", r.2.skip) := rfl

/-- One more unit of fuel, for the three functions at once. -/
theorem gql_upto (fuel : Nat) :
    (∀ value s, (gqlQuery members toJson fuel value s).Upto
      (gqlQuery members toJson (fuel + 1) value s)) ∧
    (∀ first elems s, (gqlElements members toJson fuel first elems s).Upto
      (gqlElements members toJson (fuel + 1) first elems s)) ∧
    ∀ first object s, (gqlFields members toJson fuel first object s).Upto
      (gqlFields members toJson (fuel + 1) first object s) := by
  induction fuel with
  | zero =>
    exact ⟨fun _ _ => Run.Upto.running _, fun _ _ _ => Run.Upto.running _,
      fun _ _ _ => Run.Upto.running _⟩
  | succ fuel ih =>
    obtain ⟨hquery, helements, hfields⟩ := ih
    refine ⟨fun value s => ?_, fun first elems s => ?_, fun first object s => ?_⟩
    · -- both sides take the same branch, and the nested calls have one unit more
      cases value with
      | scalar value => exact Run.Upto.refl _
      | null =>
        exact (gqlSkipSelectionSet_mono s fuel).bind fun _ => Run.Upto.refl _
      | ref value => exact hquery value s
      | list elems =>
        exact (helements true elems s).bind fun _ =>
          (gqlSkipSelectionSet_mono s fuel).bind fun _ => Run.Upto.refl _
      | object object =>
        rw [gqlQuery_object members toJson fuel, gqlQuery_object members toJson (fuel + 1)]
        split
        · exact Run.Upto.refl _
        · exact (hfields true object s.skip).bind fun _ => Run.Upto.refl _
    · cases elems with
      | nil => exact Run.Upto.refl _
      | cons elem elems =>
        exact (hquery elem s).bind fun _ => (helements false elems s).bind fun _ =>
          Run.Upto.refl _
    · rw [gqlFields_succ members toJson fuel, gqlFields_succ members toJson (fuel + 1)]
      split
      · refine Run.Upto.bind (Run.Upto.refl _) fun r => ?_
        cases (members object).find? (·.name = r.2.1) with
        | none => exact Run.Upto.refl _
        | some member =>
          exact (gqlMember_mono member r.2.2 fuel).bind fun v => (hquery v.1 v.2).bind fun out =>
            (hfields false object out.2).bind fun _ => Run.Upto.refl _
      · exact Run.Upto.refl _

/-- **With more fuel the interpreter only gets further.** -/
theorem gqlQuery_mono (value : Value O) (s : GqlStream) :
    Mono fun fuel => gqlQuery members toJson fuel value s :=
  fun fuel => (gql_upto members toJson fuel).1 value s

theorem gqlElements_mono (first : Bool) (elems : List (Value O)) (s : GqlStream) :
    Mono fun fuel => gqlElements members toJson fuel first elems s :=
  fun fuel => (gql_upto members toJson fuel).2.1 first elems s

theorem gqlFields_mono (first : Bool) (object : O) (s : GqlStream) :
    Mono fun fuel => gqlFields members toJson fuel first object s :=
  fun fuel => (gql_upto members toJson fuel).2.2 first object s

/-- What the interpreter leaves, for the two functions that leave a stream. -/
theorem gql_keeps {P : GqlStream → Prop} (hP : ∀ s, P s → P s.skip) (fuel : Nat) :
    (∀ value s, P s → (gqlQuery members toJson fuel value s).All fun r => P r.2) ∧
    ∀ first object s, P s →
      (gqlFields members toJson fuel first object s).All fun r => P r.2 := by
  induction fuel with
  | zero => exact ⟨fun _ _ _ => Run.All.running, fun _ _ _ _ => Run.All.running⟩
  | succ fuel ih =>
    obtain ⟨hquery, hfields⟩ := ih
    refine ⟨fun value s h => ?_, fun first object s h => ?_⟩
    · cases value with
      | scalar value => exact Run.All.returns h
      | null => exact (gqlSkipSelectionSet_keeps hP fuel h).bind fun _ hs => Run.All.returns hs
      | ref value => exact hquery value s h
      | list elems =>
        refine Run.All.any_bind fun _ => ?_
        exact (gqlSkipSelectionSet_keeps hP fuel h).bind fun _ hs => Run.All.returns hs
      | object object =>
        rw [gqlQuery_object]
        split
        · exact Run.All.fails
        · refine (hfields true object s.skip (hP s h)).bind fun r hr => ?_
          split
          · exact Run.All.fails
          · exact Run.All.returns (hP _ hr)
    · rw [gqlFields_succ]
      split
      · refine (gqlFieldName_keeps hP (hP s h)).bind fun r hname => ?_
        cases (members object).find? (·.name = r.2.1) with
        | none => exact Run.All.fails
        | some member =>
          refine (gqlMember_keeps hP member fuel hname).bind fun v hv => ?_
          refine (hquery v.1 v.2 hv).bind fun out hout => ?_
          exact (hfields false object out.2 hout).bind fun outs houts => Run.All.returns houts
      · exact Run.All.returns h

/-- **What `skip` keeps, the interpreter keeps.** -/
theorem gqlQuery_keeps {P : GqlStream → Prop} (hP : ∀ s, P s → P s.skip) {fuel : Nat}
    {value : Value O} {s : GqlStream} (h : P s) :
    (gqlQuery members toJson fuel value s).All fun r => P r.2 :=
  (gql_keeps members toJson hP fuel).1 value s h

/-- **The interpreter leaves a stream that is not before the one it was given.** -/
theorem gqlQuery_behind {fuel : Nat} {value : Value O} {s : GqlStream} (h : s.Lexed) :
    (gqlQuery members toJson fuel value s).All fun r => Behind s r.2 :=
  gqlQuery_keeps members toJson (Behind.keeps s) (Behind.refl h)

end Query

end Microchain.Graphql
