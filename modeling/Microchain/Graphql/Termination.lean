import Microchain.Graphql.Progress

/-!
# Which queries return

A lexical error stops the token stream: `skip` returns at once and leaves no
punctuator. Every loop of the interpreter but one looks for a name, so it ends there.
`gql_skip_selection_set` looks for `eof` and braces, and keeps calling `skip`.

`errorBeforeClose` reads the tokens behind an opening brace up to the matching one and
says whether there is a lexical error among them. `Skips value s t` says that the
evaluation of `value` from `s` comes to a selection set to skip at `t`.

- `gqlSkipLoop_diverges_iff`: the skipping loop runs for ever exactly on such an error;
- `gqlQuery_terminates_iff`: an evaluation returns unless it comes to a selection set
  with one. Every other loop is paid for with input.
-/

namespace Microchain.Graphql

open Eosio Lib

/-! ## The skipping loop -/

/-- There is a lexical error before the brace that matches an opened one, with `depth`
more braces open around it. -/
def errorBeforeClose (depth : Nat) (s : GqlStream) : Bool :=
  if s.currentType = .eof then false
  else if s.currentType = .error then true
  else if isPunct s '{' then errorBeforeClose (depth + 1) s.skip
  else if isPunct s '}' then
    match depth with
    | 0 => false
    | depth + 1 => errorBeforeClose depth s.skip
  else errorBeforeClose depth s.skip
termination_by s.measure
decreasing_by all_goals exact GqlStream.measure_skip_lt ‹_› ‹_›

section Loop

variable {s : GqlStream} {depth : Nat}

theorem errorBeforeClose_eof (heof : s.currentType = .eof) : errorBeforeClose depth s = false := by
  rw [errorBeforeClose.eq_def, if_pos heof]

theorem errorBeforeClose_error (herror : s.currentType = .error) :
    errorBeforeClose depth s = true := by
  rw [errorBeforeClose.eq_def, if_neg (by rw [herror]; nofun), if_pos herror]

theorem errorBeforeClose_open (heof : s.currentType ≠ .eof) (herror : s.currentType ≠ .error)
    (hopen : isPunct s '{') :
    errorBeforeClose depth s = errorBeforeClose (depth + 1) s.skip := by
  rw [errorBeforeClose.eq_def depth s, if_neg heof, if_neg herror, if_pos hopen]

theorem errorBeforeClose_other (heof : s.currentType ≠ .eof) (herror : s.currentType ≠ .error)
    (hopen : ¬ isPunct s '{') (hclose : ¬ isPunct s '}') :
    errorBeforeClose depth s = errorBeforeClose depth s.skip := by
  rw [errorBeforeClose.eq_def depth s, if_neg heof, if_neg herror, if_neg hopen, if_neg hclose]

/-- A closing brace ends the innermost selection set. -/
theorem errorBeforeClose_close (heof : s.currentType ≠ .eof) (herror : s.currentType ≠ .error)
    (hopen : ¬ isPunct s '{') (hclose : isPunct s '}') :
    errorBeforeClose depth s = (match depth with
      | 0 => false
      | outer + 1 => errorBeforeClose outer s.skip) := by
  rw [errorBeforeClose.eq_def depth s, if_neg heof, if_neg herror, if_neg hopen, if_pos hclose]

/-- The loop in the middle of a selection set goes on at the next token. -/
theorem gqlSkipLoop_other (heof : s.currentType ≠ .eof) (hopen : ¬ isPunct s '{')
    (hclose : ¬ isPunct s '}') (fuel : Nat) :
    gqlSkipLoop (fuel + 1) s = gqlSkipLoop fuel s.skip := by
  rw [gqlSkipLoop_succ, if_neg heof, if_neg hopen, if_neg hclose]

theorem gqlSkipLoop_open (heof : s.currentType ≠ .eof) (hopen : isPunct s '{') (fuel : Nat) :
    gqlSkipLoop (fuel + 1) s = gqlSkipLoop fuel s.skip >>= fun s => gqlSkipLoop fuel s := by
  rw [gqlSkipLoop_succ, if_neg heof, if_pos hopen]

theorem gqlSkipLoop_close (heof : s.currentType ≠ .eof) (hopen : ¬ isPunct s '{')
    (hclose : isPunct s '}') (fuel : Nat) : gqlSkipLoop (fuel + 1) s = .returns s.skip := by
  rw [gqlSkipLoop_succ, if_neg heof, if_neg hopen, if_pos hclose]

/-- Without an error the loop fails at the end of the input, or it returns behind the
matching brace, from where there is no error before the next one. The induction is on
what is left to read: a nested call leaves less. -/
theorem gqlSkipLoop_of_no_error (h : s.Lexed) (hno : errorBeforeClose depth s = false) :
    Terminates (gqlSkipLoop · s) ∧ ∀ s', Returns (gqlSkipLoop · s) s' →
      s'.measure < s.measure ∧
        ∀ outer, depth = outer + 1 → errorBeforeClose outer s' = false := by
  induction hm : s.measure using Nat.strongRecOn generalizing s depth with
  | ind m ih =>
    subst hm
    by_cases heof : s.currentType = .eof
    · -- `error("expected }")`
      have hfails : ∀ n, gqlSkipLoop (n + 1) s = error (ascii "expected \x7d") := fun n => by
        rw [gqlSkipLoop_succ, if_pos heof]
      refine ⟨Terminates.succ hfails ⟨0, error_settled _⟩, fun s' hs' => ?_⟩
      obtain ⟨n, hn⟩ := Returns.of_succ rfl hfails hs'
      cases hn
    have herror : s.currentType ≠ .error := by
      intro herror
      rw [errorBeforeClose_error herror] at hno
      cases hno
    have hlt := GqlStream.measure_skip_lt heof herror
    by_cases hopen : isPunct s '{'
    · rw [errorBeforeClose_open heof herror hopen] at hno
      have hsucc := gqlSkipLoop_open heof hopen
      obtain ⟨hinner, hreturns⟩ := ih _ hlt h.skip hno rfl
      -- a nested set: skip it, then go on behind it at this depth
      have hrest : ∀ t, Returns (gqlSkipLoop · s.skip) t →
          Terminates (gqlSkipLoop · t) ∧ ∀ s', Returns (gqlSkipLoop · t) s' →
            s'.measure < t.measure ∧
              ∀ outer, depth = outer + 1 → errorBeforeClose outer s' = false := by
        intro t ht
        obtain ⟨htlt, hdepth⟩ := hreturns t ht
        obtain ⟨n, hn⟩ := ht
        exact ih _ (Nat.lt_trans htlt hlt) (gqlSkipLoop_behind n h.skip t hn).lexed
          (hdepth depth rfl) rfl
      constructor
      · exact Terminates.succ hsucc (Terminates.bind (gqlSkipLoop_mono s.skip)
          gqlSkipLoop_mono hinner fun t ht => (hrest t ht).1)
      · intro s' hs'
        obtain ⟨t, ht, hs'⟩ := Returns.of_bind (Returns.of_succ rfl hsucc hs')
        obtain ⟨hlt', hdepth⟩ := (hrest t ht).2 s' hs'
        exact ⟨by have := (hreturns t ht).1; omega, hdepth⟩
    by_cases hclose : isPunct s '}'
    · have hsucc := gqlSkipLoop_close heof hopen hclose
      refine ⟨Terminates.succ hsucc ⟨0, Run.Settled.returns _⟩, fun s' hs' => ?_⟩
      obtain ⟨n, hn⟩ := Returns.of_succ rfl hsucc hs'
      cases hn
      refine ⟨hlt, fun outer houter => ?_⟩
      rwa [houter, errorBeforeClose_close heof herror hopen hclose] at hno
    · rw [errorBeforeClose_other heof herror hopen hclose] at hno
      have hsucc := gqlSkipLoop_other heof hopen hclose
      obtain ⟨hterm, hreturns⟩ := ih _ hlt h.skip hno rfl
      refine ⟨Terminates.succ hsucc hterm, fun s' hs' => ?_⟩
      obtain ⟨hlt', hdepth⟩ := hreturns s' (Returns.of_succ rfl hsucc hs')
      exact ⟨by omega, hdepth⟩

/-- With an error the loop does not fail, and it returns only inside of an outer
selection set, in front of the error. -/
theorem gqlSkipLoop_of_error (h : s.Lexed) (hyes : errorBeforeClose depth s) (fuel : Nat) :
    gqlSkipLoop fuel s = .running ∨ ∃ s' outer, depth = outer + 1 ∧
      gqlSkipLoop fuel s = .returns s' ∧ errorBeforeClose outer s' := by
  induction fuel generalizing s depth with
  | zero => exact Or.inl rfl
  | succ fuel ih =>
    have heof : s.currentType ≠ .eof := by
      intro heof
      rw [errorBeforeClose_eof heof] at hyes
      cases hyes
    by_cases herror : s.currentType = .error
    · -- the loop stays where it is
      have hpunct : s.currentPuncuator = 0 := by
        by_contra hne
        rw [h hne] at herror
        cases herror
      have hopen : ¬ isPunct s '{' := by
        rw [isPunct, hpunct]
        decide
      have hclose : ¬ isPunct s '}' := by
        rw [isPunct, hpunct]
        decide
      rw [gqlSkipLoop_other heof hopen hclose, GqlStream.skip_of_error herror]
      exact ih h hyes
    by_cases hopen : isPunct s '{'
    · rw [errorBeforeClose_open heof herror hopen] at hyes
      rw [gqlSkipLoop_open heof hopen]
      rcases ih h.skip hyes with hrun | ⟨t, outer, houter, ht, herror'⟩
      · rw [hrun]
        exact Or.inl rfl
      · -- it came back from inside: the error is still ahead, at this depth
        obtain rfl : depth = outer := Nat.succ.inj houter
        rw [ht, Run.returns_bind]
        exact ih (gqlSkipLoop_behind fuel h.skip t ht).lexed herror'
    by_cases hclose : isPunct s '}'
    · rw [errorBeforeClose_close heof herror hopen hclose] at hyes
      cases depth with
      | zero => cases hyes
      | succ outer =>
        exact Or.inr ⟨s.skip, outer, rfl, gqlSkipLoop_close heof hopen hclose fuel, hyes⟩
    · rw [errorBeforeClose_other heof herror hopen hclose] at hyes
      rw [gqlSkipLoop_other heof hopen hclose]
      exact ih h.skip hyes

/-- **The skipping loop runs for ever exactly on a lexical error before the brace it is
looking for.** -/
theorem gqlSkipLoop_diverges_iff (h : s.Lexed) :
    Diverges (gqlSkipLoop · s) ↔ errorBeforeClose 0 s := by
  constructor
  · intro hdiv
    by_contra hno
    exact not_terminates_iff.mpr hdiv (gqlSkipLoop_of_no_error h (Bool.eq_false_iff.mpr hno)).1
  · intro hyes fuel
    rcases gqlSkipLoop_of_error h hyes fuel with hrun | ⟨s', outer, houter, -⟩
    · exact hrun
    · cases houter

end Loop

/-- The selection set at `s`, if there is one, has a lexical error before its end. -/
def BadSelectionSet (s : GqlStream) : Prop := isPunct s '{' ∧ errorBeforeClose 0 s.skip

theorem gqlSkipSelectionSet_diverges_iff {s : GqlStream} (h : s.Lexed) :
    Diverges (gqlSkipSelectionSet · s) ↔ BadSelectionSet s := by
  unfold gqlSkipSelectionSet BadSelectionSet
  by_cases hopen : isPunct s '{'
  · simp only [hopen, not_true_eq_false, if_false, true_and]
    exact gqlSkipLoop_diverges_iff h.skip
  · simp only [hopen, not_false_eq_true, if_true, false_and, iff_false]
    exact fun hdiv => nomatch hdiv 0

/-! ## Which selection sets are skipped -/

section Query

variable {O : Type} (members : O → List (Member O)) (toJson : Scalar → Bytes)

/-- The loop over the fields of `object` is at `s`, and comes to the value `r.1` with the
stream `r.2`. -/
def FieldValue (object : O) (s : GqlStream) (r : Value O × GqlStream) : Prop :=
  s.currentType = .name ∧ ∃ names member, gqlFieldName s = .returns names ∧
    (members object).find? (·.name = names.2.1) = some member ∧
    Returns (gqlMember member · names.2.2) r

/-- The loop over the fields of `object` comes from `s` to `s'`. -/
inductive FieldsReach (object : O) : GqlStream → GqlStream → Prop
  | here (s : GqlStream) : FieldsReach object s s
  | field {s s' : GqlStream} {r : Value O × GqlStream} {out : Bytes × GqlStream}
      (hvalue : FieldValue members object s r)
      (hreturns : Returns (gqlQuery members toJson · r.1 r.2) out)
      (hrest : FieldsReach object out.2 s') : FieldsReach object s s'

/-- The evaluation of a value from `s` comes to a selection set to skip at `t`: that of a
null, or that of a list after its elements. -/
inductive Skips : Value O → GqlStream → GqlStream → Prop
  | null (s : GqlStream) : Skips .null s s
  | ref {value : Value O} {s t : GqlStream} (hskips : Skips value s t) : Skips (.ref value) s t
  | list {elems : List (Value O)} {s : GqlStream}
      (hreturn : ∀ elem ∈ elems, ∃ r, Returns (gqlQuery members toJson · elem s) r) :
      Skips (.list elems) s s
  | element {before after : List (Value O)} {elem : Value O} {s t : GqlStream}
      (hreturn : ∀ elem ∈ before, ∃ r, Returns (gqlQuery members toJson · elem s) r)
      (hskips : Skips elem s t) : Skips (.list (before ++ elem :: after)) s t
  | object {object : O} {s s' t : GqlStream} {r : Value O × GqlStream} (hopen : isPunct s '{')
      (hreach : FieldsReach members toJson object s.skip s')
      (hvalue : FieldValue members object s' r) (hskips : Skips r.1 r.2 t) :
      Skips (.object object) s t

variable {members toJson}

theorem FieldValue.behind {object : O} {s : GqlStream} {r : Value O × GqlStream} (h : s.Lexed)
    (hvalue : FieldValue members object s r) : r.2.Lexed ∧ r.2.measure < s.measure := by
  obtain ⟨hname, names, member, hnames, -, n, hn⟩ := hvalue
  have hnames' := gqlFieldName_behind h names hnames
  have hr := gqlMember_behind member n hnames'.lexed r hn
  have hlt := measure_skip_lt_of_name hname
  exact ⟨hr.lexed, Nat.lt_of_le_of_lt hr.measure_le (Nat.lt_of_le_of_lt hnames'.measure_le hlt)⟩

theorem returns_behind {value : Value O} {s : GqlStream} {out : Bytes × GqlStream} (h : s.Lexed)
    (hreturns : Returns (gqlQuery members toJson · value s) out) : Behind s out.2 := by
  obtain ⟨n, hn⟩ := hreturns
  exact gqlQuery_behind members toJson h out hn

theorem FieldsReach.lexed {object : O} {s s' : GqlStream}
    (h : FieldsReach members toJson object s s') : s.Lexed → s'.Lexed := by
  induction h with
  | here s => exact id
  | field hvalue hreturns _ ih =>
    intro hlexed
    exact ih (returns_behind (hvalue.behind hlexed).1 hreturns).lexed

/-! ## A bad selection set is never left -/

/-- What the loop over the fields does behind the value of a field. -/
theorem gqlFields_of_value {object : O} {s : GqlStream} {r : Value O × GqlStream}
    (hvalue : FieldValue members object s r) (first : Bool) :
    ∃ (names : Bytes × Bytes × GqlStream) (member : Member O),
      Returns (gqlMember member · names.2.2) r ∧ ∀ fuel,
      gqlFields members toJson (fuel + 1) first object s =
        gqlMember member fuel names.2.2 >>= fun v =>
          gqlQuery members toJson fuel v.1 v.2 >>= fun out =>
            gqlFields members toJson fuel false object out.2 >>= fun outs =>
              .returns (separator first ++ toJson (.string names.1) ++ ascii ":" ++ out.1 ++
                outs.1, outs.2) := by
  obtain ⟨hname, names, member, hnames, hfind, hmember⟩ := hvalue
  refine ⟨names, member, hmember, fun fuel => ?_⟩
  rw [gqlFields_succ, if_pos hname, hnames, Run.returns_bind, hfind]

theorem gqlFields_diverges_of_value {object : O} {s : GqlStream} {r : Value O × GqlStream}
    (hvalue : FieldValue members object s r)
    (hdiv : Diverges (gqlQuery members toJson · r.1 r.2)) (first : Bool) :
    Diverges (gqlFields members toJson · first object s) := by
  obtain ⟨names, member, hmember, hsucc⟩ := gqlFields_of_value hvalue first
  exact Diverges.succ rfl hsucc (hmember.diverges_bind (gqlMember_mono member _) hdiv.bind)

theorem FieldsReach.diverges {object : O} {s s' : GqlStream}
    (h : FieldsReach members toJson object s s')
    (hdiv : ∀ first, Diverges (gqlFields members toJson · first object s')) (first : Bool) :
    Diverges (gqlFields members toJson · first object s) := by
  induction h generalizing first with
  | here s => exact hdiv first
  | @field s s' r out hvalue hreturns _ ih =>
    obtain ⟨names, member, hmember, hsucc⟩ := gqlFields_of_value hvalue first
    refine Diverges.succ rfl hsucc (hmember.diverges_bind (gqlMember_mono member _) ?_)
    exact hreturns.diverges_bind (gqlQuery_mono members toJson _ _) (ih hdiv false).bind

/-- The elements in front return, and one of them does not. -/
theorem gqlElements_diverges {before after : List (Value O)} {elem : Value O} {s : GqlStream}
    (hreturn : ∀ elem ∈ before, ∃ r, Returns (gqlQuery members toJson · elem s) r)
    (hdiv : Diverges (gqlQuery members toJson · elem s)) (first : Bool) :
    Diverges (gqlElements members toJson · first (before ++ elem :: after) s) := by
  induction before generalizing first with
  | nil => exact Diverges.succ rfl (gqlElements_cons members toJson · first elem after s) hdiv.bind
  | cons e before ih =>
    obtain ⟨r, hr⟩ := hreturn e List.mem_cons_self
    refine Diverges.succ rfl (gqlElements_cons members toJson · first e _ s) ?_
    refine hr.diverges_bind (gqlQuery_mono members toJson _ _) ?_
    exact (ih (fun d hd => hreturn d (List.mem_cons_of_mem _ hd)) false).bind

theorem gqlElements_returns {elems : List (Value O)} {s : GqlStream}
    (hreturn : ∀ elem ∈ elems, ∃ r, Returns (gqlQuery members toJson · elem s) r) (first : Bool) :
    ∃ out, Returns (gqlElements members toJson · first elems s) out := by
  induction elems generalizing first with
  | nil => exact ⟨[], 1, rfl⟩
  | cons elem elems ih =>
    obtain ⟨r, hr⟩ := hreturn elem List.mem_cons_self
    obtain ⟨outs, houts⟩ := ih (fun e he => hreturn e (List.mem_cons_of_mem _ he)) false
    refine ⟨separator first ++ r.1 ++ outs,
      Returns.succ (gqlElements_cons members toJson · first elem elems s) ?_⟩
    refine hr.bind (gqlQuery_mono members toJson _ _)
      (fun _ => (gqlElements_mono members toJson _ _ _).bind fun _ => Mono.const _) ?_
    exact houts.bind (gqlElements_mono members toJson _ _ _) (fun _ => Mono.const _) ⟨0, rfl⟩

/-- **An evaluation that comes to a bad selection set never returns.** -/
theorem Skips.diverges {value : Value O} {s t : GqlStream} (h : Skips members toJson value s t)
    (hlexed : s.Lexed) (hbad : BadSelectionSet t) :
    Diverges (gqlQuery members toJson · value s) := by
  induction h with
  | null s =>
    exact Diverges.succ rfl (gqlQuery_null members toJson · s)
      ((gqlSkipSelectionSet_diverges_iff hlexed).mpr hbad).bind
  | ref _ ih => exact Diverges.succ rfl (gqlQuery_ref members toJson · _ _) (ih hlexed hbad)
  | @list elems s hreturn =>
    obtain ⟨out, hout⟩ := gqlElements_returns hreturn true
    refine Diverges.succ rfl (gqlQuery_list members toJson · elems s) ?_
    exact hout.diverges_bind (gqlElements_mono members toJson _ _ _)
      ((gqlSkipSelectionSet_diverges_iff hlexed).mpr hbad).bind
  | element hreturn _ ih =>
    exact Diverges.succ rfl (gqlQuery_list members toJson · _ _)
      (gqlElements_diverges hreturn (ih hlexed hbad) true).bind
  | @object object s s' t r hopen hreach hvalue _ ih =>
    have hs' := hreach.lexed hlexed.skip
    refine Diverges.succ rfl (fun n => (gqlQuery_object members toJson n object s).trans
      (if_neg (not_not.mpr hopen))) ?_
    refine (hreach.diverges (fun first => ?_) true).bind
    exact gqlFields_diverges_of_value hvalue (ih (hvalue.behind hs').1 hbad) first

/-! ## Everything else returns -/

theorem returns_of_gqlElements {elems : List (Value O)} {s : GqlStream} {first : Bool} {out : Bytes}
    (h : Returns (gqlElements members toJson · first elems s) out) :
    ∀ elem ∈ elems, ∃ r, Returns (gqlQuery members toJson · elem s) r := by
  induction elems generalizing first out with
  | nil => nofun
  | cons e elems ih =>
    obtain ⟨r, hr, hrest⟩ := Returns.of_bind
      (Returns.of_succ rfl (gqlElements_cons members toJson · first e elems s) h)
    obtain ⟨outs, houts, -⟩ := Returns.of_bind hrest
    intro elem helem
    rcases List.mem_cons.mp helem with rfl | helem
    · exact ⟨r, hr⟩
    · exact ih houts elem helem

/-- The loop over a container, behind the elements `before`. -/
theorem gqlElements_terminates (before : List (Value O)) {elems : List (Value O)} {s : GqlStream}
    (hbefore : ∀ elem ∈ before, ∃ r, Returns (gqlQuery members toJson · elem s) r)
    (h : ∀ elem ∈ elems, (∀ t, Skips members toJson elem s t → ¬ BadSelectionSet t) →
      Terminates (gqlQuery members toJson · elem s))
    (hgood : ∀ t, Skips members toJson (.list (before ++ elems)) s t → ¬ BadSelectionSet t)
    (first : Bool) : Terminates (gqlElements members toJson · first elems s) := by
  induction elems generalizing before first with
  | nil => exact ⟨1, nofun⟩
  | cons elem elems ih =>
    have helem := h elem List.mem_cons_self fun t ht => hgood t (Skips.element hbefore ht)
    refine Terminates.succ (gqlElements_cons members toJson · first elem elems s) ?_
    refine Terminates.bind (gqlQuery_mono members toJson _ _)
      (fun _ => (gqlElements_mono members toJson _ _ _).bind fun _ => Mono.const _) helem
      fun r hr => ?_
    refine Terminates.bind (gqlElements_mono members toJson _ _ _) (fun _ => Mono.const _) ?_
      fun outs _ => ⟨0, Run.Settled.returns _⟩
    refine ih (before ++ [elem]) (fun e he => ?_)
      (fun e he => h e (List.mem_cons_of_mem _ he)) (by simpa using hgood) false
    rcases List.mem_append.mp he with he | he
    · exact hbefore e he
    · obtain rfl := List.mem_singleton.mp he
      exact ⟨r, hr⟩

/-- The loop over the fields, when the evaluation of a value returns from every stream
with less than `m` to read. -/
theorem gqlFields_terminates {m : Nat} {object : O} {s : GqlStream}
    (hvalue : ∀ value s, s.Lexed → s.measure < m →
      (∀ t, Skips members toJson value s t → ¬ BadSelectionSet t) →
      Terminates (gqlQuery members toJson · value s))
    (h : s.Lexed) (hm : s.measure < m)
    (hgood : ∀ s' r t, FieldsReach members toJson object s s' →
      FieldValue members object s' r → Skips members toJson r.1 r.2 t → ¬ BadSelectionSet t)
    (first : Bool) : Terminates (gqlFields members toJson · first object s) := by
  induction hk : s.measure using Nat.strongRecOn generalizing s first with
  | ind k ih =>
    subst hk
    refine Terminates.succ (gqlFields_succ members toJson · first object s) ?_
    split
    · next hname =>
      refine Terminates.settled_bind (gqlFieldName_settled s) fun names hnames => ?_
      have hnames' := gqlFieldName_behind h names hnames
      cases hfind : (members object).find? (·.name = names.2.1) with
      | none => exact ⟨0, error_settled _⟩
      | some member =>
        refine Terminates.bind (gqlMember_mono member _) (fun v =>
          (gqlQuery_mono members toJson _ _).bind fun _ =>
            (gqlFields_mono members toJson _ _ _).bind fun _ => Mono.const _)
          (gqlMember_terminates member hnames'.lexed) fun v hv => ?_
        -- the value is read from a stream behind the name
        have hfield : FieldValue members object s v := ⟨hname, names, member, hnames, hfind, hv⟩
        obtain ⟨hlexed, hlt⟩ := hfield.behind h
        refine Terminates.bind (gqlQuery_mono members toJson _ _) (fun _ =>
          (gqlFields_mono members toJson _ _ _).bind fun _ => Mono.const _)
          (hvalue v.1 v.2 hlexed (Nat.lt_trans hlt hm) fun t ht =>
            hgood s v t (.here s) hfield ht) fun out hout => ?_
        -- and the loop goes on behind the value
        have hbehind := returns_behind hlexed hout
        refine Terminates.bind (gqlFields_mono members toJson _ _ _) (fun _ => Mono.const _) ?_
          fun outs _ => ⟨0, Run.Settled.returns _⟩
        refine ih _ (Nat.lt_of_le_of_lt hbehind.measure_le hlt) hbehind.lexed
          (Nat.lt_of_le_of_lt hbehind.measure_le (Nat.lt_trans hlt hm)) (fun s' r t hreach => ?_)
          false rfl
        exact hgood s' r t (.field hfield hout hreach)
    · exact ⟨0, Run.Settled.returns _⟩

/-- **An evaluation that comes to no bad selection set returns.** The induction is on
what is left to read, and inside on the value: only an object reads. -/
theorem gqlQuery_terminates {value : Value O} {s : GqlStream} (h : s.Lexed)
    (hgood : ∀ t, Skips members toJson value s t → ¬ BadSelectionSet t) :
    Terminates (gqlQuery members toJson · value s) := by
  induction hm : s.measure using Nat.strongRecOn generalizing value s with
  | ind m ihm =>
    subst hm
    induction hsize : sizeOf value using Nat.strongRecOn generalizing value with
    | ind size ihsize =>
      subst hsize
      -- what is skipped comes to its end unless the set is bad
      have hskip : ¬ BadSelectionSet s → Terminates (gqlSkipSelectionSet · s) := fun hbad => by
        by_contra hdiv
        exact hbad ((gqlSkipSelectionSet_diverges_iff h).mp (not_terminates_iff.mp hdiv))
      cases value with
      | scalar value => exact ⟨1, Run.Settled.returns _⟩
      | null =>
        refine Terminates.succ (gqlQuery_null members toJson · s) ?_
        exact Terminates.bind (gqlSkipSelectionSet_mono s) (fun _ => Mono.const _)
          (hskip (hgood s (.null s))) fun _ _ => ⟨0, Run.Settled.returns _⟩
      | ref value =>
        refine Terminates.succ (gqlQuery_ref members toJson · value s) ?_
        exact ihsize (sizeOf value) (by simp) (fun t ht => hgood t (.ref ht)) rfl
      | list elems =>
        refine Terminates.succ (gqlQuery_list members toJson · elems s) ?_
        refine Terminates.bind (gqlElements_mono members toJson _ _ _)
          (fun _ => (gqlSkipSelectionSet_mono s).bind fun _ => Mono.const _)
          (gqlElements_terminates [] nofun (fun elem helem hno => ?_) hgood true)
          fun out hout => ?_
        · have := List.sizeOf_lt_of_mem helem
          exact ihsize (sizeOf elem) (by simp; omega) hno rfl
        · exact Terminates.bind (gqlSkipSelectionSet_mono s) (fun _ => Mono.const _)
            (hskip (hgood s (.list (returns_of_gqlElements hout))))
            fun _ _ => ⟨0, Run.Settled.returns _⟩
      | object object =>
        refine Terminates.succ (gqlQuery_object members toJson · object s) ?_
        by_cases hopen : isPunct s '{'
        · simp only [hopen, not_true_eq_false, if_false]
          have hlt := h.measure_skip_lt hopen (by decide)
          refine Terminates.bind (gqlFields_mono members toJson _ _ _) (fun _ => Mono.const _)
            (gqlFields_terminates (fun value s' hs' hlt' hno => ihm _ hlt' hs' hno rfl) h.skip hlt
              (fun s' r t hreach hvalue ht => hgood t (.object hopen hreach hvalue ht)) true)
            fun r _ => ⟨0, ?_⟩
          split
          · exact error_settled _
          · exact Run.Settled.returns _
        · simp only [hopen, not_false_eq_true, if_true]
          exact ⟨0, error_settled _⟩

/-! ## Whole queries -/

variable (members toJson)

/-- Without variables the query is evaluated. -/
theorem gqlQueryString_running_iff (fuel : Nat) (root : Value O) (query : Bytes) :
    gqlQueryString members toJson fuel root query [] = .running ↔
      gqlQueryRoot members toJson fuel root (GqlStream.new query) = .running := by
  rw [gqlQueryString, if_neg (not_not.mpr rfl)]
  cases gqlQueryRoot members toJson fuel root (GqlStream.new query) with
  | running => simp
  | fails failure => cases failure <;> simp
  | returns out => simp

/-- A query that comes to a bad selection set never returns. -/
theorem gqlQueryString_diverges {root : Value O} {query : Bytes} {s t : GqlStream}
    (hs : gqlOperation (GqlStream.new query) = .returns s)
    (hskips : Skips members toJson root s t) (hbad : BadSelectionSet t) :
    Diverges (gqlQueryString members toJson · root query []) := by
  have hlexed := (gqlOperation_behind (GqlStream.new_lexed query) s hs).lexed
  intro fuel
  have hrun : gqlQuery members toJson fuel root s = .running := hskips.diverges hlexed hbad fuel
  rw [gqlQueryString_running_iff, gqlQueryRoot, hs, Run.returns_bind, hrun, Run.running_bind]

/-- A query that comes to none returns. -/
theorem gqlQueryString_terminates {root : Value O} {query : Bytes}
    (hgood : ∀ s t, gqlOperation (GqlStream.new query) = .returns s →
      Skips members toJson root s t → ¬ BadSelectionSet t) :
    Terminates (gqlQueryString members toJson · root query []) := by
  have hroot : Terminates (gqlQueryRoot members toJson · root (GqlStream.new query)) := by
    refine Terminates.settled_bind (gqlOperation_settled _) fun s hs => ?_
    have hlexed := (gqlOperation_behind (GqlStream.new_lexed query) s hs).lexed
    refine Terminates.bind (gqlQuery_mono members toJson _ _) (fun _ => Mono.const _)
      (gqlQuery_terminates hlexed fun t => hgood s t hs) fun r _ => ⟨0, ?_⟩
    exact (gqlEndOfInput_settled _).bind fun _ => Run.Settled.returns _
  obtain ⟨fuel, hfuel⟩ := hroot
  exact ⟨fuel, (gqlQueryString_running_iff members toJson fuel root query).not.mpr hfuel⟩

/-- **When a query returns**: the variables are not empty, so that it is not looked at, or
its evaluation comes to no selection set to skip that has a lexical error before its
end. -/
theorem gqlQueryString_terminates_iff (root : Value O) (query vars : Bytes) :
    Terminates (gqlQueryString members toJson · root query vars) ↔
      (vars = [] → ∀ s t, gqlOperation (GqlStream.new query) = .returns s →
        Skips members toJson root s t → ¬ BadSelectionSet t) := by
  constructor
  · rintro hterm rfl s t hs hskips hbad
    exact not_terminates_iff.mpr (gqlQueryString_diverges members toJson hs hskips hbad) hterm
  · intro hgood
    by_cases hvars : vars = []
    · subst hvars
      exact gqlQueryString_terminates members toJson (hgood rfl)
    · refine ⟨0, ?_⟩
      show gqlQueryString members toJson 0 root query vars ≠ .running
      rw [gqlQueryString, if_pos hvars]
      nofun

end Query

end Microchain.Graphql
