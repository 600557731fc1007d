import Microchain.Graphql.Abort
import Microchain.Graphql.Document

/-!
# The interpreter evaluates the document

The interpreter reads a query and writes its answer in one traversal. On a text of a
valid document it does what the evaluation of the document says:

- `gqlSkipSelectionSet_reads`: a selection set that is skipped is skipped whole;
- `gqlMember_computes`: the arguments are bound by name, in whatever order they come;
- `gqlQueryString_eval`: **a query returns the evaluation of its document as JSON**, or
  aborts as the evaluation does.
-/

namespace Microchain.Graphql

open Eosio Lib

/-! ## Tokens -/

theorem word_iff {s : GqlStream} {value : Bytes} :
    s.token = .word value ↔
      s.currentType = .name ∧ s.currentValue = value ∧ s.currentPuncuator = 0 := by
  simp [GqlStream.token, Token.word]

theorem isPunct_of_token {s : GqlStream} {c : Char} (h : s.token = .punct c) : isPunct s c :=
  congrArg Token.puncuator h

theorem punct_ne_eof {s : GqlStream} {c : Char} (h : s.token = .punct c) :
    s.currentType ≠ .eof := by
  rw [show s.currentType = .punctuator from congrArg Token.type h]
  decide

/-- The stream is at no punctuator that a field goes on with. -/
def FieldEnds (s : GqlStream) : Prop := s.currentPuncuator = 0 ∨ isPunct s '\x7d'

theorem FieldEnds.not_isPunct {s : GqlStream} (h : FieldEnds s) {c : Char} (hzero : c.toUInt8 ≠ 0)
    (hclose : c.toUInt8 ≠ '\x7d'.toUInt8) : ¬ isPunct s c := by
  intro hc
  rcases h with hs | hs
  · exact hzero (hc.symm.trans hs)
  · exact hclose (hc.symm.trans hs)

theorem FieldEnds.of_punct {s : GqlStream} (h : s.token = .punct '\x7d') : FieldEnds s :=
  .inr (isPunct_of_token h)

theorem FieldEnds.of_word {s : GqlStream} {value : Bytes} (h : s.token = .word value) :
    FieldEnds s := .inl (word_iff.mp h).2.2

/-! ## Skipping -/

/-- A token inside a selection set that neither opens nor closes one. -/
def Token.Inner (token : Token) : Prop :=
  token.type ≠ .eof ∧ token.puncuator ≠ '\x7b'.toUInt8 ∧ token.puncuator ≠ '\x7d'.toUInt8

theorem plain_inner {type : TokenType} (h : type ≠ .eof) (value : Bytes) :
    Token.Inner ⟨type, value, 0⟩ :=
  ⟨h, (by decide : (0 : UInt8) ≠ '\x7b'.toUInt8), (by decide : (0 : UInt8) ≠ '\x7d'.toUInt8)⟩

theorem word_inner (value : Bytes) : (Token.word value).Inner := plain_inner (by decide) value

theorem punct_inner {c : Char} (hopen : c.toUInt8 ≠ '\x7b'.toUInt8)
    (hclose : c.toUInt8 ≠ '\x7d'.toUInt8) : (Token.punct c).Inner :=
  ⟨(by decide : TokenType.punctuator ≠ .eof), hopen, hclose⟩

theorem literal_inner (literal : Literal) : literal.token.Inner := by
  cases literal with
  | string value => exact plain_inner (by decide) value
  | integer text => exact plain_inner (by decide) text
  | floating text => exact plain_inner (by decide) text
  | name value => exact word_inner value

theorem argument_inner (arg : Argument) : ∀ token ∈ arg.tokens, token.Inner := by
  intro token htoken
  simp only [Argument.tokens, List.mem_cons, List.not_mem_nil, or_false] at htoken
  rcases htoken with rfl | rfl | rfl
  · exact word_inner _
  · exact punct_inner (by decide) (by decide)
  · exact literal_inner _

theorem argTokens_inner (args : List Argument) : ∀ token ∈ argTokens args, token.Inner := by
  intro token htoken
  unfold argTokens at htoken
  split at htoken
  · cases htoken
  · simp only [List.mem_cons, List.mem_append, List.mem_flatMap, List.not_mem_nil,
      or_false] at htoken
    rcases htoken with (rfl | ⟨arg, -, harg⟩) | rfl
    · exact punct_inner (by decide) (by decide)
    · exact argument_inner arg token harg
    · exact punct_inner (by decide) (by decide)

/-- The loop goes over such tokens one by one. -/
theorem gqlSkipLoop_inner {tokens : List Token} (h : ∀ token ∈ tokens, token.Inner)
    {s s' r : GqlStream} (hreads : Reads tokens s s') (hreturns : Returns (gqlSkipLoop · s') r) :
    Returns (gqlSkipLoop · s) r := by
  induction tokens generalizing s with
  | nil =>
    cases hreads
    exact hreturns
  | cons token tokens ih =>
    obtain ⟨rfl, hrest⟩ := hreads
    obtain ⟨heof, hopen, hclose⟩ := h _ List.mem_cons_self
    exact Returns.succ (gqlSkipLoop_other heof hopen hclose)
      (ih (fun t ht => h t (List.mem_cons_of_mem _ ht)) hrest)

/-- At an opening brace the loop goes over the set and on. -/
theorem gqlSkipLoop_set {s mid r : GqlStream} (hopen : s.token = .punct '\x7b')
    (hset : Returns (gqlSkipLoop · s.skip) mid) (hrest : Returns (gqlSkipLoop · mid) r) :
    Returns (gqlSkipLoop · s) r :=
  Returns.succ (gqlSkipLoop_open (punct_ne_eof hopen) (isPunct_of_token hopen))
    (Returns.bind (gqlSkipLoop_mono s.skip) gqlSkipLoop_mono hset hrest)

/-- At a closing brace it ends behind it. -/
theorem gqlSkipLoop_end {s : GqlStream} (hclose : s.token = .punct '\x7d') :
    Returns (gqlSkipLoop · s) s.skip := by
  have hpunct : isPunct s '\x7d' := isPunct_of_token hclose
  have hopen : ¬ isPunct s '\x7b' := fun h => absurd (hpunct.symm.trans h) (by decide)
  exact ⟨1, gqlSkipLoop_close (punct_ne_eof hclose) hopen hpunct 0⟩

mutual

/-- **The loop goes over a field and ends right behind it.** -/
theorem Field.skip {r : GqlStream} : ∀ (field : Field) {s s' : GqlStream},
    Reads field.tokens s s' → Returns (gqlSkipLoop · s') r → Returns (gqlSkipLoop · s) r
  | .mk aliasName name args selection, s, s' => by
    intro hreads hreturns
    rw [Field.tokens, reads_append] at hreads
    obtain ⟨mid, hhead, hselection⟩ := hreads
    refine gqlSkipLoop_inner ?_ hhead (selection_skip selection hselection hreturns)
    intro token htoken
    rcases List.mem_append.mp htoken with halias | hname
    · cases aliasName with
      | none => cases halias
      | some a =>
        rcases List.mem_pair.mp halias with rfl | rfl
        · exact word_inner a
        · exact punct_inner (by decide) (by decide)
    · rcases List.mem_cons.mp hname with rfl | hargs
      · exact word_inner name
      · exact argTokens_inner args token hargs

theorem selection_skip {r : GqlStream} : ∀ (selection : Option (List Field)) {s s' : GqlStream},
    Reads (selectionTokens selection) s s' → Returns (gqlSkipLoop · s') r →
      Returns (gqlSkipLoop · s) r
  | none, s, s' => by
    intro hreads hreturns
    cases hreads
    exact hreturns
  | some fields, s, s' => by
    intro hreads hreturns
    obtain ⟨hopen, hreads⟩ := hreads
    obtain ⟨mid, hfields, hclose, rfl⟩ := reads_append.mp hreads
    exact gqlSkipLoop_set hopen (fields_skip fields hfields (gqlSkipLoop_end hclose)) hreturns

theorem fields_skip {r : GqlStream} : ∀ (fields : List Field) {s s' : GqlStream},
    Reads (fieldsTokens fields) s s' → Returns (gqlSkipLoop · s') r → Returns (gqlSkipLoop · s) r
  | [], s, s' => by
    intro hreads hreturns
    cases hreads
    exact hreturns
  | field :: fields, s, s' => by
    intro hreads hreturns
    rw [fieldsTokens, reads_append] at hreads
    obtain ⟨mid, hfield, hrest⟩ := hreads
    exact field.skip hfield (fields_skip fields hrest hreturns)

end

/-- **A selection set is skipped whole**, and nothing when there is none. -/
theorem gqlSkipSelectionSet_reads {selection : Option (List Field)} {s s' : GqlStream}
    (hreads : Reads (selectionTokens selection) s s')
    (hends : selection = none → ¬ isPunct s' '\x7b') :
    Returns (gqlSkipSelectionSet · s) s' := by
  cases selection with
  | none =>
    cases hreads
    exact ⟨0, if_pos (hends rfl)⟩
  | some fields =>
    obtain ⟨hopen, hreads⟩ := hreads
    obtain ⟨mid, hfields, hclose, rfl⟩ := reads_append.mp hreads
    obtain ⟨fuel, hfuel⟩ := fields_skip fields hfields (gqlSkipLoop_end hclose)
    exact ⟨fuel, (if_neg (not_not.mpr (isPunct_of_token hopen))).trans hfuel⟩

/-! ## Arguments -/

theorem gqlParseArg_number {min max : Int} {text : Bytes} {s : GqlStream}
    (hvalue : s.currentValue = text)
    (htype : ¬ (s.currentType ≠ .integer ∧ s.currentType ≠ .floating ∧ s.currentType ≠ .string))
    {result : Except String ArgValue} (hresult : coerceNumber min max text = some result) :
    gqlParseArg (.integer min max) s = aborting result >>= fun value =>
      .returns (value, s.skip) := by
  unfold coerceNumber at hresult
  split at hresult
  · next value hparse =>
    cases hresult
    rw [gqlParseArg, if_neg htype, hvalue, hparse]
    rfl
  · cases hresult

/-- **A literal is parsed as its value for the type.** -/
theorem gqlParseArg_literal {type : ArgType} {literal : Literal} {s : GqlStream}
    (h : s.token = literal.token) {result : Except String ArgValue}
    (hresult : literal.coerce type = some result) :
    gqlParseArg type s = aborting result >>= fun value => .returns (value, s.skip) := by
  have htype : s.currentType = literal.token.type := congrArg Token.type h
  have hvalue : s.currentValue = literal.token.value := congrArg Token.value h
  -- a literal that the type does not take has no coercion, so nothing is left to show
  cases type with
  | string =>
    cases literal with
    | string value =>
      have htype : s.currentType = .string := htype
      cases hresult
      rw [gqlParseArg, if_pos htype, hvalue]
      rfl
    | integer text => cases hresult
    | floating text => cases hresult
    | name value => cases hresult
  | boolean =>
    cases literal with
    | name value =>
      have htype : s.currentType = .name := htype
      have hvalue : s.currentValue = value := hvalue
      rw [Literal.coerce] at hresult
      split_ifs at hresult with htrue hfalse
      · cases hresult
        rw [gqlParseArg, if_pos ⟨htype, hvalue.trans htrue⟩]
        rfl
      · cases hresult
        rw [gqlParseArg, if_neg fun h => htrue (hvalue ▸ h.2), if_pos ⟨htype, hvalue.trans hfalse⟩]
        rfl
    | string value => cases hresult
    | integer text => cases hresult
    | floating text => cases hresult
  | integer min max =>
    cases literal with
    | string value => exact gqlParseArg_number hvalue (fun h => h.2.2 htype) hresult
    | integer text => exact gqlParseArg_number hvalue (fun h => h.1 htype) hresult
    | floating text => exact gqlParseArg_number hvalue (fun h => h.2.1 htype) hresult
    | name value => cases hresult
  | fromString convert =>
    cases literal with
    | string value =>
      have htype : s.currentType = .string := htype
      cases hresult
      rw [gqlParseArg, if_pos htype, hvalue]
      rfl
    | integer text => cases hresult
    | floating text => cases hresult
    | name value => cases hresult

/-- What is bound when `given` has been parsed. -/
def bound (params : List Param) (given : List (Bytes × Option ArgValue)) : Args :=
  ⟨params.map (givenValue given), params.map fun param => given.any (·.1 = param.name)⟩

/-- Parameters of another name are passed over. -/
theorem gqlParseArgs_append {s : GqlStream} {before : List Param}
    (h : ∀ param ∈ before, param.name ≠ s.currentValue) (i : Nat) (rest : List Param)
    (args : Args) :
    gqlParseArgs i (before ++ rest) args s = gqlParseArgs (i + before.length) rest args s := by
  induction before generalizing i with
  | nil => rfl
  | cons param before ih =>
    have hne : s.currentValue ≠ param.name := (h param List.mem_cons_self).symm
    rw [List.cons_append, gqlParseArgs, if_pos hne,
      ih fun q hq => h q (List.mem_cons_of_mem _ hq), List.length_cons, Nat.add_right_comm,
      Nat.add_assoc]

theorem set_map_middle {α β : Type} {f g : α → β} {before after : List α} {a : α} {b : β}
    (h : ∀ x, x ∈ before ∨ x ∈ after → g x = f x) (ha : g a = b) :
    ((before ++ a :: after).map f).set before.length b = (before ++ a :: after).map g := by
  have hbefore : before.map g = before.map f := List.map_congr_left fun x hx => h x (.inl hx)
  have hafter : after.map g = after.map f := List.map_congr_left fun x hx => h x (.inr hx)
  rw [List.map_append, List.map_cons, List.map_append, List.map_cons, hbefore, hafter, ha,
    List.set_append_right _ _ (by simp)]
  simp

/-- Filling the place of a parameter is giving it its value. -/
theorem bound_fill {before after : List Param} {param : Param}
    (hnodup : ((before ++ param :: after).map Param.name).Nodup)
    {given : List (Bytes × Option ArgValue)} (hfresh : param.name ∉ given.map (·.1))
    (value : Option ArgValue) :
    (bound (before ++ param :: after) given).fill before.length value =
      bound (before ++ param :: after) (given ++ [(param.name, value)]) := by
  -- the other parameters have other names
  have hother : ∀ q, q ∈ before ∨ q ∈ after → param.name ≠ q.name := by
    rw [List.map_append, List.map_cons, List.nodup_append, List.nodup_cons] at hnodup
    obtain ⟨-, ⟨hafter, -⟩, hdisjoint⟩ := hnodup
    rintro q (hq | hq) heq
    · exact hdisjoint q.name (List.mem_map_of_mem hq) param.name List.mem_cons_self heq.symm
    · exact hafter (heq ▸ List.mem_map_of_mem hq)
  have hvalue : ∀ q, q ∈ before ∨ q ∈ after →
      givenValue (given ++ [(param.name, value)]) q = givenValue given q := by
    intro q hq
    rw [givenValue, givenValue, List.find?_append, List.find?_cons_of_neg
      (by simpa using hother q hq), List.find?_nil, Option.or_none]
  have hfilled : ∀ q, q ∈ before ∨ q ∈ after →
      (given ++ [(param.name, value)]).any (·.1 = q.name) = given.any (·.1 = q.name) := by
    intro q hq
    rw [List.any_append]
    simp [hother q hq]
  have hparam : givenValue (given ++ [(param.name, value)]) param = value := by
    have hnone : given.find? (·.1 = param.name) = none := by
      rw [List.find?_eq_none]
      intro g hg hname
      exact hfresh (of_decide_eq_true hname ▸ List.mem_map_of_mem hg)
    rw [givenValue, List.find?_append, hnone, Option.none_or]
    simp
  have hany : (given ++ [(param.name, value)]).any (·.1 = param.name) = true := by
    rw [List.any_append]
    simp
  rw [bound, bound, Args.fill, set_map_middle hvalue hparam, set_map_middle hfilled hany]

/-- The place of a parameter that was not given is not filled. -/
theorem bound_not_filled {before after : List Param} {param : Param}
    {given : List (Bytes × Option ArgValue)} (hfresh : param.name ∉ given.map (·.1)) :
    ¬ ((bound (before ++ param :: after) given).filled[before.length]?).any (· = true) := by
  have hnone : given.any (·.1 = param.name) = false := by
    rw [List.any_eq_false]
    intro g hg hname
    exact hfresh (of_decide_eq_true hname ▸ List.mem_map_of_mem hg)
  simp [bound, hnone]

/-- The name null is no other literal. -/
theorem eq_null_of_token {literal : Literal} {s : GqlStream} (h : s.token = literal.token)
    (htype : s.currentType = .name) (hvalue : s.currentValue = ascii "null") :
    literal = .name (ascii "null") := by
  have htoken : literal.token.type = .name := (congrArg Token.type h).symm.trans htype
  cases literal with
  | string value => cases htoken
  | integer text => cases htoken
  | floating text => cases htoken
  | name value => exact congrArg Literal.name ((congrArg Token.value h).symm.trans hvalue)

/-- **An argument is bound to the parameter of its name.** -/
theorem gqlParseArgs_reads {params : List Param} (hnodup : (params.map Param.name).Nodup)
    {given : List (Bytes × Option ArgValue)} {arg : Argument}
    (hfresh : arg.name ∉ given.map (·.1))
    (hknown : ∃ param ∈ params, param.name = arg.name ∧
      (arg.IsAbsent param ∨ (arg.value.coerce param.type).isSome))
    {s s' : GqlStream} (hreads : Reads arg.tokens s s') :
    gqlParseArgs 0 params (bound params given) s = aborting (arg.eval params) >>= fun value =>
      .returns (true, bound params (given ++ [(arg.name, value)]), s') := by
  obtain ⟨param, hmem, hname, hfits⟩ := hknown
  obtain ⟨before, after, rfl⟩ := List.append_of_mem hmem
  obtain ⟨hword, hcolon, hliteral, rfl⟩ := hreads
  have hvalue : s.currentValue = arg.name := (word_iff.mp hword).2.1
  have hbefore : ∀ q ∈ before, q.name ≠ arg.name := by
    rw [List.map_append, List.map_cons, List.nodup_append] at hnodup
    intro q hq heq
    exact hnodup.2.2 q.name (List.mem_map_of_mem hq) param.name List.mem_cons_self
      (heq.trans hname.symm)
  have hfind : (before ++ param :: after).find? (·.name = arg.name) = some param := by
    rw [List.find?_append, List.find?_eq_none.mpr (by simpa using hbefore), Option.none_or]
    exact List.find?_cons_of_pos (decide_eq_true hname)
  have hne : ¬ s.currentValue ≠ param.name := not_not.mpr (hvalue.trans hname.symm)
  rw [← hname] at hfresh
  rw [gqlParseArgs_append (by rwa [hvalue]), Nat.zero_add, gqlParseArgs, if_neg hne]
  dsimp only
  rw [if_neg (not_not.mpr (isPunct_of_token hcolon)), if_neg (bound_not_filled hfresh),
    Argument.eval, hfind]
  dsimp only
  -- `null` for an optional parameter counts as not given
  by_cases habsent : arg.IsAbsent param
  · have hnull : s.skip.skip.token = .word (ascii "null") := by rw [hliteral, habsent.2]; rfl
    rw [if_pos ⟨habsent.1, (word_iff.mp hnull).1, (word_iff.mp hnull).2.1⟩, if_pos habsent,
      bound_fill hnodup hfresh, hname]
    rfl
  · obtain ⟨result, hresult⟩ := Option.isSome_iff_exists.mp (hfits.resolve_left habsent)
    have hnull : ¬ (param.isOptional = true ∧ s.skip.skip.currentType = .name ∧
        s.skip.skip.currentValue = ascii "null") := by
      rintro ⟨hoptional, htype, hvalue⟩
      exact habsent ⟨hoptional, eq_null_of_token hliteral htype hvalue⟩
    rw [if_neg hnull, if_neg habsent, hresult, gqlParseArg_literal hliteral hresult]
    cases result with
    | error message => rfl
    | ok value =>
      show Run.returns (true, (bound (before ++ param :: after) given).fill before.length
        (some value), s.skip.skip.skip) = _
      rw [bound_fill hnodup hfresh, hname]
      rfl

/-- What the loop over arguments binds, behind those that were given. -/
theorem gqlArgsLoop_computes {params : List Param} (hnodup : (params.map Param.name).Nodup)
    {args : List Argument} {given : List (Bytes × Option ArgValue)}
    (hfresh : (given.map (·.1) ++ args.map Argument.name).Nodup)
    (hknown : ∀ arg ∈ args, ∃ param ∈ params, param.name = arg.name ∧
      (arg.IsAbsent param ∨ (arg.value.coerce param.type).isSome))
    {s s' : GqlStream} (hreads : Reads (args.flatMap Argument.tokens) s s')
    (hends : s'.currentType ≠ .name) :
    Computes GqlFailure.abort (gqlArgsLoop params · (bound params given) s)
      (args.mapM (Argument.evalNamed params)) fun rest => (bound params (given ++ rest), s') := by
  induction args generalizing given s with
  | nil =>
    cases hreads
    refine ⟨1, ?_⟩
    show gqlArgsLoop params 1 (bound params given) s' = .returns (bound params (given ++ []), s')
    rw [gqlArgsLoop_succ, if_neg hends, List.append_nil]
  | cons arg args ih =>
    rw [List.flatMap_cons, reads_append] at hreads
    obtain ⟨mid, harg, hrest⟩ := hreads
    have hname : s.currentType = .name := (word_iff.mp harg.1).1
    -- an argument of another name was given before, so this one is not a duplicate
    have hnew : arg.name ∉ given.map (·.1) := by
      rw [List.map_cons, List.nodup_append] at hfresh
      exact fun hmem => hfresh.2.2 _ hmem _ List.mem_cons_self rfl
    have hstep : ∀ n, gqlArgsLoop params (n + 1) (bound params given) s =
        (aborting (arg.eval params) >>= fun value =>
          .returns (true, bound params (given ++ [(arg.name, value)]), mid)) >>= fun r =>
          if r.1 then gqlArgsLoop params n r.2.1 r.2.2
          else error (ascii "unknown arg '" ++ r.2.2.currentValue ++ ascii "'") := by
      intro n
      rw [gqlArgsLoop_succ, if_pos hname,
        gqlParseArgs_reads hnodup hnew (hknown arg List.mem_cons_self) harg]
    rw [List.mapM_cons, Argument.evalNamed]
    cases hvalue : arg.eval params with
    | error message =>
      refine Computes.error ⟨1, (hstep 0).trans ?_⟩
      rw [hvalue]
      rfl
    | ok value =>
      have hfresh' : ((given ++ [(arg.name, value)]).map (·.1) ++ args.map Argument.name).Nodup := by
        simpa using hfresh
      have hloop := ih hfresh' (fun a ha => hknown a (List.mem_cons_of_mem _ ha)) hrest
      simp only [List.append_assoc, List.singleton_append] at hloop
      refine Computes.succ (fun n => ?_) hloop.map
      rw [hstep, hvalue]
      rfl

theorem map_fst_of_evalNamed {params : List Param} {args : List Argument}
    {given : List (Bytes × Option ArgValue)}
    (h : args.mapM (Argument.evalNamed params) = .ok given) :
    given.map (·.1) = args.map Argument.name := by
  induction args generalizing given with
  | nil =>
    cases h
    rfl
  | cons arg args ih =>
    rw [List.mapM_cons, Argument.evalNamed] at h
    obtain ⟨named, hnamed, h⟩ := ok_of_bind h
    obtain ⟨value, -, rfl⟩ := ok_of_map hnamed
    obtain ⟨rest, hrest, h⟩ := ok_of_bind h
    cases h
    rw [List.map_cons, List.map_cons, ih hrest]

/-- No argument is missing when the required ones are given. -/
theorem missingArg_bound {params : List Param} {given : List (Bytes × Option ArgValue)}
    (h : ∀ param ∈ params, param.isOptional = false → param.name ∈ given.map (·.1)) :
    missingArg params (bound params given) = none := by
  rw [missingArg, bound, Option.map_eq_none_iff, ← List.map_prod_left_eq_zip, List.find?_eq_none]
  intro p hp
  obtain ⟨param, hparam, rfl⟩ := List.mem_map.mp hp
  cases hoptional : param.isOptional with
  | true => simp
  | false =>
    obtain ⟨g, hg, hname⟩ := List.mem_map.mp (h param hparam hoptional)
    have hany : given.any (·.1 = param.name) = true :=
      List.any_eq_true.mpr ⟨g, hg, decide_eq_true hname⟩
    simp [hany]

/-- An argument list binds its arguments. -/
theorem gqlArgList_computes {params : List Param} (hnodup : (params.map Param.name).Nodup)
    {args : List Argument} (hvalid : ValidArgs params args) {s s' : GqlStream}
    (hreads : Reads (argTokens args) s s') (hends : args = [] → ¬ isPunct s' '(') :
    Computes GqlFailure.abort (gqlArgList params · s) (args.mapM (Argument.evalNamed params))
      fun given => (bound params given, s') := by
  unfold argTokens at hreads
  split at hreads
  · next hnil =>
    subst hnil
    cases hreads
    exact ⟨0, if_neg (hends rfl)⟩
  · next hne =>
    obtain ⟨hopen, hreads⟩ := hreads
    obtain ⟨mid, hargs, hclose, rfl⟩ := reads_append.mp hreads
    have hmid : mid.currentType ≠ .name := by
      rw [show mid.currentType = .punctuator from congrArg Token.type hclose]
      decide
    have hfirst : ¬ isPunct s.skip ')' := by
      cases args with
      | nil => exact absurd rfl hne
      | cons arg args =>
        have hpunct := (word_iff.mp hargs.1).2.2
        intro h
        exact absurd (hpunct.symm.trans h) (by decide)
    have hloop : Computes GqlFailure.abort (gqlArgsLoop params · (bound params []) s.skip)
        (args.mapM (Argument.evalNamed params)) fun given => (bound params given, mid) :=
      gqlArgsLoop_computes hnodup (by simpa using hvalid.nodup) hvalid.known hargs hmid
    have hstep : ∀ n, gqlArgList params n s =
        gqlArgsLoop params n (bound params []) s.skip >>= fun r =>
          if ¬ isPunct r.2 ')' then error (ascii "expected )") else .returns (r.1, r.2.skip) := by
      intro n
      rw [gqlArgList, if_pos (isPunct_of_token hopen)]
      exact if_neg hfirst
    simp only [hstep]
    refine hloop.bind_returns (gqlArgsLoop_mono params _ _) (fun _ => Mono.const _) fun given _ => ?_
    exact ⟨0, if_neg (not_not.mpr (isPunct_of_token hclose))⟩

section Query

variable {O T : Type} {typeOf : O → T}

/-- **A method is called with its arguments by name.** -/
theorem gqlMember_computes {member : Member O} {decl : FieldDef T}
    (hmember : member.HasType typeOf decl) {args : List Argument}
    (hvalid : ValidArgs decl.params args) {s s' : GqlStream} (hreads : Reads (argTokens args) s s')
    (hends : args = [] → ¬ isPunct s' '(') :
    Computes GqlFailure.abort (gqlMember member · s) (member.eval args) fun value => (value, s') := by
  cases member with
  | field name value =>
    obtain ⟨-, hparams, -⟩ := hmember
    have hnil : args = [] := by
      cases args with
      | nil => rfl
      | cons arg args =>
        obtain ⟨param, hparam, -⟩ := hvalid.known arg List.mem_cons_self
        rw [hparams] at hparam
        cases hparam
    subst hnil
    cases hreads
    exact ⟨0, rfl⟩
  | method name params call =>
    obtain ⟨-, hparams, -⟩ := hmember
    subst hparams
    have hlist := gqlArgList_computes decl.nodup hvalid hreads hends
    have heval : Member.eval (.method name decl.params call) args =
        args.mapM (Argument.evalNamed decl.params) >>= fun given =>
          call (decl.params.map (givenValue given)) := by
      rw [Member.eval, evalArgs]
      cases args.mapM (Argument.evalNamed decl.params) <;> rfl
    rw [heval]
    refine hlist.bind (gqlArgList_mono _ _) (fun _ => Mono.const _) fun given hgiven => ?_
    -- every required parameter is given, so none is missing
    have hmissing : missingArg decl.params (bound decl.params given) = none := by
      refine missingArg_bound ?_
      rw [map_fst_of_evalNamed hgiven]
      exact hvalid.required
    dsimp only
    rw [hmissing]
    show Computes GqlFailure.abort (fun _ => aborting (call (decl.params.map (givenValue given))) >>=
      fun value => .returns (value, s')) _ _
    cases call (decl.params.map (givenValue given)) with
    | ok value => exact Computes.ok ⟨0, rfl⟩
    | error message => exact Computes.error ⟨0, rfl⟩

theorem Member.eval_hasType {member : Member O} {decl : FieldDef T}
    (hmember : member.HasType typeOf decl) {args : List Argument} {value : Value O}
    (h : member.eval args = .ok value) : Graphql.HasType typeOf value decl.type := by
  cases member with
  | field name value' =>
    cases h
    exact hmember.2.2
  | method name params call =>
    rw [Member.eval] at h
    obtain ⟨values, -, hcall⟩ := ok_of_bind h
    exact hmember.2.2 values value hcall

/-! ## Values -/

variable {members : O → List (Member O)} {toJson : Scalar → Bytes}

theorem gqlElements_computes {select : O → Except String Answer} {elems : List (Value O)}
    {s s' : GqlStream}
    (h : ∀ elem ∈ elems, Computes GqlFailure.abort (gqlQuery members toJson · elem s)
      (answerValue select elem) fun answer => (answer.render toJson, s')) (first : Bool) :
    Computes GqlFailure.abort (gqlElements members toJson · first elems s)
      (answerElems select elems) (Answer.renderElems toJson first) := by
  induction elems generalizing first with
  | nil => exact ⟨1, rfl⟩
  | cons elem elems ih =>
    refine Computes.succ (gqlElements_cons members toJson · first elem elems s) ?_
    rw [answerElems]
    refine (h elem List.mem_cons_self).bind (gqlQuery_mono members toJson elem s)
      (fun _ => (gqlElements_mono members toJson _ _ _).bind fun _ => Mono.const _) fun answer _ => ?_
    refine (ih (fun e he => h e (List.mem_cons_of_mem _ he)) false).bind
      (gqlElements_mono members toJson _ _ _) (fun _ => Mono.const _) fun answers _ => ?_
    exact Computes.ok ⟨0, rfl⟩

/-- **A value is answered by what is selected from its objects**: nothing of a null, each
element of a list. Each time the stream ends behind the selection set. -/
theorem gqlQuery_computes {value : Value O} {type : GqlType T} (hvalue : HasType typeOf value type)
    {selection : Option (List Field)} {s s' : GqlStream}
    (hreads : Reads (selectionTokens selection) s s')
    (hends : selection = none → ¬ isPunct s' '\x7b') {select : O → Except String Answer}
    (hleaf : type.leaf = none → selection = none)
    (hselect : ∀ object, type.leaf = some (typeOf object) →
      Computes GqlFailure.abort (gqlQuery members toJson · (.object object) s) (select object)
        fun answer => (answer.render toJson, s')) :
    Computes GqlFailure.abort (gqlQuery members toJson · value s) (answerValue select value)
      fun answer => (answer.render toJson, s') := by
  have hskip := gqlSkipSelectionSet_reads hreads hends
  induction hvalue with
  | scalar value =>
    have hnone := hleaf rfl
    subst hnone
    cases hreads
    exact ⟨1, rfl⟩
  | object object => exact hselect object rfl
  | null =>
    refine Computes.ok (Returns.succ (gqlQuery_null members toJson · s) ?_)
    exact Returns.bind (gqlSkipSelectionSet_mono s) (fun _ => Mono.const _) hskip ⟨0, rfl⟩
  | full _ ih =>
    exact Computes.succ (gqlQuery_ref members toJson · _ s) (ih hleaf hselect)
  | reference _ ih =>
    exact Computes.succ (gqlQuery_ref members toJson · _ s) (ih hleaf hselect)
  | @list elems type _ ih =>
    refine Computes.succ (gqlQuery_list members toJson · elems s) ?_
    rw [answerValue]
    refine (gqlElements_computes (fun elem helem => ih elem helem hleaf hselect) true).bind
      (gqlElements_mono members toJson _ _ _)
      (fun _ => (gqlSkipSelectionSet_mono s).bind fun _ => Mono.const _) fun answers _ => ?_
    exact Computes.ok (Returns.bind (gqlSkipSelectionSet_mono s) (fun _ => Mono.const _) hskip
      ⟨0, rfl⟩)

/-! ## Fields -/

/-- A field begins with a name. -/
theorem Field.first_word {field : Field} {s s' : GqlStream} (h : Reads field.tokens s s') :
    ∃ value, s.token = .word value := by
  cases field with
  | mk aliasName name args selection =>
    rw [Field.tokens, reads_append] at h
    obtain ⟨mid, hhead, -⟩ := h
    cases aliasName with
    | none => exact ⟨name, hhead.1⟩
    | some a => exact ⟨a, hhead.1⟩

/-- Behind the arguments of a field there is no argument list. -/
theorem selection_not_isPunct {selection : Option (List Field)} {s s' : GqlStream}
    (h : Reads (selectionTokens selection) s s') (hends : FieldEnds s') {c : Char}
    (hzero : c.toUInt8 ≠ 0) (hopen : c.toUInt8 ≠ '\x7b'.toUInt8)
    (hclose : c.toUInt8 ≠ '\x7d'.toUInt8) : ¬ isPunct s c := by
  cases selection with
  | none =>
    cases h
    exact hends.not_isPunct hzero hclose
  | some fields =>
    intro hc
    exact hopen (hc.symm.trans (isPunct_of_token h.1))

/-- The name of a field, and what is called. -/
theorem gqlFieldName_reads {aliasName : Option Bytes} {name : Bytes} {args : List Argument}
    {selection : Option (List Field)} {s s' : GqlStream}
    (h : Reads (Field.mk aliasName name args selection).tokens s s') (hends : FieldEnds s') :
    ∃ s₁ s₂, gqlFieldName s =
        .returns ((Field.mk aliasName name args selection).responseName, name, s₁) ∧
      Reads (argTokens args) s₁ s₂ ∧ Reads (selectionTokens selection) s₂ s' := by
  rw [Field.tokens, reads_append] at h
  obtain ⟨s₂, hhead, hselection⟩ := h
  cases aliasName with
  | none =>
    obtain ⟨hname, hargs⟩ := hhead
    obtain ⟨-, hvalue, -⟩ := word_iff.mp hname
    have hcolon : ¬ isPunct s.skip ':' := by
      unfold argTokens at hargs
      split at hargs
      · cases hargs
        exact selection_not_isPunct hselection hends (by decide) (by decide) (by decide)
      · intro hc
        exact absurd (hc.symm.trans (isPunct_of_token hargs.1)) (by decide)
    refine ⟨s.skip, s₂, ?_, hargs, hselection⟩
    rw [gqlFieldName]
    dsimp only
    rw [if_neg hcolon, hvalue]
    rfl
  | some a =>
    obtain ⟨halias, hcolon, hname, hargs⟩ := hhead
    obtain ⟨-, hvalue, -⟩ := word_iff.mp halias
    obtain ⟨htype, hvalue', -⟩ := word_iff.mp hname
    refine ⟨s.skip.skip.skip, s₂, ?_, hargs, hselection⟩
    rw [gqlFieldName]
    dsimp only
    rw [if_pos (isPunct_of_token hcolon), if_neg (not_not.mpr htype), hvalue, hvalue']
    rfl

variable {schema : GqlSchema T}

mutual

/-- A field: the member is called, and its value answered. -/
theorem Field.computes (hconforms : Conforms typeOf schema members) :
    ∀ (field : Field) {object : O} {s s' : GqlStream}, field.Valid schema (typeOf object) →
      Reads field.tokens s s' → FieldEnds s' →
        ∃ name s₁ member, gqlFieldName s = .returns (field.responseName, name, s₁) ∧
          (members object).find? (·.name = name) = some member ∧
          Computes GqlFailure.abort
            (fun n => gqlMember member n s₁ >>= fun v => gqlQuery members toJson n v.1 v.2)
            (field.eval members object) fun answer => (answer.render toJson, s')
  | .mk aliasName name args selection, object, s, s' => by
    rintro ⟨decl, hdecl, hargs, hselection⟩ hreads hends
    obtain ⟨s₁, s₂, hname, hreadsArgs, hreadsSelection⟩ := gqlFieldName_reads hreads hends
    rcases hconforms.find object name with ⟨-, hnone⟩ | ⟨member, decl', hfind, hdecl', hmember⟩
    · rw [hdecl] at hnone
      cases hnone
    rw [hdecl] at hdecl'
    cases hdecl'
    refine ⟨name, s₁, member, hname, hfind, ?_⟩
    have heval : Field.eval members (.mk aliasName name args selection) object =
        member.eval args >>= fun value =>
          answerValue (evalSelection members selection) value := by
      rw [Field.eval, hfind]
    rw [heval]
    have hparen := selection_not_isPunct hreadsSelection hends (c := '(') (by decide) (by decide)
      (by decide)
    refine (gqlMember_computes hmember hargs hreadsArgs fun _ => hparen).bind
      (gqlMember_mono member s₁) (fun v => gqlQuery_mono members toJson v.1 v.2) fun value hvalue => ?_
    refine gqlQuery_computes (Member.eval_hasType hmember hvalue) hreadsSelection ?_ ?_ ?_
    · exact fun _ => hends.not_isPunct (by decide) (by decide)
    · intro hleaf
      rw [hleaf] at hselection
      cases selection with
      | none => rfl
      | some fields => exact hselection.elim
    · intro object' hleaf
      rw [hleaf] at hselection
      exact selection_computes hconforms selection hselection hreadsSelection

theorem selection_computes (hconforms : Conforms typeOf schema members) :
    ∀ (selection : Option (List Field)) {object : O} {s s' : GqlStream},
      SelectionValid schema (some (typeOf object)) selection →
      Reads (selectionTokens selection) s s' →
        Computes GqlFailure.abort (gqlQuery members toJson · (.object object) s)
          (evalSelection members selection object) fun answer => (answer.render toJson, s')
  | none, object, s, s' => fun hvalid _ => hvalid.elim
  | some fields, object, s, s' => by
    rintro hvalid ⟨hopen, hreads⟩
    obtain ⟨mid, hfields, hclose, rfl⟩ := reads_append.mp hreads
    have hstep : ∀ n, gqlQuery members toJson (n + 1) (.object object) s =
        gqlFields members toJson n true object s.skip >>= fun r =>
          if ¬ isPunct r.2 '\x7d' then error (ascii "expected \x7d")
          else .returns (ascii "\x7b" ++ r.1 ++ ascii "\x7d", r.2.skip) := by
      intro n
      rw [gqlQuery_object, if_neg (not_not.mpr (isPunct_of_token hopen))]
    refine Computes.succ hstep ?_
    rw [evalSelection]
    refine (fields_computes hconforms fields true hvalid hfields hclose).bind
      (gqlFields_mono members toJson _ _ _) (fun _ => Mono.const _) fun answers _ => ?_
    exact Computes.ok ⟨0, if_neg (not_not.mpr (isPunct_of_token hclose))⟩

/-- The loop over the fields, up to the closing brace. -/
theorem fields_computes (hconforms : Conforms typeOf schema members) :
    ∀ (fields : List Field) (first : Bool) {object : O} {s s' : GqlStream},
      FieldsValid schema (typeOf object) fields → Reads (fieldsTokens fields) s s' →
      s'.token = .punct '\x7d' →
        Computes GqlFailure.abort (gqlFields members toJson · first object s)
          (evalFields members fields object)
          fun answers => (Answer.renderFields toJson first answers, s')
  | [], first, object, s, s' => by
    rintro - hreads hclose
    cases hreads
    have htype : s.currentType ≠ .name := by
      rw [show s.currentType = .punctuator from congrArg Token.type hclose]
      decide
    refine Computes.ok ⟨1, ?_⟩
    show gqlFields members toJson 1 first object s = .returns ([], s)
    rw [gqlFields_succ, if_neg htype]
  | field :: fields, first, object, s, s' => by
    rintro ⟨hvalid, hvalidRest⟩ hreads hclose
    rw [fieldsTokens, reads_append] at hreads
    obtain ⟨mid, hfield, hrest⟩ := hreads
    obtain ⟨value, hword⟩ := field.first_word hfield
    -- behind the field there is the next field or the closing brace
    have hends : FieldEnds mid := by
      cases fields with
      | nil =>
        cases hrest
        exact FieldEnds.of_punct hclose
      | cons next fields =>
        rw [fieldsTokens, reads_append] at hrest
        obtain ⟨_, hnext, -⟩ := hrest
        obtain ⟨value', hword'⟩ := next.first_word hnext
        exact FieldEnds.of_word hword'
    obtain ⟨name, s₁, member, hname, hfind, hcomputes⟩ :=
      field.computes hconforms hvalid hfield hends
    have hstep : ∀ n, gqlFields members toJson (n + 1) first object s =
        (gqlMember member n s₁ >>= fun v => gqlQuery members toJson n v.1 v.2) >>= fun out =>
          gqlFields members toJson n false object out.2 >>= fun outs =>
            .returns (separator first ++ toJson (.string field.responseName) ++ ascii ":" ++ out.1 ++
              outs.1, outs.2) := by
      intro n
      rw [gqlFields_succ, if_pos (word_iff.mp hword).1, hname, Run.returns_bind, hfind,
        Run.bind_assoc]
    refine Computes.succ hstep ?_
    rw [evalFields]
    refine hcomputes.bind
      ((gqlMember_mono member s₁).bind fun v => gqlQuery_mono members toJson v.1 v.2)
      (fun _ => (gqlFields_mono members toJson _ _ _).bind fun _ => Mono.const _) fun answer _ => ?_
    refine (fields_computes hconforms fields false hvalidRest hrest hclose).bind
      (gqlFields_mono members toJson _ _ _) (fun _ => Mono.const _) fun answers _ => ?_
    exact Computes.ok ⟨0, rfl⟩

end

/-! ## Documents -/

/-- The operation of a document is passed over. -/
theorem gqlOperation_reads {doc : Document} {s s' : GqlStream} (h : Reads doc.tokens s s') :
    ∃ mid, gqlOperation s = .returns mid ∧ Reads (selectionTokens (some doc.fields)) mid s' := by
  rw [Document.tokens, reads_append] at h
  obtain ⟨mid, hoperation, hselection⟩ := h
  have hopen : mid.token = .punct '\x7b' := hselection.1
  have hmid : mid.currentType ≠ .name := by
    rw [show mid.currentType = .punctuator from congrArg Token.type hopen]
    decide
  have hvariables : ¬ isPunct mid '(' := fun h =>
    absurd (h.symm.trans (isPunct_of_token hopen)) (by decide)
  have hdirectives : ¬ isPunct mid '@' := fun h =>
    absurd (h.symm.trans (isPunct_of_token hopen)) (by decide)
  refine ⟨mid, ?_, hselection⟩
  cases hop : doc.operation with
  | anonymous =>
    rw [hop] at hoperation
    cases hoperation
    exact if_neg hmid
  | query name =>
    rw [hop] at hoperation
    obtain ⟨hquery, hname⟩ := hoperation
    obtain ⟨htype, hvalue, -⟩ := word_iff.mp hquery
    have hbehind : (if s.skip.currentType = .name then s.skip.skip else s.skip) = mid := by
      cases name with
      | none =>
        cases hname
        exact if_neg hmid
      | some name =>
        obtain ⟨hword, rfl⟩ := hname
        exact if_pos (word_iff.mp hword).1
    rw [gqlOperation, if_pos htype, if_pos hvalue]
    dsimp only
    rw [hbehind, if_neg hvariables, if_neg hdirectives]

/-- **A query returns the evaluation of its document as JSON**, for every valid document
and every root value of the schema. Where a method or a conversion of the evaluation
aborts, so does the query. -/
theorem gqlQueryString_eval (hconforms : Conforms typeOf schema members) {root : Value O}
    {type : GqlType T} (hroot : HasType typeOf root type) {doc : Document}
    (hvalid : doc.Valid schema type) {query : Bytes} (htext : doc.IsText query) :
    (∀ answer, doc.eval members root = .ok answer →
      Returns (gqlQueryString members toJson · root query [])
        (ascii "\x7b\"data\": " ++ answer.render toJson ++ ascii "\x7d")) ∧
    ∀ message, doc.eval members root = .error message →
      Fails (gqlQueryString members toJson · root query []) message := by
  obtain ⟨s', hreads, heof⟩ := htext
  obtain ⟨s, hoperation, hselection⟩ := gqlOperation_reads hreads
  have hcomputes : Computes GqlFailure.abort (gqlQuery members toJson · root s)
      (doc.eval members root) fun answer => (answer.render toJson, s') := by
    refine gqlQuery_computes hroot hselection (fun h => by cases h) (fun hleaf => ?_)
      fun object hleaf => ?_
    · rw [Document.Valid, hleaf] at hvalid
      exact hvalid.elim
    · rw [Document.Valid, hleaf] at hvalid
      exact selection_computes hconforms _ hvalid hselection
  constructor
  · intro answer heval
    rw [heval] at hcomputes
    exact gqlQueryString_of_returns hoperation hcomputes heof
  · intro message heval
    rw [heval] at hcomputes
    exact gqlQueryString_of_fails members toJson hoperation hcomputes

end Query

/-- An object with a pointer that may be null and a list that may be empty. -/
def pairMembers (full : Bool) : List (Member Bool) :=
  [.field (ascii "full") (.scalar (.boolean full)),
    .method (ascii "next") [⟨ascii "by", .boolean, true⟩] fun _ =>
      .ok (if full then .ref (.object false) else .null),
    .field (ascii "all") (.list (if full then [.object false, .object false] else []))]

def pairSchema : GqlSchema Unit := fun _ =>
  [⟨ascii "full", [], .scalar, List.nodup_nil⟩,
    ⟨ascii "next", [⟨ascii "by", .boolean, true⟩], .nullable (.object ()), by decide⟩,
    ⟨ascii "all", [], .list (.object ()), List.nodup_nil⟩]

theorem pair_conforms : Conforms (fun _ => ()) pairSchema pairMembers := by
  intro full
  refine .cons ⟨rfl, rfl, .scalar _⟩ (.cons ⟨rfl, rfl, ?_⟩ (.cons ⟨rfl, rfl, .list ?_⟩ .nil))
  · rintro args value hvalue
    cases full with
    | false =>
      cases hvalue
      exact .null
    | true =>
      cases hvalue
      exact .full (.object false)
  · intro elem helem
    cases full with
    | false => cases helem
    | true =>
      rcases List.mem_pair.mp helem with rfl | rfl <;> exact .object false

/-- `query{a:next(by:null){full next{full}} all{full all{full}}}` -/
def pairDocument : Document :=
  { operation := .query none
    fields :=
      [.mk (some (ascii "a")) (ascii "next") [⟨ascii "by", .name (ascii "null")⟩]
          (some [.mk none (ascii "full") [] none,
            .mk none (ascii "next") [] (some [.mk none (ascii "full") [] none])]),
        .mk none (ascii "all") []
          (some [.mk none (ascii "full") [] none,
            .mk none (ascii "all") [] (some [.mk none (ascii "full") [] none])])] }

/-- A text of the document, and its answer. -/
def pairQuery : Bytes :=
  ascii "query\x7ba:next(by:null)\x7bfull,next\x7bfull\x7d\x7d#\n all\x7bfull all\x7bfull\x7d\x7d\x7d"

def pairAnswer : Bytes :=
  ascii "\x7b\"data\": \x7b\"a\":\x7b\"full\":false,\"next\":null\x7d,\"all\":[" ++
    ascii "\x7b\"full\":false,\"all\":[]\x7d,\x7b\"full\":false,\"all\":[]\x7d]\x7d\x7d"

/-- A null, a list of two and two empty ones. -/
theorem gqlQueryString_eval_example :
    Returns (gqlQueryString pairMembers (toJson fun buf => (decodeChar? buf).map Char.utf8Size) ·
      (.object true) pairQuery []) pairAnswer := by
  have hvalid : pairDocument.Valid pairSchema (.object ()) := by decide +kernel
  have htext : pairDocument.IsText pairQuery := ⟨⟨[], .eof, [], 0⟩, by decide +kernel, rfl⟩
  have hroot : HasType (fun _ : Bool => ()) (.object true) (.object ()) := .object true
  let elem : Answer := .object [(ascii "full", .scalar (.boolean false)), (ascii "all", .list [])]
  let answer : Answer := .object [
    (ascii "a", .object [(ascii "full", .scalar (.boolean false)), (ascii "next", .null)]),
    (ascii "all", .list [elem, elem])]
  have heval : pairDocument.eval pairMembers (.object true) = .ok answer := rfl
  have hout : ascii "\x7b\"data\": " ++
      answer.render (toJson fun buf => (decodeChar? buf).map Char.utf8Size) ++ ascii "\x7d" =
        pairAnswer := by
    decide +kernel
  rw [← hout]
  exact (gqlQueryString_eval pair_conforms hroot hvalid htext).1 answer heval

end Microchain.Graphql
