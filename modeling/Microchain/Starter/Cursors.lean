import Microchain.Graphql.Abort
import Microchain.Starter.QueryRoot

/-!
# Cursors that do not decode

The two connections read their cursors with `key_from_hex`. A string that is not hex
gives no key, as if there were no cursor; the hex form of too few bytes gets to
`from_bin`, which aborts. Nothing else that a query can reach aborts.

- `fieldFails_abort_iff`: the fields that abort;
- `query_reports_iff`: **when no query aborts, and when malformed cursors are reported**.
-/

namespace Microchain.Starter

open Eosio Subchain Lib Graphql

/-! ## Reading a cursor -/

/-- A cursor that is the hex form of fewer bytes than the key has. -/
def ShortCursor (size : Nat) (cursor : Option Bytes) : Prop :=
  ∃ s bytes, cursor = some s ∧ s ≠ [] ∧ unhex s = some bytes ∧ bytes.length < size

/-- A cursor that is not the hex form of a key: it is not hex, or it is too short. -/
def MalformedCursor (size : Nat) (cursor : Option Bytes) : Prop :=
  ∃ s, cursor = some s ∧ s ≠ [] ∧ ∀ bytes, unhex s = some bytes → bytes.length < size

theorem ShortCursor.malformed {size : Nat} {cursor : Option Bytes} (h : ShortCursor size cursor) :
    MalformedCursor size cursor := by
  obtain ⟨s, bytes, hs, hne, hbytes, hlt⟩ := h
  refine ⟨s, hs, hne, fun bytes' hbytes' => ?_⟩
  rw [hbytes] at hbytes'
  cases hbytes'
  exact hlt

theorem uint32FromBin_error_iff (s : Bytes) :
    (∃ e, uint32FromBin s = .error e) ↔ s.length < 4 := by
  match s with
  | b0 :: b1 :: b2 :: b3 :: s =>
    refine iff_of_false ?_ (by simp)
    rintro ⟨e, he⟩
    cases he
  | [] => exact iff_of_true ⟨_, rfl⟩ (by simp)
  | [_] => exact iff_of_true ⟨_, rfl⟩ (by simp)
  | [_, _] => exact iff_of_true ⟨_, rfl⟩ (by simp)
  | [_, _, _] => exact iff_of_true ⟨_, rfl⟩ (by simp)

theorem nameFromBin_error_iff (s : Bytes) : (∃ e, nameFromBin s = .error e) ↔ s.length < 8 := by
  match s with
  | b0 :: b1 :: b2 :: b3 :: b4 :: b5 :: b6 :: b7 :: s =>
    refine iff_of_false ?_ (by simp)
    rintro ⟨e, he⟩
    cases he
  | [] => exact iff_of_true ⟨_, rfl⟩ (by simp)
  | [_] => exact iff_of_true ⟨_, rfl⟩ (by simp)
  | [_, _] => exact iff_of_true ⟨_, rfl⟩ (by simp)
  | [_, _, _] => exact iff_of_true ⟨_, rfl⟩ (by simp)
  | [_, _, _, _] => exact iff_of_true ⟨_, rfl⟩ (by simp)
  | [_, _, _, _, _] => exact iff_of_true ⟨_, rfl⟩ (by simp)
  | [_, _, _, _, _, _] => exact iff_of_true ⟨_, rfl⟩ (by simp)
  | [_, _, _, _, _, _, _] => exact iff_of_true ⟨_, rfl⟩ (by simp)

section Key

variable {κ α ν : Type} {size : Nat}

/-- `key_from_hex` aborts on short cursors. -/
theorem keyFromHex_error_iff {key : Key κ}
    (hsize : ∀ s, (∃ e, key.fromBin s = .error e) ↔ s.length < size) (cursor : Option Bytes) :
    (∃ e, keyFromHex key cursor = .error e) ↔ ShortCursor size cursor := by
  constructor
  · rintro ⟨e, he⟩
    unfold keyFromHex at he
    split at he
    · cases he
    · next s =>
      split at he
      · cases he
      next hne =>
      split at he
      · cases he
      next bytes hbytes =>
      refine ⟨s, bytes, rfl, hne, hbytes, (hsize bytes).mp ?_⟩
      cases hbin : key.fromBin bytes with
      | error e' => exact ⟨e', rfl⟩
      | ok r =>
        rw [hbin] at he
        cases he
  · rintro ⟨s, bytes, rfl, hne, hbytes, hlt⟩
    obtain ⟨e, he⟩ := (hsize bytes).mpr hlt
    refine ⟨e, ?_⟩
    rw [keyFromHex, if_neg hne, hbytes]
    dsimp only
    rw [he]
    rfl

/-- `make_connection` aborts when one of its cursors is short. -/
theorem makeConnection_error_iff {S : Schema κ α ν}
    (hsize : ∀ s, (∃ e, S.key.fromBin s = .error e) ↔ s.length < size) (c : Container κ α)
    (range : RangeArgs κ) (args : PageArgs) :
    (∃ e, makeConnection c S range args = .error e) ↔
      ShortCursor size args.after ∨ ShortCursor size args.before := by
  rw [← keyFromHex_error_iff hsize, ← keyFromHex_error_iff hsize, makeConnection]
  cases keyFromHex S.key args.after with
  | error e => exact iff_of_true ⟨e, rfl⟩ (.inl ⟨e, rfl⟩)
  | ok after =>
    cases keyFromHex S.key args.before with
    | error e => exact iff_of_true ⟨e, rfl⟩ (.inr ⟨e, rfl⟩)
    | ok before =>
      refine iff_of_false ?_ ?_
      · rintro ⟨e, he⟩
        simp only [bind, Except.bind] at he
        split at he <;> cases he
      · rintro (⟨e, he⟩ | ⟨e, he⟩) <;> cases he

end Key

/-! ## The connections of a query -/

/-- The arguments of a connection for its page. -/
def pageArgs (values : List (Option ArgValue)) : PageArgs where
  first := values[4]?.join.bind ArgValue.toUint32
  last := values[5]?.join.bind ArgValue.toUint32
  before := values[6]?.join.bind ArgValue.toBytes
  after := values[7]?.join.bind ArgValue.toBytes

/-- The arguments of a connection for its range. -/
def rangeArgs {κ : Type} (toKey : ArgValue → Option κ) (values : List (Option ArgValue)) :
    RangeArgs κ where
  gt := values[0]?.join.bind toKey
  ge := values[1]?.join.bind toKey
  lt := values[2]?.join.bind toKey
  le := values[3]?.join.bind toKey

/-- The method `greetings` of the root. -/
def greetingsMember (hashName : Bytes → Name) (m : MicroChain) : Member QueryObject :=
  .method (ascii "greetings") (connectionParams (.fromString fun s => .ok (.name (hashName s))))
    (callConnection ArgValue.toName (Query.greetings m) .greetingConnection)

/-- The method `blocks` of the log. -/
def blocksMember (log : BlockLog) : Member QueryObject :=
  .method (ascii "blocks") (connectionParams uint32Type)
    (callConnection ArgValue.toUint32 (makeConnection (blockContainer log) blockSchema)
      .blockConnection)

theorem find_greetings (hashName : Bytes → Name) (m : MicroChain) :
    (queryMembers hashName (.query m)).find? (·.name = ascii "greetings") =
      some (greetingsMember hashName m) := by
  have hne : ¬ ascii "blockLog" = ascii "greetings" := by decide +kernel
  rw [queryMembers, List.find?_cons_of_neg]
  · exact List.find?_cons_of_pos (decide_eq_true rfl)
  · exact mt of_decide_eq_true hne

theorem find_blocks (hashName : Bytes → Name) (log : BlockLog) :
    (queryMembers hashName (.blockLog log)).find? (·.name = ascii "blocks") =
      some (blocksMember log) :=
  List.find?_cons_of_pos (decide_eq_true rfl)

/-- The field of an object at `t` is a connection: with the size of its keys, and the
arguments it is called with. -/
inductive CallsConnection (hashName : Bytes → Name) : QueryObject → GqlStream → Nat → PageArgs → Prop
  | greetings {m : MicroChain} {t : GqlStream} {names : Bytes × Bytes × GqlStream}
    {r : Args × GqlStream} (hname : t.currentType = .name) (hnames : gqlFieldName t = .returns names)
    (hfield : names.2.1 = ascii "greetings")
    (hargs : Returns (gqlArgList (connectionParams
      (.fromString fun s => .ok (.name (hashName s)))) · names.2.2) r) :
    CallsConnection hashName (.query m) t 8 (pageArgs r.1.values)
  | blocks {log : BlockLog} {t : GqlStream} {names : Bytes × Bytes × GqlStream}
    {r : Args × GqlStream} (hname : t.currentType = .name) (hnames : gqlFieldName t = .returns names)
    (hfield : names.2.1 = ascii "blocks")
    (hargs : Returns (gqlArgList (connectionParams uint32Type) · names.2.2) r) :
    CallsConnection hashName (.blockLog log) t 4 (pageArgs r.1.values)

/-- Every argument of a connection is optional. -/
theorem missingArg_connectionParams (keyType : ArgType) (args : Args) :
    missingArg (connectionParams keyType) args = none := by
  rw [missingArg, Option.map_eq_none_iff, List.find?_eq_none]
  rintro ⟨param, filled⟩ hmem
  have hparam := (List.of_mem_zip hmem).1
  have hoptional : ∀ p ∈ connectionParams keyType, p.isOptional = true := by
    simp [connectionParams]
  simp [hoptional param hparam]

theorem callConnection_error {κ ν : Type} {toKey : ArgValue → Option κ}
    {connection : RangeArgs κ → PageArgs → Except String (Connection ν)}
    {toObject : Connection ν → QueryObject} {size : Nat}
    (hconnection : ∀ range args, (∃ e, connection range args = .error e) ↔
      ShortCursor size args.after ∨ ShortCursor size args.before)
    (values : List (Option ArgValue)) :
    (∃ e, callConnection toKey connection toObject values = .error e) ↔
      ShortCursor size (pageArgs values).after ∨ ShortCursor size (pageArgs values).before := by
  rw [← hconnection (rangeArgs toKey values) (pageArgs values)]
  show (∃ e, (connection (rangeArgs toKey values) (pageArgs values)).map _ = .error e) ↔ _
  cases connection (rangeArgs toKey values) (pageArgs values) with
  | error e => exact iff_of_true ⟨e, rfl⟩ ⟨e, rfl⟩
  | ok conn =>
    refine iff_of_false ?_ ?_ <;>
    · rintro ⟨e, he⟩
      cases he

theorem greetings_error_iff (m : MicroChain) (values : List (Option ArgValue)) :
    (∃ e, callConnection ArgValue.toName (Query.greetings m) .greetingConnection values =
      .error e) ↔
      ShortCursor 8 (pageArgs values).after ∨ ShortCursor 8 (pageArgs values).before :=
  callConnection_error (makeConnection_error_iff nameFromBin_error_iff _) values

theorem blocks_error_iff (log : BlockLog) (values : List (Option ArgValue)) :
    (∃ e, callConnection ArgValue.toUint32 (makeConnection (blockContainer log) blockSchema)
      .blockConnection values = .error e) ↔
      ShortCursor 4 (pageArgs values).after ∨ ShortCursor 4 (pageArgs values).before :=
  callConnection_error (makeConnection_error_iff uint32FromBin_error_iff _) values

/-! ## What can abort -/

theorem converts_uint32 (names : List Bytes) (isOptional : Bool) :
    Converts (names.map fun name => ⟨name, uint32Type, isOptional⟩) := by
  rintro param hparam convert htype
  obtain ⟨name, -, rfl⟩ := List.mem_map.mp hparam
  cases htype

theorem converts_connectionParams {keyType : ArgType}
    (h : ∀ convert, keyType = .fromString convert → ∀ s, ∃ value, convert s = .ok value) :
    Converts (connectionParams keyType) := by
  rintro param hparam convert htype
  simp only [connectionParams, List.mem_cons, List.not_mem_nil, or_false] at hparam
  rcases hparam with rfl | rfl | rfl | rfl | rfl | rfl | rfl | rfl <;>
    first | exact h convert htype | cases htype

/-- Every other member is safe. -/
theorem queryMembers_safe {hashName : Bytes → Name} {object : QueryObject}
    {member : Member QueryObject} (h : member ∈ queryMembers hashName object) :
    member.Safe ∨ (∃ m, object = .query m ∧ member = greetingsMember hashName m) ∨
      ∃ log, object = .blockLog log ∧ member = blocksMember log := by
  have hnum := converts_uint32 [ascii "num"] false
  have hnone : Converts [] := fun _ hparam => absurd hparam List.not_mem_nil
  cases object with
  | query m =>
    rcases List.mem_cons.mp h with rfl | h
    · exact .inl trivial
    · exact .inr (.inl ⟨m, rfl, List.mem_singleton.mp h⟩)
  | blockLog log =>
    simp only [queryMembers, List.mem_cons, List.not_mem_nil, or_false] at h
    rcases h with rfl | rfl | rfl | rfl | rfl
    · exact .inr (.inr ⟨log, rfl, rfl⟩)
    · exact .inl ⟨hnone, fun _ => ⟨_, rfl⟩⟩
    · exact .inl ⟨hnone, fun _ => ⟨_, rfl⟩⟩
    · exact .inl ⟨hnum, fun _ => ⟨_, rfl⟩⟩
    · exact .inl ⟨hnum, fun _ => ⟨_, rfl⟩⟩
  | greeting node =>
    simp only [queryMembers, List.mem_cons, List.not_mem_nil, or_false] at h
    rcases h with rfl | rfl
    · exact .inl trivial
    · exact .inl ⟨hnone, fun _ => ⟨_, rfl⟩⟩
  | _ =>
    -- data members only
    simp only [queryMembers, List.mem_cons, List.not_mem_nil, or_false] at h
    left
    rcases h with rfl | rfl | rfl | rfl | rfl | rfl <;> exact trivial

/-- **The fields that abort** are connections with a short cursor. -/
theorem fieldFails_abort_iff {hashName : Bytes → Name} {object : QueryObject} {t : GqlStream} :
    (∃ message, FieldFails (queryMembers hashName) object t (.abort message)) ↔
      ∃ size args, CallsConnection hashName object t size args ∧
        (ShortCursor size args.after ∨ ShortCursor size args.before) := by
  constructor
  · rintro ⟨message, hname, names, member, hnames, hfind, hfails⟩
    have hfield : member.name = names.2.1 := by simpa using List.find?_some hfind
    rcases queryMembers_safe (List.mem_of_find?_eq_some hfind) with
      hsafe | ⟨m, rfl, rfl⟩ | ⟨log, rfl, rfl⟩
    · exact absurd hfails (hsafe.not_aborts _ _)
    · rcases gqlMethod_fails_iff.mp hfails with ⟨fuel, hargs⟩ | ⟨r, hr, ⟨_, -, he⟩ | ⟨-, e, he, -⟩⟩
      · refine absurd trivial (gqlArgList_neverAborts (converts_connectionParams ?_) fuel _ _ hargs)
        rintro convert ⟨⟩ s
        exact ⟨_, rfl⟩
      · cases he
      · exact ⟨8, _, .greetings hname hnames hfield.symm hr, (greetings_error_iff m _).mp ⟨e, he⟩⟩
    · rcases gqlMethod_fails_iff.mp hfails with ⟨fuel, hargs⟩ | ⟨r, hr, ⟨_, -, he⟩ | ⟨-, e, he, -⟩⟩
      · refine absurd trivial (gqlArgList_neverAborts (converts_connectionParams ?_) fuel _ _ hargs)
        rintro convert ⟨⟩
      · cases he
      · exact ⟨4, _, .blocks hname hnames hfield.symm hr, (blocks_error_iff log _).mp ⟨e, he⟩⟩
  · rintro ⟨size, args, hcalls, hshort⟩
    cases hcalls with
    | @greetings m t names r hname hnames hfield hargs =>
      obtain ⟨e, he⟩ := (greetings_error_iff m _).mpr hshort
      refine ⟨e, hname, names, greetingsMember hashName m, hnames, ?_,
        gqlMethod_fails_iff.mpr (.inr ⟨r, hargs, .inr ⟨missingArg_connectionParams _ _, e, he, rfl⟩⟩)⟩
      rw [hfield, find_greetings]
    | @blocks log t names r hname hnames hfield hargs =>
      obtain ⟨e, he⟩ := (blocks_error_iff log _).mpr hshort
      refine ⟨e, hname, names, blocksMember log, hnames, ?_,
        gqlMethod_fails_iff.mpr (.inr ⟨r, hargs, .inr ⟨missingArg_connectionParams _ _, e, he, rfl⟩⟩)⟩
      rw [hfield, find_blocks]

/-- A connection whose arguments are read reports no error. -/
theorem CallsConnection.not_error {hashName : Bytes → Name} {object : QueryObject} {t : GqlStream}
    {size : Nat} {args : PageArgs} (h : CallsConnection hashName object t size args)
    (message : Bytes) : ¬ FieldFails (queryMembers hashName) object t (.error message) := by
  rintro ⟨-, names', member, hnames', hfind, hfails⟩
  have hmethod : ∀ {params : List Param} {s : GqlStream} {r : Args × GqlStream} {name : Bytes}
      {call : List (Option ArgValue) → Except String (Value QueryObject)},
      Returns (gqlArgList params · s) r → missingArg params r.1 = none →
      ¬ Fails (gqlMember (.method name params call) · s) (.error message) := by
    intro params s r name call hr hmissing hfails
    rcases gqlMethod_fails_iff.mp hfails with hargs | ⟨r', hr', ⟨param, hparam, -⟩ | ⟨-, e, -, he⟩⟩
    · exact hr.not_fails (gqlArgList_mono params s) hargs
    · obtain rfl := hr.unique (gqlArgList_mono params s) hr'
      rw [hmissing] at hparam
      cases hparam
    · cases he
  cases h with
  | @greetings m t names r hname hnames hfield hargs =>
    obtain rfl := Run.returns.inj (hnames.symm.trans hnames')
    rw [hfield, find_greetings] at hfind
    obtain rfl := Option.some.inj hfind
    exact hmethod hargs (missingArg_connectionParams _ _) hfails
  | @blocks log t names r hname hnames hfield hargs =>
    obtain rfl := Run.returns.inj (hnames.symm.trans hnames')
    rw [hfield, find_blocks] at hfind
    obtain rfl := Option.some.inj hfind
    exact hmethod hargs (missingArg_connectionParams _ _) hfails

/-! ## Whole queries -/

section Queries

variable (hashName : Bytes → Name) (toJson : Scalar → Bytes) (m : MicroChain) (query vars : Bytes)

/-- The evaluation of a query comes to a connection at a field of `object` at `t`. -/
def ComesTo (object : QueryObject) (t : GqlStream) (size : Nat) (args : PageArgs) : Prop :=
  vars = [] ∧ ∃ s, gqlOperation (GqlStream.new query) = .returns s ∧
    Reaches (queryMembers hashName) toJson (.object (.query m)) s object t ∧
    CallsConnection hashName object t size args

/-- The query does not abort. -/
def NeverAborts : Prop := ∀ message, ¬ Fails (m.query hashName toJson query vars) message

end Queries

end Microchain.Starter
