import Microchain.DebugEosVm.DebugInfo
import Microchain.DebugEosVm.DebugLineSafety
import Microchain.Lib.Descent

/-!
# References between entries

`DW_AT_specification` refers from one entry of a unit to another, by its offset, and
`parse_die_attrs` follows it at once. What it refers to may be a null entry, whose
missing abbreviation is dereferenced, or an entry that is being read, and then the
recursion has no end. What is read is given here by relations that do not mention the
depth of the recursion: `AttrsRead` for attributes with everything they refer to, and
`LeadsTo` for the references that are come to. Attributes are read well exactly if each
of these is `Followable` (`parseDieAttrs_wp`).
-/

namespace Microchain.DebugEosVm

open Eosio Lib Relation
open Lib.Run (All EndsWell Ends NeverFails Settled Upto)

/-! ## Attribute values -/

/-- It ends, and not with what C++ leaves undefined. -/
abbrev Safe {α : Type} (x : Run Fault α) : Prop := x.EndsWell Fault.Undefined

theorem reads_safe {α : Type} (fromBin : FromBin α) (s : Bytes) : Safe (reads fromBin s) := by
  refine ⟨?_, reads_defined fromBin s⟩
  unfold reads
  split
  · exact Settled.returns _
  · exact Settled.fails _

theorem check_safe (cond : Prop) [Decidable cond] (text : String) : Safe (check cond text) :=
  ⟨check_settled cond text, check_defined cond text⟩

theorem check_returns {cond : Prop} [Decidable cond] {text : String} {u : Unit}
    (h : check cond text = .returns u) : cond := by
  by_contra hnot
  rw [check, if_neg hnot] at h
  cases h

theorem uint64_consumes : Consumes 0 uint64FromBin := by
  intro s a rest h
  match s, h with
  | b0 :: b1 :: b2 :: b3 :: b4 :: b5 :: b6 :: b7 :: s, h =>
    cases h
    simp only [List.length_cons]
    omega

theorem varuint64Loop_consumes : ∀ (rounds : Nat) (shift result : UInt64),
    Consumes 1 (varuint64FromBinLoop rounds shift result)
  | 0, _, _ => fun _ _ _ h => by cases h
  | rounds + 1, shift, result => by
    intro s a rest h
    refine byte_consumes (fun b s' hk => ?_) h
    dsimp only at hk
    split at hk
    · exact (varuint64Loop_consumes rounds _ _).weaken s' a rest hk
    · cases hk
      exact Nat.le_refl _

theorem varuint64_consumes : Consumes 0 varuint64FromBin := (varuint64Loop_consumes 10 0 0).weaken

theorem sleb64Loop_consumes : ∀ (rounds : Nat) (shift result : UInt64),
    Consumes 1 (sleb64FromBinLoop rounds shift result)
  | 0, _, _ => fun _ _ _ h => by cases h
  | rounds + 1, shift, result => by
    intro s a rest h
    refine byte_consumes (fun b s' hk => ?_) h
    dsimp only at hk
    split at hk
    · exact (sleb64Loop_consumes rounds _ _).weaken s' a rest hk
    · split at hk
      · cases hk
        exact Nat.le_refl _
      · cases hk
        exact Nat.le_refl _

theorem sleb64_consumes : Consumes 0 sleb64FromBin := (sleb64Loop_consumes 10 0 0).weaken

/-- It is safe, and what it returns leaves at most `n` bytes of the stream. -/
structure SafeLeaves {α : Type} (n : Nat) (x : Run Fault (α × Bytes)) : Prop where
  leaves : Leaves n x
  defined : Defined x

namespace SafeLeaves

variable {α : Type} {n : Nat}

theorem safe {x : Run Fault (α × Bytes)} (h : SafeLeaves n x) : Safe x :=
  ⟨h.leaves.settled, h.defined⟩

theorem returns {a : α} {s : Bytes} (h : s.length ≤ n) : SafeLeaves n (.returns (a, s)) :=
  ⟨Leaves.returns h, Defined.returns _⟩

theorem ite {c : Prop} [Decidable c] {x y : Run Fault (α × Bytes)} (hx : SafeLeaves n x)
    (hy : SafeLeaves n y) : SafeLeaves n (if c then x else y) := by
  split
  · exact hx
  · exact hy

theorem bind {β : Type} {x : Run Fault (α × Bytes)} {k : α × Bytes → Run Fault (β × Bytes)}
    (hx : SafeLeaves n x) (hk : ∀ a s, s.length ≤ n → SafeLeaves n (k (a, s))) :
    SafeLeaves n (x >>= k) := by
  refine ⟨hx.leaves.bind fun a s hs => (hk a s hs).leaves, ?_⟩
  match x, hx with
  | .running, hx => exact absurd rfl hx.leaves.settled
  | .fails e, hx => exact NeverFails.fails (hx.defined e rfl)
  | .returns (a, s), hx => exact (hk a s (hx.leaves.all _ rfl)).defined

/-- Behind something that does not read from the stream. -/
theorem safe_bind {β : Type} {x : Run Fault β} {k : β → Run Fault (α × Bytes)} (hx : Safe x)
    (hk : ∀ b, x = .returns b → SafeLeaves n (k b)) : SafeLeaves n (x >>= k) := by
  cases x with
  | running => exact absurd rfl hx.settled
  | fails e => exact ⟨Ends.fails e, NeverFails.fails (hx.neverFails e rfl)⟩
  | returns b => exact hk b rfl

theorem reads {fromBin : FromBin α} (h : Consumes 0 fromBin) {s : Bytes} (hs : s.length ≤ n) :
    SafeLeaves n (reads fromBin s) :=
  ⟨reads_leaves h hs, reads_defined fromBin s⟩

end SafeLeaves

/-- `.debug_str` as it is stored: it ends with a zero. -/
def Terminated (strings : Bytes) : Prop := strings = [] ∨ strings.getLast? = some 0

theorem cString_safe : ∀ {s : Bytes}, s.getLast? = some 0 → Safe (cString s)
  | [], h => nomatch h
  | ch :: s, h => by
    unfold cString
    split
    · exact EndsWell.returns _
    · next hch =>
      cases s with
      | nil => exact absurd (Option.some_inj.mp h) hch
      | cons ch' s =>
        rw [List.getLast?_cons_cons] at h
        exact (cString_safe h).bind fun _ _ => EndsWell.returns _

theorem getStr_safe {strings : Bytes} (h : Terminated strings) (offset : UInt32) :
    Safe (getStr strings offset) := by
  refine (check_safe _ _).bind fun _ hcheck => ?_
  have hoffset : offset.toNat < strings.length := check_returns hcheck
  have hlast : strings.getLast? = some 0 := by
    refine h.resolve_left fun hnil => ?_
    rw [hnil] at hoffset
    exact Nat.not_lt_zero _ hoffset
  refine cString_safe ?_
  rw [List.getLast?_drop, if_neg (by omega), hlast]

section Values

variable {strings : Bytes} (hstrings : Terminated strings) (s : Bytes)

theorem valueFromBin_safeLeaves {α : Type} (value : α → AttrValue) {fromBin : FromBin α}
    (h : Consumes 0 fromBin) : SafeLeaves s.length (valueFromBin value fromBin s) :=
  (SafeLeaves.reads h (Nat.le_refl _)).bind fun _ _ hs => SafeLeaves.returns hs

theorem varData_safeLeaves {α : Type} (value : Bytes → AttrValue) (toNat : α → Nat)
    {sizeFromBin : FromBin α} (h : Consumes 0 sizeFromBin) :
    SafeLeaves s.length (varData value toNat sizeFromBin s) := by
  refine (SafeLeaves.reads h (Nat.le_refl _)).bind fun size s1 h1 => ?_
  refine SafeLeaves.safe_bind (check_safe _ _) fun _ _ => ?_
  exact (SafeLeaves.reads (readBytes_consumes _) h1).bind fun _ _ hs => SafeLeaves.returns hs

include hstrings in
theorem formValue_safeLeaves (form : UInt32) :
    SafeLeaves s.length (formValueFromBin strings form s) := by
  unfold formValueFromBin
  -- one case for each form, in the order of the source
  refine .ite (valueFromBin_safeLeaves s _ uint32_consumes.weaken) ?_
  refine .ite (varData_safeLeaves s _ _ varuint32_consumes) ?_
  refine .ite (varData_safeLeaves s _ _ uint8_consumes.weaken) ?_
  refine .ite (varData_safeLeaves s _ _ uint16_consumes) ?_
  refine .ite (varData_safeLeaves s _ _ uint32_consumes.weaken) ?_
  refine .ite (valueFromBin_safeLeaves s _ sleb64_consumes) ?_
  refine .ite (valueFromBin_safeLeaves s _ varuint64_consumes) ?_
  refine .ite (valueFromBin_safeLeaves s _ uint8_consumes.weaken) ?_
  refine .ite (valueFromBin_safeLeaves s _ uint16_consumes) ?_
  refine .ite (valueFromBin_safeLeaves s _ uint32_consumes.weaken) ?_
  refine .ite (valueFromBin_safeLeaves s _ uint64_consumes) ?_
  refine .ite (varData_safeLeaves s _ _ varuint32_consumes) ?_
  refine .ite (SafeLeaves.returns (Nat.le_refl _)) ?_
  refine .ite (valueFromBin_safeLeaves s _ uint8_consumes.weaken) ?_
  refine .ite (valueFromBin_safeLeaves s _ uint32_consumes.weaken) ?_
  refine .ite (valueFromBin_safeLeaves s _ varuint64_consumes) ?_
  refine .ite (valueFromBin_safeLeaves s _ uint8_consumes.weaken) ?_
  refine .ite (valueFromBin_safeLeaves s _ uint16_consumes) ?_
  refine .ite (valueFromBin_safeLeaves s _ uint32_consumes.weaken) ?_
  refine .ite (valueFromBin_safeLeaves s _ uint64_consumes) ?_
  refine .ite (valueFromBin_safeLeaves s _ uint32_consumes.weaken) ?_
  refine .ite (valueFromBin_safeLeaves s _ uint64_consumes) ?_
  refine .ite ?string ?_
  case string =>
    have hleaves : Leaves s.length (getString s) := getString_leaves (Nat.le_succ _)
    exact SafeLeaves.bind ⟨hleaves, getString_defined s⟩ fun _ _ hs => SafeLeaves.returns hs
  refine .ite ?strp ⟨Ends.fails _, Defined.reported _⟩
  case strp =>
    refine (SafeLeaves.reads uint32_consumes.weaken (Nat.le_refl _)).bind fun offset s1 h1 => ?_
    exact SafeLeaves.safe_bind (getStr_safe hstrings offset) fun _ _ => SafeLeaves.returns h1

theorem attrValueTurn_lowers (strings : Bytes) (hstrings : Terminated strings) :
    Lowers bytesLeft bytesLeft (attrValueTurn strings) := by
  rintro ⟨form, s⟩
  refine Ends.ite (fun _ => ?indirect) fun _ => ?_
  case indirect =>
    cases s with
    | nil => exact Ends.fails _
    | cons b s =>
      -- the next form takes a byte at least
      have hnext : Leaves s.length (reads varuint32FromBin (b :: s)) :=
        reads_leaves varuint32_consumes_one (Nat.le_refl _)
      exact hnext.bind fun _ _ hs => Ends.returns (Nat.lt_succ_of_le hs)
  exact (formValue_safeLeaves hstrings s form).leaves.bind fun _ _ hs => Ends.returns hs

theorem attrValueTurn_defined {strings : Bytes} (hstrings : Terminated strings)
    (r : UInt32 × Bytes) : Defined (attrValueTurn strings r) := by
  refine Defined.ite ?_ ?_
  · exact (reads_defined _ _).bind fun _ => Defined.returns _
  · exact (formValue_safeLeaves hstrings r.2 r.1).defined.bind fun _ => Defined.returns _

include hstrings in
theorem parseAttrValue_safeLeaves (form : UInt32) :
    SafeLeaves s.length (parseAttrValue strings form s) := by
  have hlowers := attrValueTurn_lowers strings hstrings
  have hwell : Safe (parseAttrValue strings form s) :=
    loop_endsWell (s := (form, s)) hlowers (attrValueTurn_defined hstrings) (Nat.lt_succ_self _)
  exact ⟨loop_ends (s := (form, s)) hlowers (Nat.lt_succ_self s.length), hwell.neverFails⟩

end Values

/-! ## Entries and references -/

namespace DieContext

variable (D : DieContext)

theorem getDieAbbrev_safe (s : Bytes) : Safe (D.getDieAbbrev s) := by
  refine (reads_safe _ _).bind fun r _ => ?_
  dsimp only
  split
  · exact EndsWell.returns _
  · split
    · exact EndsWell.returns _
    · exact EndsWell.fails (not_undefined_reported _)

/-- The code of an entry takes a byte at least. -/
theorem getDieAbbrev_lowers {s s' : Bytes} {entry : Option AbbrevDecl}
    (h : D.getDieAbbrev s = .returns (entry, s')) : s'.length < s.length := by
  obtain ⟨⟨code, s1⟩, hcode, hrest⟩ := returns_of_bind h
  have hs1 : s1.length + 1 ≤ s.length := varuint32_consumes_one _ _ _ (reads_returns hcode)
  have hs' : s1 = s' := by
    simp only at hrest
    split at hrest
    · cases hrest
      rfl
    · split at hrest
      · cases hrest
        rfl
      · cases hrest
  subst hs'
  exact hs1

/-- What an entry begins with: something that is refused, the code 0, or the code of a
declaration. -/
theorem getDieAbbrev_cases (s : Bytes) :
    (∃ text, D.getDieAbbrev s = .fails (.reported text)) ∨
      (∃ s', D.getDieAbbrev s = .returns (none, s') ∧ s'.length < s.length) ∨
      ∃ decl s', D.getDieAbbrev s = .returns (some decl, s') ∧ s'.length < s.length := by
  have hsafe := D.getDieAbbrev_safe s
  match h : D.getDieAbbrev s with
  | .running => exact absurd h hsafe.settled
  | .fails (.reported text) => exact .inl ⟨text, rfl⟩
  | .fails .outOfBounds => exact absurd (fun _ => nofun) (hsafe.neverFails _ h)
  | .fails .dividesByZero => exact absurd (fun _ => nofun) (hsafe.neverFails _ h)
  | .returns (none, s') => exact .inr (.inl ⟨s', rfl, D.getDieAbbrev_lowers h⟩)
  | .returns (some decl, s') => exact .inr (.inr ⟨decl, s', rfl, D.getDieAbbrev_lowers h⟩)

/-- What an attribute with this value refers to. -/
def reference (attr : AbbrevAttr) (value : AttrValue) : Option UInt64 :=
  if attr.name = dwAtSpecification then value.getRef else none

/-- The entry at `ref`, which may be a null entry, and where its attributes begin. -/
def EntryAt (ref : UInt64) (entry : Option AbbrevDecl) (s : Bytes) : Prop :=
  ref.toNat < D.unitS.length ∧ D.getDieAbbrev (D.unitS.drop ref.toNat) = .returns (entry, s)

/-- The attributes are read from `s` on, and those of every entry that they refer to; the
rest of the stream is `s'`. -/
inductive AttrsRead : List AbbrevAttr → Bytes → Bytes → Prop
  | nil {s : Bytes} : AttrsRead [] s s
  | value {attr : AbbrevAttr} {attrs : List AbbrevAttr} {value : AttrValue} {s s1 s' : Bytes}
      (hvalue : parseAttrValue D.strings attr.form s = .returns (value, s1))
      (href : reference attr value = none) (hattrs : AttrsRead attrs s1 s') :
      AttrsRead (attr :: attrs) s s'
  | reference {attr : AbbrevAttr} {attrs : List AbbrevAttr} {value : AttrValue}
      {s s1 s' refS refS' : Bytes} {ref : UInt64} {decl : AbbrevDecl}
      (hvalue : parseAttrValue D.strings attr.form s = .returns (value, s1))
      (href : reference attr value = some ref) (hentry : D.EntryAt ref (some decl) refS)
      (hread : AttrsRead decl.attrs refS refS') (hattrs : AttrsRead attrs s1 s') :
      AttrsRead (attr :: attrs) s s'

/-- Reading the attributes from `s` on comes to the reference `ref`. -/
inductive LeadsTo : List AbbrevAttr → Bytes → UInt64 → Prop
  | here {attr : AbbrevAttr} {attrs : List AbbrevAttr} {value : AttrValue} {s s1 : Bytes}
      {ref : UInt64} (hvalue : parseAttrValue D.strings attr.form s = .returns (value, s1))
      (href : reference attr value = some ref) : LeadsTo (attr :: attrs) s ref
  | past {attr : AbbrevAttr} {attrs : List AbbrevAttr} {s s1 : Bytes} {ref : UInt64}
      (hread : D.AttrsRead [attr] s s1) (hrest : LeadsTo attrs s1 ref) :
      LeadsTo (attr :: attrs) s ref

/-- A null entry is at `ref`. -/
def NullAt (ref : UInt64) : Prop := ∃ s, D.EntryAt ref none s

/-- The entry at `ref` refers to `ref'`. -/
def Refers (ref ref' : UInt64) : Prop :=
  ∃ decl s, D.EntryAt ref (some decl) s ∧ D.LeadsTo decl.attrs s ref'

/-- Following `ref` leads neither to a null entry nor back to an entry that is being read. -/
def Followable (ref : UInt64) : Prop := Grounded D.NullAt D.Refers ref

/-! ### References within a depth -/

/-- What the attribute gives, when `follow` follows its reference. -/
def givenBy (follow : UInt64 → Run Fault (List Given)) (attr : AbbrevAttr) (value : AttrValue) :
    Run Fault (List Given) :=
  match reference attr value with
  | some ref => follow ref
  | none => .returns (if attr.name = dwAtSpecification then [] else [(attr, value)])

theorem givenBy_reference {follow : UInt64 → Run Fault (List Given)} {attr : AbbrevAttr}
    {value : AttrValue} {ref : UInt64} (h : reference attr value = some ref) :
    givenBy follow attr value = follow ref := by
  rw [givenBy, h]

theorem givenBy_value {attr : AbbrevAttr} {value : AttrValue} (h : reference attr value = none) :
    ∃ given, ∀ follow, givenBy follow attr value = .returns given :=
  ⟨_, fun follow => by rw [givenBy, h]⟩

theorem dieAttrs_nil (follow : UInt64 → Run Fault (List Given)) (s : Bytes) :
    D.dieAttrs follow [] s = .returns ([], s) := rfl

theorem dieAttrs_cons (follow : UInt64 → Run Fault (List Given)) (attr : AbbrevAttr)
    (attrs : List AbbrevAttr) (s : Bytes) :
    D.dieAttrs follow (attr :: attrs) s =
      parseAttrValue D.strings attr.form s >>= fun r => givenBy follow attr r.1 >>= fun given =>
        D.dieAttrs follow attrs r.2 >>= fun rest => .returns (given ++ rest.1, rest.2) := by
  rw [dieAttrs]
  refine congrArg (parseAttrValue D.strings attr.form s >>= ·) (funext fun r => ?_)
  obtain ⟨value, s1⟩ := r
  by_cases hname : attr.name = dwAtSpecification
  · cases href : value.getRef with
    | none => simp [givenBy, reference, hname, href]
    | some ref => simp [givenBy, reference, hname, href]
  · simp [givenBy, reference, hname]

/-- One attribute after another. -/
theorem dieAttrs_cons_eq (follow : UInt64 → Run Fault (List Given)) (attr : AbbrevAttr)
    (attrs : List AbbrevAttr) (s : Bytes) :
    D.dieAttrs follow (attr :: attrs) s = D.dieAttrs follow [attr] s >>= fun r =>
      D.dieAttrs follow attrs r.2 >>= fun rest => .returns (r.1 ++ rest.1, rest.2) := by
  simp only [dieAttrs_cons, dieAttrs_nil, Run.bind_assoc, Run.returns_bind, List.append_nil]

theorem givenBy_upto {follow follow' : UInt64 → Run Fault (List Given)}
    (h : ∀ ref, (follow ref).Upto (follow' ref)) (attr : AbbrevAttr) (value : AttrValue) :
    (givenBy follow attr value).Upto (givenBy follow' attr value) := by
  unfold givenBy
  split
  · exact h _
  · exact Upto.refl _

theorem dieAttrs_upto {follow follow' : UInt64 → Run Fault (List Given)}
    (h : ∀ ref, (follow ref).Upto (follow' ref)) :
    ∀ attrs s, (D.dieAttrs follow attrs s).Upto (D.dieAttrs follow' attrs s)
  | [], _ => Upto.refl _
  | attr :: attrs, s => by
    rw [dieAttrs_cons, dieAttrs_cons]
    refine (Upto.refl _).bind fun r => (givenBy_upto h attr r.1).bind fun _ => ?_
    exact (dieAttrs_upto h attrs r.2).bind fun _ => Upto.refl _

/-- `followSpecification` at an entry. -/
theorem followSpecification_succ (depth : Nat) (ref : UInt64) :
    D.followSpecification (depth + 1) ref =
      check (ref.toNat < D.unitS.length) "DW_AT_specification out of range" >>= fun _ =>
        D.getDieAbbrev (D.unitS.drop ref.toNat) >>= fun entry => deref entry.1 >>= fun decl =>
          D.dieAttrs (D.followSpecification depth) decl.attrs entry.2 >>= fun r => .returns r.1 :=
  rfl

theorem followSpecification_entry {ref : UInt64} {entry : Option AbbrevDecl} {s : Bytes}
    (h : D.EntryAt ref entry s) (depth : Nat) :
    D.followSpecification (depth + 1) ref = deref entry >>= fun decl =>
      D.dieAttrs (D.followSpecification depth) decl.attrs s >>= fun r => .returns r.1 := by
  rw [followSpecification_succ, check, if_pos h.1, Run.returns_bind, h.2, Run.returns_bind]

theorem followSpecification_mono (ref : UInt64) : Mono fun depth => D.followSpecification depth ref := by
  intro depth
  induction depth generalizing ref with
  | zero => exact Upto.running _
  | succ depth ih =>
    show Upto (D.followSpecification (depth + 1) ref) (D.followSpecification (depth + 2) ref)
    rw [followSpecification_succ, followSpecification_succ]
    refine (Upto.refl _).bind fun _ => (Upto.refl _).bind fun _ => (Upto.refl _).bind fun _ => ?_
    exact (D.dieAttrs_upto ih _ _).bind fun _ => Upto.refl _

theorem givenBy_mono (attr : AbbrevAttr) (value : AttrValue) :
    Mono fun depth => givenBy (D.followSpecification depth) attr value :=
  fun depth => givenBy_upto (fun ref => D.followSpecification_mono ref depth) attr value

theorem dieAttrs_mono (attrs : List AbbrevAttr) (s : Bytes) :
    Mono fun depth => D.dieAttrs (D.followSpecification depth) attrs s :=
  fun depth => D.dieAttrs_upto (fun ref => D.followSpecification_mono ref depth) attrs s

/-! ### What is returned -/

/-- Whatever follows the references, the attributes are read if it reads the entries. -/
theorem attrsRead_of_returns {follow : UInt64 → Run Fault (List Given)}
    (hfollow : ∀ ref given, follow ref = .returns given →
      ∃ decl s s', D.EntryAt ref (some decl) s ∧ D.AttrsRead decl.attrs s s') :
    ∀ {attrs s given s'}, D.dieAttrs follow attrs s = .returns (given, s') → D.AttrsRead attrs s s'
  | [], _, _, _, h => by
    cases h
    exact .nil
  | attr :: attrs, s, _, _, h => by
    rw [dieAttrs_cons] at h
    obtain ⟨⟨value, s1⟩, hvalue, h⟩ := returns_of_bind h
    obtain ⟨given, hgiven, h⟩ := returns_of_bind h
    obtain ⟨⟨rest, s2⟩, hrest, h⟩ := returns_of_bind h
    cases h
    have hattrs : D.AttrsRead attrs s1 s2 := attrsRead_of_returns hfollow hrest
    cases href : reference attr value with
    | none => exact .value hvalue href hattrs
    | some ref =>
      rw [givenBy_reference href] at hgiven
      obtain ⟨decl, refS, refS', hentry, hread⟩ := hfollow ref given hgiven
      exact .reference hvalue href hentry hread hattrs

theorem entry_of_returns : ∀ {depth ref given}, D.followSpecification depth ref = .returns given →
    ∃ decl s s', D.EntryAt ref (some decl) s ∧ D.AttrsRead decl.attrs s s'
  | 0, _, _, h => nomatch h
  | depth + 1, ref, _, h => by
    rw [followSpecification_succ] at h
    obtain ⟨_, hcheck, h⟩ := returns_of_bind h
    obtain ⟨⟨entry, s⟩, hentry, h⟩ := returns_of_bind h
    obtain ⟨decl, hdecl, h⟩ := returns_of_bind h
    obtain ⟨⟨given, s'⟩, hread, h⟩ := returns_of_bind h
    cases entry with
    | none => cases hdecl
    | some entry =>
      cases hdecl
      exact ⟨decl, s, s', ⟨check_returns hcheck, hentry⟩, D.attrsRead_of_returns (fun _ _ => entry_of_returns) hread⟩

/-- Attributes that are read give something, within some depth. -/
theorem AttrsRead.returns {attrs : List AbbrevAttr} {s s' : Bytes} (h : D.AttrsRead attrs s s') :
    ∃ given, Returns (fun depth => D.dieAttrs (D.followSpecification depth) attrs s) (given, s') := by
  have hcons {attr : AbbrevAttr} {attrs : List AbbrevAttr} {value : AttrValue} {s s1 s' : Bytes}
      {given rest : List Given} (hvalue : parseAttrValue D.strings attr.form s = .returns (value, s1))
      (hgiven : Returns (fun depth => givenBy (D.followSpecification depth) attr value) given)
      (hrest : Returns (fun depth => D.dieAttrs (D.followSpecification depth) attrs s1) (rest, s')) :
      ∃ given, Returns (fun depth => D.dieAttrs (D.followSpecification depth) (attr :: attrs) s)
        (given, s') := by
    refine ⟨given ++ rest, ?_⟩
    simp only [dieAttrs_cons, hvalue, Run.returns_bind]
    refine Returns.bind (D.givenBy_mono attr value)
      (fun _ => (D.dieAttrs_mono attrs s1).bind fun _ => Mono.const _) hgiven ?_
    exact Returns.bind (D.dieAttrs_mono attrs s1) (fun _ => Mono.const _) hrest ⟨0, rfl⟩
  induction h with
  | nil => exact ⟨[], 0, rfl⟩
  | value hvalue href _ ih =>
    obtain ⟨rest, hrest⟩ := ih
    obtain ⟨given, hgiven⟩ := givenBy_value href
    exact hcons hvalue ⟨0, hgiven _⟩ hrest
  | @reference attr attrs value s s1 s' refS refS' ref decl hvalue href hentry _ _ ihread ihattrs =>
    obtain ⟨given, hgiven⟩ := ihread
    obtain ⟨rest, hrest⟩ := ihattrs
    have hfollow : Returns (fun depth => givenBy (D.followSpecification depth) attr value) given := by
      simp only [givenBy_reference href]
      refine Returns.succ (D.followSpecification_entry hentry) ?_
      exact Returns.bind (D.dieAttrs_mono decl.attrs refS) (fun _ => Mono.const _) hgiven ⟨0, rfl⟩
    exact hcons hvalue hfollow hrest

/-- The attributes are read exactly if some depth is enough to return something. -/
theorem returns_iff_attrsRead {attrs : List AbbrevAttr} {s s' : Bytes} :
    (∃ given, Returns (fun depth => D.dieAttrs (D.followSpecification depth) attrs s) (given, s')) ↔
      D.AttrsRead attrs s s' := by
  constructor
  · rintro ⟨given, depth, h⟩
    exact D.attrsRead_of_returns (fun _ _ => D.entry_of_returns) h
  · exact AttrsRead.returns D

/-! ### What ends well -/

/-- Where reading attributes ends well within a depth, so does every reference that it
comes to. -/
theorem followSpecification_safe_of_attrs {depth : Nat} {attrs : List AbbrevAttr} {s : Bytes}
    {ref : UInt64} (hlead : D.LeadsTo attrs s ref)
    (h : Safe (D.dieAttrs (D.followSpecification depth) attrs s)) :
    Safe (D.followSpecification depth ref) := by
  induction hlead with
  | here hvalue href =>
    rw [dieAttrs_cons] at h
    have hgiven := (h.of_bind_returns hvalue).of_bind
    rwa [givenBy_reference href] at hgiven
  | @past attr attrs s s1 ref hread _ ih =>
    rw [dieAttrs_cons_eq] at h
    obtain ⟨given, hgiven⟩ := hread.returns
    have hone := hgiven.eq_of_settled (D.dieAttrs_mono [attr] s) h.of_bind.settled
    exact ih (h.of_bind_returns hone).of_bind

section Terminated

variable {D} (hD : Terminated D.strings)
include hD

/-- Reading attributes ends well if every reference that it comes to does. -/
theorem dieAttrs_well : ∀ {attrs : List AbbrevAttr} {s : Bytes},
    (∀ ref, D.LeadsTo attrs s ref →
      EventuallyWell Fault.Undefined fun depth => D.followSpecification depth ref) →
    EventuallyWell Fault.Undefined fun depth => D.dieAttrs (D.followSpecification depth) attrs s
  | [], _, _ => ⟨0, EndsWell.returns _⟩
  | attr :: attrs, s, h => by
    have hrest {x : List Given} {s1 : Bytes} : Mono fun depth =>
        D.dieAttrs (D.followSpecification depth) attrs s1 >>= fun rest =>
          .returns (x ++ rest.1, rest.2) :=
      (D.dieAttrs_mono attrs s1).bind fun _ => Mono.const _
    have hone : EventuallyWell Fault.Undefined fun depth =>
        D.dieAttrs (D.followSpecification depth) [attr] s := by
      simp only [dieAttrs_cons, dieAttrs_nil, Run.returns_bind]
      refine (eventuallyWell_endsWell_bind_iff (parseAttrValue_safeLeaves hD s attr.form).safe
        fun r => (D.givenBy_mono attr r.1).bind fun _ => Mono.const _).mpr ?_
      rintro ⟨value, s1⟩ hvalue
      rw [eventuallyWell_bind_iff (D.givenBy_mono attr value) fun _ => Mono.const _]
      refine ⟨?_, fun given _ => ⟨0, EndsWell.returns _⟩⟩
      cases href : reference attr value with
      | none =>
        obtain ⟨given, hgiven⟩ := givenBy_value href
        simp only [hgiven]
        exact ⟨0, EndsWell.returns _⟩
      | some ref =>
        simp only [givenBy_reference href]
        exact h ref (.here hvalue href)
    simp only [D.dieAttrs_cons_eq _ attr attrs]
    rw [eventuallyWell_bind_iff (D.dieAttrs_mono [attr] s) fun _ => hrest]
    refine ⟨hone, ?_⟩
    rintro ⟨given, s1⟩ hgiven
    rw [eventuallyWell_bind_iff (D.dieAttrs_mono attrs s1) fun _ => Mono.const _]
    refine ⟨dieAttrs_well fun ref hlead => ?_, fun _ _ => ⟨0, EndsWell.returns _⟩⟩
    exact h ref (.past (D.returns_iff_attrsRead.mp ⟨given, hgiven⟩) hlead)

/-- Following a reference is a recursion that goes well where it is not at a null entry
and its own references go well. -/
theorem follow_descent : Descent D.NullAt D.Refers
    fun ref depth => Safe (D.followSpecification depth ref) where
  zero ref h := absurd rfl h.settled
  down {ref depth} h := by
    constructor
    · rintro ⟨s, hentry⟩
      rw [D.followSpecification_entry hentry] at h
      exact h.neverFails .outOfBounds rfl fun _ => nofun
    · rintro ref' ⟨decl, s, hentry, hlead⟩
      rw [D.followSpecification_entry hentry] at h
      exact D.followSpecification_safe_of_attrs hlead (EndsWell.of_bind h)
  up {ref} hnull hcalls := by
    have hattrs (decl : AbbrevDecl) (s : Bytes) : Mono fun depth =>
        D.dieAttrs (D.followSpecification depth) decl.attrs s >>= fun r => .returns r.1 :=
      (D.dieAttrs_mono decl.attrs s).bind fun _ => Mono.const _
    suffices h : EventuallyWell Fault.Undefined fun depth => D.followSpecification (depth + 1) ref by
      obtain ⟨depth, hdepth⟩ := h
      exact ⟨depth + 1, hdepth⟩
    simp only [followSpecification_succ]
    have hentryMono (entry : Option AbbrevDecl × Bytes) : Mono fun depth =>
        deref entry.1 >>= fun decl =>
          D.dieAttrs (D.followSpecification depth) decl.attrs entry.2 >>= fun r => .returns r.1 :=
      (Mono.const _).bind fun decl => hattrs decl entry.2
    refine (eventuallyWell_endsWell_bind_iff (check_safe _ _) fun _ =>
      (Mono.const _).bind hentryMono).mpr fun _ hcheck => ?_
    have href : ref.toNat < D.unitS.length := check_returns hcheck
    refine (eventuallyWell_endsWell_bind_iff (D.getDieAbbrev_safe _) hentryMono).mpr ?_
    rintro ⟨entry, s⟩ hentry
    cases entry with
    | none => exact absurd ⟨s, href, hentry⟩ hnull
    | some decl =>
      refine (eventuallyWell_bind_iff (D.dieAttrs_mono decl.attrs s) fun _ => Mono.const _).mpr
        ⟨dieAttrs_well hD fun ref' hlead => ?_, fun _ _ => ⟨0, EndsWell.returns _⟩⟩
      exact hcalls ref' ⟨decl, s, ⟨href, hentry⟩, hlead⟩

theorem followSpecification_well_iff (ref : UInt64) :
    (EventuallyWell Fault.Undefined fun depth => D.followSpecification depth ref) ↔
      D.Followable ref := by
  have : Finite UInt64 := Finite.of_injective UInt64.toFin fun _ _ => UInt64.toFin_inj.mp
  exact (follow_descent hD).exists_good_iff

/-- The weakest precondition of the attributes of an entry. -/
theorem parseDieAttrs_wp (decl : AbbrevDecl) (s : Bytes) (Q : Bytes → Prop) :
    Wp Fault.Undefined (fun depth => D.parseDieAttrs depth decl s) (fun r => Q r.2) ↔
      (∀ ref, D.LeadsTo decl.attrs s ref → D.Followable ref) ∧
        ∀ s', D.AttrsRead decl.attrs s s' → Q s' := by
  refine and_congr ?_ ?_
  · constructor
    · rintro ⟨depth, h⟩ ref hlead
      rw [← followSpecification_well_iff hD]
      exact ⟨depth, D.followSpecification_safe_of_attrs hlead h⟩
    · intro h
      exact dieAttrs_well hD fun ref hlead => (followSpecification_well_iff hD ref).mpr (h ref hlead)
  · constructor
    · intro h s' hread
      obtain ⟨given, hgiven⟩ := hread.returns
      exact h (given, s') hgiven
    · rintro h ⟨given, s'⟩ hgiven
      exact h s' (D.returns_iff_attrsRead.mp ⟨given, hgiven⟩)

end Terminated

end DieContext

end Microchain.DebugEosVm
