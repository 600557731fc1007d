import Microchain.DebugEosVm.DebugInfoReferences
import Microchain.DebugEosVm.FillParents
import Microchain.DebugEosVm.WasmInfo

/-!
# Safety of reading `.debug_info`

Every entry takes a byte of its unit, so lists of children end whatever they hold, and
only references can go wrong. The entries of a unit are walked with a count of the lists
that are open (`EntryStep`), which says which entries, and so which references, reading
comes to. The parser is sound exactly if each of them can be followed
(`infoFromSections_sound_iff`).
-/

namespace Microchain.DebugEosVm

open Eosio Lib Relation
open Lib.Run (All EndsWell Ends Upto)

/-! ## Lists of children -/

namespace DieContext

variable (D : DieContext)

/-- The next entry is read while lists of children are open: a null entry ends the
innermost, another entry may open its own. -/
inductive EntryStep : Nat × Bytes → Nat × Bytes → Prop
  | null {lists : Nat} {s s' : Bytes} (hentry : D.getDieAbbrev s = .returns (none, s')) :
      EntryStep (lists + 1, s) (lists, s')
  | entry {lists : Nat} {decl : AbbrevDecl} {s s1 s' : Bytes}
      (hentry : D.getDieAbbrev s = .returns (some decl, s1))
      (hread : D.AttrsRead decl.attrs s1 s') :
      EntryStep (lists + 1, s) (lists + 1 + decl.hasChildren.toNat, s')

/-- What goes on well: with a list open, the references of the next entry can be followed,
and behind the last list the rest of the stream satisfies `Q`. -/
def EntryFine (Q : Bytes → Prop) : Nat × Bytes → Prop
  | (0, s) => Q s
  | (_ + 1, s) => ∀ decl s1 ref, D.getDieAbbrev s = .returns (some decl, s1) →
      D.LeadsTo decl.attrs s1 ref → D.Followable ref

/-- Every step from here on goes well. -/
def EntriesFine (Q : Bytes → Prop) (state : Nat × Bytes) : Prop :=
  ∀ state', ReflTransGen D.EntryStep state state' → D.EntryFine Q state'

theorem entriesFine_zero {Q : Bytes → Prop} {s : Bytes} : D.EntriesFine Q (0, s) ↔ Q s := by
  rw [EntriesFine, forall_reflTransGen_iff]
  exact ⟨fun h => h.1, fun h => ⟨h, fun c hc => nomatch hc⟩⟩

theorem entriesFine_fails {Q : Bytes → Prop} {lists : Nat} {s : Bytes} {e : Fault}
    (h : D.getDieAbbrev s = .fails e) : D.EntriesFine Q (lists + 1, s) := by
  rw [EntriesFine, forall_reflTransGen_iff]
  constructor
  · intro decl s1 ref hentry
    cases h.symm.trans hentry
  · intro c hc
    cases hc with
    | null hentry => cases h.symm.trans hentry
    | entry hentry _ => cases h.symm.trans hentry

theorem entriesFine_null {Q : Bytes → Prop} {lists : Nat} {s s' : Bytes}
    (h : D.getDieAbbrev s = .returns (none, s')) :
    D.EntriesFine Q (lists + 1, s) ↔ D.EntriesFine Q (lists, s') := by
  rw [EntriesFine, forall_reflTransGen_iff]
  constructor
  · exact fun hfine => hfine.2 _ (.null h)
  · intro hfine
    refine ⟨fun decl s1 ref hentry => ?_, fun c hc => ?_⟩
    · cases h.symm.trans hentry
    · cases hc with
      | null hentry =>
        cases h.symm.trans hentry
        exact hfine
      | entry hentry _ => cases h.symm.trans hentry

theorem entriesFine_entry {Q : Bytes → Prop} {lists : Nat} {decl : AbbrevDecl} {s s1 : Bytes}
    (h : D.getDieAbbrev s = .returns (some decl, s1)) :
    D.EntriesFine Q (lists + 1, s) ↔ (∀ ref, D.LeadsTo decl.attrs s1 ref → D.Followable ref) ∧
      ∀ s', D.AttrsRead decl.attrs s1 s' →
        D.EntriesFine Q (lists + 1 + decl.hasChildren.toNat, s') := by
  rw [EntriesFine, forall_reflTransGen_iff]
  constructor
  · rintro ⟨hhere, hnext⟩
    exact ⟨fun ref hlead => hhere decl s1 ref h hlead, fun s' hread => hnext _ (.entry h hread)⟩
  · rintro ⟨hhere, hnext⟩
    refine ⟨fun decl' s1' ref hentry hlead => ?_, fun c hc => ?_⟩
    · cases h.symm.trans hentry
      exact hhere ref hlead
    · cases hc with
      | null hentry => cases h.symm.trans hentry
      | entry hentry hread =>
        cases h.symm.trans hentry
        exact hnext _ hread

section Children

variable (cxaDemangle : Bytes → Option Bytes) (depth fuel : Nat) (collect : Bool)
  (subprograms : List Subprogram)

/-- The children of an entry, if it has any. -/
def childrenOf (decl : AbbrevDecl) : Parser (List Subprogram) := fun s =>
  if decl.hasChildren then D.dieChildren cxaDemangle depth fuel collect subprograms s
  else .returns (subprograms, s)

theorem childrenOf_true {decl : AbbrevDecl} (h : decl.hasChildren = true) (s : Bytes) :
    D.childrenOf cxaDemangle depth fuel collect subprograms decl s =
      D.dieChildren cxaDemangle depth fuel collect subprograms s :=
  if_pos h

theorem childrenOf_false {decl : AbbrevDecl} (h : decl.hasChildren = false) (s : Bytes) :
    D.childrenOf cxaDemangle depth fuel collect subprograms decl s = .returns (subprograms, s) :=
  if_neg (by rw [h]; nofun)

theorem dieChildren_fails {s : Bytes} {e : Fault} (h : D.getDieAbbrev s = .fails e) :
    D.dieChildren cxaDemangle depth (fuel + 1) collect subprograms s = .fails e := by
  rw [dieChildren, h, Run.fails_bind]

theorem dieChildren_null {s s' : Bytes} (h : D.getDieAbbrev s = .returns (none, s')) :
    D.dieChildren cxaDemangle depth (fuel + 1) collect subprograms s =
      .returns (subprograms, s') := by
  rw [dieChildren, h, Run.returns_bind]

theorem dieChildren_entry {child : AbbrevDecl} {s s1 : Bytes}
    (h : D.getDieAbbrev s = .returns (some child, s1)) :
    D.dieChildren cxaDemangle depth (fuel + 1) collect subprograms s =
      D.parseDieAttrs depth child s1 >>= fun r =>
        let visit := visitChild cxaDemangle collect child r.1 subprograms
        D.childrenOf cxaDemangle depth fuel visit.1 visit.2 child r.2 >>= fun r' =>
          D.dieChildren cxaDemangle depth fuel collect r'.1 r'.2 := by
  rw [dieChildren, h, Run.returns_bind]
  refine congrArg (D.parseDieAttrs depth child s1 >>= ·) (funext fun r => ?_)
  unfold childrenOf
  cases child.hasChildren <;> rfl

theorem dieChildren_mono (s : Bytes) :
    Mono fun depth => D.dieChildren cxaDemangle depth fuel collect subprograms s := by
  induction fuel generalizing collect subprograms s with
  | zero => exact Mono.const _
  | succ fuel ih =>
    obtain ⟨text, h⟩ | ⟨s', h, -⟩ | ⟨child, s1, h, -⟩ := D.getDieAbbrev_cases s
    · simp only [D.dieChildren_fails _ _ _ _ _ h]
      exact Mono.const _
    · simp only [D.dieChildren_null _ _ _ _ _ h]
      exact Mono.const _
    · simp only [D.dieChildren_entry _ _ _ _ _ h]
      refine (D.dieAttrs_mono child.attrs s1).bind fun r => Mono.bind ?_ fun r' => ih _ _ _
      unfold childrenOf
      cases child.hasChildren with
      | false => exact Mono.const _
      | true => exact ih _ _ _

theorem childrenOf_mono (decl : AbbrevDecl) (s : Bytes) :
    Mono fun depth => D.childrenOf cxaDemangle depth fuel collect subprograms decl s := by
  unfold childrenOf
  cases decl.hasChildren with
  | false => exact Mono.const _
  | true => exact D.dieChildren_mono _ _ _ _ _

end Children

section Terminated

variable {D} (hD : Terminated D.strings)
include hD

theorem AttrsRead.length_le {attrs : List AbbrevAttr} {s s' : Bytes} (h : D.AttrsRead attrs s s') :
    s'.length ≤ s.length := by
  have hvalue {form : UInt32} {value : AttrValue} {s s1 : Bytes}
      (h : parseAttrValue D.strings form s = .returns (value, s1)) : s1.length ≤ s.length :=
    (parseAttrValue_safeLeaves hD s form).leaves.all _ h
  induction h with
  | nil => exact Nat.le_refl _
  | value h _ _ ih => exact ih.trans (hvalue h)
  | reference h _ _ _ _ _ ih => exact ih.trans (hvalue h)

theorem parseDieAttrs_length {depth : Nat} {decl : AbbrevDecl} {s : Bytes} {r : List Given × Bytes}
    (h : D.parseDieAttrs depth decl s = .returns r) : r.2.length ≤ s.length :=
  AttrsRead.length_le hD (D.returns_iff_attrsRead.mp ⟨r.1, depth, h⟩)

theorem dieChildren_length (cxaDemangle : Bytes → Option Bytes) (depth fuel : Nat) :
    ∀ collect subprograms s, (D.dieChildren cxaDemangle depth fuel collect subprograms s).All
      fun r => r.2.length ≤ s.length := by
  induction fuel with
  | zero => exact fun _ _ _ => All.running
  | succ fuel ih =>
    intro collect subprograms s
    obtain ⟨text, h⟩ | ⟨s', h, h1⟩ | ⟨child, s1, h, h1⟩ := D.getDieAbbrev_cases s
    · rw [D.dieChildren_fails _ _ _ _ _ h]
      exact All.fails
    · rw [D.dieChildren_null _ _ _ _ _ h]
      exact All.returns h1.le
    · rw [D.dieChildren_entry _ _ _ _ _ h]
      refine All.bind (P := fun r => r.2.length ≤ s1.length) (fun r => parseDieAttrs_length hD) ?_
      intro r h2
      refine All.bind (P := fun r' => r'.2.length ≤ r.2.length) ?_ fun r' h3 => ?_
      · exact All.ite (fun _ => ih _ _ _) fun _ => All.returns (Nat.le_refl _)
      intro r'' hr''
      have h4 := ih _ _ _ r'' hr''
      omega

theorem childrenOf_length {cxaDemangle : Bytes → Option Bytes} {depth fuel : Nat} {collect : Bool}
    {subprograms : List Subprogram} {decl : AbbrevDecl} {s : Bytes} {r : List Subprogram × Bytes}
    (h : D.childrenOf cxaDemangle depth fuel collect subprograms decl s = .returns r) :
    r.2.length ≤ s.length :=
  All.ite (P := fun r : List Subprogram × Bytes => r.2.length ≤ s.length)
    (fun _ => dieChildren_length hD cxaDemangle depth fuel collect subprograms s)
    (fun _ => All.returns (Nat.le_refl _)) r h

/-- Fuel for the bytes that are left is enough. -/
theorem dieChildren_fuel (cxaDemangle : Bytes → Option Bytes) (depth fuel : Nat) :
    ∀ {fuel' : Nat} {s : Bytes} (collect : Bool) (subprograms : List Subprogram),
      s.length < fuel → s.length < fuel' →
        D.dieChildren cxaDemangle depth fuel collect subprograms s =
          D.dieChildren cxaDemangle depth fuel' collect subprograms s := by
  induction fuel with
  | zero => exact fun _ _ hs => absurd hs (Nat.not_lt_zero _)
  | succ fuel ih =>
    intro fuel' s collect subprograms hs hs'
    obtain ⟨fuel', rfl⟩ : ∃ n, fuel' = n + 1 := ⟨fuel' - 1, by omega⟩
    obtain ⟨text, h⟩ | ⟨s', h, -⟩ | ⟨child, s1, h, h1⟩ := D.getDieAbbrev_cases s
    · rw [D.dieChildren_fails _ _ _ _ _ h, D.dieChildren_fails _ _ _ _ _ h]
    · rw [D.dieChildren_null _ _ _ _ _ h, D.dieChildren_null _ _ _ _ _ h]
    · rw [D.dieChildren_entry _ _ _ _ _ h, D.dieChildren_entry _ _ _ _ _ h]
      refine Run.bind_congr fun r hr => ?_
      have h2 : r.2.length ≤ s1.length := parseDieAttrs_length hD hr
      have hown (collect : Bool) (subprograms : List Subprogram) :
          D.childrenOf cxaDemangle depth fuel collect subprograms child r.2 =
            D.childrenOf cxaDemangle depth fuel' collect subprograms child r.2 := by
        have hlist : D.dieChildren cxaDemangle depth fuel collect subprograms r.2 =
            D.dieChildren cxaDemangle depth fuel' collect subprograms r.2 :=
          ih collect subprograms (by omega) (by omega)
        rw [childrenOf, childrenOf, hlist]
      dsimp only
      rw [hown]
      refine Run.bind_congr fun r' hr' => ?_
      have h3 : r'.2.length ≤ r.2.length := childrenOf_length hD hr'
      exact ih _ _ (by omega) (by omega)

/-- What `parse_die_children` does with a child: its attributes, then its own children,
which are parsed or skipped, and then the rest of the list. -/
theorem dieChildren_child (cxaDemangle : Bytes → Option Bytes) (depth : Nat) {fuel : Nat}
    (subprograms : List Subprogram) {child : AbbrevDecl} {s s1 : Bytes}
    (h : D.getDieAbbrev s = .returns (some child, s1)) (hs : s.length < fuel + 1) :
    D.dieChildren cxaDemangle depth (fuel + 1) true subprograms s =
      D.parseDieAttrs depth child s1 >>= fun r =>
        let visit := visitChild cxaDemangle true child r.1 subprograms
        (if visit.1 then D.parseDieChildren cxaDemangle depth child visit.2 r.2
          else D.skipDieChildren cxaDemangle depth child visit.2 r.2) >>= fun r' =>
            D.dieChildren cxaDemangle depth fuel true r'.1 r'.2 := by
  have h1 : s1.length < s.length := D.getDieAbbrev_lowers h
  rw [D.dieChildren_entry _ _ _ _ _ h]
  refine Run.bind_congr fun r hr => ?_
  have h2 : r.2.length ≤ s1.length := parseDieAttrs_length hD hr
  have hfuel (collect : Bool) (subprograms : List Subprogram) :
      D.dieChildren cxaDemangle depth fuel collect subprograms r.2 =
        D.dieChildren cxaDemangle depth (r.2.length + 1) collect subprograms r.2 :=
    dieChildren_fuel hD cxaDemangle depth fuel collect subprograms (by omega) (Nat.lt_succ_self _)
  dsimp only
  rw [childrenOf, hfuel, parseDieChildren, skipDieChildren]
  cases (visitChild cxaDemangle true child r.1 subprograms).1 <;> rfl

/-- The weakest precondition of reading a list of children. -/
theorem dieChildren_wp (cxaDemangle : Bytes → Option Bytes) (Q : Bytes → Prop) (fuel : Nat) :
    ∀ {lists : Nat} {s : Bytes} (collect : Bool) (subprograms : List Subprogram), s.length < fuel →
      (Wp Fault.Undefined
          (fun depth => D.dieChildren cxaDemangle depth fuel collect subprograms s)
          (fun r => D.EntriesFine Q (lists, r.2)) ↔
        D.EntriesFine Q (lists + 1, s)) := by
  induction fuel with
  | zero => exact fun _ _ hs => absurd hs (Nat.not_lt_zero _)
  | succ fuel ih =>
    intro lists s collect subprograms hs
    obtain ⟨text, h⟩ | ⟨s', h, -⟩ | ⟨child, s1, h, h1⟩ := D.getDieAbbrev_cases s
    · simp only [D.dieChildren_fails _ _ _ _ _ h]
      exact iff_of_true (wp_fails (not_undefined_reported text)) (D.entriesFine_fails h)
    · simp only [D.dieChildren_null _ _ _ _ _ h]
      rw [wp_returns_iff, D.entriesFine_null h]
    · simp only [D.dieChildren_entry _ _ _ _ _ h]
      rw [D.entriesFine_entry h]
      refine (wp_bind_iff (D.dieAttrs_mono child.attrs s1) fun r =>
        (D.childrenOf_mono _ _ _ _ _ _).bind fun r' => D.dieChildren_mono _ _ _ _ _).trans ?_
      -- behind the attributes: the child's own children, and then the rest of the list
      refine Iff.trans (wp_congr fun r hr => ?_) (parseDieAttrs_wp hD child s1 fun s2 =>
        D.EntriesFine Q (lists + 1 + child.hasChildren.toNat, s2))
      obtain ⟨_, hattrs⟩ := hr
      have h2 : r.2.length ≤ s1.length := parseDieAttrs_length hD hattrs
      rw [wp_bind_iff (D.childrenOf_mono _ _ _ _ _ _) fun r' => D.dieChildren_mono _ _ _ _ _]
      refine Iff.trans (wp_congr fun r' hr' => ih collect r'.1 ?_) ?_
      · obtain ⟨_, hchildren⟩ := hr'
        have h3 : r'.2.length ≤ r.2.length := childrenOf_length hD hchildren
        omega
      cases hhas : child.hasChildren with
      | false =>
        simp only [D.childrenOf_false _ _ _ _ _ hhas]
        exact wp_returns_iff
      | true =>
        simp only [D.childrenOf_true _ _ _ _ _ hhas]
        exact ih _ _ (by omega)

theorem parseDieChildren_wp (cxaDemangle : Bytes → Option Bytes) (decl : AbbrevDecl)
    (subprograms : List Subprogram) (s : Bytes) (Q : Bytes → Prop) :
    Wp Fault.Undefined (fun depth => D.parseDieChildren cxaDemangle depth decl subprograms s)
        (fun r => Q r.2) ↔ D.EntriesFine Q (decl.hasChildren.toNat, s) := by
  show Wp _ (fun depth => D.childrenOf cxaDemangle depth (s.length + 1) true subprograms decl s) _ ↔ _
  cases hhas : decl.hasChildren with
  | false =>
    simp only [D.childrenOf_false _ _ _ _ _ hhas]
    rw [wp_returns_iff]
    exact D.entriesFine_zero.symm
  | true =>
    simp only [D.childrenOf_true _ _ _ _ _ hhas]
    refine Iff.trans (wp_congr fun r _ => D.entriesFine_zero.symm) ?_
    exact dieChildren_wp hD cxaDemangle Q (s.length + 1) true subprograms (Nat.lt_succ_self _)

end Terminated

end DieContext

/-! ## Units -/

section Units

variable (result : WasmInfo)

/-- The first entry of a unit, behind the header of the unit. -/
def rootFromBin (unitS : Bytes) : Parser (DieContext × AbbrevDecl) := fun s => do
  let (version, s) ← reads uint16FromBin s
  check (version = compileUnitVersion) ".debug_info isn't from DWARF version 4"
  let (debugAbbrevOffset, s) ← reads uint32FromBin s
  let (addressSize, s) ← reads uint8FromBin s
  check (addressSize = 4) "mismatched address_size in .debug_info"
  let D : DieContext :=
    { strings := result.strings, abbrevDecls := result.abbrevDecls, debugAbbrevOffset, unitS }
  let (root, s) ← D.getDieAbbrev s
  check (root.any (·.tag = dwTagCompileUnit)) "missing DW_TAG_compile_unit in .debug_info"
  let root ← deref root
  .returns ((D, root), s)

theorem parseDebugInfoUnit_eq (cxaDemangle : Bytes → Option Bytes) (depth : Nat) (unitS : Bytes)
    (subprograms : List Subprogram) (s : Bytes) :
    parseDebugInfoUnit cxaDemangle depth result unitS subprograms s =
      rootFromBin result unitS s >>= fun r => r.1.1.parseDieAttrs depth r.1.2 r.2 >>= fun r' =>
        r.1.1.parseDieChildren cxaDemangle depth r.1.2 subprograms r'.2 >>= fun r'' =>
          .returns r''.1 := by
  simp only [parseDebugInfoUnit, rootFromBin, Run.bind_assoc, Run.returns_bind]

/-- The root is not dereferenced before it is known that there is one. -/
theorem rootFromBin_safe (unitS s : Bytes) : Safe (rootFromBin result unitS s) := by
  refine (reads_safe _ _).bind fun _ _ => (check_safe _ _).bind fun _ _ => ?_
  refine (reads_safe _ _).bind fun _ _ => (reads_safe _ _).bind fun _ _ => ?_
  refine (check_safe _ _).bind fun _ _ => (DieContext.getDieAbbrev_safe _ _).bind fun r _ => ?_
  refine (check_safe _ _).bind fun _ hcheck => ?_
  obtain ⟨root, s'⟩ := r
  cases root with
  | none => cases hcheck
  | some root => exact EndsWell.returns _

theorem rootFromBin_strings (unitS s : Bytes) :
    (rootFromBin result unitS s).All fun r => r.1.1.strings = result.strings := by
  refine All.any_bind fun _ => All.any_bind fun _ => All.any_bind fun _ => All.any_bind fun _ => ?_
  refine All.any_bind fun _ => All.any_bind fun _ => All.any_bind fun _ => All.any_bind fun _ => ?_
  exact All.returns rfl

/-- Reading the unit `s`, which begins at `unitS`, comes to the reference `ref`. -/
inductive UnitLeadsTo (unitS s : Bytes) (D : DieContext) (ref : UInt64) : Prop
  | root {root : AbbrevDecl} {s1 : Bytes}
      (hroot : rootFromBin result unitS s = .returns ((D, root), s1))
      (hlead : D.LeadsTo root.attrs s1 ref)
  | entry {root decl : AbbrevDecl} {lists : Nat} {s1 s2 s3 s4 : Bytes}
      (hroot : rootFromBin result unitS s = .returns ((D, root), s1))
      (hread : D.AttrsRead root.attrs s1 s2)
      (hreach : ReflTransGen D.EntryStep (root.hasChildren.toNat, s2) (lists + 1, s3))
      (hentry : D.getDieAbbrev s3 = .returns (some decl, s4))
      (hlead : D.LeadsTo decl.attrs s4 ref)

/-- The unit is read to the end of its root's list of children. -/
def UnitRead (unitS s : Bytes) : Prop :=
  ∃ D root s1 s2 s3, rootFromBin result unitS s = .returns ((D, root), s1) ∧
    D.AttrsRead root.attrs s1 s2 ∧
    ReflTransGen D.EntryStep (root.hasChildren.toNat, s2) (0, s3)

theorem parseDieChildren_mono (D : DieContext) (cxaDemangle : Bytes → Option Bytes)
    (decl : AbbrevDecl) (subprograms : List Subprogram) (s : Bytes) :
    Mono fun depth => D.parseDieChildren cxaDemangle depth decl subprograms s :=
  D.childrenOf_mono cxaDemangle (s.length + 1) true subprograms decl s

theorem parseDebugInfoUnit_mono (cxaDemangle : Bytes → Option Bytes) (unitS : Bytes)
    (subprograms : List Subprogram) (s : Bytes) :
    Mono fun depth => parseDebugInfoUnit cxaDemangle depth result unitS subprograms s := by
  simp only [parseDebugInfoUnit_eq]
  refine (Mono.const _).bind fun r => (r.1.1.dieAttrs_mono r.1.2.attrs r.2).bind fun r' => ?_
  exact (parseDieChildren_mono _ _ _ _ _).bind fun _ => Mono.const _

/-- The weakest precondition of reading a unit. -/
theorem parseDebugInfoUnit_wp (hresult : Terminated result.strings)
    (cxaDemangle : Bytes → Option Bytes) (unitS : Bytes) (subprograms : List Subprogram) (s : Bytes)
    (Q : Prop) :
    Wp Fault.Undefined
        (fun depth => parseDebugInfoUnit cxaDemangle depth result unitS subprograms s)
        (fun _ => Q) ↔
      (∀ D ref, UnitLeadsTo result unitS s D ref → D.Followable ref) ∧
        (UnitRead result unitS s → Q) := by
  have hchildren (D : DieContext) (root : AbbrevDecl) (s : Bytes) : Mono fun depth =>
      D.parseDieChildren cxaDemangle depth root subprograms s >>= fun r => .returns r.1 :=
    (parseDieChildren_mono _ _ _ _ _).bind fun _ => Mono.const _
  simp only [parseDebugInfoUnit_eq]
  refine (wp_endsWell_bind_iff (rootFromBin_safe result unitS s) fun r =>
    (r.1.1.dieAttrs_mono r.1.2.attrs r.2).bind fun r' => hchildren _ _ _).trans ?_
  -- the attributes of the root, and the entries below it
  have hunit (D : DieContext) (root : AbbrevDecl) (s1 : Bytes)
      (h : rootFromBin result unitS s = .returns ((D, root), s1)) :
      Wp Fault.Undefined (fun depth => D.parseDieAttrs depth root s1 >>= fun r' =>
          D.parseDieChildren cxaDemangle depth root subprograms r'.2 >>= fun r'' =>
            .returns r''.1) (fun _ => Q) ↔
        (∀ ref, D.LeadsTo root.attrs s1 ref → D.Followable ref) ∧
          ∀ s2, D.AttrsRead root.attrs s1 s2 →
            D.EntriesFine (fun _ => Q) (root.hasChildren.toNat, s2) := by
    have hD : Terminated D.strings := rootFromBin_strings result unitS s _ h ▸ hresult
    refine (wp_bind_iff (D.dieAttrs_mono root.attrs s1) fun r' => hchildren _ _ _).trans ?_
    rw [← DieContext.parseDieAttrs_wp hD]
    refine wp_congr fun r' _ => ?_
    rw [← DieContext.parseDieChildren_wp hD cxaDemangle root subprograms,
      wp_bind_iff (parseDieChildren_mono _ _ _ _ _) fun _ => Mono.const _]
    exact wp_congr fun r'' _ => wp_returns_iff
  constructor
  · intro h
    refine ⟨fun D ref hlead => ?_, fun ⟨D, root, s1, s2, s3, hroot, hread, hreach⟩ => ?_⟩
    · cases hlead with
      | root hroot hlead => exact ((hunit _ _ _ hroot).mp (h _ hroot)).1 ref hlead
      | entry hroot hread hreach hentry hlead =>
        exact ((hunit _ _ _ hroot).mp (h _ hroot)).2 _ hread _ hreach _ _ _ hentry hlead
    · exact ((hunit D root s1 hroot).mp (h _ hroot)).2 s2 hread _ hreach
  · rintro ⟨hfollow, hQ⟩ ⟨⟨D, root⟩, s1⟩ hroot
    refine (hunit D root s1 hroot).mpr ⟨fun ref hlead => hfollow D ref (.root hroot hlead), ?_⟩
    rintro s2 hread ⟨lists, s3⟩ hreach
    cases lists with
    | zero => exact hQ ⟨D, root, s1, s2, s3, hroot, hread, hreach⟩
    | succ lists =>
      exact fun decl s4 ref hentry hlead => hfollow D ref (.entry hroot hread hreach hentry hlead)

end Units

/-! ## Sections -/

theorem abbrevAttrs_lowers : Lowers bytesLeft bytesLeft abbrevAttrsTurn := by
  rintro ⟨attrs, s⟩
  cases s with
  | nil => exact Ends.fails _
  | cons b s =>
    refine (reads_leaves varuint32_consumes_one (Nat.le_refl _)).bind fun name s1 h1 => ?_
    refine (reads_leaves varuint32_consumes h1).bind fun form s2 h2 => ?_
    refine Ends.ite (fun _ => ?_) fun _ => ?_
    · exact (check_settled _ _).ends_bind fun _ => Ends.returns (Nat.le_succ_of_le h2)
    · exact Ends.returns (Nat.lt_succ_of_le h2)

theorem abbrevAttrsTurn_defined (r : List AbbrevAttr × Bytes) : Defined (abbrevAttrsTurn r) := by
  refine (reads_defined _ _).bind fun _ => (reads_defined _ _).bind fun _ => Defined.ite ?_ ?_
  · exact (check_defined _ _).bind fun _ => Defined.returns _
  · exact Defined.returns _

/-- A table takes at least the byte of its last code. -/
theorem abbrevTable_lowers (tableOffset : UInt32) :
    Lowers bytesLeft (fun r => bytesLeft r + 1) (abbrevTableTurn tableOffset) := by
  rintro ⟨decls, s⟩
  cases s with
  | nil => exact Ends.fails _
  | cons b s =>
    refine (reads_leaves varuint32_consumes_one (Nat.le_refl _)).bind fun code s1 h1 => ?_
    refine Ends.ite (fun _ => Ends.returns (Nat.succ_le_succ h1)) fun _ => ?_
    refine (reads_leaves varuint32_consumes h1).bind fun tag s2 h2 => ?_
    refine (reads_leaves uint8_consumes (Nat.le_succ_of_le h2)).bind fun hasChildren s3 h3 => ?_
    have hattrs : Leaves s.length (loop abbrevAttrsTurn (s3.length + 1) ([], s3)) :=
      (loop_ends (s := ([], s3)) abbrevAttrs_lowers (Nat.lt_succ_self _)).mono
        fun _ h => Nat.le_trans h h3
    exact hattrs.bind fun attrs s4 h4 => Ends.returns (Nat.lt_succ_of_le h4)

theorem abbrevTableTurn_defined (tableOffset : UInt32) (r : List AbbrevDecl × Bytes) :
    Defined (abbrevTableTurn tableOffset r) := by
  refine (reads_defined _ _).bind fun code => Defined.ite (Defined.returns _) ?_
  refine (reads_defined _ _).bind fun _ => (reads_defined _ _).bind fun r => ?_
  have hattrs : Safe (loop abbrevAttrsTurn (r.2.length + 1) ([], r.2)) :=
    loop_endsWell (s := ([], r.2)) abbrevAttrs_lowers abbrevAttrsTurn_defined (Nat.lt_succ_self _)
  exact Defined.bind hattrs.neverFails fun _ => Defined.returns _

theorem abbrevSection_lowers (size : Nat) :
    Lowers bytesLeft (fun _ => 0) (abbrevSectionTurn size) := by
  rintro ⟨decls, s⟩
  cases s with
  | nil => exact Ends.returns (Nat.zero_le _)
  | cons b s =>
    have htable := loop_ends (s := (decls, b :: s))
      (abbrevTable_lowers (UInt32.ofNat (size - (b :: s).length))) (Nat.lt_succ_self (s.length + 1))
    exact Ends.bind htable fun _ h => Ends.returns h

theorem abbrevSectionTurn_defined (size : Nat) (r : List AbbrevDecl × Bytes) :
    Defined (abbrevSectionTurn size r) := by
  obtain ⟨decls, s⟩ := r
  cases s with
  | nil => exact Defined.returns _
  | cons b s =>
    have htable := loop_endsWell (s := (decls, b :: s))
      (abbrevTable_lowers (UInt32.ofNat (size - (b :: s).length)))
      (abbrevTableTurn_defined (UInt32.ofNat (size - (b :: s).length)))
      (Nat.lt_succ_self (s.length + 1))
    exact Defined.bind htable.neverFails fun _ => Defined.returns _

/-- Reading `.debug_abbrev` ends, and C++ leaves nothing in it undefined. -/
theorem parseDebugAbbrev_safe (result : WasmInfo) (s : Bytes) : Safe (parseDebugAbbrev result s) := by
  have hloop := loop_endsWell (s := (result.abbrevDecls, s)) (abbrevSection_lowers s.length)
    (abbrevSectionTurn_defined s.length) (Nat.lt_succ_self s.length)
  exact EndsWell.bind hloop fun _ _ => EndsWell.returns _

/-- `.debug_abbrev` and `.debug_str`, as `get_info_from_wasm` reads them. -/
def tablesFromSections (debugAbbrev debugStr : Bytes) : Run Fault WasmInfo := do
  let result ← parseDebugAbbrev {} debugAbbrev
  storeDebugStr result debugStr

/-- `.debug_info` behind the two. -/
def infoFromSections (P : Platform) (depth : Nat) (debugAbbrev debugStr debugInfo : Bytes) :
    Run Fault WasmInfo := do
  let result ← tablesFromSections debugAbbrev debugStr
  parseDebugInfo P depth result debugInfo

theorem tablesFromSections_safe (debugAbbrev debugStr : Bytes) :
    Safe (tablesFromSections debugAbbrev debugStr) :=
  (parseDebugAbbrev_safe _ _).bind fun _ _ => (check_safe _ _).bind fun _ _ => EndsWell.returns _

theorem tablesFromSections_terminated (debugAbbrev debugStr : Bytes) :
    (tablesFromSections debugAbbrev debugStr).All fun result => Terminated result.strings := by
  refine All.any_bind fun result => ?_
  intro result' h
  obtain ⟨_, hcheck, h⟩ := returns_of_bind h
  cases h
  have hterminated : debugStr = [] ∨ debugStr.getLast? = some 0 := check_returns hcheck
  exact hterminated

theorem infoUnitFromBin_safe (s : Bytes) : Safe (infoUnitFromBin s) :=
  (reads_safe _ _).bind fun _ _ => (check_safe _ _).bind fun _ _ =>
    (check_safe _ _).bind fun _ _ => EndsWell.returns _

theorem infoUnitFromBin_leaves {s : Bytes} {n : Nat} (hs : s.length ≤ n + 1) :
    Leaves n (infoUnitFromBin s) := by
  refine (reads_leaves uint32_consumes hs).bind fun unitLength s1 h1 => ?_
  refine (check_settled _ _).ends_bind fun _ => (check_settled _ _).ends_bind fun _ => ?_
  refine Leaves.returns (Nat.le_trans ?_ h1)
  simp

theorem fillAllParents_safe (S : StdSort Subprogram.less) (subprograms : List Subprogram) :
    Safe (fillAllParents (S.sort subprograms)) := by
  obtain ⟨h, -⟩ | ⟨h, -⟩ := fillAllParents_scans (walkOrder_of_sorted (S.inOrder subprograms))
  · exact h ▸ EndsWell.returns _
  · exact h ▸ EndsWell.fails (not_undefined_reported _)

section Info

variable (result : WasmInfo)

/-- The unit at `s` is read, and `s'` is behind it. -/
def UnitStep (s s' : Bytes) : Prop :=
  ∃ unit, infoUnitFromBin s = .returns (unit, s') ∧ UnitRead result s unit

/-- Reading `.debug_info` comes to the reference `ref` in a unit. -/
def ComesTo (s : Bytes) (D : DieContext) (ref : UInt64) : Prop :=
  ∃ unitS unit rest, ReflTransGen (UnitStep result) s unitS ∧
    infoUnitFromBin unitS = .returns (unit, rest) ∧ UnitLeadsTo result unitS unit D ref

theorem forall_comesTo_iff {s : Bytes} :
    (∀ D ref, ComesTo result s D ref → D.Followable ref) ↔
      ∀ unit rest, infoUnitFromBin s = .returns (unit, rest) →
        (∀ D ref, UnitLeadsTo result s unit D ref → D.Followable ref) ∧
          (UnitRead result s unit → ∀ D ref, ComesTo result rest D ref → D.Followable ref) := by
  constructor
  · intro h unit rest hunit
    refine ⟨fun D ref hlead => h D ref ⟨s, unit, rest, .refl, hunit, hlead⟩, ?_⟩
    rintro hread D ref ⟨unitS, unit', rest', hreach, hunit', hlead⟩
    exact h D ref ⟨unitS, unit', rest', .head ⟨unit, hunit, hread⟩ hreach, hunit', hlead⟩
  · rintro h D ref ⟨unitS, unit, rest, hreach, hunit, hlead⟩
    obtain rfl | ⟨s', ⟨unit', hunit', hread⟩, hreach'⟩ := ReflTransGen.cases_head hreach
    · exact (h unit rest hunit).1 D ref hlead
    · exact (h unit' s' hunit').2 hread D ref ⟨unitS, unit, rest, hreach', hunit, hlead⟩

theorem infoUnitTurn_upto (cxaDemangle : Bytes → Option Bytes) (depth : Nat)
    (r : List Subprogram × Bytes) :
    (infoUnitTurn cxaDemangle depth result r).Upto
      (infoUnitTurn cxaDemangle (depth + 1) result r) := by
  obtain ⟨subprograms, s⟩ := r
  cases s with
  | nil => exact Upto.refl _
  | cons b s =>
    refine (Upto.refl _).bind fun unit => ?_
    exact (parseDebugInfoUnit_mono _ _ _ _ _ depth).bind fun _ => Upto.refl _

theorem infoLoop_mono (cxaDemangle : Bytes → Option Bytes) (fuel : Nat)
    (r : List Subprogram × Bytes) :
    Mono fun depth => loop (infoUnitTurn cxaDemangle depth result) fuel r :=
  fun depth => loop_upto (infoUnitTurn_upto result cxaDemangle depth) fuel r

theorem infoLoop_cons (cxaDemangle : Bytes → Option Bytes) (depth fuel : Nat)
    (subprograms : List Subprogram) (b : UInt8) (s : Bytes) :
    loop (infoUnitTurn cxaDemangle depth result) (fuel + 1) (subprograms, b :: s) =
      infoUnitFromBin (b :: s) >>= fun r =>
        parseDebugInfoUnit cxaDemangle depth result (b :: s) subprograms r.1 >>= fun subprograms =>
          loop (infoUnitTurn cxaDemangle depth result) fuel (subprograms, r.2) := by
  rw [loop, infoUnitTurn, Run.bind_assoc]
  refine congrArg (infoUnitFromBin (b :: s) >>= ·) (funext fun r => ?_)
  exact Run.bind_assoc _ _ _

/-- The loop over the units ends well exactly if every reference that it comes to can be
followed. -/
theorem infoLoop_well_iff (hresult : Terminated result.strings)
    (cxaDemangle : Bytes → Option Bytes) : ∀ {fuel : Nat} {s : Bytes} (subprograms : List Subprogram),
    s.length < fuel →
      ((EventuallyWell Fault.Undefined fun depth =>
          loop (infoUnitTurn cxaDemangle depth result) fuel (subprograms, s)) ↔
        ∀ D ref, ComesTo result s D ref → D.Followable ref)
  | 0, _, _, hs => absurd hs (Nat.not_lt_zero _)
  | fuel + 1, [], subprograms, _ => by
    refine iff_of_true ⟨0, EndsWell.returns _⟩ ((forall_comesTo_iff result).mpr ?_)
    exact fun unit rest hunit => nomatch hunit
  | fuel + 1, b :: s, subprograms, hs => by
    rw [forall_comesTo_iff, ← wp_true_iff]
    simp only [infoLoop_cons]
    refine (wp_endsWell_bind_iff (infoUnitFromBin_safe (b :: s)) fun r =>
      (parseDebugInfoUnit_mono _ _ _ _ _).bind fun _ => infoLoop_mono _ _ _ _).trans ?_
    rw [Prod.forall]
    refine forall_congr' fun unit => forall_congr' fun rest => imp_congr_right fun hunit => ?_
    have hrest : (unit, rest).2.length ≤ s.length :=
      (infoUnitFromBin_leaves (Nat.le_refl (s.length + 1))).all _ hunit
    rw [wp_bind_iff (parseDebugInfoUnit_mono _ _ _ _ _) fun _ => infoLoop_mono _ _ _ _,
      ← parseDebugInfoUnit_wp result hresult cxaDemangle (b :: s) subprograms unit]
    refine wp_congr fun subprograms' _ => ?_
    rw [wp_true_iff]
    refine infoLoop_well_iff hresult cxaDemangle subprograms' ?_
    simp only [List.length_cons] at hs
    omega

/-- So does `parse_debug_info`. -/
theorem parseDebugInfo_well_iff (hresult : Terminated result.strings) (P : Platform) (s : Bytes) :
    (EventuallyWell Fault.Undefined fun depth => parseDebugInfo P depth result s) ↔
      ∀ D ref, ComesTo result s D ref → D.Followable ref := by
  rw [← infoLoop_well_iff result hresult P.cxaDemangle result.subprograms (Nat.lt_succ_self s.length)]
  refine (eventuallyWell_bind_iff (infoLoop_mono _ _ _ _) fun _ => Mono.const _).trans ?_
  rw [and_iff_left_iff_imp]
  intro _ subprograms _
  refine ⟨0, ?_⟩
  exact (fillAllParents_safe P.sortSubprograms subprograms).bind fun _ _ => EndsWell.returns _

end Info

theorem parseDebugInfo_mono (P : Platform) (result : WasmInfo) (s : Bytes) :
    Mono fun depth => parseDebugInfo P depth result s :=
  (infoLoop_mono _ _ _ _).bind fun _ => Mono.const _

theorem sound_iff_safe {α : Type} {x : Run Fault α} : Sound x ↔ Safe x := by
  cases x with
  | running => exact iff_of_false (by simp [Sound]) fun h => h.settled rfl
  | returns a => exact iff_of_true (.inl ⟨a, rfl⟩) (EndsWell.returns a)
  | fails e =>
    constructor
    · rintro (⟨a, ha⟩ | ⟨text, htext⟩)
      · cases ha
      · cases htext
        exact EndsWell.fails (not_undefined_reported text)
    · intro h
      have he : ¬ ∀ text, e ≠ .reported text := h.neverFails e rfl
      simp only [ne_eq, not_forall, not_not] at he
      obtain ⟨text, rfl⟩ := he
      exact .inr ⟨text, rfl⟩

/-- Reading the three sections completes or reports a failure if and only if every
reference that it comes to leads neither to a null entry nor back to an entry that is
being read. -/
theorem infoFromSections_sound_iff (P : Platform) (debugAbbrev debugStr debugInfo : Bytes) :
    (∃ depth, Sound (infoFromSections P depth debugAbbrev debugStr debugInfo)) ↔
      ∀ result, tablesFromSections debugAbbrev debugStr = .returns result →
        ∀ D ref, ComesTo result debugInfo D ref → D.Followable ref := by
  simp only [sound_iff_safe]
  refine (eventuallyWell_endsWell_bind_iff (tablesFromSections_safe debugAbbrev debugStr)
    fun result => parseDebugInfo_mono P result debugInfo).trans ?_
  refine forall_congr' fun result => imp_congr_right fun hresult => ?_
  exact parseDebugInfo_well_iff result (tablesFromSections_terminated _ _ _ hresult) P debugInfo

/-- A `DW_AT_specification` of one byte. -/
def specificationAttr : AbbrevAttr := { name := dwAtSpecification, form := dwFormRef1 }

/-- A compile unit that refers to another entry. -/
def referringRoot : AbbrevDecl :=
  { tableOffset := 0, code := 1, tag := dwTagCompileUnit, hasChildren := false
    attrs := [specificationAttr] }

/-- `.debug_abbrev` with `referringRoot`. -/
def referringAbbrev : Bytes := [1, 0x11, 0, 0x47, 0x11, 0, 0, 0]

/-- `.debug_info` with a unit whose root refers to the entry at `ref`. The root itself is at
11, and a byte 0 is at 6. -/
def referringInfo (ref : UInt8) : Bytes := [9, 0, 0, 0, 4, 0, 0, 0, 0, 0, 4, 1, ref]

/-- The unit whose root refers to itself. -/
def selfReference : DieContext :=
  { strings := [], abbrevDecls := [referringRoot], debugAbbrevOffset := 0
    unitS := referringInfo 11 }

theorem selfReference_attrs {follow : UInt64 → Run Fault (List Given)} (h : follow 11 = .running) :
    selfReference.dieAttrs follow referringRoot.attrs [11] = .running := by
  have hvalue : parseAttrValue selfReference.strings specificationAttr.form [11] =
      .returns (.ref 11, []) := by
    rfl
  show selfReference.dieAttrs follow [specificationAttr] [11] = .running
  rw [DieContext.dieAttrs_cons, hvalue, Run.returns_bind]
  show (follow 11 >>= _) = _
  rw [h]
  rfl

/-- No depth is enough for a reference to the entry that it is in. -/
theorem selfReference_runs (depth : Nat) :
    selfReference.followSpecification depth 11 = .running := by
  have hentry : selfReference.EntryAt 11 (some referringRoot) [11] :=
    ⟨by decide, by decide +kernel⟩
  induction depth with
  | zero => rfl
  | succ depth ih =>
    rw [DieContext.followSpecification_entry _ hentry]
    show (selfReference.dieAttrs (selfReference.followSpecification depth) referringRoot.attrs [11]
      >>= _) = _
    rw [selfReference_attrs ih]
    rfl

/-- Neither reference is read soundly: what is at 6 is a null entry, which is dereferenced,
and the root that refers to itself is read again without end. -/
theorem references_read_unsoundly :
    infoFromSections plainToolchain.toPlatform 1 referringAbbrev [] (referringInfo 6) =
        .fails .outOfBounds ∧
      (∀ depth, infoFromSections plainToolchain.toPlatform depth referringAbbrev []
        (referringInfo 11) = .running) ∧
      ¬ ∀ P debugAbbrev debugStr debugInfo,
        ∃ depth, Sound (infoFromSections P depth debugAbbrev debugStr debugInfo) := by
  have hself (depth : Nat) : infoFromSections plainToolchain.toPlatform depth referringAbbrev []
      (referringInfo 11) = .running := by
    have htables : tablesFromSections referringAbbrev [] =
        .returns { abbrevDecls := [referringRoot] } := by
      rfl
    have hunit : infoUnitFromBin (referringInfo 11) =
        .returns ([4, 0, 0, 0, 0, 0, 4, 1, 11], []) := by
      rfl
    have hroot : rootFromBin { abbrevDecls := [referringRoot] } (referringInfo 11)
        [4, 0, 0, 0, 0, 0, 4, 1, 11] = .returns ((selfReference, referringRoot), [11]) := by
      rfl
    have hattrs : selfReference.parseDieAttrs depth referringRoot [11] = .running :=
      selfReference_attrs (selfReference_runs depth)
    rw [infoFromSections, htables, Run.returns_bind, parseDebugInfo, referringInfo, infoLoop_cons,
      ← referringInfo, hunit, Run.returns_bind, parseDebugInfoUnit_eq, hroot, Run.returns_bind,
      hattrs]
    rfl
  refine ⟨by decide +kernel, hself, fun hall => ?_⟩
  obtain ⟨depth, hsound⟩ := hall plainToolchain.toPlatform referringAbbrev [] (referringInfo 11)
  simp [Sound, hself] at hsound

end Microchain.DebugEosVm
