import Microchain.DebugEosVm.Functions
import Microchain.DebugEosVm.SubprogramLookup

/-!
# The names of subprograms

All names that `get_info_from_wasm` finds end at a zero in the file, so that none has one
inside (`getInfoFromWasm_plain`).
-/

namespace Microchain.DebugEosVm

open Eosio Lib
open Lib.Run (All)

/-- A string of the value has no zero inside. -/
def AttrValue.Plain (v : AttrValue) : Prop := ∀ str ∈ v.getString, 0 ∉ str

theorem getString_plain (s : Bytes) : (getString s).All fun r => 0 ∉ r.1 := by
  induction s with
  | nil => exact All.fails
  | cons ch s ih =>
    rw [getString]
    refine All.ite (fun _ => All.returns List.not_mem_nil) fun hch => ?_
    refine All.bind ih fun r hr => All.returns fun hmem => ?_
    exact (List.mem_cons.mp hmem).elim (fun h => hch h.symm) hr

theorem cString_plain (s : Bytes) : (cString s).All fun str => 0 ∉ str := by
  induction s with
  | nil => exact All.fails
  | cons ch s ih =>
    rw [cString]
    refine All.ite (fun _ => All.returns List.not_mem_nil) fun hch => ?_
    refine All.bind ih fun str hstr => All.returns fun hmem => ?_
    exact (List.mem_cons.mp hmem).elim (fun h => hch h.symm) hstr

/-- A value that is no string. -/
theorem valueFromBin_plain {α : Type} {value : α → AttrValue} (h : ∀ a, (value a).getString = none)
    (fromBin : FromBin α) (s : Bytes) :
    (valueFromBin value fromBin s).All fun r => r.1.Plain :=
  All.any_bind fun r => All.returns fun str hstr => by
    rw [h r.1] at hstr
    cases hstr

theorem varData_plain {α : Type} {value : Bytes → AttrValue} (h : ∀ a, (value a).getString = none)
    (toNat : α → Nat) (sizeFromBin : FromBin α) (s : Bytes) :
    (varData value toNat sizeFromBin s).All fun r => r.1.Plain :=
  All.any_bind fun _ => All.any_bind fun _ => All.any_bind fun r => All.returns fun str hstr => by
    rw [h r.1] at hstr
    cases hstr

theorem plain_of_string {str : Bytes} (h : 0 ∉ str) : (AttrValue.string str).Plain :=
  fun _ hstr => Option.some.inj hstr ▸ h

theorem formValueFromBin_plain (strings : Bytes) (form : UInt32) (s : Bytes) :
    (formValueFromBin strings form s).All fun r => r.1.Plain := by
  have hvalue : ∀ {α : Type} {value : α → AttrValue}, (∀ a, (value a).getString = none) →
      ∀ fromBin : FromBin α, (valueFromBin value fromBin s).All fun r => r.1.Plain :=
    fun h fromBin => valueFromBin_plain h fromBin s
  rw [formValueFromBin]
  refine All.ite (fun _ => hvalue (fun _ => rfl) _) fun _ => ?_
  refine All.ite (fun _ => varData_plain (fun _ => rfl) _ _ s) fun _ => ?_
  refine All.ite (fun _ => varData_plain (fun _ => rfl) _ _ s) fun _ => ?_
  refine All.ite (fun _ => varData_plain (fun _ => rfl) _ _ s) fun _ => ?_
  refine All.ite (fun _ => varData_plain (fun _ => rfl) _ _ s) fun _ => ?_
  refine All.ite (fun _ => hvalue (fun _ => rfl) _) fun _ => ?_
  refine All.ite (fun _ => hvalue (fun _ => rfl) _) fun _ => ?_
  refine All.ite (fun _ => hvalue (fun _ => rfl) _) fun _ => ?_
  refine All.ite (fun _ => hvalue (fun _ => rfl) _) fun _ => ?_
  refine All.ite (fun _ => hvalue (fun _ => rfl) _) fun _ => ?_
  refine All.ite (fun _ => hvalue (fun _ => rfl) _) fun _ => ?_
  refine All.ite (fun _ => varData_plain (fun _ => rfl) _ _ s) fun _ => ?_
  refine All.ite (fun _ => All.returns (nofun : AttrValue.Plain (.flag true))) fun _ => ?_
  refine All.ite (fun _ => hvalue (fun _ => rfl) _) fun _ => ?_
  refine All.ite (fun _ => hvalue (fun _ => rfl) _) fun _ => ?_
  refine All.ite (fun _ => hvalue (fun _ => rfl) _) fun _ => ?_
  refine All.ite (fun _ => hvalue (fun _ => rfl) _) fun _ => ?_
  refine All.ite (fun _ => hvalue (fun _ => rfl) _) fun _ => ?_
  refine All.ite (fun _ => hvalue (fun _ => rfl) _) fun _ => ?_
  refine All.ite (fun _ => hvalue (fun _ => rfl) _) fun _ => ?_
  refine All.ite (fun _ => hvalue (fun _ => rfl) _) fun _ => ?_
  refine All.ite (fun _ => hvalue (fun _ => rfl) _) fun _ => ?_
  refine All.ite (fun _ => ?_) fun _ => ?_
  · exact All.bind (getString_plain s) fun r hr => All.returns (plain_of_string hr)
  refine All.ite (fun _ => ?_) fun _ => All.fails
  refine All.any_bind fun r => All.bind (P := fun str => 0 ∉ str) ?_ fun str hstr =>
    All.returns (plain_of_string hstr)
  exact All.any_bind fun _ => cString_plain _

theorem parseAttrValue_plain (strings : Bytes) (form : UInt32) (s : Bytes) :
    (parseAttrValue strings form s).All fun r => r.1.Plain := by
  refine loop_all (I := fun _ => True) (fun r _ => ?_) (s.length + 1) trivial
  rw [attrValueTurn]
  refine All.ite (fun _ => All.any_bind fun _ => All.returns trivial) fun _ => ?_
  exact All.bind (formValueFromBin_plain strings r.1 r.2) fun v hv => All.returns hv

namespace DieContext

variable {D : DieContext}

/-- All values are plain. -/
def GivenPlain (given : List Given) : Prop := ∀ g ∈ given, g.2.Plain

theorem dieAttrs_plain {follow : UInt64 → Run Fault (List Given)}
    (hfollow : ∀ ref, (follow ref).All GivenPlain) (attrs : List AbbrevAttr) (s : Bytes) :
    (D.dieAttrs follow attrs s).All fun r => GivenPlain r.1 := by
  induction attrs generalizing s with
  | nil => exact All.returns nofun
  | cons attr attrs ih =>
    rw [dieAttrs]
    refine All.bind (parseAttrValue_plain D.strings attr.form s) fun v hv => ?_
    obtain ⟨value, s⟩ := v
    -- whatever the attribute gives, the other attributes come behind it
    have hrest : ∀ {x : Run Fault (List Given)}, x.All GivenPlain →
        (x >>= fun given => D.dieAttrs follow attrs s >>= fun r =>
          Run.returns (given ++ r.1, r.2)).All fun r => GivenPlain r.1 := by
      intro x hx
      refine All.bind hx fun given hgiven => All.bind (ih s) fun r hr => All.returns fun g hg => ?_
      exact (List.mem_append.mp hg).elim (hgiven g) (hr g)
    refine All.ite (fun _ => ?_) fun _ => ?_
    · cases hvalue : value.getRef with
      | some ref => exact hrest (hfollow ref)
      | none => exact hrest (All.returns nofun)
    · refine hrest (All.returns fun g hg => ?_)
      rw [List.mem_singleton.mp hg]
      exact hv

theorem followSpecification_plain (depth : Nat) (ref : UInt64) :
    (D.followSpecification depth ref).All GivenPlain := by
  induction depth generalizing ref with
  | zero => exact All.running
  | succ depth ih =>
    refine All.any_bind fun _ => All.any_bind fun r => All.any_bind fun decl => ?_
    exact All.bind (dieAttrs_plain ih decl.attrs r.2) fun given hgiven => All.returns hgiven

end DieContext

/-- The names found so far. -/
structure CommonAttrs.Plain (common : CommonAttrs) : Prop where
  linkageName : ∀ str ∈ common.linkageName, 0 ∉ str
  name : ∀ str ∈ common.name, 0 ∉ str

theorem CommonAttrs.Plain.apply {common : CommonAttrs} (h : common.Plain) {g : Given}
    (hg : g.2.Plain) : (common.apply g).Plain := by
  rw [CommonAttrs.apply]
  split
  · exact ⟨h.linkageName, h.name⟩
  · split
    · exact ⟨h.linkageName, h.name⟩
    · split
      · exact ⟨hg, h.name⟩
      · split
        · exact ⟨h.linkageName, hg⟩
        · exact h

theorem CommonAttrs.Plain.foldl {given : List Given} (hgiven : DieContext.GivenPlain given)
    {common : CommonAttrs} (h : common.Plain) : (given.foldl CommonAttrs.apply common).Plain := by
  induction given generalizing common with
  | nil => exact h
  | cons g given ih =>
    obtain ⟨hg, hgiven⟩ := List.forall_mem_cons.mp hgiven
    exact ih hgiven (h.apply hg)

/-- A library whose names end at a zero. -/
def PlainDemangle (cxaDemangle : Bytes → Option Bytes) : Prop :=
  ∀ name, ∀ str ∈ cxaDemangle name, 0 ∉ str

section Collect

variable {cxaDemangle : Bytes → Option Bytes}

theorem CommonAttrs.Plain.getDemangledName {common : CommonAttrs} (h : common.Plain)
    (hdemangle : PlainDemangle cxaDemangle) : 0 ∉ common.getDemangledName cxaDemangle := by
  rw [CommonAttrs.getDemangledName]
  split
  · next linkageName hlinkage =>
    rw [CommonAttrs.demangle]
    cases hname : cxaDemangle linkageName with
    | some str => exact hdemangle linkageName str hname
    | none => exact h.linkageName linkageName hlinkage
  · next name _ hname => exact h.name name hname
  · exact List.not_mem_nil

theorem CommonAttrs.Plain.subprogram {common : CommonAttrs} (h : common.Plain)
    (hdemangle : PlainDemangle cxaDemangle) : ∀ p ∈ common.subprogram cxaDemangle, p.Plain := by
  intro p hp
  rw [CommonAttrs.subprogram] at hp
  split at hp
  · split at hp
    · obtain rfl := Option.some.inj hp
      exact ⟨h.linkageName, h.name, h.getDemangledName hdemangle⟩
    · cases hp
  · cases hp

/-- **A child.** -/
theorem visitChild_plain (hdemangle : PlainDemangle cxaDemangle) (collect : Bool)
    (child : AbbrevDecl) {given : List Given} (hgiven : DieContext.GivenPlain given)
    {subprograms : List Subprogram} (h : ∀ sub ∈ subprograms, sub.Plain) :
    ∀ sub ∈ (visitChild cxaDemangle collect child given subprograms).2, sub.Plain := by
  have hcommon : (given.foldl CommonAttrs.apply {}).Plain :=
    CommonAttrs.Plain.foldl hgiven ⟨nofun, nofun⟩
  rw [visitChild]
  split
  · dsimp only
    cases hp : (given.foldl CommonAttrs.apply {}).subprogram cxaDemangle with
    | none => exact h
    | some p =>
      intro sub hsub
      rcases List.mem_append.mp hsub with hsub | hsub
      · exact h sub hsub
      · rw [List.mem_singleton.mp hsub]
        exact hcommon.subprogram hdemangle p hp
  · exact h

theorem dieChildren_plain (D : DieContext) (hdemangle : PlainDemangle cxaDemangle)
    (depth fuel : Nat) (collect : Bool) {subprograms : List Subprogram} (h : ∀ sub ∈ subprograms, sub.Plain)
    (s : Bytes) :
    (D.dieChildren cxaDemangle depth fuel collect subprograms s).All
      fun r => ∀ sub ∈ r.1, sub.Plain := by
  induction fuel generalizing collect subprograms s with
  | zero => exact All.running
  | succ fuel ih =>
    refine All.any_bind fun r => ?_
    obtain ⟨child, s⟩ := r
    cases child with
    | none => exact All.returns h
    | some child =>
      refine All.bind (P := fun r => DieContext.GivenPlain r.1)
        (DieContext.dieAttrs_plain (DieContext.followSpecification_plain depth) _ _)
        fun r hr => ?_
      have hvisit := visitChild_plain hdemangle collect child hr h
      refine All.ite (fun _ => ?_) fun _ => ih collect hvisit r.2
      exact All.bind (ih _ hvisit r.2) fun below hbelow => ih collect hbelow below.2

/-- **A unit.** -/
theorem parseDebugInfoUnit_plain (hdemangle : PlainDemangle cxaDemangle) (depth : Nat)
    (result : WasmInfo) (unitS : Bytes) {subprograms : List Subprogram}
    (h : ∀ sub ∈ subprograms, sub.Plain) (s : Bytes) :
    (parseDebugInfoUnit cxaDemangle depth result unitS subprograms s).All
      fun subprograms => ∀ sub ∈ subprograms, sub.Plain := by
  refine All.any_bind fun version => All.any_bind fun _ => All.any_bind fun offset => ?_
  refine All.any_bind fun size => All.any_bind fun _ => All.any_bind fun root => ?_
  refine All.any_bind fun _ => All.any_bind fun decl => All.any_bind fun given => ?_
  refine All.bind (P := fun r => ∀ sub ∈ r.1, sub.Plain) ?_ fun r hr => All.returns hr
  rw [DieContext.parseDieChildren]
  exact All.ite (fun _ => dieChildren_plain _ hdemangle depth _ true h _) fun _ => All.returns h

/-- What the forest adds to a subprogram are its parent and its children. -/
theorem linked_plain {v : List Subprogram} (h : ∀ sub ∈ v, sub.Plain) :
    ∀ sub ∈ linked v, sub.Plain := by
  intro sub hsub
  obtain ⟨k, hk, rfl⟩ := List.mem_mapIdx.mp hsub
  obtain ⟨hlinkage, hname, hdemangled⟩ := h v[k] (List.getElem_mem hk)
  exact ⟨hlinkage, hname, hdemangled⟩

end Collect

/-- **A section.** -/
theorem parseDebugInfo_plain {P : Platform} (hdemangle : PlainDemangle P.cxaDemangle) (depth : Nat)
    {result : WasmInfo} (h : ∀ sub ∈ result.subprograms, sub.Plain) (s : Bytes) :
    (parseDebugInfo P depth result s).All fun info => ∀ sub ∈ info.subprograms, sub.Plain := by
  refine All.bind (P := fun v : List Subprogram => ∀ sub ∈ v, sub.Plain) ?_ fun v hv => ?_
  · refine loop_all (I := fun r : List Subprogram × Bytes => ∀ sub ∈ r.1, sub.Plain)
      (fun r hr => ?_) (s.length + 1) h
    obtain ⟨subprograms, s⟩ := r
    cases s with
    | nil => exact All.returns hr
    | cons b s =>
      refine All.any_bind fun unit => ?_
      exact All.bind (parseDebugInfoUnit_plain hdemangle depth result (b :: s) hr unit.1)
        fun found hfound => All.returns hfound
  · have hsorted := P.sortSubprograms.inOrder v
    have hsort : ∀ sub ∈ P.sortSubprograms.sort v, sub.Plain := fun sub hsub =>
      hv sub ((P.sortSubprograms.perm v).mem_iff.mp hsub)
    refine All.bind (P := fun v : List Subprogram => ∀ sub ∈ v, sub.Plain) ?_
      fun v hv => All.returns hv
    rcases fillAllParents_scans (walkOrder_of_sorted hsorted) with ⟨hrun, _⟩ | ⟨hrun, _⟩
    · rw [hrun]
      exact All.returns (linked_plain hsort)
    · rw [hrun]
      exact All.fails

/-- **No name that is found has a zero in it.** -/
theorem getInfoFromWasm_plain {T : Toolchain} (hdemangle : PlainDemangle T.cxaDemangle)
    (depth : Nat) (file : Bytes) :
    (getInfoFromWasm T depth file).All fun info => ∀ sub ∈ info.subprograms, sub.Plain := by
  refine All.bind (tablesFromWasm_subprograms T file) fun r hr => ?_
  refine All.bind (P := fun info : WasmInfo => ∀ sub ∈ info.subprograms, sub.Plain) ?_
    fun _ h => All.returns h
  refine scanCustom_all (fun name data result hresult => ?_) T.constants file.length r.2 ?_
  · rw [infoPass]
    exact All.ite (fun _ => parseDebugInfo_plain hdemangle depth hresult data)
      fun _ => All.returns hresult
  · rw [hr]
    exact List.forall_mem_nil _

end Microchain.DebugEosVm
