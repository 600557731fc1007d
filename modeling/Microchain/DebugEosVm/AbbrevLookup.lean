import Microchain.DebugEosVm.WasmInfo

/-!
# Looking up an abbreviation

`get_abbrev_decl` is a binary search, and the declarations are sorted only after
`.debug_info` has been read: while the entries are parsed they are in the order of the
file. A lookup then finds a declaration exactly if the ones that the search looks at on
the way are on the right side of it (`getAbbrevDecl_finds_iff`). A producer that numbers
the codes of each table upwards never sees the difference (`finds_of_sorted`).
-/

namespace Microchain.DebugEosVm

open Eosio Lib
open Lib.Run (All)

/-- The lookup returns the declaration with that table and code, and null only if there
is none. -/
def Finds (decls : List AbbrevDecl) (tableOffset code : UInt32) : Prop :=
  ∀ decl, getAbbrevDecl decls tableOffset code = some decl ↔
    decl ∈ decls ∧ decl.key = (tableOffset, code)

/-- On its way to the declaration at `i` the search sees smaller keys in front of it and
no smaller ones behind. -/
def InOrderTowards (decls : List AbbrevDecl) (i : Nat) (key : UInt32 × UInt32) : Prop :=
  ∀ m ∈ probes decls.length i, ((decls[m]?).any (pairLess ·.key key) ↔ m < i)

section Lookup

variable {decls : List AbbrevDecl} {tableOffset code : UInt32}

theorem getAbbrevDecl_eq_some_iff {decl : AbbrevDecl} :
    getAbbrevDecl decls tableOffset code = some decl ↔
      decls[lowerBound (pairLess ·.key (tableOffset, code)) decls]? = some decl ∧
        decl.key = (tableOffset, code) := by
  rw [getAbbrevDecl, Option.filter_eq_some_iff, decide_eq_true_eq]

/-- Declarations with different keys are at different positions. -/
theorem eq_of_key_eq (hdecls : (decls.map AbbrevDecl.key).Nodup) {i j : Nat} {decl decl' : AbbrevDecl}
    (hi : decls[i]? = some decl) (hj : decls[j]? = some decl') (hkey : decl.key = decl'.key) :
    i = j := by
  have hi' : (decls.map AbbrevDecl.key)[i]? = some decl.key := by rw [List.getElem?_map, hi]; rfl
  have hj' : (decls.map AbbrevDecl.key)[j]? = some decl.key := by
    rw [List.getElem?_map, hj, hkey]
    rfl
  obtain ⟨hlt, _⟩ := List.getElem?_eq_some_iff.mp hi'
  exact (List.getElem?_inj hlt hdecls).mp (hi'.trans hj'.symm)

theorem finds_iff (hdecls : (decls.map AbbrevDecl.key).Nodup) :
    Finds decls tableOffset code ↔
      ∀ (i : Nat) decl, decls[i]? = some decl → decl.key = (tableOffset, code) →
        InOrderTowards decls i (tableOffset, code) := by
  constructor
  · intro h i decl hi hkey
    obtain ⟨hit, _⟩ := getAbbrevDecl_eq_some_iff.mp
      ((h decl).mpr ⟨List.mem_of_getElem? hi, hkey⟩)
    obtain ⟨hlt, _⟩ := List.getElem?_eq_some_iff.mp hi
    exact (lowerBound_eq_iff hlt.le).mp (eq_of_key_eq hdecls hit hi rfl)
  · intro h decl
    rw [getAbbrevDecl_eq_some_iff]
    constructor
    · rintro ⟨hit, hkey⟩
      exact ⟨List.mem_of_getElem? hit, hkey⟩
    · rintro ⟨hmem, hkey⟩
      obtain ⟨i, hi⟩ := List.mem_iff_getElem?.mp hmem
      obtain ⟨hlt, _⟩ := List.getElem?_eq_some_iff.mp hi
      rw [(lowerBound_eq_iff hlt.le).mpr (h i decl hi hkey)]
      exact ⟨hi, hkey⟩

/-- In sorted declarations every lookup is right. -/
theorem finds_of_sorted (hdecls : decls.Pairwise fun a b => AbbrevDecl.less a b) :
    Finds decls tableOffset code := by
  have hnodup : (decls.map AbbrevDecl.key).Nodup := by
    refine List.pairwise_map.mpr (hdecls.imp fun {a b} hab heq => ?_)
    rw [AbbrevDecl.less, heq] at hab
    exact pairLess_strictWeak.irrefl _ hab
  refine (finds_iff hnodup).mpr fun i decl hi hkey m hm => ?_
  obtain ⟨hilt, rfl⟩ := List.getElem?_eq_some_iff.mp hi
  rw [← hkey]
  rcases Nat.lt_trichotomy m i with hlt | rfl | hgt
  · have hless := List.pairwise_iff_getElem.mp hdecls m i (hlt.trans hilt) hilt hlt
    rw [List.getElem?_eq_getElem (hlt.trans hilt)]
    exact iff_of_true hless hlt
  · rw [hi]
    exact iff_of_false (pairLess_strictWeak.irrefl _) (Nat.lt_irrefl m)
  · refine iff_of_false (fun hless => ?_) (Nat.lt_asymm hgt)
    obtain ⟨d, hd, hless⟩ := (Option.any_eq_true _ _).mp hless
    obtain ⟨hmlt, rfl⟩ := List.getElem?_eq_some_iff.mp hd
    exact pairLess_strictWeak.asymm _ _ hless
      (List.pairwise_iff_getElem.mp hdecls i m hilt hmlt hgt)

end Lookup

/-- Reading `.debug_info` leaves the declarations as they are. -/
theorem infoPass_abbrevDecls {decls : List AbbrevDecl} (T : Toolchain) (depth : Nat)
    (name data : Bytes) (result : WasmInfo) (h : result.abbrevDecls = decls) :
    (infoPass T depth name data result).All fun r => r.abbrevDecls = decls := by
  rw [infoPass]
  split
  · refine All.any_bind fun _ => ?_
    exact All.any_bind fun _ => All.returns h
  · exact All.returns h

/-- `.debug_info` of a file is read with `result`, where the passes before have found
`tables`: the lookups made for its entries are made in `result.abbrevDecls`. -/
def ReadsInfoWith (T : Toolchain) (depth : Nat) (file : Bytes) (tables result : WasmInfo) : Prop :=
  ∃ stream s, tablesFromWasm T file = .returns (tables, stream) ∧
    Reaches (scanTurn file.length (withCustom T.constants (infoPass T depth))) (tables, stream)
      (result, s)

/-- **A lookup made for `.debug_info` is right exactly if the declarations that the search
looks at are in order towards the one declared.** -/
theorem getAbbrevDecl_finds_iff (T : Toolchain) (depth : Nat) (file : Bytes)
    (tables result : WasmInfo) (hresult : ReadsInfoWith T depth file tables result)
    (hdecls : (tables.abbrevDecls.map AbbrevDecl.key).Nodup) (tableOffset code : UInt32) :
    Finds result.abbrevDecls tableOffset code ↔
      ∀ (i : Nat) decl, tables.abbrevDecls[i]? = some decl → decl.key = (tableOffset, code) →
        InOrderTowards tables.abbrevDecls i (tableOffset, code) := by
  obtain ⟨stream, s, _, hreach⟩ := hresult
  have heq : result.abbrevDecls = tables.abbrevDecls :=
    scan_reaches (I := fun r => r.abbrevDecls = tables.abbrevDecls)
      (withCustom_all (infoPass_abbrevDecls T depth) T.constants) hreach rfl
  rw [heq]
  exact finds_iff hdecls

/-- A wasm file with one table, which declares the codes 2 and 1, and an entry of code 1. -/
def descendingFile : Bytes :=
  [0, 97, 115, 109, 1, 0, 0, 0,
   0, 25, 13, 46, 100, 101, 98, 117, 103, 95, 97, 98, 98, 114, 101, 118,
   2, 46, 0, 0, 0, 1, 17, 1, 0, 0, 0,
   0, 25, 11, 46, 100, 101, 98, 117, 103, 95, 105, 110, 102, 111,
   9, 0, 0, 0, 4, 0, 0, 0, 0, 0, 4, 1, 0]

/-- Its declarations. -/
def descendingDecls : List AbbrevDecl :=
  [{ code := 2, tag := dwTagSubprogram }, { code := 1, tag := dwTagCompileUnit, hasChildren := true }]

/-- The file behind its header. -/
def descendingSections : Bytes := descendingFile.drop 8

theorem descending_readsInfoWith :
    ReadsInfoWith plainToolchain 0 descendingFile { abbrevDecls := descendingDecls }
      { abbrevDecls := descendingDecls } :=
  ⟨descendingSections, descendingSections, by decide +kernel, .refl _⟩

theorem getAbbrevDecl_finds_iff_descending :
    Finds descendingDecls 0 1 ↔
      ∀ (i : Nat) decl, descendingDecls[i]? = some decl → decl.key = (0, 1) →
        InOrderTowards descendingDecls i (0, 1) :=
  getAbbrevDecl_finds_iff plainToolchain 0 descendingFile { abbrevDecls := descendingDecls }
    { abbrevDecls := descendingDecls } descending_readsInfoWith (by decide) 0 1

/-- Its entry is looked up in vain, and the file is refused. -/
theorem descending_not_found :
    getInfoFromWasm plainToolchain 0 descendingFile =
        .fails (.reported "Bad abbrev in .debug_info") ∧
      ¬ ∀ (T : Toolchain) (depth : Nat) (file : Bytes) (tables result : WasmInfo),
        ReadsInfoWith T depth file tables result →
          (tables.abbrevDecls.map AbbrevDecl.key).Nodup →
            ∀ tableOffset code, Finds result.abbrevDecls tableOffset code := by
  refine ⟨by decide +kernel, fun h => ?_⟩
  have hfinds := h plainToolchain 0 descendingFile { abbrevDecls := descendingDecls }
    { abbrevDecls := descendingDecls } descending_readsInfoWith (by decide) 0 1
  have hnone : getAbbrevDecl descendingDecls 0 1 = none := by decide
  have hsome := (hfinds { code := 1, tag := dwTagCompileUnit, hasChildren := true }).mpr
    ⟨by decide, by decide⟩
  exact nomatch hnone.symm.trans hsome

end Microchain.DebugEosVm
