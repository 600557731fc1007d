import Microchain.DebugEosVm.DebugInfo

/-!
# What a wasm file tells the debugger (`dwarf.cpp`)

`get_info_from_wasm` goes over the sections of a file three times: for the functions of
the code section, for the line numbers, abbreviations and strings, and, with these in
hand, for the entries of `.debug_info`. Then it sorts what it found, and
`get_location`, `get_subprogram` and `get_abbrev_decl` search in that.
-/

namespace Microchain.DebugEosVm

open Eosio Lib

/-- What `eosio/vm` has of the wasm format: `constants::magic`, `constants::version` and
two of `section_id`. -/
structure WasmConstants where
  magic : UInt32
  version : UInt32
  customSection : UInt8
  codeSection : UInt8

/-- The libraries that the debugger is built with. -/
structure Toolchain extends Platform where
  constants : WasmConstants

theorem location_strictWeak : StrictWeak Location.less := by
  constructor
  · intro a b hab
    simp only [Location.less, decide_eq_true_eq, UInt32.not_lt] at hab ⊢
    exact UInt32.le_of_lt hab
  · intro a b c hac
    simp only [Location.less, decide_eq_true_eq] at hac ⊢
    by_cases hab : a.beginAddress < b.beginAddress
    · exact .inl hab
    · exact .inr (UInt32.lt_of_le_of_lt (UInt32.not_lt.mp hab) hac)

theorem pairLess_strictWeak : StrictWeak pairLess := by
  constructor
  · intro a b
    simp only [pairLess_iff, UInt32.lt_iff_toNat_lt, ← UInt32.toNat_inj]
    omega
  · intro a b c
    simp only [pairLess_iff, UInt32.lt_iff_toNat_lt, ← UInt32.toNat_inj]
    omega

/-- The numbers of the wasm format, sorts that are stable, and names that are not mangled. -/
def plainToolchain : Toolchain where
  cxaDemangle _ := none
  sortLocations := .stable location_strictWeak
  sortAbbrevDecls := .stable (pairLess_strictWeak.comap AbbrevDecl.key)
  sortSubprograms := .stable (pairLess_strictWeak.comap Subprogram.key)
  constants := { magic := 0x6d736100, version := 1, customSection := 0, codeSection := 10 }

/-! ## Sections -/

/-- `wasm_section` -/
structure WasmSection where
  id : UInt8
  data : Bytes
  /-- where `data` ends, relative to the beginning of the file -/
  dataEnd : Nat
deriving DecidableEq, Repr

/-- `from_bin(wasm_section&)` in a file of `size` bytes. -/
def wasmSectionFromBin (size : Nat) : Parser WasmSection := fun s => do
  let (id, s) ← reads uint8FromBin s
  let (data, s) ← reads inputStreamFromBin s
  .returns ({ id, data, dataEnd := size - s.length }, s)

/-- A turn of `scan`, where `f` changes a state of type `σ`. -/
def scanTurn {σ : Type} (size : Nat) (f : WasmSection → σ → Run Fault σ) :
    σ × Bytes → Run Fault (Turn (σ × Bytes) σ)
  | (state, []) => .returns (.done state)
  | (state, b :: s) => do
    let (sec, s) ← wasmSectionFromBin size (b :: s)
    let state ← f sec state
    .returns (.again (state, s))

/-- `scan` -/
def scan {σ : Type} (size : Nat) (f : WasmSection → σ → Run Fault σ) (stream : Bytes) (state : σ) :
    Run Fault σ :=
  loop (scanTurn size f) (stream.length + 1) (state, stream)

/-- `f` is given the name of a custom section and the data after it. -/
def withCustom {σ : Type} (constants : WasmConstants) (f : Bytes → Bytes → σ → Run Fault σ)
    (sec : WasmSection) (state : σ) : Run Fault σ :=
  if sec.id = constants.customSection then do
    let (name, data) ← reads stringFromBin sec.data
    f name data state
  else .returns state

/-- `scan_custom` -/
def scanCustom {σ : Type} (constants : WasmConstants) (size : Nat)
    (f : Bytes → Bytes → σ → Run Fault σ) (stream : Bytes) (state : σ) : Run Fault σ :=
  scan size (withCustom constants f) stream state

/-- What `f` keeps, a turn keeps. -/
theorem scanTurn_all {σ : Type} {I : σ → Prop} {f : WasmSection → σ → Run Fault σ}
    (hf : ∀ sec state, I state → (f sec state).All I) (size : Nat) (r : σ × Bytes) (h : I r.1) :
    (scanTurn size f r).All (Turn.Holds (fun r => I r.1) I) := by
  obtain ⟨state, s⟩ := r
  cases s with
  | nil => exact Run.All.returns h
  | cons b s =>
    refine Run.All.any_bind fun r => ?_
    exact Run.All.bind (hf r.1 state h) fun state' hstate' => Run.All.returns hstate'

theorem scan_all {σ : Type} {I : σ → Prop} {f : WasmSection → σ → Run Fault σ}
    (hf : ∀ sec state, I state → (f sec state).All I) (size : Nat) (stream : Bytes) {state : σ}
    (h : I state) : (scan size f stream state).All I :=
  loop_all (scanTurn_all hf size) (stream.length + 1) (s := (state, stream)) h

/-- Every state that a scan comes to has it. -/
theorem scan_reaches {σ : Type} {I : σ → Prop} {f : WasmSection → σ → Run Fault σ}
    (hf : ∀ sec state, I state → (f sec state).All I) {size : Nat} {r r' : σ × Bytes}
    (hreach : Reaches (scanTurn size f) r r') (h : I r.1) : I r'.1 := by
  induction hreach with
  | refl => exact h
  | tail _ hturn ih => exact scanTurn_all hf size _ ih _ hturn

theorem withCustom_all {σ : Type} {I : σ → Prop} {f : Bytes → Bytes → σ → Run Fault σ}
    (hf : ∀ name data state, I state → (f name data state).All I) (constants : WasmConstants)
    (sec : WasmSection) (state : σ) (h : I state) : (withCustom constants f sec state).All I := by
  rw [withCustom]
  split
  · exact Run.All.any_bind fun r => hf r.1 r.2 state h
  · exact Run.All.returns h

theorem scanCustom_all {σ : Type} {I : σ → Prop} {f : Bytes → Bytes → σ → Run Fault σ}
    (hf : ∀ name data state, I state → (f name data state).All I) (constants : WasmConstants)
    (size : Nat) (stream : Bytes) {state : σ} (h : I state) :
    (scanCustom constants size f stream state).All I :=
  scan_all (withCustom_all hf constants) size stream h

/-! ## The passes -/

/-- A function of the code section, whose data ends at `dataEnd` in the file. -/
def wasmFnFromBin (dataEnd : Nat) : FromBin WasmFn := fun s => do
  let sizePos := UInt32.ofNat (dataEnd - s.length)
  let (size, s) ← varuint32FromBin s
  let localsPos := UInt32.ofNat (dataEnd - s.length)
  let (_, s) ← readBytes size.toNat s
  .ok ({ sizePos, localsPos, endPos := UInt32.ofNat (dataEnd - s.length) }, s)

/-- What the first pass does with a section. -/
def codePass (constants : WasmConstants) (sec : WasmSection) (result : WasmInfo) :
    Run Fault WasmInfo :=
  if sec.id = constants.codeSection then do
    let (wasmFns, _) ← reads (vectorFromBin (wasmFnFromBin sec.dataEnd)) sec.data
    let wasmCodeOffset := UInt32.ofNat (sec.dataEnd - sec.data.length)
    .returns { result with wasmCodeOffset, wasmFns }
  else .returns result

/-- The name of a section. -/
def sectionName (name : List Char) : Bytes := name.map fun ch => UInt8.ofNat ch.toNat

def debugLineName : Bytes :=
  sectionName ['.', 'd', 'e', 'b', 'u', 'g', '_', 'l', 'i', 'n', 'e']

def debugAbbrevName : Bytes :=
  sectionName ['.', 'd', 'e', 'b', 'u', 'g', '_', 'a', 'b', 'b', 'r', 'e', 'v']

def debugStrName : Bytes :=
  sectionName ['.', 'd', 'e', 'b', 'u', 'g', '_', 's', 't', 'r']

def debugInfoName : Bytes :=
  sectionName ['.', 'd', 'e', 'b', 'u', 'g', '_', 'i', 'n', 'f', 'o']

/-- What `get_info_from_wasm` does with `.debug_str`. -/
def storeDebugStr (result : WasmInfo) (data : Bytes) : Run Fault WasmInfo := do
  check (data = [] ∨ data.getLast? = some 0) ".debug_str is malformed"
  .returns { result with strings := data }

/-- `result` and `files` -/
abbrev Collected := WasmInfo × List (Bytes × UInt32)

/-- What the second pass does with a custom section. -/
def tablesPass (name data : Bytes) : Collected → Run Fault Collected
  | (result, files) =>
    if name = debugLineName then do
      let found ← parseDebugLine { result := result.toInfo, files } data
      .returns ({ result with toInfo := found.result }, found.files)
    else if name = debugAbbrevName then do
      let result ← parseDebugAbbrev result data
      .returns (result, files)
    else if name = debugStrName then do
      let result ← storeDebugStr result data
      .returns (result, files)
    else .returns (result, files)

/-- What the third pass does with a custom section. -/
def infoPass (T : Toolchain) (depth : Nat) (name data : Bytes) (result : WasmInfo) :
    Run Fault WasmInfo :=
  if name = debugInfoName then parseDebugInfo T.toPlatform depth result data
  else .returns result

/-- The sections of a file, behind its `wasm_header`. -/
def wasmSections (constants : WasmConstants) (file : Bytes) : Run Fault Bytes := do
  let (magic, s) ← reads uint32FromBin file
  let (version, s) ← reads uint32FromBin s
  check (magic = constants.magic) "wasm file magic number does not match"
  check (version = constants.version) "wasm file version does not match"
  .returns s

/-- `get_info_from_wasm` up to `.debug_info`. -/
def tablesFromWasm (T : Toolchain) (file : Bytes) : Run Fault (WasmInfo × Bytes) := do
  let stream ← wasmSections T.constants file
  let result ← scan file.length (codePass T.constants) stream {}
  let (result, _) ← scanCustom T.constants file.length tablesPass stream (result, [])
  .returns (result, stream)

/-- `get_info_from_wasm` -/
def getInfoFromWasm (T : Toolchain) (depth : Nat) (file : Bytes) : Run Fault WasmInfo := do
  let (result, stream) ← tablesFromWasm T file
  let result ← scanCustom T.constants file.length (infoPass T depth) stream result
  .returns { result with
    locations := T.sortLocations.sort result.locations
    abbrevDecls := T.sortAbbrevDecls.sort result.abbrevDecls }

/-! ## Lookups -/

/-- The last element whose beginning a search passes over, if `address` is below its end. -/
def lastBefore {α : Type} (beginAddress endAddress : α → UInt32) (v : List α) (address : UInt32) :
    Option α :=
  match lowerBound (fun b => !decide (address < beginAddress b)) v with
  | 0 => none
  | it + 1 => (v[it]?).filter fun a => address < endAddress a

/-- It is the last element that begins at or below `address`. -/
theorem lastBefore_eq_some_iff {α : Type} {beginAddress endAddress : α → UInt32} {v : List α}
    (hv : v.Pairwise fun x y => beginAddress x ≤ beginAddress y) {address : UInt32} {a : α} :
    lastBefore beginAddress endAddress v address = some a ↔
      ∃ i : Nat, v[i]? = some a ∧ beginAddress a ≤ address ∧ address < endAddress a ∧
        ∀ (j : Nat) b, i < j → v[j]? = some b → address < beginAddress b := by
  have hpart : Partitioned (fun b => !decide (address < beginAddress b)) v := by
    refine hv.imp fun hxy hy => ?_
    rw [Bool.not_eq_true', decide_eq_false_iff_not, UInt32.not_lt] at hy ⊢
    exact UInt32.le_trans hxy hy
  obtain ⟨hle, hlow, hhigh⟩ := Splits.of_partitioned hpart
  simp only [Bool.not_eq_true', decide_eq_false_iff_not, UInt32.not_lt, UInt32.not_le] at hlow hhigh
  rw [lastBefore]
  generalize lowerBound (fun b => !decide (address < beginAddress b)) v = it at *
  constructor
  · intro h
    match it, h with
    | it + 1, h =>
      obtain ⟨ha, hend⟩ := Option.filter_eq_some_iff.mp h
      obtain ⟨hit, rfl⟩ := List.getElem?_eq_some_iff.mp ha
      refine ⟨it, ha, hlow it hit (Nat.lt_succ_self it), of_decide_eq_true hend, ?_⟩
      intro j b hj hb
      obtain ⟨hjlen, rfl⟩ := List.getElem?_eq_some_iff.mp hb
      exact hhigh j hjlen hj
  · rintro ⟨i, ha, hbegin, hend, hlast⟩
    obtain ⟨hi, rfl⟩ := List.getElem?_eq_some_iff.mp ha
    have hlt : i < it := Nat.lt_of_not_le fun hge => UInt32.not_lt.mpr hbegin (hhigh i hi hge)
    match it with
    | it + 1 =>
      -- nothing behind `i` is passed over
      have heq : it = i := by
        by_contra hne
        have hlen : it < v.length := hle
        have habove := hlast it _ (by omega) (List.getElem?_eq_getElem hlen)
        exact UInt32.not_lt.mpr (hlow it hlen (Nat.lt_succ_self it)) habove
      subst heq
      exact Option.filter_eq_some_iff.mpr ⟨ha, decide_eq_true hend⟩

/-- `info::get_location` -/
def WasmInfo.getLocation (info : WasmInfo) (address : UInt32) : Option Location :=
  lastBefore Location.beginAddress Location.endAddress info.locations address

/-- `info::get_subprogram` -/
def WasmInfo.getSubprogram (info : WasmInfo) (address : UInt32) : Option Subprogram :=
  lastBefore Subprogram.beginAddress Subprogram.endAddress info.subprograms address

end Microchain.DebugEosVm
