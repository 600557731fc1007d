import Microchain.DebugEosVm.WasmInfo
import Microchain.DebugEosVm.LineProgram
import Microchain.Lib.Elf

/-!
# Writing `.debug_info`, `.debug_abbrev` and `.symtab` (`dwarf.cpp`)

`write_subprograms` tells a debugger which functions there are in the machine code: an entry
for the unit, one for each subprogram that is not inlined and lies in one function of the wasm
file, and a symbol for each of these. `write_die` gives an entry the abbreviation of those
with the same tag and the same attributes, and declares a new one where there is none.

Left out is what the source collects and does not use: the positions of the entries, and the
references to them, of which there are none.
-/

namespace Microchain.DebugEosVm

open Eosio Lib

/-! ## Strings -/

/-- `add_str`: the characters up to a zero. -/
def addStr (strings s : Bytes) : UInt32 × Bytes :=
  let str := s.takeWhile (· ≠ 0)
  if str = [] then (0, strings) else (UInt32.ofNat strings.length, strings ++ (str ++ [0]))

/-! ## Entries -/

def dwAtStmtList : UInt32 := 0x10
def dwAtLanguage : UInt32 := 0x13

/-- `dw_lang_c_plus_plus` -/
def dwLangCPlusPlus : UInt64 := 0x0004

/-- `attr_form_value::value_type` -/
inductive FormValue where
  | byte (v : UInt8)
  | word (v : UInt64)
  | string (v : Bytes)
deriving DecidableEq, Repr

/-- `attr_form_value` -/
structure AttrFormValue where
  attr : UInt32 := 0
  form : UInt32 := 0
  value : FormValue
deriving DecidableEq, Repr

/-- `attr_form_value::key`, which leaves the value out. -/
def AttrFormValue.key (a : AttrFormValue) : UInt32 × UInt32 := (a.attr, a.form)

/-- `die_pattern` -/
structure DiePattern where
  tag : UInt32 := 0
  hasChildren : Bool := false
  attrs : List AttrFormValue := []
deriving DecidableEq, Repr

/-- What patterns are compared by. -/
structure PatternKey where
  tag : UInt32
  hasChildren : Bool
  attrs : List (UInt32 × UInt32)
deriving DecidableEq, Repr

/-- `die_pattern::key` -/
def DiePattern.key (die : DiePattern) : PatternKey where
  tag := die.tag
  hasChildren := die.hasChildren
  attrs := die.attrs.map AttrFormValue.key

/-- `to_bin` of the alternatives of a value. -/
def FormValue.toBin : FormValue → Bytes
  | byte v => [v]
  | word v => uint64ToBin v
  | string v => v ++ [0]

/-- What `write_die` writes for a new abbreviation. -/
def PatternKey.toBin (key : PatternKey) (code : UInt32) : Bytes :=
  varuint32ToBin code ++ varuint32ToBin key.tag ++ [if key.hasChildren then 1 else 0] ++
    key.attrs.flatMap (fun a => varuint32ToBin a.1 ++ varuint32ToBin a.2) ++
    varuint32ToBin 0 ++ varuint32ToBin 0

/-- What `write_die` writes for the entry. -/
def DiePattern.toBin (die : DiePattern) (code : UInt32) : Bytes :=
  varuint32ToBin code ++ die.attrs.flatMap fun a => a.value.toBin

/-- What `write_subprograms` writes to, and its `codes`. -/
structure Tables where
  strings : Bytes := []
  abbrevData : Bytes := []
  infoData : Bytes := []
  symbolData : Bytes := []
  codes : List (PatternKey × UInt32) := []
deriving DecidableEq, Repr

/-- `write_die` -/
def Tables.writeDie (t : Tables) (die : DiePattern) : Tables :=
  match t.codes.find? (·.1 = die.key) with
  | some (_, code) => { t with infoData := t.infoData ++ die.toBin code }
  | none =>
    let code := UInt32.ofNat (t.codes.length + 1)
    { t with
      codes := t.codes ++ [(die.key, code)]
      abbrevData := t.abbrevData ++ die.key.toBin code
      infoData := t.infoData ++ die.toBin code }

/-! ## Subprograms -/

/-- `get_wasm_fn`: the number of the function that an address is in. -/
def getWasmFn (info : WasmInfo) (wasmAddr : UInt32) : Option UInt32 :=
  match lowerBound (fun b => !decide (wasmAddr < b.sizePos)) info.wasmFns with
  | 0 => none
  | it + 1 =>
    ((info.wasmFns[it]?).filter fun fn => fn.sizePos ≤ wasmAddr ∧ wasmAddr < fn.endPos).map
      fun _ => UInt32.ofNat it

/-- The entry of the unit. -/
def compileUnitDie (codeStart codeSize : UInt64) : DiePattern where
  tag := dwTagCompileUnit
  hasChildren := true
  attrs :=
    [{ attr := dwAtLanguage, form := dwFormData8, value := .word dwLangCPlusPlus },
      { attr := dwAtLowPc, form := dwFormAddr, value := .word codeStart },
      { attr := dwAtHighPc, form := dwFormAddr, value := .word (codeStart + codeSize) },
      { attr := dwAtStmtList, form := dwFormSecOffset, value := .word 0 }]

/-- The attributes of a subprogram that are names. -/
def nameAttrs (sub : Subprogram) : List AttrFormValue :=
  (match sub.linkageName with
    | some linkageName =>
      [{ attr := dwAtLinkageName, form := dwFormString, value := .string linkageName }]
    | none => []) ++
  match sub.name, sub.linkageName with
  | some name, _ => [{ attr := dwAtName, form := dwFormString, value := .string name }]
  | none, some _ =>
    [{ attr := dwAtName, form := dwFormString, value := .string sub.demangledName }]
  | none, none => []

/-- The entry of a subprogram. -/
def subprogramDie (sub : Subprogram) (fnBegin fnEnd : UInt64) : DiePattern where
  tag := dwTagSubprogram
  hasChildren := false
  attrs :=
    [{ attr := dwAtLowPc, form := dwFormAddr, value := .word fnBegin },
      { attr := dwAtHighPc, form := dwFormAddr, value := .word fnEnd }] ++ nameAttrs sub

/-- `ELF64_ST_INFO(STB_GLOBAL, STT_FUNC)` -/
def stInfo : UInt8 := 0x12

/-- The name of a symbol. -/
def symbolName (sub : Subprogram) : Bytes := (sub.linkageName.or sub.name).getD []

/-- The entry and the symbol of a subprogram. -/
def Tables.writeFunction (t : Tables) (codeSection : UInt16) (sub : Subprogram)
    (fnBegin fnEnd : UInt64) : Tables :=
  let t := t.writeDie (subprogramDie sub fnBegin fnEnd)
  let (name, strings) := addStr t.strings (symbolName sub)
  let sym : Elf.Sym :=
    { name, info := stInfo, other := 0, shndx := codeSection, value := fnBegin
      size := fnEnd - fnBegin }
  { t with strings, symbolData := t.symbolData ++ sym.bytes }

/-- The body of the loop over the subprograms. -/
def Tables.writeSubprogram (info : WasmInfo) (fnLocs : List JitFnLoc) (codeStart : UInt64)
    (codeSection : UInt16) (t : Tables) (sub : Subprogram) : Run Fault Tables :=
  match getWasmFn info (info.wasmCodeOffset + sub.beginAddress) with
  | none => .returns t
  | some fn => do
    let wasmFn ← indexAt info.wasmFns fn.toNat
    if info.wasmCodeOffset + sub.endAddress > wasmFn.endPos then .returns t
    else if sub.parent.isSome then .returns t
    else do
      let loc ← indexAt fnLocs fn.toNat
      .returns (t.writeFunction codeSection sub (codeStart + loc.codePrologue.toUInt64)
        (codeStart + loc.codeEnd.toUInt64))

/-- `memcpy` into a vector. -/
def overwrite (data : Bytes) (pos : Nat) (part : Bytes) : Bytes :=
  data.take pos ++ part ++ data.drop (pos + part.length)

/-- The loop over the subprograms. -/
def Tables.writeSubs (info : WasmInfo) (fnLocs : List JitFnLoc) (codeStart : UInt64)
    (codeSection : UInt16) : Tables → List Subprogram → Run Fault Tables
  | t, [] => .returns t
  | t, sub :: subs => do
    let t ← t.writeSubprogram info fnLocs codeStart codeSection sub
    writeSubs info fnLocs codeStart codeSection t subs

/-- What stands in front of the entries: a length that is written later, the version, the
offset of the abbreviations and the size of an address. -/
def infoPrefix (length : UInt64) : Bytes :=
  uint32ToBin 0xffffffff ++ uint64ToBin length ++ uint16ToBin compileUnitVersion ++
    uint64ToBin 0 ++ [8]

/-- `write_subprograms` -/
def Tables.writeSubprograms (info : WasmInfo) (fnLocs : List JitFnLoc)
    (codeStart codeSize : UInt64) (codeSection : UInt16) (t : Tables) : Run Fault Tables := do
  let lengthPos := t.infoData.length + 4
  let innerPos := lengthPos + 8
  let t := { t with codes := [], infoData := t.infoData ++ infoPrefix 0 }
  let t := t.writeDie (compileUnitDie codeStart codeSize)
  let t := { t with symbolData := t.symbolData ++ ({} : Elf.Sym).bytes }
  let t ← t.writeSubs info fnLocs codeStart codeSection info.subprograms
  -- the ends of the children and of the unit
  let infoData := t.infoData ++ varuint32ToBin 0 ++ varuint32ToBin 0
  let innerSize := UInt64.ofNat (infoData.length - innerPos)
  .returns { t with infoData := overwrite infoData lengthPos (uint64ToBin innerSize) }

end Microchain.DebugEosVm
