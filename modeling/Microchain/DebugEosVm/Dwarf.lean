import Microchain.Eosio.Bin

/-!
# Source lines in DWARF (`dwarf.hpp`, `dwarf.cpp`)

What the debugger support reads from the `.debug_line` section of a wasm file and writes
for the machine code made from it: source locations, the map from wasm to machine
instructions, and the header of a line-number program.
-/

namespace Microchain.DebugEosVm

open Eosio

/-- `jit_instr_loc`: where the machine code of a wasm instruction starts. -/
structure JitInstrLoc where
  /-- relative to the beginning of the generated code -/
  codeOffset : UInt32
  /-- relative to the beginning of the wasm file -/
  wasmAddr : UInt32
deriving DecidableEq, Repr

/-- `location`: the source line of a range of addresses, relative to the contents of the
code section. -/
structure Location where
  beginAddress : UInt32 := 0
  endAddress : UInt32 := 0
  fileIndex : UInt32 := 0
  line : UInt32 := 0
deriving DecidableEq, Repr

/-- `info`, as far as source lines go. -/
structure Info where
  wasmCodeOffset : UInt32 := 0
  files : List Bytes := []
  locations : List Location := []
deriving DecidableEq, Repr

/-- `lns_version` -/
def lnsVersion : UInt16 := 4

/-! The standard opcodes of a line-number program, `dw_lns_*`. -/

def dwLnsCopy : UInt8 := 0x01
def dwLnsAdvancePc : UInt8 := 0x02
def dwLnsAdvanceLine : UInt8 := 0x03
def dwLnsSetFile : UInt8 := 0x04
def dwLnsSetColumn : UInt8 := 0x05
def dwLnsNegateStmt : UInt8 := 0x06
def dwLnsSetBasicBlock : UInt8 := 0x07
def dwLnsConstAddPc : UInt8 := 0x08
def dwLnsFixedAdvancePc : UInt8 := 0x09
def dwLnsSetPrologueEnd : UInt8 := 0x0a
def dwLnsSetEpilogueBegin : UInt8 := 0x0b
def dwLnsSetIsa : UInt8 := 0x0c

/-! The extended opcodes, `dw_lne_*`. -/

def dwLneEndSequence : UInt8 := 0x01
def dwLneSetAddress : UInt8 := 0x02
def dwLneSetDiscriminator : UInt8 := 0x04

/-- `line_header` -/
structure LineHeader where
  minimumInstructionLength : UInt8 := 1
  maximumOperationsPerInstruction : UInt8 := 1
  defaultIsStmt : UInt8 := 1
  lineBase : Int8 := -5
  lineRange : UInt8 := 14
  opcodeBase : UInt8 := 13
  standardOpcodeLengths : List UInt8 := [0, 0, 1, 1, 1, 1, 0, 0, 0, 1, 0, 0, 1]
  includeDirectories : List Bytes := []
  fileNames : List Bytes := []
deriving DecidableEq, Repr

/-! ## Abbreviations and subprograms -/

/-- `abbrev_attr` -/
structure AbbrevAttr where
  name : UInt32 := 0
  form : UInt32 := 0
deriving DecidableEq, Repr

/-- `abbrev_decl` -/
structure AbbrevDecl where
  tableOffset : UInt32 := 0
  code : UInt32 := 0
  tag : UInt32 := 0
  hasChildren : Bool := false
  attrs : List AbbrevAttr := []
deriving DecidableEq, Repr

/-- `subprogram` -/
structure Subprogram where
  beginAddress : UInt32
  endAddress : UInt32
  linkageName : Option Bytes := none
  name : Option Bytes := none
  demangledName : Bytes := []
  parent : Option UInt32 := none
  children : List UInt32 := []
deriving DecidableEq, Repr

/-- `wasm_fn`: where a function is in the wasm file. -/
structure WasmFn where
  sizePos : UInt32 := 0
  localsPos : UInt32 := 0
  endPos : UInt32 := 0
deriving DecidableEq, Repr

/-- `info`, with what the sections other than `.debug_line` give. -/
structure WasmInfo extends Info where
  strings : Bytes := []
  abbrevDecls : List AbbrevDecl := []
  subprograms : List Subprogram := []
  wasmFns : List WasmFn := []
deriving DecidableEq, Repr

/-- `operator<` of a `std::pair` of numbers. -/
def pairLess (a b : UInt32 × UInt32) : Bool := a.1 < b.1 || (a.1 = b.1 && a.2 < b.2)

theorem pairLess_iff {a b : UInt32 × UInt32} :
    pairLess a b ↔ a.1 < b.1 ∨ a.1 = b.1 ∧ a.2 < b.2 := by
  simp [pairLess]

/-- `abbrev_decl::key` -/
def AbbrevDecl.key (decl : AbbrevDecl) : UInt32 × UInt32 := (decl.tableOffset, decl.code)

/-- `subprogram::key`: of two that begin together, the one that ends later is first. -/
def Subprogram.key (subp : Subprogram) : UInt32 × UInt32 := (subp.beginAddress, ~~~subp.endAddress)

/-- `operator<(const location&, const location&)` -/
def Location.less (a b : Location) : Bool := a.beginAddress < b.beginAddress

/-- `operator<(const abbrev_decl&, const abbrev_decl&)` -/
def AbbrevDecl.less (a b : AbbrevDecl) : Bool := pairLess a.key b.key

/-- `operator<(const subprogram&, const subprogram&)` -/
def Subprogram.less (a b : Subprogram) : Bool := pairLess a.key b.key

end Microchain.DebugEosVm
