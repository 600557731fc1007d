import Microchain.DebugEosVm.Dwarf
import Microchain.Lib.LowerBound

/-!
# Writing `.debug_line` (`dwarf.cpp`, `debug_eos_vm.hpp`)

`write_line_program` describes the machine code made from a wasm file to a debugger: one
row of a line-number program for each source location that the JIT's instruction map
gives machine addresses to. It follows the consumer's registers for the address, the
file and the line, and writes only what changes them.

`fn_locs` is handed on by the source and used by none of these functions, so that it
stands only where `debug_instr_map::set` checks it.
-/

namespace Microchain.DebugEosVm

open Eosio Lib

/-! ## The instruction map -/

/-- `jit_fn_loc` -/
structure JitFnLoc where
  codePrologue : UInt32 := 0
  codeBody : UInt32 := 0
  codeEpilogue : UInt32 := 0
  codeEnd : UInt32 := 0
  wasmBegin : UInt32 := 0
  wasmEnd : UInt32 := 0
deriving DecidableEq, Repr

/-- The loop of `debug_instr_map::set` over the functions. -/
def checkFnLocs : UInt32 → UInt32 → List JitFnLoc → Except String Unit
  | _, _, [] => .ok ()
  | code, wasm, fn :: fnLocs =>
    if ¬ (code ≤ fn.codePrologue ∧ fn.codePrologue ≤ fn.codeBody ∧
        fn.codeBody ≤ fn.codeEpilogue ∧ fn.codeEpilogue ≤ fn.codeEnd) then
      .error "function parts are out of order"
    else if ¬ (wasm ≤ fn.wasmBegin ∧ fn.wasmBegin ≤ fn.wasmEnd) then
      .error "function wasm is out of order"
    else checkFnLocs fn.codeEnd fn.wasmEnd fnLocs

/-- The loop of `debug_instr_map::set` over the instructions. -/
def checkInstrLocs : UInt32 → UInt32 → List JitInstrLoc → Except String Unit
  | _, _, [] => .ok ()
  | code, wasm, instr :: instrLocs =>
    if ¬ code ≤ instr.codeOffset then .error "jit instructions are out of order"
    else if ¬ wasm ≤ instr.wasmAddr then .error "jit instructions are out of order"
    else checkInstrLocs instr.codeOffset instr.wasmAddr instrLocs

/-- `debug_instr_map::set`: the map is taken, or an exception thrown. -/
def debugInstrMapSet (fnLocs : List JitFnLoc) (instrLocs : List JitInstrLoc) : Except String Unit := do
  checkFnLocs 0 0 fnLocs
  checkInstrLocs 0 0 instrLocs

/-- `std::lower_bound` over the instructions by wasm address. -/
def instrLowerBound (instrLocs : List JitInstrLoc) (wasmAddr : UInt32) : Nat :=
  lowerBound (fun a => decide (a.wasmAddr < wasmAddr)) instrLocs

/-- A pointer into the generated code, as a number. -/
def codeAddress (codeStart : UInt64) (instr : JitInstrLoc) : UInt64 :=
  codeStart + instr.codeOffset.toUInt64

/-- `get_addr_range`: the machine addresses of a range of wasm addresses. -/
def getAddrRange (info : Info) (instrLocs : List JitInstrLoc) (codeStart : UInt64)
    (begin «end» : UInt32) : Option (UInt64 × UInt64) :=
  let it1 := instrLowerBound instrLocs (info.wasmCodeOffset + begin)
  let it2 := instrLowerBound instrLocs (info.wasmCodeOffset + «end»)
  -- nothing was generated between the two, or nothing behind the second
  if it1 < it2 ∧ it2 ≠ instrLocs.length then do
    let first ← instrLocs[it1]?
    let second ← instrLocs[it2]?
    some (codeAddress codeStart first, codeAddress codeStart second)
  else none

/-! ## The emitter -/

/-- The locals of `write_line_program`: the registers the consumer is taken to have. -/
structure Emitter where
  address : UInt64 := 0
  file : UInt32 := 1
  line : UInt32 := 1
deriving DecidableEq, Repr

/-- What is written to the stream, and the locals afterwards. -/
abbrev Emit := Emitter → Bytes × Emitter

/-- One thing written after the other. -/
def Emit.andThen (f g : Emit) : Emit := fun e => ((f e).1 ++ (g (f e).2).1, (g (f e).2).2)

/-- `extended`: the closure runs twice, for its size and for its bytes. -/
def extended (f : Emit) : Emit := fun e =>
  -- the size is counted first, on a stream that writes nothing
  let (sized, e) := f e
  let (out, e) := f e
  (0 :: (varuint32ToBin (UInt32.ofNat sized.length) ++ out), e)

/-- The closure that ends a sequence before the next one. -/
def restartSequence : Emit := fun e => ([dwLneEndSequence], { e with file := 1, line := 1 })

/-- The closures that set the address. -/
def setAddress (address : UInt64) : Emit := fun e =>
  (dwLneSetAddress :: uint64ToBin address, { e with address })

/-- To the start of a range. -/
def startRange (first : UInt64) : Emit := fun e =>
  if first ≠ e.address then
    -- addresses only grow within a sequence
    if first < e.address then (Emit.andThen (extended restartSequence) (extended (setAddress first))) e
    else extended (setAddress first) e
  else ([], e)

def setFile (loc : Location) : Emit := fun e =>
  if e.file ≠ loc.fileIndex + 1 then
    (dwLnsSetFile :: varuint32ToBin (loc.fileIndex + 1), { e with file := loc.fileIndex + 1 })
  else ([], e)

/-- `int32_t(loc.line - line)` is written as a signed number. -/
def advanceLine (loc : Location) : Emit := fun e =>
  if e.line ≠ loc.line then
    (dwLnsAdvanceLine :: sleb64ToBin (loc.line - e.line).toInt32.toInt, { e with line := loc.line })
  else ([], e)

def copy : Emit := fun e => ([dwLnsCopy], e)

/-- To the end of a range. -/
def endRange (second : UInt64) : Emit := fun e =>
  if e.address ≠ second then extended (setAddress second) e else ([], e)

/-- The body of the loop, for a location with a range. -/
def writeLocation (loc : Location) (range : UInt64 × UInt64) : Emit :=
  Emit.andThen (startRange range.1) <| Emit.andThen (setFile loc) <|
    Emit.andThen (advanceLine loc) <| Emit.andThen copy (endRange range.2)

/-- The loop of `write_line_program`. -/
def writeLocations (info : Info) (instrLocs : List JitInstrLoc) (codeStart : UInt64) :
    List Location → Emit
  | [] => fun e => ([], e)
  | loc :: locations =>
    match getAddrRange info instrLocs codeStart loc.beginAddress loc.endAddress with
    | none => writeLocations info instrLocs codeStart locations
    | some range =>
      Emit.andThen (writeLocation loc range) (writeLocations info instrLocs codeStart locations)

/-- `write_line_program` -/
def writeLineProgram (info : Info) (instrLocs : List JitInstrLoc) (codeStart : UInt64) : Bytes :=
  (Emit.andThen (writeLocations info instrLocs codeStart info.locations)
    (extended fun e => ([dwLneEndSequence], e)) {}).1

/-! ## The header -/

/-- `write_string` -/
def writeString (s : Bytes) : Bytes := s ++ [0]

/-- `to_bin(const line_header&)` -/
def lineHeaderToBin (obj : LineHeader) : Except String Bytes :=
  if obj.standardOpcodeLengths.length ≠ obj.opcodeBase.toNat then
    .error "mismatched standard_opcode_lengths size"
  else .ok <|
    [obj.minimumInstructionLength, obj.maximumOperationsPerInstruction, obj.defaultIsStmt,
      obj.lineBase.toUInt8, obj.lineRange, obj.opcodeBase] ++
    -- the entries with number 0 are not written: opcodes and files count from 1
    obj.standardOpcodeLengths.drop 1 ++
    (obj.includeDirectories.drop 1).flatMap writeString ++ [0] ++
    (obj.fileNames.drop 1).flatMap (fun name => writeString name ++ [0, 0, 0]) ++ [0]

/-- The header of the section that is written. -/
def emittedHeader (info : Info) : LineHeader := { fileNames := [] :: info.files }

/-- What stands in front of the header: `unit_length` of the 64-bit format, the version
and `header_length`. -/
def unitPrefix (headerSize programSize : Nat) : Bytes :=
  uint32ToBin 0xffffffff ++ uint64ToBin (UInt64.ofNat (headerSize + programSize + 10)) ++
    uint16ToBin lnsVersion ++ uint64ToBin (UInt64.ofNat headerSize)

/-- `generate_debug_line`. The buffer has the size that was counted before. -/
def generateDebugLine (info : Info) (instrLocs : List JitInstrLoc) (codeStart : UInt64) :
    Except String Bytes := do
  let header ← lineHeaderToBin (emittedHeader info)
  let program := writeLineProgram info instrLocs codeStart
  let size := header.length + program.length + 22
  let out := unitPrefix header.length program.length ++ header ++ program
  if size < out.length then .error overrun
  else if out.length ≠ size then .error "generate_debug_line: calculated incorrect stream size"
  else .ok out

end Microchain.DebugEosVm
