import Mathlib.Data.UInt
import Microchain.DebugEosVm.Dwarf
import Microchain.Lib.Loop

/-!
# Reading `.debug_line` (`dwarf.cpp`)

`parse_debug_line` runs the line-number programs of a section. It ends by completing, by
a failed `eosio::check` or an exception, or by what C++ leaves undefined: an index
outside a vector or a division by zero. Loops over a stream take a byte at every turn,
so one turn more than there are bytes is enough for them.

Two checks are missing. A file entry may name as its directory the number of
directories, one past the last of them, and `line_range` may be zero, which
`dw_lns_const_add_pc` and the special opcodes divide by. Everything else is safe.
-/

namespace Microchain.DebugEosVm

open Eosio Lib
open Lib.Run (All NeverFails Settled)

/-- How parsing ends without a result. -/
inductive Fault where
  /-- a failed `eosio::check` or a `std::runtime_error` -/
  | reported (text : String)
  | outOfBounds
  | dividesByZero
deriving DecidableEq, Repr

/-- What C++ leaves undefined. -/
def Fault.Undefined (e : Fault) : Prop := ∀ text, e ≠ .reported text

/-- A part of the parser: the value read and the rest of the stream. -/
abbrev Parser (α : Type) := Bytes → Run Fault (α × Bytes)

/-- A decoder as a part of the parser. -/
def reads {α : Type} (fromBin : FromBin α) : Parser α := fun s =>
  match fromBin s with
  | .ok r => .returns r
  | .error text => .fails (.reported text)

theorem reads_returns {α : Type} {fromBin : FromBin α} {s : Bytes} {r : α × Bytes}
    (h : reads fromBin s = .returns r) : fromBin s = .ok r := by
  rw [reads] at h
  split at h
  · next r' hr =>
    cases h
    exact hr
  · cases h

/-- `eosio::check` -/
def check (cond : Prop) [Decidable cond] (text : String) : Run Fault Unit :=
  if cond then .returns () else .fails (.reported text)

/-- `v[i]` -/
def indexAt {α : Type} (v : List α) (i : Nat) : Run Fault α :=
  match v[i]? with
  | some a => .returns a
  | none => .fails .outOfBounds

/-- `a / b` and `a % b` -/
def divMod (a b : Nat) : Run Fault (Nat × Nat) :=
  if b = 0 then .fails .dividesByZero else .returns (a / b, a % b)

/-! ## The header -/

/-- `get_string` -/
def getString : Parser Bytes
  | [] => .fails (.reported "error reading string in dwarf info")
  | ch :: s =>
    if ch = 0 then .returns ([], s)
    else do
      let (str, s) ← getString s
      .returns (ch :: str, s)

/-- A turn of `get_strings`. -/
def getStringsTurn : List Bytes × Bytes → Run Fault (Turn (List Bytes × Bytes) (List Bytes × Bytes))
  | (v, s) => do
    let (str, s) ← getString s
    if str = [] then .returns (.done (v, s))
    else .returns (.again (v ++ [str], s))

/-- `get_strings` -/
def getStrings (v : List Bytes) : Parser (List Bytes) := fun s =>
  loop getStringsTurn (s.length + 1) (v, s)

/-- A file name with its directory number; the entries end at an empty name. -/
def fileEntryFromBin : Parser (Option (Bytes × UInt32)) := fun s => do
  let (str, s) ← getString s
  if str = [] then .returns (none, s)
  else do
    let (dir, s) ← reads varuint32FromBin s
    let (_modTime, s) ← reads varuint32FromBin s
    let (_filesize, s) ← reads varuint32FromBin s
    .returns (some (str, dir), s)

/-- The name under its directory, `include_directories[dir] + "/" + str`. Directory 0 is
taken for an absolute path. -/
def filePath (includeDirectories : List Bytes) (str : Bytes) (dir : UInt32) : Run Fault Bytes := do
  check (dir.toNat ≤ includeDirectories.length) "invalid include_directory number in .debug_line"
  if dir ≠ 0 then do
    let directory ← indexAt includeDirectories dir.toNat
    .returns (directory ++ [0x2f] ++ str)
  else .returns str

/-- A turn of the loop over the file entries. -/
def fileNamesTurn (includeDirectories : List Bytes) :
    List Bytes × Bytes → Run Fault (Turn (List Bytes × Bytes) (List Bytes × Bytes))
  | (fileNames, s) => do
    let (entry, s) ← fileEntryFromBin s
    match entry with
    | none => .returns (.done (fileNames, s))
    | some (str, dir) => do
      let path ← filePath includeDirectories str dir
      .returns (.again (fileNames ++ [path], s))

/-- `from_bin(line_header&)` up to the file entries. -/
def lineHeaderFieldsFromBin : Parser LineHeader := fun s => do
  let (minimumInstructionLength, s) ← reads uint8FromBin s
  let (maximumOperationsPerInstruction, s) ← reads uint8FromBin s
  let (defaultIsStmt, s) ← reads uint8FromBin s
  let (lineBase, s) ← reads uint8FromBin s
  let (lineRange, s) ← reads uint8FromBin s
  let (opcodeBase, s) ← reads uint8FromBin s
  let (lengths, s) ← reads (elementsFromBin uint8FromBin (opcodeBase.toNat - 1)) s
  let (includeDirectories, s) ← getStrings [[]] s
  .returns
    ({ minimumInstructionLength, maximumOperationsPerInstruction, defaultIsStmt,
       lineBase := lineBase.toInt8, lineRange, opcodeBase,
       standardOpcodeLengths := 0 :: lengths, includeDirectories, fileNames := [[]] }, s)

/-- `from_bin(line_header&)` -/
def lineHeaderFromBin : Parser LineHeader := fun s => do
  let (header, s) ← lineHeaderFieldsFromBin s
  let (fileNames, s) ← loop (fileNamesTurn header.includeDirectories) (s.length + 1)
    (header.fileNames, s)
  .returns ({ header with fileNames }, s)

/-- The fields of a unit before its `line_header`: the bytes left after the header are
to be `s.length - header_length`. -/
def unitPrefixFromBin : Parser UInt32 := fun s => do
  let (version, s) ← reads uint16FromBin s
  check (version = lnsVersion) ".debug_line isn't from DWARF version 4"
  let (headerLength, s) ← reads uint32FromBin s
  check (headerLength.toNat ≤ s.length) "bad header_length in .debug_line"
  .returns (headerLength, s)

/-- `parse_debug_line_unit_header` -/
def parseDebugLineUnitHeader : Parser LineHeader := fun s => do
  let (headerLength, s) ← unitPrefixFromBin s
  let (header, rest) ← lineHeaderFromBin s
  check (rest.length = s.length - headerLength.toNat) "mismatched header_length in .debug_line"
  .returns (header, rest)

/-! ## The line-number program -/

/-- `line_state` -/
structure LineState where
  sequenceBegin : Option UInt32 := none
  address : UInt32 := 0
  file : UInt32 := 1
  line : UInt32 := 1
  column : UInt32 := 0
  isStmt : Bool := false
  basicBlock : Bool := false
  endSequence : Bool := false
  prologueEnd : Bool := false
  epilogueBegin : Bool := false
  isa : UInt32 := 0
  discriminator : UInt32 := 0
deriving DecidableEq, Repr

/-- What the units share: the locations and files found so far, and the number of each
file, `std::map<std::string, uint32_t>`. -/
structure Found where
  result : Info
  files : List (Bytes × UInt32) := []
deriving DecidableEq, Repr

/-- The locals of `parse_debug_line_unit` that change from one opcode to the next. -/
structure UnitState where
  state : LineState
  current : Option Location := none
  found : Found
deriving DecidableEq, Repr

/-- The number of a file, which is added if it is new. -/
def Found.fileNumber (found : Found) (filename : Bytes) : UInt32 × Found :=
  match found.files.lookup filename with
  | some index => (index, found)
  | none =>
    -- numbered by its place in `result.files`
    let index := UInt32.ofNat found.result.files.length
    (index, { result := { found.result with files := found.result.files ++ [filename] }
              files := (filename, index) :: found.files })

/-- `add_row` where it ends the current location. -/
def closeLocation (header : LineHeader) (begin : UInt32) (current : Location) (u : UnitState) :
    Run Fault UnitState := do
  check (current.fileIndex.toNat < header.fileNames.length) "invalid file index in .debug_line"
  let filename ← indexAt header.fileNames current.fileIndex.toNat
  let (fileIndex, found) := u.found.fileNumber filename
  let current := { current with endAddress := u.state.address, fileIndex }
  -- a sequence at 0 or at the last address was dropped by the linker
  let locations :=
    if begin ≠ 0 ∧ begin < 0xffffffff ∧ current.line ≠ 0 then found.result.locations ++ [current]
    else found.result.locations
  .returns { u with
    current := none
    found := { found with result := { found.result with locations } } }

/-- The first half of `add_row`: a row of another file or line, or the last of its
sequence, ends the current location. -/
def endLocation (header : LineHeader) (begin : UInt32) (u : UnitState) : Run Fault UnitState :=
  match u.current with
  | some current =>
    if u.state.endSequence ∨ u.state.file ≠ current.fileIndex ∨ u.state.line ≠ current.line then
      closeLocation header begin current u
    else .returns u
  | none => .returns u

/-- The second half of `add_row`. -/
def beginLocation (u : UnitState) : UnitState :=
  if u.state.endSequence = false ∧ u.current = none then
    { u with
      current := some
        { beginAddress := u.state.address, endAddress := u.state.address
          fileIndex := u.state.file, line := u.state.line } }
  else u

/-- `add_row` -/
def addRow (header : LineHeader) (u : UnitState) : Run Fault UnitState := do
  let begin := u.state.sequenceBegin.getD u.state.address
  let u ← endLocation header begin { u with state := { u.state with sequenceBegin := some begin } }
  .returns (beginLocation u)

/-- The flags and the discriminator that a row clears. -/
def LineState.afterRow (state : LineState) : LineState :=
  { state with discriminator := 0, basicBlock := false, prologueEnd := false, epilogueBegin := false }

/-- Extended opcodes: a size, then that many bytes of their own. -/
def extendedOpcode (header : LineHeader) (initialState : LineState) (u : UnitState) :
    Parser UnitState := fun s => do
  let (size, s) ← reads varuint32FromBin s
  check (size.toNat ≤ s.length) "bytecode overrun in .debug_line"
  let (extended, s) ← reads (readBytes size.toNat) s
  let (opcode, extended) ← reads uint8FromBin extended
  if opcode = dwLneEndSequence then do
    -- the row that ends the sequence, then the registers start over
    let u ← addRow header { u with state := { u.state with endSequence := true } }
    .returns ({ u with state := initialState }, s)
  else if opcode = dwLneSetAddress then do
    let (address, _) ← reads uint32FromBin extended
    .returns ({ u with state := { u.state with address } }, s)
  else if opcode = dwLneSetDiscriminator then do
    let (discriminator, _) ← reads varuint32FromBin extended
    .returns ({ u with state := { u.state with discriminator } }, s)
  -- others, also `define_file`: skipped by their size
  else .returns (u, s)

/-- Standard opcodes, `0 < opcode < opcode_base`. Those that are not known are skipped
with their operands. -/
def standardOpcode (header : LineHeader) (opcode : UInt8) (u : UnitState) :
    Parser UnitState := fun s =>
  if opcode = dwLnsCopy then do
    let u ← addRow header u
    .returns ({ u with state := u.state.afterRow }, s)
  else if opcode = dwLnsAdvancePc then do
    let (n, s) ← reads varuint32FromBin s
    .returns ({ u with state := { u.state with address := u.state.address + n } }, s)
  else if opcode = dwLnsAdvanceLine then do
    let (n, s) ← reads sleb32FromBin s
    .returns ({ u with state := { u.state with line := u.state.line + n } }, s)
  else if opcode = dwLnsSetFile then do
    let (file, s) ← reads varuint32FromBin s
    .returns ({ u with state := { u.state with file } }, s)
  else if opcode = dwLnsSetColumn then do
    let (column, s) ← reads varuint32FromBin s
    .returns ({ u with state := { u.state with column } }, s)
  else if opcode = dwLnsNegateStmt then
    .returns ({ u with state := { u.state with isStmt := !u.state.isStmt } }, s)
  else if opcode = dwLnsSetBasicBlock then
    .returns ({ u with state := { u.state with basicBlock := true } }, s)
  else if opcode = dwLnsConstAddPc then do
    let (n, _) ← divMod (255 - header.opcodeBase.toNat) header.lineRange.toNat
    .returns ({ u with state := { u.state with address := u.state.address + UInt32.ofNat n } }, s)
  else if opcode = dwLnsFixedAdvancePc then do
    let (n, s) ← reads uint16FromBin s
    .returns ({ u with state := { u.state with address := u.state.address + n.toUInt32 } }, s)
  else if opcode = dwLnsSetPrologueEnd then
    .returns ({ u with state := { u.state with prologueEnd := true } }, s)
  else if opcode = dwLnsSetEpilogueBegin then
    .returns ({ u with state := { u.state with epilogueBegin := true } }, s)
  else if opcode = dwLnsSetIsa then do
    let (isa, s) ← reads varuint32FromBin s
    .returns ({ u with state := { u.state with isa } }, s)
  else do
    -- the table was read with `opcode_base` entries, so the index is in it
    let length ← indexAt header.standardOpcodeLengths opcode.toNat
    let (_, s) ← reads (elementsFromBin varuint32FromBin length.toNat) s
    .returns (u, s)

/-- Special opcodes, `opcode_base ≤ opcode`: they advance address and line and add a row. -/
def specialOpcode (header : LineHeader) (opcode : UInt8) (u : UnitState) : Run Fault UnitState := do
  let (addressAdvance, lineAdvance) ←
    divMod (opcode.toNat - header.opcodeBase.toNat) header.lineRange.toNat
  -- the line is advanced modulo 2^32: a negative advance wraps
  let state :=
    { u.state with
      address := u.state.address + UInt32.ofNat addressAdvance
      line := u.state.line + (header.lineBase.toInt32 + Int32.ofNat lineAdvance).toUInt32 }
  let u ← addRow header { u with state }
  .returns { u with state := u.state.afterRow }

/-- A turn of the loop of `parse_debug_line_unit`. -/
def opcodeTurn (header : LineHeader) (initialState : LineState) :
    UnitState × Bytes → Run Fault (Turn (UnitState × Bytes) Found)
  | (u, []) => .returns (.done u.found)
  | (u, opcode :: s) =>
    -- 0 is the escape to the extended opcodes
    if opcode = 0 then do
      let next ← extendedOpcode header initialState u s
      .returns (.again next)
    else if opcode < header.opcodeBase then do
      let next ← standardOpcode header opcode u s
      .returns (.again next)
    else do
      let u ← specialOpcode header opcode u
      .returns (.again (u, s))

/-- `state` where a sequence starts. -/
def initialState (header : LineHeader) : LineState := { isStmt := header.defaultIsStmt ≠ 0 }

/-- `parse_debug_line_unit` -/
def parseDebugLineUnit (found : Found) (s : Bytes) : Run Fault Found := do
  let (header, s) ← parseDebugLineUnitHeader s
  check (header.minimumInstructionLength = 1)
    "mismatched minimum_instruction_length in .debug_line"
  check (header.maximumOperationsPerInstruction = 1)
    "mismatched maximum_operations_per_instruction in .debug_line"
  -- every turn takes a byte, so the fuel is enough
  loop (opcodeTurn header (initialState header)) (s.length + 1)
    ({ state := initialState header, found }, s)

/-- The bytes of the next unit. -/
def unitFromBin : Parser Bytes := fun s => do
  let (unitLength, s) ← reads uint32FromBin s
  check (unitLength < 0xfffffff0) "unit_length values in reserved range in .debug_line not supported"
  check (unitLength.toNat ≤ s.length) "bad unit_length in .debug_line"
  .returns (s.take unitLength.toNat, s.drop unitLength.toNat)

/-- A turn of the loop of `parse_debug_line`. -/
def unitTurn : Found × Bytes → Run Fault (Turn (Found × Bytes) Found)
  | (found, []) => .returns (.done found)
  | (found, b :: s) => do
    let (unit, rest) ← unitFromBin (b :: s)
    let found ← parseDebugLineUnit found unit
    .returns (.again (found, rest))

/-- `parse_debug_line` -/
def parseDebugLine (found : Found) (s : Bytes) : Run Fault Found :=
  loop unitTurn (s.length + 1) (found, s)

end Microchain.DebugEosVm
