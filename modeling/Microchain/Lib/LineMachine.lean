import Microchain.Lib.Leb128

/-!
# The line-number machine of DWARF version 4

The state machine of a `.debug_line` program: registers, the standard, extended and
special opcodes, and the rows they append. The parameters of a program come from its
header; addresses are eight bytes wide and the other registers are 32-bit words.

A piece of a program is described by what it does to the registers and the rows it
appends, whatever follows it (`Executes`). Pieces compose (`Executes.append`), each
opcode has a rule of its own, and a whole program yields the rows of its piece
(`program_rows`).
-/

namespace Microchain.Lib.LineMachine

/-- The parameters that the header of a program sets. -/
structure Params where
  minimumInstructionLength : Nat
  maximumOperationsPerInstruction : Nat
  defaultIsStmt : Bool
  lineBase : Int
  lineRange : Nat
  opcodeBase : Nat
  /-- the numbers of operands, for the opcodes from 1 on -/
  standardOpcodeLengths : List Nat
deriving DecidableEq, Repr

/-- The parameters as a header of the format holds them, from its field
`minimum_instruction_length` on. -/
def readParams : List UInt8 → Option Params
  | minimum :: maximum :: isStmt :: lineBase :: lineRange :: opcodeBase :: s =>
    if s.length < opcodeBase.toNat - 1 then none
    else some
      { minimumInstructionLength := minimum.toNat
        maximumOperationsPerInstruction := maximum.toNat
        defaultIsStmt := isStmt ≠ 0
        lineBase := lineBase.toInt8.toInt
        lineRange := lineRange.toNat
        opcodeBase := opcodeBase.toNat
        standardOpcodeLengths := (s.take (opcodeBase.toNat - 1)).map UInt8.toNat }
  | _ => none

/-- The registers; a row is a copy of them. -/
structure Registers where
  address : UInt64 := 0
  opIndex : Nat := 0
  file : UInt32 := 1
  line : UInt32 := 1
  column : UInt32 := 0
  isStmt : Bool
  basicBlock : Bool := false
  endSequence : Bool := false
  prologueEnd : Bool := false
  epilogueBegin : Bool := false
  isa : UInt32 := 0
  discriminator : UInt32 := 0
deriving DecidableEq, Repr

/-- The registers at the start of a sequence. -/
def initial (p : Params) : Registers := { isStmt := p.defaultIsStmt }

namespace Registers

/-- Advance address and operation index by a number of operations. -/
def advance (p : Params) (r : Registers) (n : Nat) : Registers :=
  { r with
    address := r.address + UInt64.ofNat
      (p.minimumInstructionLength * ((r.opIndex + n) / p.maximumOperationsPerInstruction))
    opIndex := (r.opIndex + n) % p.maximumOperationsPerInstruction }

/-- After a row. -/
def afterRow (r : Registers) : Registers :=
  { r with discriminator := 0, basicBlock := false, prologueEnd := false, epilogueBegin := false }

end Registers

/-- The registers after an opcode, the rows it appends and the rest of the program. -/
abbrev Step := Option (Registers × List Registers × List UInt8)

/-- The number in a little-endian field. -/
def littleEndian : List UInt8 → Nat
  | [] => 0
  | b :: s => b.toNat + 256 * littleEndian s

/-- An extended opcode with its operands, after the size. Opcodes that are not known, and
the one that defines a file, leave the registers as they are. -/
def extended (p : Params) (r : Registers) (opcode : UInt8) (operands : List UInt8) :
    Option (Registers × List Registers) :=
  if opcode = 1 then some (initial p, [{ r with endSequence := true }])
  else if opcode = 2 then
    if operands.length = 8 then
      some ({ r with address := UInt64.ofNat (littleEndian operands), opIndex := 0 }, [])
    else none
  else if opcode = 4 then
    (ulebDecode operands).map fun n => ({ r with discriminator := UInt32.ofNat n.1 }, [])
  else some (r, [])

/-- Skip unsigned operands. -/
def skip : Nat → List UInt8 → Option (List UInt8)
  | 0, s => some s
  | n + 1, s => (ulebDecode s).bind fun r => skip n r.2

/-- A standard opcode. -/
def standard (p : Params) (r : Registers) (opcode : UInt8) (s : List UInt8) : Step :=
  if opcode = 1 then some (r.afterRow, [r], s)
  else if opcode = 2 then (ulebDecode s).map fun n => (r.advance p n.1, [], n.2)
  else if opcode = 3 then
    (slebDecode s).map fun n => ({ r with line := r.line + UInt32.ofInt n.1 }, [], n.2)
  else if opcode = 4 then (ulebDecode s).map fun n => ({ r with file := UInt32.ofNat n.1 }, [], n.2)
  else if opcode = 5 then
    (ulebDecode s).map fun n => ({ r with column := UInt32.ofNat n.1 }, [], n.2)
  else if opcode = 6 then some ({ r with isStmt := !r.isStmt }, [], s)
  else if opcode = 7 then some ({ r with basicBlock := true }, [], s)
  else if opcode = 8 then
    if p.lineRange = 0 then none
    else some (r.advance p ((255 - p.opcodeBase) / p.lineRange), [], s)
  else if opcode = 9 then
    if s.length < 2 then none
    else some ({ r with address := r.address + UInt64.ofNat (littleEndian (s.take 2)), opIndex := 0 },
      [], s.drop 2)
  else if opcode = 10 then some ({ r with prologueEnd := true }, [], s)
  else if opcode = 11 then some ({ r with epilogueBegin := true }, [], s)
  else if opcode = 12 then (ulebDecode s).map fun n => ({ r with isa := UInt32.ofNat n.1 }, [], n.2)
  else (skip (p.standardOpcodeLengths.getD (opcode.toNat - 1) 0) s).map fun s' => (r, [], s')

/-- A special opcode. -/
def special (p : Params) (r : Registers) (opcode : UInt8) (s : List UInt8) : Step :=
  if p.lineRange = 0 then none
  else
    let adjusted := opcode.toNat - p.opcodeBase
    let line := r.line + UInt32.ofInt (p.lineBase + (adjusted % p.lineRange : Nat))
    let row := { r.advance p (adjusted / p.lineRange) with line }
    some (row.afterRow, [row], s)

/-- One opcode of a program. -/
def step (p : Params) (r : Registers) (opcode : UInt8) (s : List UInt8) : Step :=
  if opcode = 0 then
    (ulebDecode s).bind fun size =>
      match size.2.take size.1 with
      | [] => none
      | opcode :: operands =>
        if size.2.length < size.1 then none
        else (extended p r opcode operands).map fun out => (out.1, out.2, size.2.drop size.1)
  else if opcode.toNat < p.opcodeBase then standard p r opcode s
  else special p r opcode s

/-- The rows of a program, for a number of opcodes. -/
def run (p : Params) : Nat → Registers → List UInt8 → Option (List Registers)
  | _, _, [] => some []
  | 0, _, _ :: _ => none
  | fuel + 1, r, opcode :: s =>
    (step p r opcode s).bind fun out => (run p fuel out.1 out.2.2).map (out.2.1 ++ ·)

/-- The rows of a whole program. Every opcode takes a byte. -/
def program (p : Params) (s : List UInt8) : Option (List Registers) :=
  run p s.length (initial p) s

/-! ## Pieces of programs -/

/-- From registers `r` the bytes take the machine to `r'` and append `rows`. -/
def Executes (p : Params) (r : Registers) (bytes : List UInt8) (r' : Registers)
    (rows : List Registers) : Prop :=
  ∃ steps ≤ bytes.length, ∀ rest fuel,
    run p (steps + fuel) r (bytes ++ rest) = (run p fuel r' rest).map (rows ++ ·)

variable {p : Params} {r r' r'' : Registers} {bytes bytes' : List UInt8}
  {rows rows' : List Registers}

theorem Executes.nil (p : Params) (r : Registers) : Executes p r [] r [] := by
  refine ⟨0, Nat.le_refl _, fun rest fuel => ?_⟩
  simp

theorem Executes.append (h : Executes p r bytes r' rows) (h' : Executes p r' bytes' r'' rows') :
    Executes p r (bytes ++ bytes') r'' (rows ++ rows') := by
  obtain ⟨n, hn, hrun⟩ := h
  obtain ⟨n', hn', hrun'⟩ := h'
  -- the second piece is what the first finds behind it
  refine ⟨n + n', ?_, fun rest fuel => ?_⟩
  · rw [List.length_append]
    omega
  · rw [List.append_assoc, Nat.add_assoc, hrun, hrun', Option.map_map]
    congr 1
    funext l
    exact (List.append_assoc rows rows' l).symm

/-- A piece that is one opcode. -/
theorem Executes.opcode {opcode : UInt8}
    (h : ∀ rest, step p r opcode (bytes ++ rest) = some (r', rows, rest)) :
    Executes p r (opcode :: bytes) r' rows := by
  refine ⟨1, by simp, fun rest fuel => ?_⟩
  rw [Nat.add_comm, List.cons_append, run, h, Option.bind_some]

/-- **A program that is one piece** yields its rows. -/
theorem program_rows (h : Executes p (initial p) bytes r' rows) : program p bytes = some rows := by
  obtain ⟨n, hn, hrun⟩ := h
  have hprogram := hrun [] (bytes.length - n)
  rw [List.append_nil, Nat.add_sub_cancel' hn] at hprogram
  rw [program, hprogram]
  simp [run]

/-! ## The opcodes -/

theorem step_standard (opcode : UInt8) (hne : opcode ≠ 0) (hlt : opcode.toNat < p.opcodeBase)
    (s : List UInt8) : step p r opcode s = standard p r opcode s := by
  rw [step, if_neg hne, if_pos hlt]

theorem executes_copy (hbase : 1 < p.opcodeBase) : Executes p r [1] r.afterRow [r] := by
  refine Executes.opcode fun rest => ?_
  rw [step_standard 1 (by decide) hbase]
  rfl

theorem executes_advanceLine (hbase : 3 < p.opcodeBase) {n : Int}
    (h : ∀ rest, slebDecode (bytes ++ rest) = some (n, rest)) :
    Executes p r (3 :: bytes) { r with line := r.line + UInt32.ofInt n } [] := by
  refine Executes.opcode fun rest => ?_
  rw [step_standard 3 (by decide) hbase, standard, if_neg (by decide), if_neg (by decide),
    if_pos rfl, h, Option.map_some]

theorem executes_setFile (hbase : 4 < p.opcodeBase) {n : Nat}
    (h : ∀ rest, ulebDecode (bytes ++ rest) = some (n, rest)) :
    Executes p r (4 :: bytes) { r with file := UInt32.ofNat n } [] := by
  refine Executes.opcode fun rest => ?_
  rw [step_standard 4 (by decide) hbase, standard, if_neg (by decide), if_neg (by decide),
    if_neg (by decide), if_pos rfl, h, Option.map_some]

/-- An extended opcode behind its size. -/
theorem executes_extended {size : List UInt8} {opcode : UInt8} {operands : List UInt8}
    (hsize : ∀ rest, ulebDecode (size ++ rest) = some ((opcode :: operands).length, rest))
    (h : extended p r opcode operands = some (r', rows)) :
    Executes p r (0 :: (size ++ opcode :: operands)) r' rows := by
  refine Executes.opcode fun rest => ?_
  -- the operands are what the size cuts off
  have htake : ((opcode :: operands) ++ rest).take (opcode :: operands).length =
      opcode :: operands := List.take_left
  have hdrop : ((opcode :: operands) ++ rest).drop (opcode :: operands).length = rest :=
    List.drop_left
  have hlen : ¬ ((opcode :: operands) ++ rest).length < (opcode :: operands).length := by
    rw [List.length_append]
    omega
  rw [step, if_pos rfl, List.append_assoc, hsize, Option.bind_some]
  simp only [htake, hdrop, if_neg hlen, h, Option.map_some]

theorem extended_endSequence :
    extended p r 1 [] = some (initial p, [{ r with endSequence := true }]) := rfl

theorem extended_setAddress (operands : List UInt8) (h : operands.length = 8) :
    extended p r 2 operands =
      some ({ r with address := UInt64.ofNat (littleEndian operands), opIndex := 0 }, []) := by
  rw [extended, if_neg (by decide), if_pos rfl, if_pos h]

end Microchain.Lib.LineMachine
