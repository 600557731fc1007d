import Mathlib.Data.List.SplitBy
import Microchain.DebugEosVm.LineProgram
import Microchain.Eosio.Codec
import Microchain.Lib.Except
import Microchain.Lib.LineMachine

/-!
# What a consumer reads from the line program

Run on what `write_line_program` emits, the line-number machine of DWARF version 4
appends one row for each mapped location and ends a sequence exactly where the addresses
go back (`writeLineProgram_rows`). The emitter's locals agree with the machine's
registers between any two locations (`Agrees`), and each thing that is written keeps it
so (`Emits`).
-/

namespace Microchain.DebugEosVm

open Eosio Lib
open Lib.LineMachine (Executes Params Registers littleEndian)

/-! ## Numbers in the program -/

theorem ulebDecode_varuint32Loop (s : Bytes) : ∀ (rounds : Nat) (val : UInt32),
    val.toNat < 128 ^ (rounds + 1) →
      ulebDecode (varuint32ToBinLoop (rounds + 1) val ++ s) = some (val.toNat, s) := by
  intro rounds
  induction rounds with
  | zero =>
    intro val hval
    have hrest : val >>> 7 = 0 := by
      rw [← UInt32.toNat_inj, shiftRight7_toNat]
      exact Nat.div_eq_of_lt hval
    have hbyte : ((val &&& 0x7f).toUInt8).toNat = val.toNat := by
      rw [lastByte_toNat]
      omega
    rw [varuint32ToBinLoop, if_pos hrest, List.cons_append, List.nil_append,
      ulebDecode_last (by omega), hbyte]
  | succ rounds ih =>
    intro val hval
    have hrest : val >>> 7 = 0 ↔ val.toNat < 128 := by
      rw [← UInt32.toNat_inj, shiftRight7_toNat]
      show val.toNat / 128 = 0 ↔ _
      omega
    rw [varuint32ToBinLoop]
    -- the last byte has no 0x80, any other one is followed by the number above it
    by_cases hlast : val >>> 7 = 0
    · have hlt := hrest.mp hlast
      have hbyte : ((val &&& 0x7f).toUInt8).toNat = val.toNat := by
        rw [lastByte_toNat]
        omega
      rw [if_pos hlast, List.cons_append, List.nil_append, ulebDecode_last (by omega), hbyte]
    · rw [if_neg hlast, List.cons_append]
      have hlow : (val >>> 7).toNat < 128 ^ (rounds + 1) := by
        rw [shiftRight7_toNat, Nat.div_lt_iff_lt_mul (by decide)]
        rwa [Nat.pow_succ] at hval
      have hbyte := moreByte_toNat val
      rw [ulebDecode_more (by omega) (ih (val >>> 7) hlow), hbyte, shiftRight7_toNat]
      congr 2
      omega

theorem ulebDecode_varuint32 (val : UInt32) (s : Bytes) :
    ulebDecode (varuint32ToBin val ++ s) = some (val.toNat, s) :=
  ulebDecode_varuint32Loop s 4 val (Nat.lt_of_lt_of_le val.toNat_lt (by decide))

/-- A byte with the continuation bit set. -/
theorem continued_toNat {b : UInt8} (h : b.toNat < 128) : (b ||| 0x80).toNat = b.toNat + 128 := by
  rw [UInt8.toNat_or]
  show b.toNat ||| 2 ^ 7 = _
  rw [Nat.or_comm, ← Nat.mul_one (2 ^ 7), ← Nat.two_pow_add_eq_or_of_lt (show b.toNat < 2 ^ 7 by omega)]
  omega

theorem slebDecode_sleb64Loop (s : Bytes) : ∀ (rounds : Nat) (val : Int),
    -(64 * 128 ^ rounds : Nat) ≤ val → val < (64 * 128 ^ rounds : Nat) →
      slebDecode (sleb64ToBinLoop (rounds + 1) val ++ s) = some (val, s) := by
  -- the last byte holds a value between -64 and 63
  have hlast (val : Int) (hlow : -64 ≤ val) (hhigh : val < 64) :
      slebDecode (UInt8.ofNat (val % 128).toNat :: s) = some (val, s) := by
    have hbyte : (UInt8.ofNat (val % 128).toNat).toNat = (val % 128).toNat :=
      UInt8.toNat_ofNat_of_lt' (show (val % 128).toNat < 2 ^ 8 by omega)
    by_cases hsign : 0 ≤ val
    · rw [slebDecode_nonneg (by omega), hbyte]
      congr 2
      omega
    · rw [slebDecode_neg (by omega) (by omega), hbyte]
      congr 2
      omega
  intro rounds
  induction rounds with
  | zero =>
    intro val hlow hhigh
    rw [sleb64ToBinLoop, if_pos (by omega)]
    exact hlast val (by omega) (by omega)
  | succ rounds ih =>
    intro val hlow hhigh
    rw [sleb64ToBinLoop]
    by_cases hdone : val / 64 = val / 128
    · rw [if_pos hdone]
      exact hlast val (by omega) (by omega)
    · rw [if_neg hdone, List.cons_append]
      have hbyte : (UInt8.ofNat (val % 128).toNat).toNat = (val % 128).toNat :=
        UInt8.toNat_ofNat_of_lt' (show (val % 128).toNat < 2 ^ 8 by omega)
      have hmore := continued_toNat (b := UInt8.ofNat (val % 128).toNat) (by omega)
      obtain ⟨bound, hbound⟩ : ∃ bound, 64 * 128 ^ rounds = bound := ⟨_, rfl⟩
      have hnext : 64 * 128 ^ (rounds + 1) = 128 * bound := by
        rw [← hbound, Nat.pow_succ, Nat.mul_comm (128 ^ rounds), Nat.mul_left_comm]
      rw [hnext] at hlow hhigh
      have hvalue : (((val % 128).toNat + 128 : Nat) : Int) - 128 + 128 * (val / 128) = val := by
        omega
      rw [slebDecode_more (by omega) (ih (val / 128) (by omega) (by omega)), hmore, hbyte, hvalue]

theorem slebDecode_sleb64 (val : Int32) (s : Bytes) :
    slebDecode (sleb64ToBin val.toInt ++ s) = some (val.toInt, s) := by
  have hlow := val.le_toInt
  have hhigh := val.toInt_lt
  exact slebDecode_sleb64Loop s 9 val.toInt (by omega) (by omega)

/-- A word read as a signed number is the word again. -/
theorem ofInt_toInt32 (x : UInt32) : UInt32.ofInt x.toInt32.toInt = x := by
  have hx := x.toNat_lt
  have hsigned : x.toInt32.toInt = if 2 * x.toNat < 2 ^ 32 then (x.toNat : Int) else x.toNat - 2 ^ 32 := by
    exact BitVec.toInt_eq_toNat_cond x.toBitVec
  rw [← UInt32.toNat_inj]
  show ((x.toInt32.toInt % 2 ^ 32).toNat % 2 ^ 32) = x.toNat
  rw [hsigned]
  split <;> omega

/-- The difference of two lines is taken and added modulo 2^32. -/
theorem line_add_delta (line line' : UInt32) :
    line + UInt32.ofInt (line' - line).toInt32.toInt = line' := by
  rw [ofInt_toInt32, UInt32.add_comm, UInt32.sub_add_cancel]

theorem littleEndian_uint64ToBin (n : UInt64) :
    UInt64.ofNat (littleEndian (uint64ToBin n)) = n := by
  have hn := n.toNat_lt
  have hnat : littleEndian (uint64ToBin n) = n.toNat := by
    simp only [uint64ToBin, littleEndian, UInt64.toNat_toUInt8, UInt64.toNat_shiftRight,
      Nat.shiftRight_eq_div_pow]
    simp only [UInt64.reduceToNat, Nat.reduceMod, Nat.reducePow]
    omega
  rw [hnat, UInt64.ofNat_toNat]

/-! ## What is emitted, read by the machine -/

/-- The row that a consumer sees: one for a location, or the end of a sequence. -/
inductive View where
  | line (address : UInt64) (file line : UInt32)
  | endSequence (address : UInt64)
deriving DecidableEq, Repr

def View.address : View → UInt64
  | line address _ _ => address
  | endSequence address => address

def view (r : Registers) : View :=
  if r.endSequence then .endSequence r.address else .line r.address r.file r.line

/-- File and line of the machine are those the emitter takes it to have. -/
structure AgreesInFile (e : Emitter) (r : Registers) : Prop where
  file : r.file = e.file
  line : r.line = e.line
  endSequence : r.endSequence = false

/-- And so is the address. -/
structure Agrees (e : Emitter) (r : Registers) : Prop extends AgreesInFile e r where
  address : r.address = e.address

/-- What `f` writes from `e` on makes a machine that agrees append rows of these views,
and leaves it agreeing. -/
def Emits (p : Params) (f : Emit) (e : Emitter) (views : List View) : Prop :=
  ∀ r, Agrees e r → ∃ r' rows, Executes p r (f e).1 r' rows ∧ Agrees (f e).2 r' ∧
    rows.map view = views

variable {p : Params}

theorem Emits.andThen {f g : Emit} {e : Emitter} {views views' : List View}
    (hf : Emits p f e views) (hg : Emits p g (f e).2 views') :
    Emits p (Emit.andThen f g) e (views ++ views') := by
  intro r hr
  obtain ⟨r1, rows1, hexec1, hagree1, hviews1⟩ := hf r hr
  obtain ⟨r2, rows2, hexec2, hagree2, hviews2⟩ := hg r1 hagree1
  refine ⟨r2, rows1 ++ rows2, hexec1.append hexec2, hagree2, ?_⟩
  rw [List.map_append, hviews1, hviews2]

/-- The first appends no row. -/
theorem Emits.silent_andThen {f g : Emit} {e : Emitter} {views : List View}
    (hf : Emits p f e []) (hg : Emits p g (f e).2 views) : Emits p (Emit.andThen f g) e views :=
  hf.andThen hg

/-- The second appends no row. -/
theorem Emits.andThen_silent {f g : Emit} {e : Emitter} {views : List View}
    (hf : Emits p f e views) (hg : Emits p g (f e).2 []) : Emits p (Emit.andThen f g) e views := by
  have h := hf.andThen hg
  rwa [List.append_nil] at h

/-- Nothing to write. -/
theorem Emits.nothing {f : Emit} {e : Emitter} (h : f e = ([], e)) : Emits p f e [] := by
  intro r hr
  rw [h]
  exact ⟨r, [], Executes.nil p r, hr, rfl⟩

theorem extended_size (opcode : UInt8) (operands : Bytes) (h : operands.length < 2 ^ 32 - 1)
    (rest : Bytes) :
    ulebDecode (varuint32ToBin (UInt32.ofNat (opcode :: operands).length) ++ rest) =
      some ((opcode :: operands).length, rest) := by
  rw [ulebDecode_varuint32, UInt32.toNat_ofNat_of_lt']
  rw [List.length_cons]
  show operands.length + 1 < 2 ^ 32
  omega

/-- The address is set whatever it was. -/
theorem executes_setAddress {e : Emitter} {r : Registers} (h : AgreesInFile e r)
    (address : UInt64) :
    ∃ r', Executes p r (extended (setAddress address) e).1 r' [] ∧
      Agrees (extended (setAddress address) e).2 r' := by
  have hexec := LineMachine.executes_extended (p := p) (r := r)
    (extended_size dwLneSetAddress (uint64ToBin address) (Nat.lt_of_le_of_lt (Nat.le_refl 8) (by decide)))
    (LineMachine.extended_setAddress (uint64ToBin address) rfl)
  refine ⟨_, hexec, ⟨h.file, h.line, h.endSequence⟩, ?_⟩
  exact littleEndian_uint64ToBin address

/-- Ending a sequence resets the registers; the emitter resets the same two of its own,
and the address is set next. -/
theorem executes_restart {e : Emitter} {r : Registers} (h : Agrees e r) :
    ∃ rows, Executes p r (extended restartSequence e).1 (LineMachine.initial p) rows ∧
      AgreesInFile (extended restartSequence e).2 (LineMachine.initial p) ∧
      rows.map view = [.endSequence e.address] := by
  have hexec := LineMachine.executes_extended (p := p) (r := r)
    (extended_size dwLneEndSequence [] (by decide))
    LineMachine.extended_endSequence
  refine ⟨_, hexec, ⟨rfl, rfl, rfl⟩, ?_⟩
  show [View.endSequence r.address] = _
  rw [h.address]

theorem emits_setAddress (e : Emitter) (address : UInt64) :
    Emits p (extended (setAddress address)) e [] := by
  intro r hr
  obtain ⟨r', hexec, hagree⟩ := executes_setAddress hr.toAgreesInFile address
  exact ⟨r', [], hexec, hagree, rfl⟩

theorem emits_startRange (e : Emitter) (first : UInt64) :
    Emits p (startRange first) e (if first < e.address then [.endSequence e.address] else []) := by
  by_cases heq : first = e.address
  · have hlt : ¬ first < e.address := by
      rw [heq]
      exact UInt64.lt_irrefl _
    rw [if_neg hlt]
    exact Emits.nothing (if_neg (not_not.mpr heq))
  · intro r hr
    rw [startRange, if_pos heq]
    by_cases hlt : first < e.address
    · -- addresses go back: a new sequence
      rw [if_pos hlt, if_pos hlt]
      obtain ⟨rows, hexec, hagree, hviews⟩ := executes_restart hr
      obtain ⟨r', hexec', hagree'⟩ := executes_setAddress hagree first
      refine ⟨r', rows ++ [], hexec.append hexec', hagree', ?_⟩
      rw [List.append_nil, hviews]
    · rw [if_neg hlt, if_neg hlt]
      exact emits_setAddress e first r hr

theorem startRange_address (e : Emitter) (first : UInt64) :
    (startRange first e).2.address = first := by
  unfold startRange
  split
  · split <;> rfl
  · rename_i h
    exact (not_not.mp h).symm

theorem emits_setFile (hbase : 4 < p.opcodeBase) (e : Emitter) (loc : Location) :
    Emits p (setFile loc) e [] := by
  by_cases hfile : e.file = loc.fileIndex + 1
  · exact Emits.nothing (if_neg (not_not.mpr hfile))
  · intro r hr
    rw [setFile, if_pos hfile]
    refine ⟨_, [], LineMachine.executes_setFile hbase (ulebDecode_varuint32 _), ?_, rfl⟩
    exact ⟨⟨UInt32.ofNat_toNat, hr.line, hr.endSequence⟩, hr.address⟩

theorem setFile_emitter (e : Emitter) (loc : Location) :
    (setFile loc e).2 = { e with file := loc.fileIndex + 1 } := by
  unfold setFile
  split
  · rfl
  · rename_i h
    rw [← not_not.mp h]

theorem emits_advanceLine (hbase : 3 < p.opcodeBase) (e : Emitter) (loc : Location) :
    Emits p (advanceLine loc) e [] := by
  by_cases hline : e.line = loc.line
  · exact Emits.nothing (if_neg (not_not.mpr hline))
  · intro r hr
    rw [advanceLine, if_pos hline]
    refine ⟨_, [], LineMachine.executes_advanceLine hbase (slebDecode_sleb64 _), ?_, rfl⟩
    refine ⟨⟨hr.file, ?_, hr.endSequence⟩, hr.address⟩
    show r.line + _ = loc.line
    rw [hr.line, line_add_delta]

theorem advanceLine_emitter (e : Emitter) (loc : Location) :
    (advanceLine loc e).2 = { e with line := loc.line } := by
  unfold advanceLine
  split
  · rfl
  · rename_i h
    rw [← not_not.mp h]

/-- The row has the address, file and line that the emitter has come to. -/
theorem emits_copy (hbase : 1 < p.opcodeBase) (e : Emitter) :
    Emits p copy e [.line e.address e.file e.line] := by
  intro r hr
  refine ⟨r.afterRow, [r], LineMachine.executes_copy hbase, ?_, ?_⟩
  · exact ⟨⟨hr.file, hr.line, hr.endSequence⟩, hr.address⟩
  · simp [view, hr.endSequence, hr.address, hr.file, hr.line]

theorem emits_endRange (e : Emitter) (second : UInt64) : Emits p (endRange second) e [] := by
  by_cases heq : e.address = second
  · exact Emits.nothing (if_neg (not_not.mpr heq))
  · intro r hr
    rw [endRange, if_pos heq]
    exact emits_setAddress e second r hr

theorem endRange_address (e : Emitter) (second : UInt64) :
    (endRange second e).2.address = second := by
  unfold endRange
  split
  · rfl
  · rename_i h
    exact not_not.mp h

/-- A location that is mapped, with its machine range. -/
abbrev Mapped := Location × UInt64 × UInt64

/-- The row of a mapped location. -/
def rowOf (m : Mapped) : View := .line m.2.1 (m.1.fileIndex + 1) m.1.line

/-- **One location**: its row, after the end of the sequence before if the addresses go
back. -/
theorem emits_writeLocation (hbase : 4 < p.opcodeBase) (e : Emitter) (m : Mapped) :
    Emits p (writeLocation m.1 m.2) e
      ((if m.2.1 < e.address then [.endSequence e.address] else []) ++ [rowOf m]) := by
  have hrow : ((advanceLine m.1 (setFile m.1 (startRange m.2.1 e).2).2).2) =
      { address := m.2.1, file := m.1.fileIndex + 1, line := m.1.line } := by
    rw [advanceLine_emitter, setFile_emitter, startRange_address]
  have hcopy := emits_copy (p := p) (by omega)
    (advanceLine m.1 (setFile m.1 (startRange m.2.1 e).2).2).2
  rw [hrow] at hcopy
  refine Emits.andThen (emits_startRange e m.2.1) ?_
  refine Emits.silent_andThen (emits_setFile hbase _ m.1) ?_
  refine Emits.silent_andThen (emits_advanceLine (by omega) _ m.1) ?_
  rw [hrow]
  exact Emits.andThen_silent hcopy (emits_endRange _ _)

theorem writeLocation_address (e : Emitter) (m : Mapped) :
    (writeLocation m.1 m.2 e).2.address = m.2.2 :=
  endRange_address _ _

/-- The locations with a machine range, in order. -/
def mapped (info : Info) (instrLocs : List JitInstrLoc) (codeStart : UInt64)
    (locations : List Location) : List Mapped :=
  locations.filterMap fun loc =>
    (getAddrRange info instrLocs codeStart loc.beginAddress loc.endAddress).map (loc, ·)

/-- The rows of the mapped locations, where the last range ended at `address`. -/
def viewsFrom : UInt64 → List Mapped → List View
  | address, [] => [.endSequence address]
  | address, m :: ms =>
    (if m.2.1 < address then [.endSequence address] else []) ++ rowOf m :: viewsFrom m.2.2 ms

theorem emits_program (hbase : 4 < p.opcodeBase) (info : Info) (instrLocs : List JitInstrLoc)
    (codeStart : UInt64) : ∀ (locations : List Location) (e : Emitter) (r : Registers),
    Agrees e r → ∃ r' rows,
      Executes p r (Emit.andThen (writeLocations info instrLocs codeStart locations)
        (extended fun e => ([dwLneEndSequence], e)) e).1 r' rows ∧
      rows.map view = viewsFrom e.address (mapped info instrLocs codeStart locations)
  | [], e, r, hr => by
    have hexec := LineMachine.executes_extended (p := p) (r := r)
      (extended_size dwLneEndSequence [] (by decide))
      LineMachine.extended_endSequence
    refine ⟨_, _, hexec, ?_⟩
    show [View.endSequence r.address] = [View.endSequence e.address]
    rw [hr.address]
  | loc :: locations, e, r, hr => by
    cases hrange : getAddrRange info instrLocs codeStart loc.beginAddress loc.endAddress with
    -- no range: the location is left out, and nothing is written
    | none =>
      have hmapped : mapped info instrLocs codeStart (loc :: locations) =
          mapped info instrLocs codeStart locations := by
        simp [mapped, hrange]
      have hwrite : writeLocations info instrLocs codeStart (loc :: locations) =
          writeLocations info instrLocs codeStart locations := by
        rw [writeLocations, hrange]
      rw [hmapped, hwrite]
      exact emits_program hbase info instrLocs codeStart locations e r hr
    | some range =>
      have hmapped : mapped info instrLocs codeStart (loc :: locations) =
          (loc, range) :: mapped info instrLocs codeStart locations := by
        simp [mapped, hrange]
      have hwrite : writeLocations info instrLocs codeStart (loc :: locations) =
          Emit.andThen (writeLocation loc range) (writeLocations info instrLocs codeStart locations) := by
        rw [writeLocations, hrange]
      -- the consumer has the registers that the emitter takes it to have
      obtain ⟨r1, rows1, hexec1, hagree1, hviews1⟩ := emits_writeLocation hbase e (loc, range) r hr
      obtain ⟨r2, rows2, hexec2, hviews2⟩ :=
        emits_program hbase info instrLocs codeStart locations _ r1 hagree1
      rw [hmapped, hwrite]
      refine ⟨r2, rows1 ++ rows2, ?_, ?_⟩
      · have hexec := hexec1.append hexec2
        simpa only [Emit.andThen, List.append_assoc] using hexec
      · rw [List.map_append, hviews1, hviews2, writeLocation_address, viewsFrom,
          List.append_assoc, List.singleton_append]

/-! ## Sequences -/

/-- The next range does not start before the last one ends. -/
def follows (m m' : Mapped) : Bool := decide (m.2.2 ≤ m'.2.1)

/-- The mapped locations in runs whose addresses do not go back. Without any there is
still the sequence that the end of the program ends. -/
def sequences (ms : List Mapped) : List (List Mapped) :=
  if ms = [] then [[]] else ms.splitBy follows

/-- The end of the last range; the machine starts at 0. -/
def lastEnd (seq : List Mapped) : UInt64 := seq.getLast?.elim 0 (·.2.2)

/-- The rows of a sequence. -/
def sequenceViews (seq : List Mapped) : List View := seq.map rowOf ++ [.endSequence (lastEnd seq)]

theorem lastEnd_append (seq : List Mapped) (m : Mapped) : lastEnd (seq ++ [m]) = m.2.2 := by
  simp [lastEnd]

/-- With a sequence `seq` under way, the rows of the rest end it where the addresses go
back and at the end. -/
theorem viewsFrom_sequences : ∀ (ms seq : List Mapped), seq ≠ [] →
    seq.IsChain (fun m m' => follows m m') →
      seq.map rowOf ++ viewsFrom (lastEnd seq) ms =
        ((seq ++ ms).splitBy follows).flatMap sequenceViews
  | [], seq, hne, hchain => by
    rw [List.append_nil, List.splitBy_of_isChain hne hchain]
    simp [viewsFrom, sequenceViews]
  | m :: ms, seq, hne, hchain => by
    by_cases hback : m.2.1 < lastEnd seq
    · -- `m` starts the next sequence
      have hsplit : (seq ++ m :: ms).splitBy follows = [seq] ++ (m :: ms).splitBy follows := by
        rw [List.splitBy_append_cons ms, List.splitBy_of_isChain hne hchain]
        intro m' hm'
        have hend : lastEnd seq = m'.2.2 := by
          rw [lastEnd, Option.mem_def.mp hm', Option.elim_some]
        rw [hend] at hback
        simpa [follows] using hback
      have hrest := viewsFrom_sequences ms [m] (by simp) (by simp)
      have hm : lastEnd [m] = m.2.2 := rfl
      rw [List.map_singleton, List.singleton_append, List.singleton_append, hm] at hrest
      rw [hsplit, List.flatMap_append, ← hrest, viewsFrom, if_pos hback]
      simp [sequenceViews]
    · -- `m` goes on with the sequence
      have hchain' : (seq ++ [m]).IsChain (fun m m' => follows m m') := by
        refine List.isChain_append.mpr ⟨hchain, by simp, ?_⟩
        intro m' hm' m'' hm''
        have hend : lastEnd seq = m'.2.2 := by
          rw [lastEnd, Option.mem_def.mp hm', Option.elim_some]
        have heq : m = m'' := by simpa using hm''
        subst heq
        rw [hend] at hback
        simpa [follows] using hback
      have hrest := viewsFrom_sequences ms (seq ++ [m]) (by simp) hchain'
      rw [lastEnd_append, List.append_assoc, List.singleton_append] at hrest
      rw [← hrest, viewsFrom, if_neg hback]
      simp

theorem viewsFrom_zero (ms : List Mapped) : viewsFrom 0 ms = (sequences ms).flatMap sequenceViews := by
  cases ms with
  | nil => rfl
  | cons m ms =>
    have hrest := viewsFrom_sequences ms [m] (by simp) (by simp)
    have hm : lastEnd [m] = m.2.2 := rfl
    have hstart : ¬ m.2.1 < 0 := UInt64.not_lt_zero
    rw [sequences, if_neg (by simp), viewsFrom, if_neg hstart]
    simpa [hm] using hrest

theorem sequences_flatten (ms : List Mapped) : (sequences ms).flatten = ms := by
  unfold sequences
  split
  · rename_i h
    rw [h]
    rfl
  · exact List.flatten_splitBy follows ms

/-- Within a sequence the addresses do not go back, if no range ends before it starts. -/
theorem sequenceViews_isChain : ∀ {seq : List Mapped}, seq.IsChain (fun m m' => follows m m') →
    (∀ m ∈ seq, m.2.1 ≤ m.2.2) → ((sequenceViews seq).map View.address).IsChain (· ≤ ·)
  | [], _, _ => by simp [sequenceViews]
  | [m], _, hranges => by
    have hm := hranges m (List.mem_singleton_self m)
    simpa [sequenceViews, lastEnd, rowOf, View.address] using hm
  | m :: m' :: seq, hchain, hranges => by
    rw [List.isChain_cons_cons] at hchain
    have hm : m.2.1 ≤ m.2.2 := hranges m (by simp)
    have hnext : m.2.2 ≤ m'.2.1 := by simpa [follows] using hchain.1
    have hrest := sequenceViews_isChain hchain.2 fun x hx => hranges x (List.mem_cons_of_mem m hx)
    have hlast : lastEnd (m :: m' :: seq) = lastEnd (m' :: seq) := by simp [lastEnd]
    show List.IsChain _ (m.2.1 :: m'.2.1 :: _)
    refine List.isChain_cons_cons.mpr ⟨UInt64.le_trans hm hnext, ?_⟩
    rw [hlast]
    exact hrest

/-! ## Ranges -/

theorem checkInstrLocs_sorted : ∀ {instrLocs : List JitInstrLoc} {code wasm : UInt32},
    checkInstrLocs code wasm instrLocs = .ok () →
      (∀ a ∈ instrLocs, code ≤ a.codeOffset) ∧
        instrLocs.Pairwise fun a b => a.codeOffset ≤ b.codeOffset
  | [], _, _, _ => ⟨by simp, .nil⟩
  | instr :: instrLocs, code, wasm, h => by
    rw [checkInstrLocs] at h
    split at h
    · cases h
    · rename_i hcode
      split at h
      · cases h
      · obtain ⟨hall, hsorted⟩ := checkInstrLocs_sorted h
        have hcode' : code ≤ instr.codeOffset := not_not.mp hcode
        refine ⟨?_, List.pairwise_cons.mpr ⟨hall, hsorted⟩⟩
        intro a ha
        obtain rfl | ha := List.mem_cons.mp ha
        · exact hcode'
        · exact UInt32.le_trans hcode' (hall a ha)

/-- The instruction map that `set` takes has its code in order. -/
theorem set_sorted {fnLocs : List JitFnLoc} {instrLocs : List JitInstrLoc}
    (h : debugInstrMapSet fnLocs instrLocs = .ok ()) :
    instrLocs.Pairwise fun a b => a.codeOffset ≤ b.codeOffset := by
  unfold debugInstrMapSet at h
  obtain ⟨-, -, hinstrs⟩ := ok_of_bind h
  exact (checkInstrLocs_sorted hinstrs).2

/-- A range goes from one instruction to a later one. -/
theorem getAddrRange_instrs {info : Info} {instrLocs : List JitInstrLoc} {codeStart : UInt64}
    {begin last : UInt32} {range : UInt64 × UInt64}
    (h : getAddrRange info instrLocs codeStart begin last = some range) :
    ∃ i j, ∃ hi : i < instrLocs.length, ∃ hj : j < instrLocs.length, i < j ∧
      range = (codeAddress codeStart instrLocs[i], codeAddress codeStart instrLocs[j]) := by
  unfold getAddrRange at h
  dsimp only at h
  split at h
  · rename_i hlt
    obtain ⟨hlt, hne⟩ := hlt
    have hle : instrLowerBound instrLocs (info.wasmCodeOffset + last) ≤ instrLocs.length :=
      lowerBound_le _ _
    have hj : instrLowerBound instrLocs (info.wasmCodeOffset + last) < instrLocs.length := by omega
    have hi : instrLowerBound instrLocs (info.wasmCodeOffset + begin) < instrLocs.length := by omega
    rw [List.getElem?_eq_getElem hi, List.getElem?_eq_getElem hj] at h
    exact ⟨_, _, hi, hj, hlt, (Option.some.inj h).symm⟩
  · cases h

/-- The generated code is where its pointers say: no instruction is past the end of the
address space. -/
def CodeInMemory (codeStart : UInt64) (instrLocs : List JitInstrLoc) : Prop :=
  ∀ a ∈ instrLocs, codeStart.toNat + a.codeOffset.toNat < 2 ^ 64

theorem codeAddress_toNat {codeStart : UInt64} {instrLocs : List JitInstrLoc}
    (h : CodeInMemory codeStart instrLocs) {a : JitInstrLoc} (ha : a ∈ instrLocs) :
    (codeAddress codeStart a).toNat = codeStart.toNat + a.codeOffset.toNat := by
  rw [codeAddress, UInt64.toNat_add, UInt32.toNat_toUInt64]
  exact Nat.mod_eq_of_lt (h a ha)

theorem getAddrRange_le {info : Info} {instrLocs : List JitInstrLoc} {codeStart : UInt64}
    (hsorted : instrLocs.Pairwise fun a b => a.codeOffset ≤ b.codeOffset)
    (hcode : CodeInMemory codeStart instrLocs) {begin last : UInt32} {range : UInt64 × UInt64}
    (h : getAddrRange info instrLocs codeStart begin last = some range) : range.1 ≤ range.2 := by
  obtain ⟨i, j, hi, hj, hlt, rfl⟩ := getAddrRange_instrs h
  have hoffset : instrLocs[i].codeOffset ≤ instrLocs[j].codeOffset :=
    List.pairwise_iff_getElem.mp hsorted i j hi hj hlt
  rw [UInt64.le_iff_toNat_le, codeAddress_toNat hcode (List.getElem_mem hi),
    codeAddress_toNat hcode (List.getElem_mem hj)]
  exact Nat.add_le_add_left (UInt32.le_iff_toNat_le.mp hoffset) _

/-! ## The section -/

/-- The parameters of the header that is written. -/
def emittedParams : Params where
  minimumInstructionLength := 1
  maximumOperationsPerInstruction := 1
  defaultIsStmt := true
  lineBase := -5
  lineRange := 14
  opcodeBase := 13
  standardOpcodeLengths := [0, 1, 1, 1, 1, 0, 0, 0, 1, 0, 0, 1]

/-- The header is written, and a consumer reads these parameters from it. -/
theorem lineHeaderToBin_emitted (info : Info) :
    ∃ header, lineHeaderToBin (emittedHeader info) = .ok header ∧
      LineMachine.readParams header = some emittedParams := by
  refine ⟨_, rfl, ?_⟩
  show LineMachine.readParams (1 :: 1 :: 1 :: 0xfb :: 14 :: 13 ::
    (([0, 1, 1, 1, 1, 0, 0, 0, 1, 0, 0, 1] : Bytes) ++ [] ++ [0] ++
      info.files.flatMap (fun name => writeString name ++ [0, 0, 0]) ++ [0])) = _
  rw [LineMachine.readParams, if_neg]
  · rfl
  · simp

theorem unitPrefix_length (headerSize programSize : Nat) :
    (unitPrefix headerSize programSize).length = 22 := rfl

/-- The size that was counted is the size that is written. -/
theorem generateDebugLine_ok {info : Info} {header : Bytes}
    (h : lineHeaderToBin (emittedHeader info) = .ok header) (instrLocs : List JitInstrLoc)
    (codeStart : UInt64) :
    generateDebugLine info instrLocs codeStart =
      .ok (unitPrefix header.length (writeLineProgram info instrLocs codeStart).length ++ header ++
        writeLineProgram info instrLocs codeStart) := by
  unfold generateDebugLine
  rw [h]
  dsimp only [bind, Except.bind]
  have hsize : (unitPrefix header.length (writeLineProgram info instrLocs codeStart).length ++
      header ++ writeLineProgram info instrLocs codeStart).length =
      header.length + (writeLineProgram info instrLocs codeStart).length + 22 := by
    rw [List.length_append, List.length_append, unitPrefix_length]
    omega
  rw [hsize, if_neg (Nat.lt_irrefl _), if_neg (not_not.mpr rfl)]

/-- The rows of locations among all rows. -/
def View.isLine : View → Bool
  | line _ _ _ => true
  | endSequence _ => false

theorem sequenceViews_lines (seq : List Mapped) :
    (sequenceViews seq).filter View.isLine = seq.map rowOf := by
  have hrows : (seq.map rowOf).filter View.isLine = seq.map rowOf := by
    refine List.filter_eq_self.mpr ?_
    intro v hv
    obtain ⟨m, -, rfl⟩ := List.mem_map.mp hv
    rfl
  rw [sequenceViews, List.filter_append, hrows]
  simp [View.isLine]

/-- The machine appends the rows of the sequences, one after the other. -/
theorem program_views (info : Info) (instrLocs : List JitInstrLoc) (codeStart : UInt64) :
    ∃ rows, LineMachine.program emittedParams (writeLineProgram info instrLocs codeStart) = some rows ∧
      rows.map view =
        (sequences (mapped info instrLocs codeStart info.locations)).flatMap sequenceViews := by
  obtain ⟨r', rows, hexec, hviews⟩ := emits_program (p := emittedParams) (by decide) info instrLocs
    codeStart info.locations {} (LineMachine.initial emittedParams) ⟨⟨rfl, rfl, rfl⟩, rfl⟩
  refine ⟨rows, LineMachine.program_rows hexec, ?_⟩
  rw [hviews]
  exact viewsFrom_zero _

theorem sequences_isChain {ms seq : List Mapped} (h : seq ∈ sequences ms) :
    seq.IsChain fun m m' => follows m m' := by
  unfold sequences at h
  split at h
  · rw [List.mem_singleton.mp h]
    exact .nil
  · exact List.isChain_of_mem_splitBy h

theorem sequences_nil {ms : List Mapped} (h : [] ∈ sequences ms) : ms = [] := by
  unfold sequences at h
  split at h
  · assumption
  · exact absurd h (List.nil_notMem_splitBy follows ms)

theorem mapped_le {instrLocs : List JitInstrLoc} {codeStart : UInt64}
    (hsorted : instrLocs.Pairwise fun a b => a.codeOffset ≤ b.codeOffset)
    (hcode : CodeInMemory codeStart instrLocs) {info : Info} {locations : List Location} {m : Mapped}
    (h : m ∈ mapped info instrLocs codeStart locations) : m.2.1 ≤ m.2.2 := by
  obtain ⟨loc, -, hloc⟩ := List.mem_filterMap.mp h
  obtain ⟨range, hrange, rfl⟩ := Option.map_eq_some_iff.mp hloc
  exact getAddrRange_le hsorted hcode hrange

/-- For every list of locations, every instruction map that `set` takes and every place of
the code, a consumer that runs the written program with the parameters of the written
header gets one row for each mapped location, in order, with the start of its range, file
`file_index + 1` and its line. The rows come in sequences, whose addresses never go back
and each of which ends with an `end_sequence` row at the end of its last range. -/
theorem writeLineProgram_rows {fnLocs : List JitFnLoc} {instrLocs : List JitInstrLoc}
    {codeStart : UInt64} (info : Info) (hset : debugInstrMapSet fnLocs instrLocs = .ok ())
    (hcode : CodeInMemory codeStart instrLocs) :
    ∃ header params rows,
      generateDebugLine info instrLocs codeStart =
        .ok (unitPrefix header.length (writeLineProgram info instrLocs codeStart).length ++ header ++
          writeLineProgram info instrLocs codeStart) ∧
      LineMachine.readParams header = some params ∧
      LineMachine.program params (writeLineProgram info instrLocs codeStart) = some rows ∧
      (rows.map view).filter View.isLine =
        (mapped info instrLocs codeStart info.locations).map rowOf ∧
      ∃ seqs : List (List Mapped), seqs.flatten = mapped info instrLocs codeStart info.locations ∧
        (∀ seq ∈ seqs, seq = [] → mapped info instrLocs codeStart info.locations = []) ∧
        rows.map view = seqs.flatMap (fun seq => seq.map rowOf ++ [View.endSequence (lastEnd seq)]) ∧
        ∀ seq ∈ seqs,
          ((seq.map rowOf ++ [View.endSequence (lastEnd seq)]).map View.address).Pairwise (· ≤ ·) := by
  obtain ⟨header, hheader, hparams⟩ := lineHeaderToBin_emitted info
  obtain ⟨rows, hrows, hviews⟩ := program_views info instrLocs codeStart
  have hsorted := set_sorted hset
  refine ⟨header, emittedParams, rows, generateDebugLine_ok hheader instrLocs codeStart, hparams,
    hrows, ?_, sequences (mapped info instrLocs codeStart info.locations),
    sequences_flatten _, ?_, hviews, ?_⟩
  · -- without the ends of the sequences the rows are those of the locations
    rw [hviews, List.filter_flatMap]
    simp only [sequenceViews_lines]
    rw [List.flatMap_def, ← List.map_flatten, sequences_flatten]
  · rintro seq hseq rfl
    exact sequences_nil hseq
  · intro seq hseq
    refine List.isChain_iff_pairwise.mp (sequenceViews_isChain (sequences_isChain hseq) ?_)
    intro m hm
    have hmem : m ∈ mapped info instrLocs codeStart info.locations := by
      rw [← sequences_flatten (mapped info instrLocs codeStart info.locations)]
      exact List.mem_flatten.mpr ⟨seq, hseq, hm⟩
    exact mapped_le hsorted hcode hmem

/-- Three instructions, and two locations of which the second comes first in the code. -/
def exampleInstrLocs : List JitInstrLoc := [⟨0, 10⟩, ⟨4, 12⟩, ⟨9, 20⟩]

def exampleInfo : Info :=
  { wasmCodeOffset := 8, files := [[0x61]],
    locations := [{ beginAddress := 4, endAddress := 12, fileIndex := 0, line := 7 },
      { beginAddress := 2, endAddress := 4, fileIndex := 0, line := 3 },
      { beginAddress := 12, endAddress := 13, fileIndex := 0, line := 9 }] }

/-- Two rows are read, in two sequences; the last location has no range. -/
theorem writeLineProgram_rows_example :
    ∃ params rows,
      LineMachine.program params (writeLineProgram exampleInfo exampleInstrLocs 0x1000) = some rows ∧
      (rows.map view).filter View.isLine = [.line 0x1004 1 7, .line 0x1000 1 3] := by
  have hcode : CodeInMemory 0x1000 exampleInstrLocs := by
    unfold CodeInMemory
    decide
  obtain ⟨-, params, rows, -, -, hrows, hlines, -⟩ :=
    @writeLineProgram_rows [] exampleInstrLocs 0x1000 exampleInfo (by decide) hcode
  exact ⟨params, rows, hrows, hlines.trans (by decide)⟩

end Microchain.DebugEosVm
