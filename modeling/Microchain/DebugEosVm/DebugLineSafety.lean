import Microchain.DebugEosVm.DebugLine
import Microchain.Lib.Except

/-!
# Safety of reading `.debug_line`

Every part of the parser ends (`Leaves`), so parsing a section completes, reports a
failure or breaks the rules of C++. Which of the parts can do the last, and where, is
followed up from the two indexes and the division to the loop over the units:
`parse_debug_line` is sound but for a file entry that names one directory too many and
for a division by a `line_range` of zero (`parseDebugLine_sound_iff`).
-/

namespace Microchain.DebugEosVm

open Eosio Lib
open Lib.Run (All Ends FailsWith NeverFails Settled)

/-! ## Every part ends, with the bytes that are left -/

/-- It ends, and what it returns leaves at most `n` bytes of the stream. -/
def Leaves {α : Type} (n : Nat) : Run Fault (α × Bytes) → Prop := Ends fun r => r.2.length ≤ n

theorem Leaves.returns {α : Type} {n : Nat} {a : α} {s : Bytes} (h : s.length ≤ n) :
    Leaves n (.returns (a, s)) :=
  Ends.returns h

theorem Leaves.bind {α β : Type} {n : Nat} {Q : β → Prop} {x : Run Fault (α × Bytes)}
    {k : α × Bytes → Run Fault β} (hx : Leaves n x)
    (hk : ∀ a s, s.length ≤ n → (k (a, s)).Ends Q) : (x >>= k).Ends Q :=
  Ends.bind hx fun r hr => hk r.1 r.2 hr

theorem check_settled (cond : Prop) [Decidable cond] (text : String) :
    (check cond text).Settled := by
  unfold check
  split
  · exact Settled.returns ()
  · exact Settled.fails _

theorem indexAt_settled {α : Type} (v : List α) (i : Nat) : (indexAt v i).Settled := by
  unfold indexAt
  split
  · exact Settled.returns _
  · exact Settled.fails _

theorem divMod_settled (a b : Nat) : (divMod a b).Settled := by
  unfold divMod
  split
  · exact Settled.fails _
  · exact Settled.returns _

/-- A decoder leaves `k` bytes less than there were. -/
def Consumes {α : Type} (k : Nat) (fromBin : FromBin α) : Prop :=
  ∀ (s : Bytes) (a : α) (rest : Bytes), fromBin s = .ok (a, rest) → rest.length + k ≤ s.length

theorem reads_leaves {α : Type} {k n : Nat} {fromBin : FromBin α} (h : Consumes k fromBin)
    {s : Bytes} (hs : s.length ≤ n + k) : Leaves n (reads fromBin s) := by
  unfold reads
  split
  · rename_i r hr
    have hrest : r.2.length + k ≤ s.length := h s r.1 r.2 hr
    exact Leaves.returns (by omega)
  · exact Ends.fails _

theorem uint8_consumes : Consumes 1 uint8FromBin := by
  intro s a rest h
  cases s with
  | nil => cases h
  | cons b s =>
    cases h
    exact Nat.le_refl _

theorem uint16_consumes : Consumes 0 uint16FromBin := by
  intro s a rest h
  match s, h with
  | b0 :: b1 :: s, h =>
    cases h
    simp only [List.length_cons]
    omega

theorem uint32_consumes : Consumes 1 uint32FromBin := by
  intro s a rest h
  match s, h with
  | b0 :: b1 :: b2 :: b3 :: s, h =>
    cases h
    simp only [List.length_cons]
    omega

theorem readBytes_consumes (size : Nat) : Consumes 0 (readBytes size) := by
  intro s a rest h
  unfold readBytes at h
  split at h
  · cases h
    simp
  · cases h

/-- A decoder that takes bytes takes at least none. -/
theorem Consumes.weaken {α : Type} {k : Nat} {fromBin : FromBin α} (h : Consumes k fromBin) :
    Consumes 0 fromBin := by
  intro s a rest hs
  have hrest := h s a rest hs
  omega

/-- A byte, and what is read behind it. -/
theorem byte_consumes {α : Type} {s rest : Bytes} {a : α}
    {k : UInt8 × Bytes → Except String (α × Bytes)}
    (hk : ∀ b s', k (b, s') = .ok (a, rest) → rest.length ≤ s'.length)
    (h : (uint8FromBin s >>= k) = .ok (a, rest)) : rest.length + 1 ≤ s.length := by
  obtain ⟨⟨b, s'⟩, hb, h⟩ := ok_of_bind h
  have hs' : s'.length + 1 ≤ s.length := uint8_consumes s b s' hb
  have hrest := hk b s' h
  omega

theorem varuint32Loop_consumes : ∀ (rounds : Nat) (shift result : UInt32),
    Consumes 1 (varuint32FromBinLoop rounds shift result)
  | 0, _, _ => fun _ _ _ h => by cases h
  | rounds + 1, shift, result => by
    intro s a rest h
    refine byte_consumes (fun b s' hk => ?_) h
    dsimp only at hk
    split at hk
    · exact (varuint32Loop_consumes rounds _ _).weaken s' a rest hk
    · cases hk
      exact Nat.le_refl _

theorem varuint32_consumes_one : Consumes 1 varuint32FromBin := varuint32Loop_consumes 5 0 0

theorem varuint32_consumes : Consumes 0 varuint32FromBin := varuint32_consumes_one.weaken

theorem sleb32Loop_consumes : ∀ (rounds : Nat) (shift result : UInt32),
    Consumes 1 (sleb32FromBinLoop rounds shift result)
  | 0, _, _ => fun _ _ _ h => by cases h
  | rounds + 1, shift, result => by
    intro s a rest h
    refine byte_consumes (fun b s' hk => ?_) h
    dsimp only at hk
    split at hk
    · exact (sleb32Loop_consumes rounds _ _).weaken s' a rest hk
    · split at hk
      · cases hk
        exact Nat.le_refl _
      · cases hk
        exact Nat.le_refl _

theorem sleb32_consumes : Consumes 0 sleb32FromBin := (sleb32Loop_consumes 5 0 0).weaken

theorem elements_consumes {α : Type} {k : Nat} {fromBin : FromBin α} (h : Consumes k fromBin) :
    ∀ size, Consumes 0 (elementsFromBin fromBin size)
  | 0 => by
    intro s a rest hs
    cases hs
    exact Nat.le_refl _
  | size + 1 => by
    intro s a rest hs
    obtain ⟨r, hr, hs⟩ := ok_of_bind hs
    obtain ⟨r', hr', hs⟩ := ok_of_bind hs
    cases hs
    have h1 : r.2.length + k ≤ s.length := h _ _ _ hr
    have h2 : r'.2.length + 0 ≤ r.2.length := elements_consumes h size _ _ _ hr'
    omega

theorem getString_leaves : ∀ {s : Bytes} {n : Nat}, s.length ≤ n + 1 → Leaves n (getString s)
  | [], _, _ => Ends.fails _
  | ch :: s, n, h => by
    have hs : s.length ≤ n := by simpa using h
    unfold getString
    split
    · exact Leaves.returns hs
    · have hrest : Leaves n (getString s) := getString_leaves (by omega)
      exact hrest.bind fun str s' h' => Leaves.returns h'

/-- The bytes left for the next turn, or after the loop. -/
abbrev bytesLeft {α : Type} (r : α × Bytes) : Nat := r.2.length

theorem getStrings_lowers : Lowers bytesLeft bytesLeft getStringsTurn := by
  rintro ⟨v, s⟩
  cases s with
  | nil => exact Ends.fails _
  | cons ch s =>
    refine (getString_leaves (n := s.length) (Nat.le_refl _)).bind ?_
    intro str s' hs'
    show Ends _ (if str = [] then _ else _)
    split
    · exact Ends.returns (Nat.le_succ_of_le hs')
    · exact Ends.returns (Nat.lt_succ_of_le hs')

theorem getStrings_leaves (v : List Bytes) (s : Bytes) : Leaves s.length (getStrings v s) :=
  loop_ends (s := (v, s)) getStrings_lowers (Nat.lt_succ_self s.length)

theorem fileEntry_leaves {s : Bytes} {n : Nat} (hs : s.length ≤ n + 1) :
    Leaves n (fileEntryFromBin s) := by
  refine (getString_leaves hs).bind ?_
  intro str s1 h1
  show Ends _ (if str = [] then _ else _)
  split
  · exact Leaves.returns h1
  · refine (reads_leaves varuint32_consumes h1).bind fun dir s2 h2 => ?_
    refine (reads_leaves varuint32_consumes h2).bind fun _ s3 h3 => ?_
    refine (reads_leaves varuint32_consumes h3).bind fun _ s4 h4 => ?_
    exact Leaves.returns h4

theorem filePath_settled (includeDirectories : List Bytes) (str : Bytes) (dir : UInt32) :
    (filePath includeDirectories str dir).Settled := by
  refine Settled.bind (check_settled _ _) fun _ => ?_
  show Settled (if dir ≠ 0 then _ else _)
  split
  · exact Settled.bind (indexAt_settled _ _) fun _ => Settled.returns _
  · exact Settled.returns _

theorem fileNames_lowers (includeDirectories : List Bytes) :
    Lowers bytesLeft bytesLeft (fileNamesTurn includeDirectories) := by
  rintro ⟨fileNames, s⟩
  cases s with
  | nil => exact Ends.fails _
  | cons ch s =>
    refine (fileEntry_leaves (n := s.length) (Nat.le_refl _)).bind ?_
    intro entry s' hs'
    cases entry with
    | none => exact Ends.returns (Nat.le_succ_of_le hs')
    | some entry =>
      exact (filePath_settled _ _ _).ends_bind fun path => Ends.returns (Nat.lt_succ_of_le hs')

theorem lineHeaderFields_leaves (s : Bytes) : Leaves s.length (lineHeaderFieldsFromBin s) := by
  have hbyte {s s' : Bytes} (h : s'.length ≤ s.length) : Leaves s.length (reads uint8FromBin s') :=
    reads_leaves uint8_consumes (Nat.le_succ_of_le h)
  refine (hbyte (Nat.le_refl s.length)).bind fun _ s1 h1 => ?_
  refine (hbyte h1).bind fun _ s2 h2 => ?_
  refine (hbyte h2).bind fun _ s3 h3 => ?_
  refine (hbyte h3).bind fun _ s4 h4 => ?_
  refine (hbyte h4).bind fun _ s5 h5 => ?_
  refine (hbyte h5).bind fun opcodeBase s6 h6 => ?_
  refine (reads_leaves (elements_consumes uint8_consumes _) h6).bind fun _ s7 h7 => ?_
  refine (getStrings_leaves [[]] s7).bind fun _ s8 h8 => ?_
  exact Leaves.returns (Nat.le_trans h8 h7)

theorem lineHeader_leaves (s : Bytes) : Leaves s.length (lineHeaderFromBin s) := by
  refine (lineHeaderFields_leaves s).bind fun header s1 h1 => ?_
  refine Leaves.bind (loop_ends (fileNames_lowers _) (Nat.lt_succ_self s1.length)) ?_
  intro fileNames s2 h2
  exact Leaves.returns (Nat.le_trans h2 h1)

theorem unitPrefix_leaves (s : Bytes) : Leaves s.length (unitPrefixFromBin s) := by
  refine (reads_leaves uint16_consumes (Nat.le_refl s.length)).bind fun version s1 h1 => ?_
  refine (check_settled _ _).ends_bind fun _ => ?_
  refine (reads_leaves uint32_consumes (Nat.le_succ_of_le h1)).bind fun headerLength s2 h2 => ?_
  exact (check_settled _ _).ends_bind fun _ => Leaves.returns h2

theorem unitHeader_leaves (s : Bytes) : Leaves s.length (parseDebugLineUnitHeader s) := by
  refine (unitPrefix_leaves s).bind fun headerLength s1 h1 => ?_
  refine (lineHeader_leaves s1).bind fun header s2 h2 => ?_
  exact (check_settled _ _).ends_bind fun _ => Leaves.returns (Nat.le_trans h2 h1)

theorem closeLocation_settled (header : LineHeader) (begin : UInt32) (current : Location)
    (u : UnitState) : (closeLocation header begin current u).Settled := by
  refine Settled.bind (check_settled _ _) fun _ => ?_
  exact Settled.bind (indexAt_settled _ _) fun _ => Settled.returns _

theorem endLocation_settled (header : LineHeader) (begin : UInt32) (u : UnitState) :
    (endLocation header begin u).Settled := by
  unfold endLocation
  split
  · split
    · exact closeLocation_settled _ _ _ _
    · exact Settled.returns _
  · exact Settled.returns _

theorem addRow_settled (header : LineHeader) (u : UnitState) : (addRow header u).Settled :=
  Settled.bind (endLocation_settled _ _ _) fun _ => Settled.returns _

theorem extendedOpcode_leaves (header : LineHeader) (initialState : LineState) (u : UnitState)
    (s : Bytes) : Leaves s.length (extendedOpcode header initialState u s) := by
  refine (reads_leaves varuint32_consumes (Nat.le_refl s.length)).bind fun size s1 h1 => ?_
  refine (check_settled _ _).ends_bind fun _ => ?_
  refine (reads_leaves (readBytes_consumes _) h1).bind fun extended s2 h2 => ?_
  have hopcode : Leaves extended.length (reads uint8FromBin extended) :=
    reads_leaves uint8_consumes (Nat.le_succ _)
  refine hopcode.bind fun opcode s3 h3 => ?_
  dsimp only
  split
  · exact (addRow_settled _ _).ends_bind fun _ => Leaves.returns h2
  · split
    · exact (reads_leaves uint32_consumes (Nat.le_succ_of_le h3)).bind fun _ _ _ => Leaves.returns h2
    · split
      · exact (reads_leaves varuint32_consumes h3).bind fun _ _ _ => Leaves.returns h2
      · exact Leaves.returns h2

theorem standardOpcode_leaves (header : LineHeader) (opcode : UInt8) (u : UnitState) (s : Bytes) :
    Leaves s.length (standardOpcode header opcode u s) := by
  have hs : s.length ≤ s.length := Nat.le_refl _
  have hread {α : Type} {fromBin : FromBin α} (h : Consumes 0 fromBin) :
      Leaves s.length (reads fromBin s) :=
    reads_leaves h hs
  unfold standardOpcode
  -- one case for each opcode, in the order of the source
  refine Ends.ite (fun _ => ?copy) fun _ => ?_
  case copy => exact (addRow_settled _ _).ends_bind fun _ => Leaves.returns hs
  refine Ends.ite (fun _ => (hread varuint32_consumes).bind fun _ _ => Leaves.returns) fun _ => ?_
  refine Ends.ite (fun _ => (hread sleb32_consumes).bind fun _ _ => Leaves.returns) fun _ => ?_
  refine Ends.ite (fun _ => (hread varuint32_consumes).bind fun _ _ => Leaves.returns) fun _ => ?_
  refine Ends.ite (fun _ => (hread varuint32_consumes).bind fun _ _ => Leaves.returns) fun _ => ?_
  refine Ends.ite (fun _ => Leaves.returns hs) fun _ => ?_
  refine Ends.ite (fun _ => Leaves.returns hs) fun _ => ?_
  refine Ends.ite (fun _ => ?constAddPc) fun _ => ?_
  case constAddPc => exact (divMod_settled _ _).ends_bind fun _ => Leaves.returns hs
  refine Ends.ite (fun _ => (hread uint16_consumes).bind fun _ _ => Leaves.returns) fun _ => ?_
  refine Ends.ite (fun _ => Leaves.returns hs) fun _ => ?_
  refine Ends.ite (fun _ => Leaves.returns hs) fun _ => ?_
  refine Ends.ite (fun _ => (hread varuint32_consumes).bind fun _ _ => Leaves.returns) fun _ => ?_
  refine (indexAt_settled _ _).ends_bind fun length => ?_
  exact (hread (elements_consumes varuint32_consumes _)).bind fun _ _ => Leaves.returns

theorem specialOpcode_settled (header : LineHeader) (opcode : UInt8) (u : UnitState) :
    (specialOpcode header opcode u).Settled := by
  refine Settled.bind (divMod_settled _ _) fun _ => ?_
  exact Settled.bind (addRow_settled _ _) fun _ => Settled.returns _

theorem opcode_lowers (header : LineHeader) (initialState : LineState) :
    Lowers bytesLeft (fun _ => 0) (opcodeTurn header initialState) := by
  rintro ⟨u, s⟩
  cases s with
  | nil => exact Ends.returns (Nat.zero_le _)
  | cons opcode s =>
    show Ends _ (if opcode = 0 then _ else if opcode < header.opcodeBase then _ else _)
    split
    · refine (extendedOpcode_leaves _ _ _ _).bind fun u' s' hs' => ?_
      exact Ends.returns (Nat.lt_succ_of_le hs')
    · split
      · refine (standardOpcode_leaves _ _ _ _).bind fun u' s' hs' => ?_
        exact Ends.returns (Nat.lt_succ_of_le hs')
      · refine (specialOpcode_settled _ _ _).ends_bind fun u' => ?_
        exact Ends.returns (Nat.lt_succ_self s.length)

theorem unit_settled (found : Found) (s : Bytes) : (parseDebugLineUnit found s).Settled := by
  refine Ends.settled (P := fun _ => True) ?_
  refine (unitHeader_leaves s).bind fun header s1 _ => ?_
  refine (check_settled _ _).ends_bind fun _ => ?_
  refine (check_settled _ _).ends_bind fun _ => ?_
  have hloop := loop_ends (opcode_lowers header (initialState header)) (Nat.lt_succ_self s1.length)
    (s := ({ state := initialState header, found }, s1))
  exact hloop.mono fun _ _ => trivial

theorem unitFromBin_leaves {s : Bytes} {n : Nat} (hs : s.length ≤ n + 1) :
    Leaves n (unitFromBin s) := by
  refine (reads_leaves uint32_consumes hs).bind fun unitLength s1 h1 => ?_
  refine (check_settled _ _).ends_bind fun _ => ?_
  refine (check_settled _ _).ends_bind fun _ => ?_
  refine Leaves.returns (Nat.le_trans ?_ h1)
  simp

theorem unit_lowers : Lowers bytesLeft (fun _ => 0) unitTurn := by
  rintro ⟨found, s⟩
  cases s with
  | nil => exact Ends.returns (Nat.zero_le _)
  | cons b s =>
    refine (unitFromBin_leaves (Nat.le_refl (s.length + 1))).bind fun unit rest hrest => ?_
    exact (unit_settled _ _).ends_bind fun _ => Ends.returns (Nat.lt_succ_of_le hrest)

/-- Parsing ends. -/
theorem parseDebugLine_settled (found : Found) (s : Bytes) : (parseDebugLine found s).Settled :=
  (loop_ends (s := (found, s)) unit_lowers (Nat.lt_succ_self s.length)).settled

/-! ## The parts that are never undefined -/

/-- No failure that C++ leaves undefined. -/
def Defined {α : Type} (x : Run Fault α) : Prop := x.NeverFails Fault.Undefined

theorem Defined.not_failsWith {α : Type} {x : Run Fault α} (h : Defined x) :
    x.FailsWith Fault.Undefined ↔ False :=
  iff_false_intro (Run.neverFails_iff.mp h)

theorem defined_of_not {α : Type} {x : Run Fault α} (h : ¬ x.FailsWith Fault.Undefined) :
    Defined x :=
  Run.neverFails_iff.mpr h

theorem not_undefined_reported (text : String) : ¬ (Fault.reported text).Undefined :=
  fun h => h text rfl

theorem Defined.returns {α : Type} (a : α) : Defined (.returns a) := NeverFails.returns a

theorem Defined.reported {α : Type} (text : String) :
    Defined (.fails (.reported text) : Run Fault α) :=
  NeverFails.fails (not_undefined_reported text)

theorem Defined.bind {α β : Type} {x : Run Fault α} {k : α → Run Fault β} (hx : Defined x)
    (hk : ∀ a, Defined (k a)) : Defined (x >>= k) :=
  NeverFails.bind hx hk

theorem Defined.ite {α : Type} {c : Prop} [Decidable c] {x y : Run Fault α} (hx : Defined x)
    (hy : Defined y) : Defined (if c then x else y) :=
  NeverFails.ite (fun _ => hx) fun _ => hy

theorem reads_defined {α : Type} (fromBin : FromBin α) (s : Bytes) : Defined (reads fromBin s) := by
  unfold reads
  split
  · exact Defined.returns _
  · exact Defined.reported _

theorem check_defined (cond : Prop) [Decidable cond] (text : String) :
    Defined (check cond text) :=
  Defined.ite (Defined.returns ()) (Defined.reported text)

/-- An index is undefined outside the vector. -/
theorem indexAt_undefined_iff {α : Type} (v : List α) (i : Nat) :
    (indexAt v i).FailsWith Fault.Undefined ↔ v.length ≤ i := by
  unfold indexAt
  split
  · rename_i a ha
    have hi : i < v.length := (List.getElem?_eq_some_iff.mp ha).1
    simp only [Run.failsWith_returns, false_iff]
    omega
  · rename_i ha
    have hi : v.length ≤ i := List.getElem?_eq_none_iff.mp ha
    simp [hi, Fault.Undefined]

theorem indexAt_defined {α : Type} {v : List α} {i : Nat} (h : i < v.length) :
    Defined (indexAt v i) :=
  defined_of_not fun hf => absurd ((indexAt_undefined_iff v i).mp hf) (Nat.not_le.mpr h)

/-- A division is undefined where the divisor is zero. -/
theorem divMod_undefined_iff (a b : Nat) : (divMod a b).FailsWith Fault.Undefined ↔ b = 0 := by
  unfold divMod
  split
  · simp [*, Fault.Undefined]
  · simp [*]

theorem getString_defined : ∀ s, Defined (getString s)
  | [] => Defined.reported _
  | ch :: s => by
    unfold getString
    exact Defined.ite (Defined.returns _) ((getString_defined s).bind fun _ => Defined.returns _)

theorem getStrings_defined (v : List Bytes) (s : Bytes) : Defined (getStrings v s) := by
  refine defined_of_not fun hf => ?_
  obtain ⟨⟨v', s'⟩, -, hturn⟩ := (loop_failsWith_iff getStrings_lowers
    (Nat.lt_succ_self s.length)).mp hf
  have hsafe : Defined (getStringsTurn (v', s')) :=
    (getString_defined s').bind fun _ => Defined.ite (Defined.returns _) (Defined.returns _)
  exact hsafe.not_failsWith.mp hturn

theorem fileEntry_defined (s : Bytes) : Defined (fileEntryFromBin s) := by
  refine (getString_defined s).bind fun _ => Defined.ite (Defined.returns _) ?_
  refine (reads_defined _ _).bind fun _ => ?_
  refine (reads_defined _ _).bind fun _ => ?_
  exact (reads_defined _ _).bind fun _ => Defined.returns _

theorem lineHeaderFields_defined (s : Bytes) : Defined (lineHeaderFieldsFromBin s) := by
  refine (reads_defined _ _).bind fun _ => ?_
  refine (reads_defined _ _).bind fun _ => ?_
  refine (reads_defined _ _).bind fun _ => ?_
  refine (reads_defined _ _).bind fun _ => ?_
  refine (reads_defined _ _).bind fun _ => ?_
  refine (reads_defined _ _).bind fun _ => ?_
  refine (reads_defined _ _).bind fun _ => ?_
  exact (getStrings_defined _ _).bind fun _ => Defined.returns _

theorem unitPrefix_defined (s : Bytes) : Defined (unitPrefixFromBin s) := by
  refine (reads_defined _ _).bind fun _ => ?_
  refine (check_defined _ _).bind fun _ => ?_
  refine (reads_defined _ _).bind fun _ => ?_
  exact (check_defined _ _).bind fun _ => Defined.returns _

/-- The file index is checked before it is used. -/
theorem closeLocation_defined (header : LineHeader) (begin : UInt32) (current : Location)
    (u : UnitState) : Defined (closeLocation header begin current u) := by
  unfold closeLocation check
  by_cases hindex : current.fileIndex.toNat < header.fileNames.length
  · rw [if_pos hindex]
    exact (indexAt_defined hindex).bind fun _ => Defined.returns _
  · rw [if_neg hindex]
    exact Defined.reported _

theorem addRow_defined (header : LineHeader) (u : UnitState) : Defined (addRow header u) := by
  refine Defined.bind ?_ fun _ => Defined.returns _
  unfold endLocation
  split
  · exact Defined.ite (closeLocation_defined _ _ _ _) (Defined.returns _)
  · exact Defined.returns _

theorem extendedOpcode_defined (header : LineHeader) (initialState : LineState) (u : UnitState)
    (s : Bytes) : Defined (extendedOpcode header initialState u s) := by
  refine (reads_defined _ _).bind fun _ => ?_
  refine (check_defined _ _).bind fun _ => ?_
  refine (reads_defined _ _).bind fun _ => ?_
  refine (reads_defined _ _).bind fun _ => ?_
  refine Defined.ite ((addRow_defined _ _).bind fun _ => Defined.returns _) ?_
  refine Defined.ite ((reads_defined _ _).bind fun _ => Defined.returns _) ?_
  exact Defined.ite ((reads_defined _ _).bind fun _ => Defined.returns _) (Defined.returns _)

theorem unitFromBin_defined (s : Bytes) : Defined (unitFromBin s) := by
  refine (reads_defined _ _).bind fun _ => ?_
  refine (check_defined _ _).bind fun _ => ?_
  exact (check_defined _ _).bind fun _ => Defined.returns _

/-! ## The header -/

/-- What the parsed header promises about its vectors: the empty directory is in front,
and every standard opcode has a length. -/
structure HeaderSound (header : LineHeader) : Prop where
  directories : 0 < header.includeDirectories.length
  lengths : ∀ opcode : UInt8, opcode ≠ 0 → opcode < header.opcodeBase →
    opcode.toNat < header.standardOpcodeLengths.length

theorem getStrings_length {v : List Bytes} (hv : 0 < v.length) (s : Bytes) :
    (getStrings v s).All fun r => 0 < r.1.length := by
  refine loop_all (I := fun r => 0 < r.1.length) ?_ (s.length + 1) hv
  rintro ⟨v', s'⟩ hv'
  refine All.any_bind ?_
  rintro ⟨str, s1⟩
  show All _ (if str = [] then _ else _)
  split
  · exact All.returns hv'
  · refine All.returns ?_
    show 0 < (v' ++ [str]).length
    simp

theorem elements_length {α : Type} {fromBin : FromBin α} :
    ∀ {size : Nat} {s : Bytes} {v : List α} {rest : Bytes},
      elementsFromBin fromBin size s = .ok (v, rest) → v.length = size
  | 0, _, _, _, h => by
    cases h
    rfl
  | size + 1, s, v, rest, h => by
    obtain ⟨_, -, h⟩ := ok_of_bind h
    obtain ⟨⟨v', rest'⟩, hr', h⟩ := ok_of_bind h
    cases h
    rw [List.length_cons, elements_length hr']

theorem reads_all {α : Type} {P : α × Bytes → Prop} {fromBin : FromBin α} {s : Bytes}
    (h : ∀ a rest, fromBin s = .ok (a, rest) → P (a, rest)) : (reads fromBin s).All P :=
  fun r hr => h r.1 r.2 (reads_returns hr)

theorem lineHeaderFields_sound (s : Bytes) :
    (lineHeaderFieldsFromBin s).All fun r => HeaderSound r.1 := by
  refine All.any_bind fun _ => All.any_bind fun _ => All.any_bind fun _ => All.any_bind fun _ => All.any_bind fun _ => ?_
  refine All.any_bind fun opcodeBase => ?_
  refine All.bind (reads_all (P := fun r => r.1.length = opcodeBase.1.toNat - 1) fun _ _ => elements_length) ?_
  intro lengths hlengths
  refine All.bind (getStrings_length (by simp) _) fun directories hdirectories => ?_
  refine All.returns ⟨hdirectories, ?_⟩
  intro opcode hne hlt
  have hpos : 0 < opcode.toNat := by
    rw [Nat.pos_iff_ne_zero]
    intro h0
    exact hne (UInt8.toNat_inj.mp h0)
  have hopcode : opcode.toNat < opcodeBase.1.toNat := hlt
  show opcode.toNat < (0 :: lengths.1).length
  rw [List.length_cons, hlengths]
  omega

theorem lineHeader_sound (s : Bytes) : (lineHeaderFromBin s).All fun r => HeaderSound r.1 := by
  refine All.bind (lineHeaderFields_sound s) fun header hheader => All.any_bind fun fileNames => ?_
  exact All.returns ⟨hheader.directories, hheader.lengths⟩

theorem unitHeader_sound (s : Bytes) :
    (parseDebugLineUnitHeader s).All fun r => HeaderSound r.1 := by
  refine All.any_bind fun _ => All.bind (lineHeader_sound _) fun header hheader => ?_
  exact All.any_bind fun _ => All.returns hheader

/-- The file entry at `s` names as its directory the number of directories, one past the
last of them. -/
def NamesNextDirectory (header : LineHeader) (s : Bytes) : Prop :=
  ∃ str dir rest, fileEntryFromBin s = .returns (some (str, dir), rest) ∧
    dir.toNat = header.includeDirectories.length

/-- The check lets one directory too many pass. -/
theorem filePath_undefined_iff {directories : List Bytes} (hpos : 0 < directories.length)
    (str : Bytes) (dir : UInt32) :
    (filePath directories str dir).FailsWith Fault.Undefined ↔ dir.toNat = directories.length := by
  unfold filePath check
  by_cases hle : dir.toNat ≤ directories.length
  · rw [if_pos hle, Run.returns_bind]
    by_cases hdir : dir = 0
    · subst hdir
      simp only [ne_eq, not_true_eq_false, if_false, Run.failsWith_returns, UInt32.toNat_zero,
        false_iff]
      omega
    · rw [if_pos hdir, Run.failsWith_bind, indexAt_undefined_iff]
      simp only [Run.failsWith_returns, and_false, exists_false, or_false]
      omega
  · rw [if_neg hle, Run.fails_bind, Run.failsWith_fails]
    simp only [not_undefined_reported, false_iff]
    omega

theorem fileNamesTurn_undefined_iff {header : LineHeader} (h : HeaderSound header)
    (fileNames : List Bytes) (s : Bytes) :
    (fileNamesTurn header.includeDirectories (fileNames, s)).FailsWith Fault.Undefined ↔
      NamesNextDirectory header s := by
  unfold fileNamesTurn
  rw [Run.failsWith_bind, (fileEntry_defined s).not_failsWith, false_or]
  constructor
  · rintro ⟨⟨entry, rest⟩, hentry, hf⟩
    cases entry with
    | none => simp at hf
    | some entry =>
      refine ⟨entry.1, entry.2, rest, hentry, ?_⟩
      simpa [Run.failsWith_bind, filePath_undefined_iff h.directories] using hf
  · rintro ⟨str, dir, rest, hentry, hdir⟩
    refine ⟨(some (str, dir), rest), hentry, ?_⟩
    simpa [Run.failsWith_bind, filePath_undefined_iff h.directories] using hdir

/-- The header at `s` leads to a file entry that names one directory too many. -/
def LeadsToNextDirectory (s : Bytes) : Prop :=
  ∃ header s', lineHeaderFieldsFromBin s = .returns (header, s') ∧
    ∃ fileNames s'', Reaches (fileNamesTurn header.includeDirectories) (header.fileNames, s')
      (fileNames, s'') ∧ NamesNextDirectory header s''

theorem lineHeader_undefined_iff (s : Bytes) :
    (lineHeaderFromBin s).FailsWith Fault.Undefined ↔ LeadsToNextDirectory s := by
  unfold lineHeaderFromBin
  rw [Run.failsWith_bind, (lineHeaderFields_defined s).not_failsWith, false_or]
  have hloop {header : LineHeader} {s' : Bytes} (h : HeaderSound header) :=
    loop_failsWith_iff (P := Fault.Undefined) (s := (header.fileNames, s'))
      (fileNames_lowers header.includeDirectories) (Nat.lt_succ_self s'.length)
  constructor
  · rintro ⟨⟨header, s'⟩, hfields, hf⟩
    have hsound : HeaderSound header := lineHeaderFields_sound s _ hfields
    simp only [Run.failsWith_bind, Run.failsWith_returns, and_false, exists_false, or_false] at hf
    obtain ⟨⟨fileNames, s''⟩, hreach, hturn⟩ := (hloop hsound).mp hf
    exact ⟨header, s', hfields, fileNames, s'', hreach,
      (fileNamesTurn_undefined_iff hsound fileNames s'').mp hturn⟩
  · rintro ⟨header, s', hfields, fileNames, s'', hreach, hnext⟩
    have hsound : HeaderSound header := lineHeaderFields_sound s _ hfields
    refine ⟨(header, s'), hfields, Run.failsWith_bind.mpr (.inl ?_)⟩
    exact (hloop hsound).mpr ⟨(fileNames, s''), hreach,
      (fileNamesTurn_undefined_iff hsound fileNames s'').mpr hnext⟩

/-- A file entry of the unit that is reached names one directory too many. -/
def EntryPastDirectories (unit : Bytes) : Prop :=
  ∃ headerLength s, unitPrefixFromBin unit = .returns (headerLength, s) ∧ LeadsToNextDirectory s

theorem unitHeader_undefined_iff (unit : Bytes) :
    (parseDebugLineUnitHeader unit).FailsWith Fault.Undefined ↔ EntryPastDirectories unit := by
  unfold parseDebugLineUnitHeader
  rw [Run.failsWith_bind, (unitPrefix_defined unit).not_failsWith, false_or]
  have hcheck (r : LineHeader × Bytes) (cond : Prop) [Decidable cond] (text : String) :
      ¬ (check cond text >>= fun _ => Run.returns r).FailsWith Fault.Undefined :=
    Run.neverFails_iff.mp ((check_defined cond text).bind fun _ => Defined.returns r)
  constructor
  · rintro ⟨⟨headerLength, s⟩, hprefix, hf⟩
    refine ⟨headerLength, s, hprefix, (lineHeader_undefined_iff s).mp ?_⟩
    obtain hf | ⟨r, -, hf⟩ := Run.failsWith_bind.mp hf
    · exact hf
    · exact absurd hf (hcheck _ _ _)
  · rintro ⟨headerLength, s, hprefix, hleads⟩
    exact ⟨(headerLength, s), hprefix,
      Run.failsWith_bind.mpr (.inl ((lineHeader_undefined_iff s).mpr hleads))⟩

/-! ## The line-number program -/

/-- The opcode divides by `line_range`: `dw_lns_const_add_pc` and the special opcodes. -/
def Divides (header : LineHeader) (opcode : UInt8) : Prop :=
  opcode = dwLnsConstAddPc ∨ opcode ≠ 0 ∧ header.opcodeBase ≤ opcode

theorem divMod_range_undefined_iff (a : Nat) (lineRange : UInt8) :
    (divMod a lineRange.toNat).FailsWith Fault.Undefined ↔ lineRange = 0 := by
  rw [divMod_undefined_iff, ← UInt8.toNat_inj, UInt8.toNat_zero]

theorem specialOpcode_undefined_iff (header : LineHeader) (opcode : UInt8) (u : UnitState) :
    (specialOpcode header opcode u).FailsWith Fault.Undefined ↔ header.lineRange = 0 := by
  unfold specialOpcode
  rw [Run.failsWith_bind, divMod_range_undefined_iff, or_iff_left_iff_imp]
  rintro ⟨n, -, hf⟩
  have hsafe (u : UnitState) :
      Defined (addRow header u >>= fun u => .returns { u with state := u.state.afterRow }) :=
    (addRow_defined header u).bind fun _ => Defined.returns _
  exact absurd hf (Run.neverFails_iff.mp (hsafe _))

theorem standardOpcode_defined {header : LineHeader} {opcode : UInt8}
    (hlength : opcode.toNat < header.standardOpcodeLengths.length)
    (hrange : opcode = dwLnsConstAddPc → header.lineRange ≠ 0) (u : UnitState) (s : Bytes) :
    Defined (standardOpcode header opcode u s) := by
  have hread {α β : Type} {fromBin : FromBin α} {k : α × Bytes → β} :
      Defined (reads fromBin s >>= fun r => .returns (k r)) :=
    (reads_defined _ _).bind fun _ => Defined.returns _
  unfold standardOpcode
  -- the opcodes before `dw_lns_const_add_pc`
  refine Defined.ite ((addRow_defined _ _).bind fun _ => Defined.returns _) ?_
  refine Defined.ite hread ?_
  refine Defined.ite hread ?_
  refine Defined.ite hread ?_
  refine Defined.ite hread ?_
  refine Defined.ite (Defined.returns _) ?_
  refine Defined.ite (Defined.returns _) ?_
  refine NeverFails.ite (fun hconst => ?constAddPc) fun _ => ?_
  case constAddPc =>
    refine Defined.bind (defined_of_not ?_) fun _ => Defined.returns _
    rw [divMod_range_undefined_iff]
    exact hrange hconst
  -- and those after it
  refine Defined.ite hread ?_
  refine Defined.ite (Defined.returns _) ?_
  refine Defined.ite (Defined.returns _) ?_
  refine Defined.ite hread ?_
  exact (indexAt_defined hlength).bind fun _ => hread

theorem constAddPc_undefined {header : LineHeader} (hrange : header.lineRange = 0) (u : UnitState)
    (s : Bytes) : (standardOpcode header dwLnsConstAddPc u s).FailsWith Fault.Undefined := by
  unfold standardOpcode
  rw [if_neg (by decide), if_neg (by decide), if_neg (by decide), if_neg (by decide),
    if_neg (by decide), if_neg (by decide), if_neg (by decide), if_pos rfl]
  exact Run.failsWith_bind.mpr (.inl ((divMod_range_undefined_iff _ _).mpr hrange))

theorem opcodeTurn_undefined_iff {header : LineHeader} (h : HeaderSound header)
    (initialState : LineState) (u : UnitState) (opcode : UInt8) (s : Bytes) :
    (opcodeTurn header initialState (u, opcode :: s)).FailsWith Fault.Undefined ↔
      Divides header opcode ∧ header.lineRange = 0 := by
  have hagain {α β : Type} (x : Run Fault α) (k : α → β) :
      (x >>= fun a => .returns (k a)).FailsWith Fault.Undefined ↔ x.FailsWith Fault.Undefined := by
    simp [Run.failsWith_bind]
  show Run.FailsWith Fault.Undefined (if opcode = 0 then _ else if opcode < header.opcodeBase
    then _ else _) ↔ _
  by_cases hextended : opcode = 0
  · rw [if_pos hextended, hagain, (extendedOpcode_defined _ _ _ _).not_failsWith]
    subst hextended
    simp [Divides, dwLnsConstAddPc]
  · rw [if_neg hextended]
    by_cases hstandard : opcode < header.opcodeBase
    · rw [if_pos hstandard, hagain]
      constructor
      · intro hf
        by_contra hno
        refine Run.neverFails_iff.mp (standardOpcode_defined (h.lengths opcode hextended hstandard)
          ?_ u s) hf
        exact fun hconst hrange => hno ⟨.inl hconst, hrange⟩
      · rintro ⟨hconst | ⟨-, hle⟩, hrange⟩
        · subst hconst
          exact constAddPc_undefined hrange u s
        · exact absurd hstandard (UInt8.not_lt.mpr hle)
    · rw [if_neg hstandard, hagain, specialOpcode_undefined_iff]
      have hle : header.opcodeBase ≤ opcode := UInt8.not_lt.mp hstandard
      simp [Divides, hextended, hle]

/-- An opcode of the unit that is reached divides by a `line_range` of zero. -/
def DividesByZeroRange (found : Found) (unit : Bytes) : Prop :=
  ∃ header s, parseDebugLineUnitHeader unit = .returns (header, s) ∧
    header.minimumInstructionLength = 1 ∧ header.maximumOperationsPerInstruction = 1 ∧
    header.lineRange = 0 ∧
    ∃ u opcode rest, Reaches (opcodeTurn header (initialState header))
      ({ state := initialState header, found }, s) (u, opcode :: rest) ∧ Divides header opcode

theorem check_bind_undefined_iff {α : Type} (cond : Prop) [Decidable cond] (text : String)
    (k : Unit → Run Fault α) :
    (check cond text >>= k).FailsWith Fault.Undefined ↔
      cond ∧ (k ()).FailsWith Fault.Undefined := by
  unfold check
  split <;> simp [*, not_undefined_reported]

theorem program_undefined_iff {header : LineHeader} (h : HeaderSound header) (u : UnitState)
    (s : Bytes) :
    (loop (opcodeTurn header (initialState header)) (s.length + 1) (u, s)).FailsWith
        Fault.Undefined ↔
      header.lineRange = 0 ∧ ∃ u' opcode rest,
        Reaches (opcodeTurn header (initialState header)) (u, s) (u', opcode :: rest) ∧
        Divides header opcode := by
  rw [loop_failsWith_iff (s := (u, s)) (opcode_lowers header (initialState header))
    (Nat.lt_succ_self s.length)]
  constructor
  · rintro ⟨⟨u', s'⟩, hreach, hf⟩
    cases s' with
    | nil => exact absurd hf (by simp [opcodeTurn])
    | cons opcode rest =>
      obtain ⟨hdivides, hrange⟩ := (opcodeTurn_undefined_iff h _ _ _ _).mp hf
      exact ⟨hrange, u', opcode, rest, hreach, hdivides⟩
  · rintro ⟨hrange, u', opcode, rest, hreach, hdivides⟩
    exact ⟨_, hreach, (opcodeTurn_undefined_iff h _ _ _ _).mpr ⟨hdivides, hrange⟩⟩

theorem unit_undefined_iff (found : Found) (unit : Bytes) :
    (parseDebugLineUnit found unit).FailsWith Fault.Undefined ↔
      EntryPastDirectories unit ∨ DividesByZeroRange found unit := by
  unfold parseDebugLineUnit
  rw [Run.failsWith_bind, unitHeader_undefined_iff]
  refine or_congr_right ?_
  constructor
  · rintro ⟨⟨header, s⟩, hheader, hf⟩
    obtain ⟨hmin, hf⟩ := (check_bind_undefined_iff _ _ _).mp hf
    obtain ⟨hmax, hf⟩ := (check_bind_undefined_iff _ _ _).mp hf
    obtain ⟨hrange, hreach⟩ := (program_undefined_iff (unitHeader_sound unit _ hheader) _ _).mp hf
    exact ⟨header, s, hheader, hmin, hmax, hrange, hreach⟩
  · rintro ⟨header, s, hheader, hmin, hmax, hrange, hreach⟩
    refine ⟨(header, s), hheader, ?_⟩
    refine (check_bind_undefined_iff _ _ _).mpr ⟨hmin, ?_⟩
    refine (check_bind_undefined_iff _ _ _).mpr ⟨hmax, ?_⟩
    exact (program_undefined_iff (unitHeader_sound unit _ hheader) _ _).mpr ⟨hrange, hreach⟩

/-! ## The section -/

/-- It completes, or fails by an `eosio::check` or an exception. -/
def Sound {α : Type} (x : Run Fault α) : Prop :=
  (∃ a, x = .returns a) ∨ ∃ text, x = .fails (.reported text)

theorem sound_iff {α : Type} {x : Run Fault α} (h : x.Settled) :
    Sound x ↔ ¬ x.FailsWith Fault.Undefined := by
  cases x with
  | running => exact absurd rfl h
  | returns a => simp [Sound]
  | fails e => cases e <;> simp [Sound, Fault.Undefined]

/-- The loop over the units comes to `unit`, with what the ones before it left. -/
def ReachesUnit (found : Found) (s : Bytes) (found' : Found) (unit : Bytes) : Prop :=
  ∃ rest rest', Reaches unitTurn (found, s) (found', rest) ∧
    unitFromBin rest = .returns (unit, rest')

theorem unitTurn_undefined_iff (found : Found) (s : Bytes) :
    (unitTurn (found, s)).FailsWith Fault.Undefined ↔
      ∃ unit rest, unitFromBin s = .returns (unit, rest) ∧
        (EntryPastDirectories unit ∨ DividesByZeroRange found unit) := by
  cases s with
  | nil =>
    have hnil : unitFromBin [] = .fails (.reported overrun) := rfl
    simp [unitTurn, hnil]
  | cons b s =>
    unfold unitTurn
    rw [Run.failsWith_bind, (unitFromBin_defined _).not_failsWith, false_or]
    constructor
    · rintro ⟨⟨unit, rest⟩, hunit, hf⟩
      obtain hf | ⟨found', -, hf⟩ := Run.failsWith_bind.mp hf
      · exact ⟨unit, rest, hunit, (unit_undefined_iff found unit).mp hf⟩
      · exact ((Run.failsWith_returns _).mp hf).elim
    · rintro ⟨unit, rest, hunit, hdefect⟩
      exact ⟨(unit, rest), hunit,
        Run.failsWith_bind.mpr (.inl ((unit_undefined_iff found unit).mpr hdefect))⟩

/-- Parsing a section completes or reports a failure if and only if no unit it comes to
leads to a file entry that names one directory too many, or to a division by a
`line_range` of zero. -/
theorem parseDebugLine_sound_iff (found : Found) (s : Bytes) :
    Sound (parseDebugLine found s) ↔ ∀ found' unit, ReachesUnit found s found' unit →
      ¬ EntryPastDirectories unit ∧ ¬ DividesByZeroRange found' unit := by
  rw [sound_iff (parseDebugLine_settled found s), parseDebugLine,
    loop_failsWith_iff (s := (found, s)) unit_lowers (Nat.lt_succ_self s.length)]
  constructor
  · rintro hno found' unit ⟨rest, rest', hreach, hunit⟩
    rw [← not_or]
    intro hdefect
    exact hno ⟨(found', rest), hreach,
      (unitTurn_undefined_iff found' rest).mpr ⟨unit, rest', hunit, hdefect⟩⟩
  · rintro hall ⟨⟨found', rest⟩, hreach, hf⟩
    obtain ⟨unit, rest', hunit, hdefect⟩ := (unitTurn_undefined_iff found' rest).mp hf
    obtain ⟨hentry, hrange⟩ := hall found' unit ⟨rest, rest', hreach, hunit⟩
    exact hdefect.elim hentry hrange

/-- A unit whose only file entry names directory 1 where there is none but the empty one. -/
def pastDirectoriesSection : Bytes :=
  [31, 0, 0, 0, 4, 0, 25, 0, 0, 0, 1, 1, 1, 0xfb, 14, 13, 0, 1, 1, 1, 1, 0, 0, 0, 1, 0, 0, 1,
   0, 0x61, 0, 1, 0, 0, 0]

/-- A unit with a `line_range` of zero and one special opcode. -/
def zeroRangeSection : Bytes :=
  [27, 0, 0, 0, 4, 0, 20, 0, 0, 0, 1, 1, 1, 0xfb, 0, 13, 0, 1, 1, 1, 1, 0, 0, 0, 1, 0, 0, 1,
   0, 0, 13]

/-- Neither section is read soundly: the first indexes past the directories, the second
divides by zero. -/
theorem sections_read_unsoundly :
    parseDebugLine { result := {} } pastDirectoriesSection = .fails .outOfBounds ∧
    parseDebugLine { result := {} } zeroRangeSection = .fails .dividesByZero ∧
    ¬ ∀ found s, Sound (parseDebugLine found s) := by
  have hpast : parseDebugLine { result := {} } pastDirectoriesSection = .fails .outOfBounds := by
    decide +kernel
  have hzero : parseDebugLine { result := {} } zeroRangeSection = .fails .dividesByZero := by
    decide +kernel
  refine ⟨hpast, hzero, fun hall => ?_⟩
  have hsound := hall { result := {} } pastDirectoriesSection
  simp [Sound, hpast] at hsound

end Microchain.DebugEosVm
