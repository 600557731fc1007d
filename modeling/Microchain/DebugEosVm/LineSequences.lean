import Mathlib.Data.List.Forall2
import Microchain.DebugEosVm.DebugLine
import Microchain.DebugEosVm.LocationLookup

/-!
# The locations of a sequence

A line-number program adds rows; a sequence is the rows up to one that ends it. What
`add_row` collects is, sequence by sequence, a row of locations one behind another, each
from the address of a row to that of a later one (`parseDebugLine_tiles`). So where the
addresses of every sequence ascend and the ranges of the sequences do not overlap, the
ranges of the locations do not either, and the lookup in them is right but for the empty
ones (`getLocation_finds_iff`).
-/

namespace Microchain.DebugEosVm

open Eosio Lib
open Lib.Run (All)

/-! ## Rows -/

/-- A row, which is a copy of the registers, as far as addresses go. -/
structure Row where
  address : UInt32
  endSequence : Bool
deriving DecidableEq, Repr

/-- The opcode of an extended opcode that is read behind its escape. -/
def extendedOpcodeAt (s : Bytes) : Option UInt8 :=
  match varuint32FromBin s with
  | .ok (size, s) =>
    match readBytes size.toNat s with
    | .ok (extended, _) => extended.head?
    | .error _ => none
  | .error _ => none

/-- The row that a turn of the loop over the opcodes adds. -/
def rowAt (header : LineHeader) : UnitState × Bytes → Option Row
  | (_, []) => none
  | (u, opcode :: s) =>
    if opcode = 0 then
      if extendedOpcodeAt s = some dwLneEndSequence then some ⟨u.state.address, true⟩ else none
    else if opcode < header.opcodeBase then
      if opcode = dwLnsCopy then some ⟨u.state.address, u.state.endSequence⟩ else none
    else
      let addressAdvance := (opcode.toNat - header.opcodeBase.toNat) / header.lineRange.toNat
      some ⟨u.state.address + UInt32.ofNat addressAdvance, u.state.endSequence⟩

/-- The rows up to the first that ends a sequence, and the sequences behind it. -/
def splitSequences : List Row → List UInt32 × List (List UInt32)
  | [] => ([], [])
  | row :: rows =>
    let (seq, seqs) := splitSequences rows
    if row.endSequence then ([row.address], seq :: seqs) else (row.address :: seq, seqs)

theorem splitSequences_end {row : Row} (h : row.endSequence = true) (rows : List Row) :
    splitSequences (row :: rows) =
      ([row.address], (splitSequences rows).1 :: (splitSequences rows).2) := by
  simp [splitSequences, h]

theorem splitSequences_row {row : Row} (h : row.endSequence = false) (rows : List Row) :
    splitSequences (row :: rows) = (row.address :: (splitSequences rows).1, (splitSequences rows).2) := by
  simp [splitSequences, h]

/-- The rows that the loop over the opcodes adds from a state on. -/
def rowsFrom (header : LineHeader) (fuel : Nat) (r : UnitState × Bytes) : List Row :=
  (visits (opcodeTurn header (initialState header)) fuel r).filterMap (rowAt header)

/-- The sequences of a unit, by the addresses of their rows. -/
def unitSequences (found : Found) (s : Bytes) : List (List UInt32) :=
  match parseDebugLineUnitHeader s with
  | .returns (header, s) =>
    let r := splitSequences
      (rowsFrom header (s.length + 1) ({ state := initialState header, found }, s))
    r.1 :: r.2
  | _ => []

/-- The sequences of the unit that the loop over the units has come to. -/
def sequencesAt : Found × Bytes → List (List UInt32)
  | (found, s) =>
    match unitFromBin s with
    | .returns (unit, _) => unitSequences found unit
    | _ => []

/-- The sequences of a section. -/
def lineSequences (s : Bytes) : List (List UInt32) :=
  (visits unitTurn (s.length + 1) ({ result := {} }, s)).flatMap sequencesAt

/-! ## What a row does to the locations -/

/-- The current location and those collected, before and after a row. -/
inductive RowEffect (row : Row) (locations : List Location) :
    Option Location → Option Location → List Location → Prop where
  | skips (hend : row.endSequence = true) : RowEffect row locations none none locations
  | opens (current : Location) (hend : row.endSequence = false)
      (hbegin : current.beginAddress = row.address) :
      RowEffect row locations none (some current) locations
  | keeps (current : Location) (hend : row.endSequence = false) :
      RowEffect row locations (some current) (some current) locations
  /-- It is collected, or dropped. -/
  | closes (current : Location) (next : Option Location) (emitted : List Location)
      (hemitted : emitted = [] ∨ ∃ l : Location, emitted = [l] ∧
        l.beginAddress = current.beginAddress ∧ l.endAddress = row.address)
      (hnext : next.map Location.beginAddress =
        if row.endSequence then none else some row.address) :
      RowEffect row locations (some current) next (locations ++ emitted)

theorem fileNumber_locations (found : Found) (filename : Bytes) :
    (found.fileNumber filename).2.result.locations = found.result.locations := by
  rw [Found.fileNumber]
  split <;> rfl

theorem closeLocation_returns {header : LineHeader} {begin : UInt32} {current : Location}
    {u u' : UnitState} (h : closeLocation header begin current u = .returns u') :
    u'.current = none ∧ u'.state = u.state ∧ ∃ emitted : List Location,
      u'.found.result.locations = u.found.result.locations ++ emitted ∧
        (emitted = [] ∨ ∃ l : Location, emitted = [l] ∧ l.beginAddress = current.beginAddress ∧
          l.endAddress = u.state.address) := by
  obtain ⟨_, _, h⟩ := returns_of_bind h
  obtain ⟨filename, _, h⟩ := returns_of_bind h
  have hfile := fileNumber_locations u.found filename
  generalize u.found.fileNumber filename = r at h hfile
  obtain ⟨fileIndex, found⟩ := r
  cases h
  refine ⟨rfl, rfl, ?_⟩
  rw [← hfile]
  dsimp only
  split
  · exact ⟨_, rfl, .inr ⟨_, rfl, rfl, rfl⟩⟩
  · exact ⟨[], (List.append_nil _).symm, .inl rfl⟩

theorem beginLocation_found (u : UnitState) : (beginLocation u).found = u.found := by
  rw [beginLocation]
  split <;> rfl

theorem beginLocation_some {u : UnitState} {current : Location} (h : u.current = some current) :
    beginLocation u = u := by
  rw [beginLocation, if_neg]
  rw [h]
  exact fun hnone => nomatch hnone.2

theorem beginLocation_none {u : UnitState} (h : u.current = none) :
    (beginLocation u).current.map Location.beginAddress =
      if u.state.endSequence then none else some u.state.address := by
  rw [beginLocation, h]
  cases u.state.endSequence with
  | false => rfl
  | true =>
    rw [if_neg (by simp), h]
    rfl

theorem addRow_effect {header : LineHeader} {u u' : UnitState}
    (h : addRow header u = .returns u') :
    RowEffect ⟨u.state.address, u.state.endSequence⟩ u.found.result.locations u.current u'.current
      u'.found.result.locations := by
  obtain ⟨u₁, hend, h⟩ := returns_of_bind h
  cases h
  -- the beginning of the sequence changes nothing here
  obtain ⟨v, hv⟩ : ∃ v : UnitState, v = { u with state :=
    { u.state with sequenceBegin := some (u.state.sequenceBegin.getD u.state.address) } } := ⟨_, rfl⟩
  have hstate : v.state.address = u.state.address ∧ v.state.endSequence = u.state.endSequence ∧
      v.current = u.current ∧ v.found = u.found := by
    subst hv
    exact ⟨rfl, rfl, rfl, rfl⟩
  rw [← hv] at hend
  obtain ⟨haddress, hseq, hcurrent, hfound⟩ := hstate
  rw [← haddress, ← hseq, ← hcurrent, ← hfound, beginLocation_found]
  clear hv haddress hseq hcurrent hfound
  rw [endLocation] at hend
  match hcurrent : v.current with
  | none =>
    simp only [hcurrent] at hend
    cases hend
    have hbegin := beginLocation_none hcurrent
    cases hnext : (beginLocation u₁).current with
    | none =>
      rw [hnext] at hbegin
      cases hseq : u₁.state.endSequence with
      | true => exact .skips rfl
      | false => simp [hseq] at hbegin
    | some next =>
      rw [hnext] at hbegin
      cases hseq : u₁.state.endSequence with
      | true => simp [hseq] at hbegin
      | false =>
        rw [hseq] at hbegin
        exact .opens next rfl (Option.some_inj.mp hbegin)
  | some current =>
    simp only [hcurrent] at hend
    split at hend
    · obtain ⟨hnone, hstate, emitted, hlocations, hemitted⟩ := closeLocation_returns hend
      rw [hlocations]
      refine .closes current _ emitted hemitted ?_
      rw [beginLocation_none hnone, hstate]
    · next hsame =>
      cases hend
      rw [beginLocation_some hcurrent, hcurrent]
      simp only [not_or, Bool.not_eq_true] at hsame
      exact .keeps current hsame.1

/-- What a turn does to the locations, with the row it adds. -/
def TurnEffect : Option Row → UnitState → UnitState → Prop
  | none, u, u' => u'.current = u.current ∧ u'.found = u.found
  | some row, u, u' =>
    RowEffect row u.found.result.locations u.current u'.current u'.found.result.locations

theorem extendedOpcode_effect {header : LineHeader} {init : LineState} {u u' : UnitState}
    {s s' : Bytes} (h : extendedOpcode header init u s = .returns (u', s')) :
    TurnEffect (if extendedOpcodeAt s = some dwLneEndSequence then some ⟨u.state.address, true⟩
      else none) u u' := by
  obtain ⟨⟨size, s1⟩, hsize, h⟩ := returns_of_bind h
  obtain ⟨_, _, h⟩ := returns_of_bind h
  obtain ⟨⟨extended, s2⟩, hextended, h⟩ := returns_of_bind h
  obtain ⟨⟨opcode, s3⟩, hopcode, h⟩ := returns_of_bind h
  have hat : extendedOpcodeAt s = some opcode := by
    rw [extendedOpcodeAt, reads_returns hsize]
    dsimp only
    rw [reads_returns hextended]
    match extended, hopcode with
    | b :: extended, hopcode =>
      cases hopcode
      rfl
  rw [hat]
  dsimp only at h
  split at h
  · next hend =>
    obtain ⟨u₁, hrow, h⟩ := returns_of_bind h
    have heffect := addRow_effect hrow
    cases h
    rw [hend, if_pos rfl]
    exact heffect
  · next hend =>
    rw [if_neg fun heq => hend (Option.some_inj.mp heq)]
    split at h
    · obtain ⟨_, _, h⟩ := returns_of_bind h
      cases h
      exact ⟨rfl, rfl⟩
    · split at h
      · obtain ⟨_, _, h⟩ := returns_of_bind h
        cases h
        exact ⟨rfl, rfl⟩
      · cases h
        exact ⟨rfl, rfl⟩

theorem standardOpcode_effect (header : LineHeader) (opcode : UInt8) (u : UnitState) (s : Bytes) :
    (standardOpcode header opcode u s).All fun r =>
      TurnEffect (if opcode = dwLnsCopy then some ⟨u.state.address, u.state.endSequence⟩ else none)
        u r.1 := by
  rw [standardOpcode]
  refine All.ite (fun hcopy => ?copy) fun hcopy => ?_
  case copy =>
    rw [if_pos hcopy]
    exact All.bind (fun u₁ hrow => addRow_effect hrow) fun u₁ hu₁ => All.returns hu₁
  rw [if_neg hcopy]
  -- one case for each of the other opcodes, in the order of the source
  have hsame : u.current = u.current ∧ u.found = u.found := ⟨rfl, rfl⟩
  refine All.ite (fun _ => All.any_bind fun _ => All.returns hsame) fun _ => ?_
  refine All.ite (fun _ => All.any_bind fun _ => All.returns hsame) fun _ => ?_
  refine All.ite (fun _ => All.any_bind fun _ => All.returns hsame) fun _ => ?_
  refine All.ite (fun _ => All.any_bind fun _ => All.returns hsame) fun _ => ?_
  refine All.ite (fun _ => All.returns hsame) fun _ => ?_
  refine All.ite (fun _ => All.returns hsame) fun _ => ?_
  refine All.ite (fun _ => All.any_bind fun _ => All.returns hsame) fun _ => ?_
  refine All.ite (fun _ => All.any_bind fun _ => All.returns hsame) fun _ => ?_
  refine All.ite (fun _ => All.returns hsame) fun _ => ?_
  refine All.ite (fun _ => All.returns hsame) fun _ => ?_
  refine All.ite (fun _ => All.any_bind fun _ => All.returns hsame) fun _ => ?_
  exact All.any_bind fun _ => All.any_bind fun _ => All.returns hsame

theorem divMod_returns {a b : Nat} {r : Nat × Nat} (h : divMod a b = .returns r) :
    r = (a / b, a % b) := by
  rw [divMod] at h
  split at h
  · cases h
  · cases h
    rfl

theorem specialOpcode_effect {header : LineHeader} {opcode : UInt8} {u u' : UnitState}
    (h : specialOpcode header opcode u = .returns u') :
    TurnEffect (some ⟨u.state.address + UInt32.ofNat
      ((opcode.toNat - header.opcodeBase.toNat) / header.lineRange.toNat), u.state.endSequence⟩)
      u u' := by
  obtain ⟨r, hr, h⟩ := returns_of_bind h
  obtain rfl := divMod_returns hr
  obtain ⟨u₁, hrow, h⟩ := returns_of_bind h
  have heffect := addRow_effect hrow
  cases h
  exact heffect

theorem opcodeTurn_effect {header : LineHeader} {init : LineState} {u u' : UnitState} {s s' : Bytes}
    (h : Again (opcodeTurn header init) (u, s) (u', s')) :
    TurnEffect (rowAt header (u, s)) u u' := by
  match s, h with
  | opcode :: s, h =>
    rw [Again, opcodeTurn] at h
    rw [rowAt]
    split at h
    · next h0 =>
      obtain ⟨next, hnext, h⟩ := returns_of_bind h
      cases h
      rw [if_pos h0]
      exact extendedOpcode_effect hnext
    · next h0 =>
      rw [if_neg h0]
      split at h
      · next hbase =>
        obtain ⟨next, hnext, h⟩ := returns_of_bind h
        cases h
        rw [if_pos hbase]
        exact standardOpcode_effect header opcode u s _ hnext
      · next hbase =>
        obtain ⟨u₁, hu₁, h⟩ := returns_of_bind h
        cases h
        rw [if_neg hbase]
        exact specialOpcode_effect hu₁

/-! ## Sequences and their locations -/

/-- The locations that a sequence of rows at these addresses leaves: each from the address
where it begins to that of the row that ends it, some of them dropped. -/
inductive Tiles : List UInt32 → List Location → Prop where
  | nil (addresses : List UInt32) : Tiles addresses []
  | passes {first next : UInt32} {addresses : List UInt32} {block : List Location}
      (h : Tiles (first :: addresses) block) : Tiles (first :: next :: addresses) block
  | drops {first next : UInt32} {addresses : List UInt32} {block : List Location}
      (h : Tiles (next :: addresses) block) : Tiles (first :: next :: addresses) block
  | collects {l : Location} {addresses : List UInt32} {block : List Location}
      (h : Tiles (l.endAddress :: addresses) block) :
      Tiles (l.beginAddress :: l.endAddress :: addresses) (l :: block)

/-- What the loop over the opcodes collects from a state on: locations of the sequence it
is in, from the beginning of the current location on, and of those behind it. -/
def Collects (rows : List Row) (current : Option Location) (collected : List Location) : Prop :=
  ∃ block blocks, collected = block ++ List.flatten blocks ∧
    Tiles ((current.map Location.beginAddress).toList ++ (splitSequences rows).1) block ∧
      List.Forall₂ Tiles (splitSequences rows).2 blocks

theorem RowEffect.collects {row : Row} {rows : List Row} {locations locations' : List Location}
    {current current' : Option Location} (h : RowEffect row locations current current' locations')
    {collected : List Location} (hrest : Collects rows current' collected) :
    ∃ collected', locations' ++ collected = locations ++ collected' ∧
      Collects (row :: rows) current collected' := by
  obtain ⟨block, blocks, rfl, hblock, hblocks⟩ := hrest
  cases h with
  | skips hend =>
    refine ⟨_, rfl, [], block :: blocks, rfl, .nil _, ?_⟩
    rw [splitSequences_end hend]
    exact .cons hblock hblocks
  | opens current hend hbegin =>
    refine ⟨_, rfl, block, blocks, rfl, ?_⟩
    rw [Option.map_some, hbegin] at hblock
    rw [splitSequences_row hend]
    exact ⟨hblock, hblocks⟩
  | keeps current hend =>
    refine ⟨_, rfl, block, blocks, rfl, ?_⟩
    rw [splitSequences_row hend]
    exact ⟨.passes hblock, hblocks⟩
  | closes current next emitted hemitted hnext =>
    have hcollect {addresses : List UInt32} {block : List Location}
        (h : Tiles (row.address :: addresses) block) :
        Tiles (current.beginAddress :: row.address :: addresses) (emitted ++ block) := by
      rcases hemitted with rfl | ⟨l, rfl, hbegin, hend⟩
      · exact .drops h
      · rw [← hbegin, ← hend]
        rw [← hend] at h
        exact .collects h
    rw [hnext] at hblock
    refine ⟨emitted ++ (block ++ blocks.flatten), List.append_assoc _ _ _, ?_⟩
    cases hend : row.endSequence with
    | true =>
      rw [hend, if_pos rfl] at hblock
      refine ⟨emitted, block :: blocks, rfl, ?_⟩
      rw [splitSequences_end hend]
      exact ⟨by simpa using hcollect (.nil [row.address]), .cons hblock hblocks⟩
    | false =>
      rw [hend, if_neg (by simp)] at hblock
      refine ⟨emitted ++ block, blocks, (List.append_assoc _ _ _).symm, ?_⟩
      rw [splitSequences_row hend]
      exact ⟨hcollect hblock, hblocks⟩

/-- A turn that leaves the loop over the opcodes adds no row. -/
theorem opcodeTurn_done {header : LineHeader} {init : LineState} {r : UnitState × Bytes}
    {found : Found} (h : opcodeTurn header init r = .returns (.done found)) :
    found = r.1.found ∧ rowAt header r = none := by
  obtain ⟨u, s⟩ := r
  match s, h with
  | [], h =>
    cases h
    exact ⟨rfl, rfl⟩
  | opcode :: s, h =>
    rw [opcodeTurn] at h
    split at h
    · obtain ⟨next, _, h⟩ := returns_of_bind h
      cases h
    · split at h
      · obtain ⟨next, _, h⟩ := returns_of_bind h
        cases h
      · obtain ⟨u₁, _, h⟩ := returns_of_bind h
        cases h

theorem opcodes_collect {header : LineHeader} :
    ∀ (fuel : Nat) {u : UnitState} {s : Bytes} {found : Found},
      loop (opcodeTurn header (initialState header)) fuel (u, s) = .returns found →
      ∃ collected, found.result.locations = u.found.result.locations ++ collected ∧
        Collects (rowsFrom header fuel (u, s)) u.current collected := by
  intro fuel
  induction fuel with
  | zero =>
    intro u s found h
    cases h
  | succ fuel ih =>
    intro u s found h
    rcases loop_returns h with hdone | ⟨⟨u', s'⟩, hagain, hloop⟩
    · obtain ⟨rfl, hrow⟩ := opcodeTurn_done hdone
      have hrows : rowsFrom header (fuel + 1) (u, s) = [] := by
        rw [rowsFrom, visits_done hdone, List.filterMap_cons, hrow]
        rfl
      rw [hrows]
      exact ⟨[], (List.append_nil _).symm, [], [], rfl, .nil _, .nil⟩
    · obtain ⟨collected, hlocations, hcollected⟩ := ih hloop
      have heffect := opcodeTurn_effect hagain
      have hrows : rowsFrom header (fuel + 1) (u, s) =
          (rowAt header (u, s)).toList ++ rowsFrom header fuel (u', s') := by
        rw [rowsFrom, visits_again hagain, List.filterMap_cons]
        cases rowAt header (u, s) <;> rfl
      rw [hrows]
      match hrow : rowAt header (u, s) with
      | none =>
        rw [hrow] at heffect
        obtain ⟨hcurrent, hfound⟩ := heffect
        rw [hcurrent] at hcollected
        rw [hfound] at hlocations
        exact ⟨collected, hlocations, hcollected⟩
      | some row =>
        rw [hrow] at heffect
        obtain ⟨collected', heq, hcollected'⟩ := RowEffect.collects heffect hcollected
        exact ⟨collected', hlocations.trans heq, hcollected'⟩

theorem unit_collects {found found' : Found} {s : Bytes}
    (h : parseDebugLineUnit found s = .returns found') :
    ∃ blocks, found'.result.locations = found.result.locations ++ List.flatten blocks ∧
      List.Forall₂ Tiles (unitSequences found s) blocks := by
  obtain ⟨⟨header, s1⟩, hheader, h⟩ := returns_of_bind h
  obtain ⟨_, _, h⟩ := returns_of_bind h
  obtain ⟨_, _, h⟩ := returns_of_bind h
  obtain ⟨collected, hlocations, block, blocks, rfl, hblock, hblocks⟩ := opcodes_collect _ h
  refine ⟨block :: blocks, hlocations, ?_⟩
  rw [unitSequences, hheader]
  exact .cons hblock hblocks

theorem units_collect :
    ∀ (fuel : Nat) {found found' : Found} {s : Bytes},
      loop unitTurn fuel (found, s) = .returns found' →
      ∃ blocks, found'.result.locations = found.result.locations ++ List.flatten blocks ∧
        List.Forall₂ Tiles ((visits unitTurn fuel (found, s)).flatMap sequencesAt) blocks := by
  intro fuel
  induction fuel with
  | zero =>
    intro found found' s h
    cases h
  | succ fuel ih =>
    intro found found' s h
    rcases loop_returns h with hdone | ⟨⟨found₁, rest⟩, hagain, hloop⟩
    · rw [visits_done hdone]
      match s, hdone with
      | [], hdone =>
        cases hdone
        exact ⟨[], (List.append_nil _).symm, .nil⟩
      | b :: s, hdone =>
        obtain ⟨_, _, hdone⟩ := returns_of_bind hdone
        obtain ⟨_, _, hdone⟩ := returns_of_bind hdone
        cases hdone
    · obtain ⟨blocks₂, hlocations₂, hblocks₂⟩ := ih hloop
      rw [visits_again hagain, List.flatMap_cons]
      match s, hagain with
      | b :: s, hagain =>
        obtain ⟨⟨unit, rest'⟩, hunit, hagain⟩ := returns_of_bind hagain
        obtain ⟨found₂, hparse, hagain⟩ := returns_of_bind hagain
        cases hagain
        obtain ⟨blocks₁, hlocations₁, hblocks₁⟩ := unit_collects hparse
        refine ⟨blocks₁ ++ blocks₂, ?_, ?_⟩
        · rw [hlocations₂, hlocations₁, List.flatten_append, List.append_assoc]
        · rw [sequencesAt, hunit]
          exact List.rel_append hblocks₁ hblocks₂

/-- **What a section leaves are the locations of its sequences, one sequence after the
other.** -/
theorem parseDebugLine_tiles {s : Bytes} {found : Found}
    (h : parseDebugLine { result := {} } s = .returns found) :
    ∃ blocks, found.result.locations = List.flatten blocks ∧
      List.Forall₂ Tiles (lineSequences s) blocks := by
  obtain ⟨blocks, hlocations, hblocks⟩ := units_collect _ h
  exact ⟨blocks, hlocations, hblocks⟩

/-! ## Ascending addresses -/

/-- The addresses from the first row on, in front of the last. -/
def addressRange (addresses : List UInt32) : Set UInt32 :=
  {address | ∃ first ∈ addresses.head?, ∃ last ∈ addresses.getLast?,
    first ≤ address ∧ address < last}

/-- The first of ascending addresses is at most the last. -/
theorem exists_last {a : UInt32} {addresses : List UInt32}
    (h : (a :: addresses).Pairwise (· ≤ ·)) : ∃ last ∈ (a :: addresses).getLast?, a ≤ last := by
  refine ⟨_, List.getLast?_eq_some_getLast (List.cons_ne_nil a addresses), ?_⟩
  rcases List.mem_cons.mp (List.getLast_mem (List.cons_ne_nil a addresses)) with heq | hmem
  · rw [heq]
    exact UInt32.le_refl a
  · exact (List.pairwise_cons.mp h).1 _ hmem

namespace Tiles

variable {addresses : List UInt32} {block : List Location}

/-- A location begins no earlier than the first row, and ends no later than the last. -/
theorem inside (h : Tiles addresses block) (hsorted : addresses.Pairwise (· ≤ ·)) :
    ∀ l ∈ block, l.beginAddress ≤ l.endAddress ∧
      (∃ first ∈ addresses.head?, first ≤ l.beginAddress) ∧
        ∃ last ∈ addresses.getLast?, l.endAddress ≤ last := by
  induction h with
  | nil => exact fun _ hl => nomatch hl
  | @passes first next addresses block _ ih =>
    obtain ⟨hfirst, hnext⟩ := List.pairwise_cons.mp hsorted
    obtain ⟨_, hrest⟩ := List.pairwise_cons.mp hnext
    intro l hl
    obtain ⟨hle, hbegin, last, hlast, hend⟩ :=
      ih (List.pairwise_cons.mpr ⟨fun a ha => hfirst a (List.mem_cons_of_mem _ ha), hrest⟩) l hl
    refine ⟨hle, hbegin, ?_⟩
    cases addresses with
    | nil =>
      cases hlast
      exact ⟨next, rfl, UInt32.le_trans hend (hfirst next List.mem_cons_self)⟩
    | cons a addresses =>
      rw [List.getLast?_cons_cons] at hlast ⊢
      exact ⟨last, by rwa [List.getLast?_cons_cons], hend⟩
  | @drops first next addresses block _ ih =>
    obtain ⟨hfirst, hnext⟩ := List.pairwise_cons.mp hsorted
    intro l hl
    obtain ⟨hle, ⟨a, ha, hbegin⟩, hend⟩ := ih hnext l hl
    cases ha
    exact ⟨hle, ⟨first, rfl, UInt32.le_trans (hfirst _ List.mem_cons_self) hbegin⟩,
      by rwa [List.getLast?_cons_cons]⟩
  | @collects l' addresses block _ ih =>
    obtain ⟨hfirst, hnext⟩ := List.pairwise_cons.mp hsorted
    have hle' := hfirst _ List.mem_cons_self
    intro l hl
    rcases List.mem_cons.mp hl with rfl | hl
    · refine ⟨hle', ⟨_, rfl, UInt32.le_refl _⟩, ?_⟩
      rw [List.getLast?_cons_cons]
      exact exists_last hnext
    · obtain ⟨hle, ⟨a, ha, hbegin⟩, hend⟩ := ih hnext l hl
      cases ha
      exact ⟨hle, ⟨_, rfl, UInt32.le_trans hle' hbegin⟩, by rwa [List.getLast?_cons_cons]⟩

theorem range_subset (h : Tiles addresses block) (hsorted : addresses.Pairwise (· ≤ ·))
    {l : Location} (hl : l ∈ block) : l.range ⊆ addressRange addresses := by
  obtain ⟨_, ⟨first, hfirst, hbegin⟩, last, hlast, hend⟩ := h.inside hsorted l hl
  rintro address ⟨hle, hlt⟩
  exact ⟨first, hfirst, last, hlast, UInt32.le_trans hbegin hle, UInt32.lt_of_lt_of_le hlt hend⟩

/-- They lie one behind another. -/
theorem apart (h : Tiles addresses block) (hsorted : addresses.Pairwise (· ≤ ·)) :
    block.Pairwise fun x y => x.endAddress ≤ y.beginAddress := by
  induction h with
  | nil => exact List.Pairwise.nil
  | passes _ ih =>
    obtain ⟨hfirst, hnext⟩ := List.pairwise_cons.mp hsorted
    obtain ⟨_, hrest⟩ := List.pairwise_cons.mp hnext
    exact ih (List.pairwise_cons.mpr ⟨fun a ha => hfirst a (List.mem_cons_of_mem _ ha), hrest⟩)
  | drops _ ih => exact ih (List.pairwise_cons.mp hsorted).2
  | collects h ih =>
    have hnext := (List.pairwise_cons.mp hsorted).2
    refine List.pairwise_cons.mpr ⟨fun y hy => ?_, ih hnext⟩
    obtain ⟨_, ⟨a, ha, hbegin⟩, _⟩ := h.inside hnext y hy
    cases ha
    exact hbegin

end Tiles

/-- Sequences whose ranges do not overlap have locations whose ranges do not overlap. -/
theorem locations_apart {seqs : List (List UInt32)} {blocks : List (List Location)}
    (h : List.Forall₂ Tiles seqs blocks) (hsorted : ∀ seq ∈ seqs, seq.Pairwise (· ≤ ·))
    (hdisjoint : seqs.Pairwise fun p q => Disjoint (addressRange p) (addressRange q)) :
    (∀ l ∈ blocks.flatten, l.beginAddress ≤ l.endAddress ∧
      ∃ seq ∈ seqs, l.range ⊆ addressRange seq) ∧
        blocks.flatten.Pairwise fun x y => Disjoint x.range y.range := by
  induction h with
  | nil => exact ⟨fun _ hl => (nomatch hl), List.Pairwise.nil⟩
  | @cons seq block seqs blocks hblock _ ih =>
    obtain ⟨hseq, hseqs⟩ := List.pairwise_cons.mp hdisjoint
    have hsorted' := hsorted seq List.mem_cons_self
    obtain ⟨hinside, hapart⟩ := ih (fun q hq => hsorted q (List.mem_cons_of_mem _ hq)) hseqs
    rw [List.flatten_cons]
    constructor
    · intro l hl
      rcases List.mem_append.mp hl with hl | hl
      · exact ⟨(hblock.inside hsorted' l hl).1, seq, List.mem_cons_self,
          hblock.range_subset hsorted' hl⟩
      · obtain ⟨hle, q, hq, hsub⟩ := hinside l hl
        exact ⟨hle, q, List.mem_cons_of_mem _ hq, hsub⟩
    · refine List.pairwise_append.mpr ⟨?_, hapart, fun x hx y hy => ?_⟩
      · refine (hblock.apart hsorted').imp fun {x y} hxy => Set.disjoint_left.mpr ?_
        rintro address ⟨_, hend⟩ ⟨hbegin, _⟩
        exact UInt32.not_le.mpr hend (UInt32.le_trans hxy hbegin)
      · obtain ⟨_, q, hq, hsub⟩ := hinside y hy
        exact (hseq q hq).mono (hblock.range_subset hsorted' hx) hsub

/-- **Over sequences with ascending addresses and ranges that do not overlap, the lookup
is right exactly if no empty location begins in the one around the address, at or below
the address.** -/
theorem getLocation_finds_iff (s : Bytes) (found : Found)
    (hparse : parseDebugLine { result := {} } s = .returns found)
    (hsorted : ∀ seq ∈ lineSequences s, seq.Pairwise (· ≤ ·))
    (hdisjoint : (lineSequences s).Pairwise fun p q => Disjoint (addressRange p) (addressRange q))
    (address : UInt32) :
    (∀ S, FindsLocation S found.result address) ↔
      NoneEmptyBelow found.result.locations address := by
  obtain ⟨blocks, hlocations, htiles⟩ := parseDebugLine_tiles hparse
  obtain ⟨hinside, hapart⟩ := locations_apart htiles hsorted hdisjoint
  rw [← hlocations] at hinside hapart
  exact findsLocation_iff (fun l hl => (hinside l hl).1) hapart

/-- A section with one sequence, at the addresses 16, 16 and 32: the line changes at the
second row, the address does not. -/
def sameAddressSection : Bytes :=
  [47, 0, 0, 0, 4, 0, 25, 0, 0, 0, 1, 1, 1, 251, 14, 13, 0, 1, 1, 1, 1, 0, 0, 0, 1, 0, 0, 1,
   0, 97, 0, 0, 0, 0, 0, 0, 5, 2, 16, 0, 0, 0, 1, 3, 1, 1, 2, 16, 0, 1, 1]

/-- What it leaves: an empty location and one that begins with it. -/
def sameAddressFound : Found where
  result := { files := [[97]], locations := [⟨16, 16, 0, 1⟩, ⟨16, 32, 0, 2⟩] }
  files := [([97], 0)]

theorem sameAddress_sequences : lineSequences sameAddressSection = [[16, 16, 32], []] := by
  decide +kernel

theorem sameAddress_sorted :
    ∀ seq ∈ lineSequences sameAddressSection, seq.Pairwise (· ≤ ·) := by
  rw [sameAddress_sequences]
  decide

theorem sameAddress_disjoint :
    (lineSequences sameAddressSection).Pairwise fun p q =>
      Disjoint (addressRange p) (addressRange q) := by
  rw [sameAddress_sequences, List.pairwise_pair]
  refine Set.disjoint_right.mpr ?_
  rintro address ⟨first, hfirst, _⟩
  cases hfirst

theorem getLocation_finds_iff_sameAddress :
    (∀ S, FindsLocation S sameAddressFound.result 20) ↔
      NoneEmptyBelow sameAddressFound.result.locations 20 :=
  getLocation_finds_iff sameAddressSection sameAddressFound (by decide +kernel) sameAddress_sorted
    sameAddress_disjoint 20

/-- The sort may put the empty location behind the other one, and nothing is found. -/
theorem sameAddress_not_found :
    ¬ ∀ (s : Bytes) (found : Found), parseDebugLine { result := {} } s = .returns found →
      (∀ seq ∈ lineSequences s, seq.Pairwise (· ≤ ·)) →
        ((lineSequences s).Pairwise fun p q => Disjoint (addressRange p) (addressRange q)) →
          ∀ address S, FindsLocation S found.result address := by
  intro h
  let S : StdSort Location.less :=
    plainToolchain.sortLocations.choosing
      (show [⟨16, 32, 0, 2⟩, ⟨16, 16, 0, 1⟩].Perm sameAddressFound.result.locations from .swap _ _ _)
      (by rw [WeakSorted]; decide)
  have hfinds := h sameAddressSection sameAddressFound (by decide +kernel) sameAddress_sorted
    sameAddress_disjoint 20 S
  have hnone : (sortedInfo S sameAddressFound.result).getLocation 20 = none := by decide +kernel
  have hin : (20 : UInt32) ∈ Location.range ⟨16, 32, 0, 2⟩ := by constructor <;> decide
  obtain ⟨r, _, hget, _⟩ := hfinds.found ⟨16, 32, 0, 2⟩ (by decide) hin
  exact nomatch hnone.symm.trans hget

end Microchain.DebugEosVm
