import Microchain.Subchain.BlockLogInv

/-!
# Searching by number

`lower_bound_by_num` computes a position from the number of the first block. On a log
whose numbers are consecutive it is where a linear search for the first block with at
least that number stops, and the three searches built on it follow
(`run_linearSearch`). The one number that has no successor is handled apart, by
`upper_bound_by_num` itself.
-/

namespace Microchain.Subchain

open Lib

namespace BlockLog

variable {log : BlockLog}

theorem lowerBoundByNum_splits (h : log.blocks.IsChain Linked) (num : UInt32) :
    Splits (fun b : BlockWithId => decide (b.num < num)) log.blocks (log.lowerBoundByNum num) := by
  obtain ⟨hle, hlow, hhigh⟩ := lowerBoundByNum_spec h num
  refine ⟨hle, fun i hi hlt => decide_eq_true (hlow i hi hlt), fun i hi hge => ?_⟩
  rw [decide_eq_true_eq]
  exact UInt32.not_lt.mpr (hhigh i hi hge)

theorem lowerBoundByNum_eq_findIdx (h : log.blocks.IsChain Linked) (num : UInt32) :
    log.lowerBoundByNum num = log.blocks.findIdx fun b => num ≤ b.num := by
  rw [← (lowerBoundByNum_splits h num).findIdx_eq]
  congr
  funext b
  rw [← decide_not, decide_eq_decide]
  exact UInt32.not_lt

/-- Above a number means at least its successor, unless it is the last one. -/
theorem succ_le_iff {num n : UInt32} (hlast : num ≠ ~~~0) : num + 1 ≤ n ↔ num < n := by
  have hnum : num.toNat + 1 < 2 ^ 32 := by
    have hlt := num.toNat_lt
    have hne : num.toNat ≠ 2 ^ 32 - 1 := fun heq => hlast (UInt32.toNat_inj.mp heq)
    omega
  rw [UInt32.le_iff_toNat_le, UInt32.lt_iff_toNat_lt, UInt32.toNat_add, UInt32.toNat_one,
    Nat.mod_eq_of_lt hnum]
  exact Nat.succ_le_iff

theorem upperBoundByNum_eq_findIdx (h : log.blocks.IsChain Linked) (num : UInt32) :
    log.upperBoundByNum num = log.blocks.findIdx fun b => num < b.num := by
  rw [upperBoundByNum]
  split
  · next hlast =>
    -- no number is above the last one
    refine (List.findIdx_eq_length_of_false fun b _ => decide_eq_false ?_).symm
    have hlt := b.num.toNat_lt
    have hnum : num.toNat = 2 ^ 32 - 1 := by
      rw [hlast]
      rfl
    rw [UInt32.lt_iff_toNat_lt]
    omega
  · next hlast =>
    rw [lowerBoundByNum_eq_findIdx h]
    congr
    funext b
    exact decide_eq_decide.mpr (succ_le_iff hlast)

/-- The block with a number, if there is one, is where the search for it stops. -/
theorem blockByNum_eq_find? (h : log.blocks.IsChain Linked) (num : UInt32) :
    log.blockByNum num = log.blocks.find? fun b => b.num = num := by
  obtain ⟨-, hlow, hhigh⟩ := lowerBoundByNum_spec h num
  rw [blockByNum]
  cases hb : (log.blocks[log.lowerBoundByNum num]?).filter (·.num = num) with
  | some b =>
    obtain ⟨hb, hnum⟩ := Option.filter_eq_some_iff.mp hb
    obtain ⟨hit, rfl⟩ := List.getElem?_eq_some_iff.mp hb
    symm
    rw [List.find?_eq_some_iff_getElem]
    refine ⟨hnum, _, hit, rfl, fun j hj => ?_⟩
    have hne := UInt32.ne_of_lt (hlow j (hj.trans hit) hj)
    simpa using hne
  | none =>
    refine (List.find?_eq_none.mpr fun b hmem hnum => ?_).symm
    obtain ⟨i, hi, rfl⟩ := List.mem_iff_getElem.mp hmem
    have hnum : log.blocks[i].num = num := by simpa using hnum
    have hit : log.lowerBoundByNum num = i := hnum ▸ lowerBoundByNum_getElem h hi
    rw [hit, List.getElem?_eq_getElem hi] at hb
    simp [hnum] at hb

theorem blockBeforeNum_eq_getLast? (h : log.blocks.IsChain Linked) (num : UInt32) :
    log.blockBeforeNum num = (log.blocks.filter fun b => b.num < num).getLast? := by
  rw [blockBeforeNum, (lowerBoundByNum_splits h num).filter_eq,
    getLast?_take_eq_before (lowerBoundByNum_le h num)]

end BlockLog

open BlockLog in
/-- **The searches by number are linear searches**, in every log that is reached and for
every number. -/
theorem run_linearSearch (ops : List LogOp) (num : UInt32) :
    let log := runLog {} ops
    (log.lowerBoundByNum num = log.blocks.findIdx fun b => num ≤ b.num) ∧
    (log.upperBoundByNum num = log.blocks.findIdx fun b => num < b.num) ∧
    (log.blockByNum num = log.blocks.find? fun b => b.num = num) ∧
    (∀ b ∈ log.blocks, b.num = num → log.blockByNum num = some b) ∧
    log.blockBeforeNum num = (log.blocks.filter fun b => b.num < num).getLast? := by
  intro log
  have h : log.blocks.IsChain Linked := (runLog_wellFormed wellFormed_empty ops).linked
  refine ⟨lowerBoundByNum_eq_findIdx h num, upperBoundByNum_eq_findIdx h num,
    blockByNum_eq_find? h num, fun b hb hnum => ?_, blockBeforeNum_eq_getLast? h num⟩
  obtain ⟨i, hi, rfl⟩ := List.mem_iff_getElem.mp hb
  have hit : log.lowerBoundByNum num = i := hnum ▸ lowerBoundByNum_getElem h hi
  rw [blockByNum, hit, List.getElem?_eq_getElem hi]
  simp [hnum]

end Microchain.Subchain
