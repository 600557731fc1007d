import Mathlib.Data.List.Chain
import Microchain.Subchain.BlockLog

/-!
# Invariants of the block log

`BlockLog.WellFormed` is what every operation keeps: the blocks are linked by
number and by id, the log starts at block 1 or at a block that is already final,
and `irreversible` is 0 or names a block of the log.

The four rejection tests of `add_block` are read once, in `addBlock_cases`: a
block that is appended sits right above the blocks it keeps, everything it forks
away is reversible, and so is the block itself. Finality (`LogOp.apply_final`)
then needs no look at the individual tests: an operation only drops or appends
blocks above `irreversible`, or trims below it.
-/

namespace Microchain.Subchain

open Lib

/-- `b` follows `a`: consecutive numbers (without wrapping), and `previous` is
the id of the block before. -/
def Linked (a b : BlockWithId) : Prop :=
  b.num.toNat = a.num.toNat + 1 ∧ b.previous = a.id

/-- The invariant of the log. -/
structure BlockLog.WellFormed (log : BlockLog) : Prop where
  linked : log.blocks.IsChain Linked
  first : ∀ b ∈ log.blocks.head?, b.num = 1 ∨ b.num ≤ log.irreversible
  irreversible_mem : log.irreversible = 0 ∨ ∃ b ∈ log.blocks, b.num = log.irreversible

/-! ## Numbers along a linked list of blocks -/

theorem toNat_max (a b : UInt32) : (max a b).toNat = max a.toNat b.toNat := by
  show (if a ≤ b then b else a).toNat = max a.toNat b.toNat
  split
  · next h => exact (Nat.max_eq_right (UInt32.le_iff_toNat_le.mp h)).symm
  · next h => exact (Nat.max_eq_left (Nat.le_of_not_le fun hle =>
      h (UInt32.le_iff_toNat_le.mpr hle))).symm

/-- The number of the `i`-th block is the number of the first plus `i`. -/
theorem num_getElem {l : List BlockWithId} (h : l.IsChain Linked) {i : Nat} (hi : i < l.length)
    (h0 : 0 < l.length := Nat.zero_lt_of_lt hi) : (l[i]).num.toNat = (l[0]).num.toNat + i := by
  induction i with
  | zero => rfl
  | succ i ih =>
    rw [(h.getElem i hi).1, ih (Nat.lt_of_succ_lt hi)]
    omega

theorem num_lt_of_lt {l : List BlockWithId} (h : l.IsChain Linked) {i j : Nat}
    (hj : j < l.length) (hij : i < j) : (l[i]).num < (l[j]).num := by
  rw [UInt32.lt_iff_toNat_lt, num_getElem h hj, num_getElem h (hij.trans hj)]
  omega

/-- A bound on one block's number holds for the blocks after it. -/
theorem lt_num_of_le {l : List BlockWithId} (h : l.IsChain Linked) {n : UInt32} {it : Nat}
    (hit : it < l.length) (hn : n < (l[it]).num) (i : Nat) (hi : i < l.length) (hle : it ≤ i) :
    n < (l[i]).num := by
  rcases Nat.eq_or_lt_of_le hle with rfl | hlt
  · exact hn
  · exact UInt32.lt_trans hn (num_lt_of_lt h hi hlt)

/-- Blocks of one log with the same number are at the same place. -/
theorem eq_of_num_eq {l : List BlockWithId} (h : l.IsChain Linked) {a b : BlockWithId}
    (ha : a ∈ l) (hb : b ∈ l) (hnum : a.num = b.num) : a = b := by
  obtain ⟨i, hi, rfl⟩ := List.mem_iff_getElem.mp ha
  obtain ⟨j, hj, rfl⟩ := List.mem_iff_getElem.mp hb
  have hij : i = j := by
    have h1 := num_getElem h hi
    have h2 := num_getElem h hj
    rw [hnum] at h1
    omega
  subst hij
  rfl

namespace BlockLog

/-- The constant-time search is the search for the first block with `num` at
least the argument. -/
theorem lowerBoundByNum_spec {log : BlockLog} (h : log.blocks.IsChain Linked) (num : UInt32) :
    log.lowerBoundByNum num ≤ log.blocks.length ∧
      (∀ i (hi : i < log.blocks.length), i < log.lowerBoundByNum num → log.blocks[i].num < num) ∧
      (∀ i (hi : i < log.blocks.length), log.lowerBoundByNum num ≤ i → num ≤ log.blocks[i].num) := by
  obtain ⟨blocks, irreversible⟩ := log
  cases blocks with
  | nil => simp [lowerBoundByNum]
  | cons front rest =>
    have hnum : ∀ {i : Nat} (hi : i < (front :: rest).length),
        ((front :: rest)[i]).num.toNat = front.num.toNat + i := num_getElem h
    simp only [lowerBoundByNum]
    split
    · next hle =>
      -- `num` is not behind the front
      refine ⟨Nat.zero_le _, fun i _ hi => absurd hi (Nat.not_lt_zero i), fun i hi _ => ?_⟩
      rw [UInt32.le_iff_toNat_le] at hle ⊢
      rw [hnum hi]
      omega
    · next hgt =>
      have hlt : front.num ≤ num := UInt32.le_of_lt (UInt32.not_le.mp hgt)
      rw [UInt32.toNat_sub_of_le _ _ hlt]
      rw [UInt32.le_iff_toNat_le] at hlt
      split
      · next hin =>
        -- `num` is the number of a block, at its distance from the front
        refine ⟨Nat.le_of_lt hin, fun i hi hlt' => ?_, fun i hi hge => ?_⟩
        · rw [UInt32.lt_iff_toNat_lt, hnum hi]
          omega
        · rw [UInt32.le_iff_toNat_le, hnum hi]
          omega
      · next hout =>
        -- `num` is behind the last block
        refine ⟨Nat.le_refl _, fun i hi _ => ?_, fun i hi hge => absurd hi (Nat.not_lt.mpr hge)⟩
        rw [UInt32.lt_iff_toNat_lt, hnum hi]
        omega

theorem lowerBoundByNum_le {log : BlockLog} (h : log.blocks.IsChain Linked) (num : UInt32) :
    log.lowerBoundByNum num ≤ log.blocks.length :=
  (lowerBoundByNum_spec h num).1

theorem lowerBoundByNum_zero (log : BlockLog) : log.lowerBoundByNum 0 = 0 := by
  rw [lowerBoundByNum]
  split
  · next hnil => rw [hnil, List.length_nil]
  · exact if_pos UInt32.zero_le

/-- The search finds the place of a block that is in the log. -/
theorem lowerBoundByNum_getElem {log : BlockLog} (h : log.blocks.IsChain Linked) {i : Nat}
    (hi : i < log.blocks.length) : log.lowerBoundByNum log.blocks[i].num = i := by
  obtain ⟨hle, hlow, hhigh⟩ := lowerBoundByNum_spec h log.blocks[i].num
  rcases Nat.lt_trichotomy (log.lowerBoundByNum log.blocks[i].num) i with hlt | heq | hgt
  · have h1 := hhigh _ (hlt.trans hi) (Nat.le_refl _)
    have h2 := num_lt_of_lt h hi hlt
    exact absurd h2 (UInt32.not_lt.mpr h1)
  · exact heq
  · exact absurd (hlow i hi hgt) (UInt32.lt_irrefl _)

theorem before_eq_some {log : BlockLog} {it : Nat} {b : BlockWithId} (h : log.before it = some b) :
    ∃ i, ∃ hi : i < log.blocks.length, it = i + 1 ∧ log.blocks[i] = b := by
  rw [before] at h
  split at h
  · exact absurd h (by simp)
  · obtain ⟨hi, hb⟩ := List.getElem?_eq_some_iff.mp h
    exact ⟨it - 1, hi, by omega, hb⟩

theorem before_succ (log : BlockLog) (i : Nat) : log.before (i + 1) = log.blocks[i]? := by
  simp [before]

theorem mem_of_before {log : BlockLog} {it : Nat} {b : BlockWithId} (h : log.before it = some b) :
    b ∈ log.blocks := by
  obtain ⟨i, hi, -, rfl⟩ := before_eq_some h
  exact List.getElem_mem hi

/-- In a well-formed log no block lies below the irreversible one unless
`irreversible` names a block. -/
theorem irreversible_lt_of_first {log : BlockLog} (h : log.WellFormed)
    (hfirst : ∀ b ∈ log.blocks.head?, log.irreversible < b.num) : log.irreversible = 0 := by
  rcases h.irreversible_mem with h0 | ⟨b, hb, hnum⟩
  · exact h0
  · obtain ⟨i, hi, rfl⟩ := List.mem_iff_getElem.mp hb
    have h0 : 0 < log.blocks.length := Nat.zero_lt_of_lt hi
    have hlt := hfirst log.blocks[0] (by simp [List.head?_eq_getElem?, h0])
    have hle := num_getElem h.linked hi
    rw [← hnum, UInt32.lt_iff_toNat_lt] at hlt
    omega

/-- **What `add_block` can do.** Either the log is unchanged, or the block is
appended above the first `it` blocks, the ones with a smaller number. -/
theorem addBlock_cases {log : BlockLog} (h : log.WellFormed) (block : BlockWithId) :
    (∃ st, st ≠ .appended ∧ log.addBlock block = (st, 0, log)) ∨
    ∃ it, it = log.lowerBoundByNum block.num ∧ it ≤ log.blocks.length ∧
      log.addBlock block = (.appended, log.blocks.length - it,
        { log with blocks := log.blocks.take it ++ [block] }) ∧
      (it = 0 → block.num = 1) ∧
      (∀ prev, log.before it = some prev → Linked prev block) ∧
      (∀ i (hi : i < log.blocks.length), it ≤ i → log.irreversible < log.blocks[i].num) ∧
      log.irreversible < block.num := by
  obtain ⟨hle, hlow, hhigh⟩ := lowerBoundByNum_spec h.linked block.num
  rw [addBlock]
  generalize log.lowerBoundByNum block.num = it at hle hlow hhigh ⊢
  split_ifs with h1 h2 h3 h4
  · exact .inl ⟨.duplicate, by simp, rfl⟩
  · exact .inl ⟨.unlinkable, by simp, rfl⟩
  · exact .inl ⟨.unlinkable, by simp, rfl⟩
  · exact .inl ⟨.unlinkable, by simp, rfl⟩
  -- the block is appended: read what the four failed tests say
  have hone : it = 0 → block.num = 1 := fun h0 => by
    by_contra hne
    exact h2 ⟨h0, hne⟩
  have hprev : ∀ prev, log.before it = some prev → Linked prev block := by
    intro prev hb
    rw [hb] at h3
    simp only [Option.any_some, ne_eq, decide_eq_true_eq, not_or, not_not] at h3
    obtain ⟨i, hi, rfl, rfl⟩ := before_eq_some hb
    have hlt := hlow i hi (Nat.lt_succ_self i)
    refine ⟨?_, h3.1⟩
    rw [UInt32.lt_iff_toNat_lt, h3.2, UInt32.toNat_add] at hlt
    rw [h3.2, UInt32.toNat_add]
    have h1 : (1 : UInt32).toNat = 1 := rfl
    have hbound := (log.blocks[i]).num.toNat_lt
    omega
  have hfork : ∀ i (hi : i < log.blocks.length), it ≤ i → log.irreversible < log.blocks[i].num := by
    intro i hi hge
    have hin : it < log.blocks.length := by omega
    rw [List.getElem?_eq_getElem hin] at h4
    simp only [Option.any_some, decide_eq_true_eq, UInt32.not_le] at h4
    exact lt_num_of_le h.linked hin h4 i hi hge
  refine .inr ⟨it, rfl, hle, rfl, hone, hprev, hfork, ?_⟩
  -- the new block is reversible: it lies above `irreversible` in every case
  cases it with
  | zero =>
    have h0 : log.irreversible = 0 := by
      refine irreversible_lt_of_first h fun b hb => ?_
      rw [List.head?_eq_getElem?] at hb
      obtain ⟨h0, rfl⟩ := List.getElem?_eq_some_iff.mp hb
      exact hfork 0 h0 (Nat.le_refl 0)
    rw [h0, hone rfl]
    decide
  | succ i =>
    have hi : i < log.blocks.length := by omega
    have hlink := hprev log.blocks[i] (by rw [before_succ, List.getElem?_eq_getElem hi])
    rw [UInt32.lt_iff_toNat_lt, hlink.1]
    rcases h.irreversible_mem with h0 | ⟨b, hb, hnum⟩
    · rw [h0]
      exact Nat.zero_lt_succ _
    · obtain ⟨j, hj, rfl⟩ := List.mem_iff_getElem.mp hb
      have hji : j < i + 1 := by
        by_contra hge
        have := hfork j hj (by omega)
        rw [hnum] at this
        exact UInt32.lt_irrefl _ this
      rw [← hnum]
      have h1 := num_getElem h.linked hj
      have h2 := num_getElem h.linked hi
      omega

/-! ## Every operation keeps the invariant -/

/-- Dropping reversible blocks from the end. -/
theorem WellFormed.take {log : BlockLog} (h : log.WellFormed) {it : Nat}
    (hfork : ∀ i (hi : i < log.blocks.length), it ≤ i → log.irreversible < log.blocks[i].num) :
    WellFormed { log with blocks := log.blocks.take it } := by
  refine ⟨h.linked.take it, fun b hb => ?_, ?_⟩
  · dsimp only at hb
    rw [List.head?_take] at hb
    split at hb
    · exact absurd hb (by simp)
    · exact h.first b hb
  · rcases h.irreversible_mem with h0 | ⟨b, hb, hnum⟩
    · exact .inl h0
    · obtain ⟨j, hj, rfl⟩ := List.mem_iff_getElem.mp hb
      have hjit : j < it := by
        by_contra hge
        have := hfork j hj (by omega)
        rw [hnum] at this
        exact UInt32.lt_irrefl _ this
      exact .inr ⟨_, List.mem_iff_getElem.mpr ⟨j, by simp; omega, List.getElem_take⟩, hnum⟩

/-- Appending a block that follows the last one, or block 1 to an empty log. -/
theorem WellFormed.append {log : BlockLog} (h : log.WellFormed) {block : BlockWithId}
    (hprev : ∀ prev ∈ log.blocks.getLast?, Linked prev block)
    (hone : log.blocks = [] → block.num = 1) :
    WellFormed { log with blocks := log.blocks ++ [block] } := by
  refine ⟨h.linked.append (.singleton _) fun a ha b hb => ?_, fun b hb => ?_,
    h.irreversible_mem.imp_right fun ⟨b, hb, hnum⟩ => ⟨b, List.mem_append_left _ hb, hnum⟩⟩
  · obtain rfl : block = b := by simpa using hb
    exact hprev a ha
  · dsimp only at hb ⊢
    by_cases hnil : log.blocks = []
    · obtain rfl : block = b := by simpa [hnil] using hb
      exact .inl (hone hnil)
    · rw [List.head?_append_of_ne_nil _ hnil] at hb
      exact h.first b hb

/-- The block before a position is the last of the blocks kept. -/
theorem getLast?_take_eq_before {log : BlockLog} {it : Nat} (hle : it ≤ log.blocks.length) :
    (log.blocks.take it).getLast? = log.before it := by
  rw [before, List.getLast?_eq_getElem?, List.length_take, Nat.min_eq_left hle]
  split
  · next h0 => simp [h0]
  · rw [List.getElem?_take, if_pos (by omega)]

theorem WellFormed.addBlock {log : BlockLog} (h : log.WellFormed) (block : BlockWithId) :
    (log.addBlock block).2.2.WellFormed := by
  rcases addBlock_cases h block with ⟨st, -, heq⟩ | ⟨it, -, hle, heq, hone, hprev, hfork, -⟩
  · rw [heq]
    exact h
  rw [heq]
  refine (h.take hfork).append (fun prev hp => ?_) fun hnil => ?_
  · rw [getLast?_take_eq_before hle] at hp
    exact hprev prev hp
  · rcases List.take_eq_nil_iff.mp hnil with h0 | h0
    · exact hone h0
    · rw [h0] at hle
      exact hone (Nat.le_zero.mp hle)

@[simp] theorem raiseIrreversible_blocks (log : BlockLog) (b : Option BlockWithId) :
    (log.raiseIrreversible b).blocks = log.blocks := by
  cases b <;> rfl

@[simp] theorem addBlockIrreversible_blocks (log : BlockLog) (block : BlockWithId)
    (eosioIrreversible : UInt32) :
    (log.addBlockIrreversible block eosioIrreversible).2.2.blocks =
      (log.addBlock block).2.2.blocks := by
  rw [BlockLog.addBlockIrreversible]
  split
  · next heq => rw [heq, raiseIrreversible_blocks]
  · rfl

theorem raiseIrreversible_some (log : BlockLog) (b : BlockWithId) :
    (log.raiseIrreversible (some b)).irreversible = log.irreversible ∨
      (log.raiseIrreversible (some b)).irreversible = b.num := by
  have h : (log.raiseIrreversible (some b)).irreversible =
      if log.irreversible ≤ b.num then b.num else log.irreversible := rfl
  rw [h]
  split
  · exact .inr rfl
  · exact .inl rfl

theorem irreversible_le_raiseIrreversible (log : BlockLog) (b : Option BlockWithId) :
    log.irreversible ≤ (log.raiseIrreversible b).irreversible := by
  cases b with
  | none => exact UInt32.le_refl _
  | some b =>
    rw [UInt32.le_iff_toNat_le]
    show _ ≤ (max log.irreversible b.num).toNat
    rw [toNat_max]
    exact Nat.le_max_left _ _

theorem WellFormed.raiseIrreversible {log : BlockLog} (h : log.WellFormed)
    {b : Option BlockWithId} (hb : ∀ x ∈ b, x ∈ log.blocks) :
    (log.raiseIrreversible b).WellFormed := by
  cases b with
  | none => exact h
  | some b =>
    refine ⟨h.linked, fun x hx => (h.first x hx).imp_right fun hle => ?_, ?_⟩
    · exact UInt32.le_trans hle (irreversible_le_raiseIrreversible log (some b))
    · rcases raiseIrreversible_some log b with hm | hm
      · rw [hm]
        exact h.irreversible_mem
      · exact .inr ⟨b, hb b rfl, hm.symm⟩

/-- **What `undo` can do.** Nothing, or remove the blocks from a reversible
block of the log on. -/
theorem undo_cases (log : BlockLog) (blockNum : UInt32) :
    log.undo blockNum = (0, log) ∨
    ∃ it, ∃ hi : it < log.blocks.length,
      log.blocks[it].num = blockNum ∧ log.irreversible < blockNum ∧
      log.undo blockNum =
        (log.blocks.length - it, { log with blocks := log.blocks.take it }) := by
  simp only [undo]
  generalize log.lowerBoundByNum blockNum = it
  split_ifs with h1 h2
  · exact .inl rfl
  · rw [Option.any_eq_true] at h2
    obtain ⟨b, hb, hnum⟩ := h2
    obtain ⟨hi, rfl⟩ := List.getElem?_eq_some_iff.mp hb
    exact .inr ⟨it, hi, by simpa using hnum, UInt32.not_le.mp h1, rfl⟩
  · exact .inl rfl

theorem WellFormed.undo {log : BlockLog} (h : log.WellFormed) (blockNum : UInt32) :
    (log.undo blockNum).2.WellFormed := by
  rcases undo_cases log blockNum with heq | ⟨it, hi, hnum, hirr, heq⟩
  · rw [heq]
    exact h
  · rw [heq]
    exact h.take (lt_num_of_le h.linked hi (hnum ▸ hirr))

theorem undo_sublist (log : BlockLog) (blockNum : UInt32) :
    (log.undo blockNum).2.blocks.Sublist log.blocks := by
  rcases undo_cases log blockNum with heq | ⟨it, -, -, -, heq⟩
  · rw [heq]
  · rw [heq]
    exact List.take_sublist it _

theorem undoEosioNum_sublist (log : BlockLog) (eosioNum : UInt32) :
    (log.undoEosioNum eosioNum).2.blocks.Sublist log.blocks := by
  rw [BlockLog.undoEosioNum]
  split
  · exact undo_sublist log _
  · exact List.Sublist.refl _

/-- **What `trim` does.** It drops the blocks below `irreversible`, and nothing
while `irreversible` is 0. -/
theorem trim_cases {log : BlockLog} (h : log.WellFormed) :
    (log.irreversible = 0 ∧ log.trim = log) ∨
    ∃ k, ∃ hk : k < log.blocks.length, log.blocks[k].num = log.irreversible ∧
      log.trim = { log with blocks := log.blocks.drop k } := by
  rcases h.irreversible_mem with h0 | ⟨b, hb, hnum⟩
  · refine .inl ⟨h0, ?_⟩
    have hit : log.lowerBoundByNum log.irreversible = 0 := by rw [h0, lowerBoundByNum_zero]
    rw [trim, hit, List.drop_zero]
  · obtain ⟨k, hk, rfl⟩ := List.mem_iff_getElem.mp hb
    refine .inr ⟨k, hk, hnum, ?_⟩
    rw [trim, ← hnum, lowerBoundByNum_getElem h.linked hk, hnum]

theorem WellFormed.trim {log : BlockLog} (h : log.WellFormed) : log.trim.WellFormed := by
  rcases trim_cases h with ⟨-, heq⟩ | ⟨k, hk, hnum, heq⟩
  · rw [heq]
    exact h
  rw [heq]
  have hhead : (log.blocks.drop k).head? = some log.blocks[k] := by
    rw [List.head?_drop, List.getElem?_eq_getElem hk]
  refine ⟨h.linked.drop k, fun b hb => ?_, .inr ⟨log.blocks[k], ?_, hnum⟩⟩
  · dsimp only at hb ⊢
    rw [hhead] at hb
    obtain rfl : log.blocks[k] = b := by simpa using hb
    exact .inr (UInt32.le_of_eq hnum)
  · exact List.mem_of_mem_head? hhead

theorem WellFormed.addBlockIrreversible {log : BlockLog} (h : log.WellFormed)
    (block : BlockWithId) (eosioIrreversible : UInt32) :
    (log.addBlockIrreversible block eosioIrreversible).2.2.WellFormed := by
  have hadd := h.addBlock block
  rw [BlockLog.addBlockIrreversible]
  split
  · next numForked log' heq =>
    rw [heq] at hadd
    exact hadd.raiseIrreversible fun x hx => mem_of_before hx
  · exact hadd

theorem WellFormed.setIrreversible {log : BlockLog} (h : log.WellFormed) (irreversible : UInt32) :
    (log.setIrreversible irreversible).WellFormed :=
  h.raiseIrreversible fun _ hx => mem_of_before hx

theorem WellFormed.undoEosioNum {log : BlockLog} (h : log.WellFormed) (eosioNum : UInt32) :
    (log.undoEosioNum eosioNum).2.WellFormed := by
  rw [BlockLog.undoEosioNum]
  split
  · exact h.undo _
  · exact h

theorem wellFormed_empty : WellFormed {} := ⟨.nil, by simp, .inl rfl⟩

end BlockLog

open BlockLog

theorem LogOp.wellFormed_apply {log : BlockLog} (h : log.WellFormed) (op : LogOp) :
    (op.apply log).WellFormed := by
  cases op with
  | addBlock block eosioIrreversible => exact h.addBlockIrreversible block eosioIrreversible
  | setIrreversible irreversible => exact h.setIrreversible irreversible
  | trimBlocks => exact h.trim
  | undoBlockNum blockNum => exact h.undo blockNum
  | undoEosioNum eosioNum => exact h.undoEosioNum eosioNum

/-! ## Finality -/

/-- `log'` comes after `log` as far as finality is concerned: `irreversible` has
not decreased, and the blocks of `log'` up to the old `irreversible` are blocks
of `log`. -/
structure Final (log log' : BlockLog) : Prop where
  irreversible_le : log.irreversible ≤ log'.irreversible
  mem_of_le : ∀ b ∈ log'.blocks, b.num ≤ log.irreversible → b ∈ log.blocks

theorem Final.refl (log : BlockLog) : Final log log :=
  ⟨UInt32.le_refl _, fun _ hb _ => hb⟩

theorem Final.trans {a b c : BlockLog} (h₁ : Final a b) (h₂ : Final b c) : Final a c :=
  ⟨UInt32.le_trans h₁.irreversible_le h₂.irreversible_le, fun x hx hle =>
    h₁.mem_of_le x (h₂.mem_of_le x hx (UInt32.le_trans hle h₁.irreversible_le)) hle⟩

theorem Final.of_sublist {log log' : BlockLog} (hirr : log'.irreversible = log.irreversible)
    (hsub : log'.blocks.Sublist log.blocks) : Final log log' :=
  ⟨UInt32.le_of_eq hirr.symm, fun _ hb _ => hsub.subset hb⟩

theorem Final.raiseIrreversible (log : BlockLog) (b : Option BlockWithId) :
    Final log (log.raiseIrreversible b) :=
  ⟨irreversible_le_raiseIrreversible log b, fun _ hb _ => by simpa using hb⟩

theorem Final.undo (log : BlockLog) (blockNum : UInt32) :
    Final log (log.undo blockNum).2 := by
  rcases undo_cases log blockNum with heq | ⟨it, -, -, -, heq⟩
  · rw [heq]
    exact Final.refl log
  · rw [heq]
    exact Final.of_sublist rfl (List.take_sublist it _)

/-- An appended block is reversible, so it replaces no final block. -/
theorem Final.addBlock {log : BlockLog} (h : log.WellFormed) (block : BlockWithId) :
    Final log (log.addBlock block).2.2 := by
  rcases addBlock_cases h block with ⟨st, -, heq⟩ | ⟨it, -, -, heq, -, -, -, hnew⟩
  · rw [heq]
    exact Final.refl log
  · rw [heq]
    refine ⟨UInt32.le_refl _, fun b hb hle => ?_⟩
    rcases List.mem_append.mp hb with hb | hb
    · exact List.mem_of_mem_take hb
    · obtain rfl : b = block := by simpa using hb
      exact absurd hnew (UInt32.not_lt.mpr hle)

theorem Final.addBlockIrreversible {log : BlockLog} (h : log.WellFormed) (block : BlockWithId)
    (eosioIrreversible : UInt32) :
    Final log (log.addBlockIrreversible block eosioIrreversible).2.2 := by
  have hadd := Final.addBlock h block
  rw [BlockLog.addBlockIrreversible]
  split
  · next numForked log' heq =>
    rw [heq] at hadd
    exact hadd.trans (Final.raiseIrreversible _ _)
  · exact hadd

/-- One operation keeps every final block or drops it, and replaces none. -/
theorem LogOp.apply_final {log : BlockLog} (h : log.WellFormed) (op : LogOp) :
    Final log (op.apply log) := by
  cases op with
  | addBlock block eosioIrreversible => exact Final.addBlockIrreversible h block eosioIrreversible
  | setIrreversible irreversible => exact Final.raiseIrreversible log _
  | trimBlocks => exact Final.of_sublist rfl (List.drop_sublist _ _)
  | undoBlockNum blockNum => exact Final.undo log blockNum
  | undoEosioNum eosioNum =>
    show Final log (log.undoEosioNum eosioNum).2
    rw [BlockLog.undoEosioNum]
    split
    · exact Final.undo log _
    · exact Final.refl log

/-! ## Whole runs -/

theorem runLog_wellFormed {log : BlockLog} (h : log.WellFormed) (ops : List LogOp) :
    (runLog log ops).WellFormed := by
  induction ops generalizing log with
  | nil => exact h
  | cons op ops ih => exact ih (LogOp.wellFormed_apply h op)

theorem runLog_final {log : BlockLog} (h : log.WellFormed) (ops : List LogOp) :
    Final log (runLog log ops) := by
  induction ops generalizing log with
  | nil => exact Final.refl log
  | cons op ops ih => exact (LogOp.apply_final h op).trans (ih (LogOp.wellFormed_apply h op))

/-- **The block log over whole runs.** After any operations `ops` the log is
well formed; after any further operations `ops'`, `irreversible` has not
decreased, and a block whose number was final is still the only one the log can
hold under that number. -/
theorem runLog_invariant (ops ops' : List LogOp) :
    let log := runLog {} ops
    let log' := runLog log ops'
    log.WellFormed ∧ log.irreversible ≤ log'.irreversible ∧
      ∀ b ∈ log.blocks, b.num ≤ log.irreversible →
        ∀ b' ∈ log'.blocks, b'.num = b.num → b' = b := by
  intro log log'
  have hwf : log.WellFormed := runLog_wellFormed wellFormed_empty ops
  have hfinal : Final log log' := runLog_final hwf ops'
  refine ⟨hwf, hfinal.irreversible_le, fun b hb hle b' hb' hnum => ?_⟩
  have hmem : b' ∈ log.blocks := hfinal.mem_of_le b' hb' (hnum ▸ hle)
  exact eq_of_num_eq hwf.linked hmem hb hnum

end Microchain.Subchain
