import Microchain.Feed.BlockBytes

/-!
# What the irreversibility updates reach

`setIrreversible(n)` and `add_block` with a bound `n` look for the last block at or below
`n` as the block before `n + 1`, by number and by eosio number. They reach it, except that
`n + 1` is 0 for the largest `n`.

- `setIrreversible_iff`: `setIrreversible` reaches the largest number at most `n` unless
  `n` is the largest number and there is something to make final.
- `addBlockIrreversible_iff`: the same for a block that is appended, which is itself above
  `irreversible`. The search by eosio number needs the blocks in order, as far as they are
  above `irreversible`.
- `run_irreversible`: both **in every state that any run reaches**.
-/

namespace Microchain.Feed

open Eosio Subchain Starter BlockLog Lib

/-! ## What is to be reached -/

/-- The largest of `old` and the numbers at most `n` in the log. -/
def reachByNum (old : UInt32) (blocks : List BlockWithId) (n : UInt32) : UInt32 :=
  (((blocks.filter fun b => decide (b.num ≤ n)).map (·.num)).max?).elim old (max old)

/-- The larger of `old` and the number of the last block with an eosio number at most
`n`. -/
def reachByEosioNum (old : UInt32) (blocks : List BlockWithId) (n : UInt32) : UInt32 :=
  ((blocks.filter fun b => decide (getEosioNum b ≤ n)).getLast?).elim old (max old ·.num)

/-- Behind a block above `n` there is no block up to `n` that could still become final. -/
def InEosioOrder (irreversible : UInt32) (blocks : List BlockWithId) (n : UInt32) : Prop :=
  blocks.Pairwise fun a b => irreversible < b.num → getEosioNum b ≤ n → getEosioNum a ≤ n

/-! ## Arithmetic of the bound -/

/-- Being below `n + 1`, unless that wraps. -/
theorem lt_succ_iff {n : UInt32} (hn : n ≠ 0xffffffff) (a : UInt32) : a < n + 1 ↔ a ≤ n := by
  have hlt := n.toNat_lt
  have hne : n.toNat ≠ 4294967295 := fun h => hn (UInt32.toNat_inj.mp h)
  rw [UInt32.lt_iff_toNat_lt, UInt32.le_iff_toNat_le, UInt32.toNat_add,
    Nat.mod_eq_of_lt (show n.toNat + (1 : UInt32).toNat < 2 ^ 32 by
      have h1 : (1 : UInt32).toNat = 1 := rfl
      omega)]
  exact Nat.lt_succ_iff

theorem max_eq_left_iff {a b : UInt32} : max a b = a ↔ b ≤ a := by
  rw [← UInt32.toNat_inj, toNat_max, UInt32.le_iff_toNat_le]
  omega

instance lawfulOrderMax_uint32 : Std.LawfulOrderMax UInt32 :=
  .of_max_le_iff
    (fun a b c => by
      simp only [UInt32.le_iff_toNat_le, toNat_max]
      omega)
    (fun a b => by
      simp only [← UInt32.toNat_inj, toNat_max]
      omega)

/-! ## By number -/

/-- The blocks up to `n` are those in front of the search for `n + 1`. -/
theorem filter_num_le {log : BlockLog} (h : log.blocks.IsChain Linked) {n : UInt32}
    (hn : n ≠ 0xffffffff) : log.blocks.filter (fun b => decide (b.num ≤ n)) =
      log.blocks.take (log.lowerBoundByNum (n + 1)) := by
  obtain ⟨hle, hlow, hhigh⟩ := lowerBoundByNum_spec h (n + 1)
  have hsplits : Splits (fun b => decide (b.num ≤ n)) log.blocks (log.lowerBoundByNum (n + 1)) := by
    refine ⟨hle, fun i hi hlt => ?_, fun i hi hge => ?_⟩
    · rw [decide_eq_true_eq, ← lt_succ_iff hn]
      exact hlow i hi hlt
    · rw [decide_eq_true_eq, ← lt_succ_iff hn]
      exact UInt32.not_lt.mpr (hhigh i hi hge)
  exact hsplits.filter_eq

/-- **`setIrreversible` reaches what it should**, unless `n + 1` wraps and a block is still
above `irreversible`. -/
theorem setIrreversible_iff {log : BlockLog} (h : log.blocks.IsChain Linked) (n : UInt32) :
    (log.setIrreversible n).irreversible = reachByNum log.irreversible log.blocks n ↔
      (n ≠ 0xffffffff ∨ ∀ b ∈ log.blocks, b.num ≤ log.irreversible) := by
  by_cases hn : n = 0xffffffff
  · -- nothing is before 0, and every number is at most `n`
    subst hn
    have hnone : log.blockBeforeNum (0xffffffff + 1) = none := by
      show log.before (log.lowerBoundByNum 0) = none
      rw [lowerBoundByNum_zero]
      rfl
    have hall : log.blocks.filter (fun b => decide (b.num ≤ 0xffffffff)) = log.blocks :=
      List.filter_eq_self.mpr fun b _ => decide_eq_true (UInt32.le_iff_toNat_le.mpr
        (Nat.le_of_lt_succ b.num.toNat_lt))
    rw [BlockLog.setIrreversible, hnone, reachByNum, hall]
    cases hmax : (log.blocks.map (·.num)).max? with
    | none =>
      have hnil := List.map_eq_nil_iff.mp (List.max?_eq_none_iff.mp hmax)
      exact iff_of_true rfl (.inr fun b hb => by rw [hnil] at hb; cases hb)
    | some largest =>
      obtain ⟨hmem, hlargest⟩ := List.max?_eq_some_iff.mp hmax
      obtain ⟨last, hlast, rfl⟩ := List.mem_map.mp hmem
      constructor
      · intro heq
        have hirr : last.num ≤ log.irreversible := max_eq_left_iff.mp (Eq.symm heq)
        exact .inr fun b hb => UInt32.le_trans (hlargest _ (List.mem_map_of_mem hb)) hirr
      · rintro (hne | hle)
        · exact absurd rfl hne
        · exact (max_eq_left_iff.mpr (hle last hlast)).symm
  · refine iff_of_true ?_ (.inl hn)
    obtain ⟨hle, -, -⟩ := lowerBoundByNum_spec h (n + 1)
    rw [BlockLog.setIrreversible, blockBeforeNum, reachByNum, filter_num_le h hn]
    generalize log.lowerBoundByNum (n + 1) = k at hle
    cases k with
    | zero => rfl
    | succ k =>
      have hk : k < log.blocks.length := hle
      have hmax : ((log.blocks.take (k + 1)).map (·.num)).max? = some log.blocks[k].num := by
        have hmem : log.blocks[k] ∈ log.blocks.take (k + 1) :=
          List.mem_take_iff_getElem.mpr ⟨k, by omega, rfl⟩
        refine List.max?_eq_some_iff.mpr ⟨List.mem_map_of_mem hmem, List.forall_mem_map.mpr ?_⟩
        · intro b hb
          obtain ⟨i, hi, rfl⟩ := List.mem_take_iff_getElem.mp hb
          rcases Nat.eq_or_lt_of_le (show i ≤ k by omega) with rfl | hlt
          · exact UInt32.le_refl _
          · exact UInt32.le_of_lt (num_lt_of_lt h hk hlt)
      rw [before_succ, List.getElem?_eq_getElem hk, hmax]
      rfl

/-! ## By eosio number -/

/-- The last element that satisfies a predicate, with what is in front of and behind it. -/
theorem split_of_getLast?_filter {α : Type} {p : α → Bool} {l : List α} {last : α}
    (h : (l.filter p).getLast? = some last) :
    ∃ pre post, l = pre ++ last :: post ∧ p last ∧ ∀ x ∈ post, ¬ p x := by
  obtain ⟨front, hfront⟩ := List.getLast?_eq_some_iff.mp h
  obtain ⟨pre, rest, rfl, -, hrest⟩ := List.filter_eq_append_iff.mp hfront
  obtain ⟨skipped, post, rfl, -, hlast, hpost⟩ := List.filter_eq_cons_iff.mp hrest
  refine ⟨pre ++ skipped, post, (List.append_assoc _ _ _).symm, hlast, ?_⟩
  exact List.filter_eq_nil_iff.mp hpost

/-- Raising `irreversible` by an eosio number, where `n + 1` does not wrap. -/
theorem raise_byEosioNum {log : BlockLog} (h : log.blocks.IsChain Linked) {n : UInt32}
    (hn : n ≠ 0xffffffff) (horder : InEosioOrder log.irreversible log.blocks n) :
    (log.raiseIrreversible (log.blockBeforeEosioNum (n + 1))).irreversible =
      reachByEosioNum log.irreversible log.blocks n := by
  have hp : (fun b => decide (getEosioNum b < n + 1)) = fun b => decide (getEosioNum b ≤ n) :=
    funext fun b => decide_eq_decide.mpr (lt_succ_iff hn _)
  -- the search ends behind a block up to `n`, whatever the order
  have hfound : ∀ b, log.blockBeforeEosioNum (n + 1) = some b →
      ∃ i, ∃ hi : i < log.blocks.length, log.blocks[i] = b ∧ getEosioNum b ≤ n ∧
        log.lowerBoundByEosioNum (n + 1) = i + 1 := by
    intro b hb
    obtain ⟨i, hi, hit, rfl⟩ := before_eq_some hb
    have hprev := lowerBound_prev hit
    rw [List.getElem?_eq_getElem hi, Option.any_some, decide_eq_true_eq, lt_succ_iff hn] at hprev
    exact ⟨i, hi, rfl, hprev, hit⟩
  rw [reachByEosioNum]
  cases hlast : (log.blocks.filter fun b => decide (getEosioNum b ≤ n)).getLast? with
  | none =>
    have hnil := List.filter_eq_nil_iff.mp (List.getLast?_eq_none_iff.mp hlast)
    cases hb : log.blockBeforeEosioNum (n + 1) with
    | none => rfl
    | some b =>
      obtain ⟨i, hi, rfl, hle, -⟩ := hfound b hb
      exact absurd (decide_eq_true hle) (hnil _ (List.getElem_mem hi))
  | some last =>
    obtain ⟨pre, post, hsplit, hle, hpost⟩ := split_of_getLast?_filter hlast
    rw [decide_eq_true_eq] at hle
    have hlen : pre.length < log.blocks.length := by
      rw [hsplit, List.length_append, List.length_cons]
      omega
    have hget : log.blocks[pre.length] = last := by simp [hsplit]
    -- so it does not end behind `last`
    have hbound : ∀ i (hi : i < log.blocks.length), getEosioNum log.blocks[i] ≤ n →
        i ≤ pre.length := by
      intro i hi hnum
      by_contra hgt
      refine hpost log.blocks[i] ?_ (decide_eq_true hnum)
      obtain ⟨d, hd⟩ := Nat.exists_eq_add_of_lt (Nat.not_le.mp hgt)
      refine List.mem_iff_getElem?.mpr ⟨d, ?_⟩
      rw [← List.getElem?_eq_getElem hi, hsplit, List.getElem?_append_right (by omega),
        show i - pre.length = d + 1 by omega, List.getElem?_cons_succ]
    show _ = max log.irreversible last.num
    by_cases hirr : last.num ≤ log.irreversible
    · rw [max_eq_left_iff.mpr hirr]
      cases hb : log.blockBeforeEosioNum (n + 1) with
      | none => rfl
      | some b =>
        obtain ⟨i, hi, rfl, hnum, -⟩ := hfound b hb
        refine max_eq_left_iff.mpr (UInt32.le_trans ?_ hirr)
        rcases Nat.eq_or_lt_of_le (hbound i hi hnum) with rfl | hlt
        · rw [hget]
          exact UInt32.le_refl _
        · rw [← hget]
          exact UInt32.le_of_lt (num_lt_of_lt h hlen hlt)
    · -- all blocks in front of `last` are up to `n` too, and the search passes them
      have hfront : ∀ i ≤ pre.length,
          (log.blocks[i]?).any fun b => decide (getEosioNum b < n + 1) := by
        intro i hi
        rw [hp, List.getElem?_eq_getElem (by omega), Option.any_some, decide_eq_true_eq]
        rcases Nat.eq_or_lt_of_le hi with rfl | hlt
        · rw [hget]
          exact hle
        · have hpair := List.pairwise_iff_getElem.mp horder i pre.length (by omega) hlen hlt
          rw [hget] at hpair
          exact hpair (UInt32.not_le.mp hirr) hle
      have hgt : pre.length < log.lowerBoundByEosioNum (n + 1) := lowerBound_gt hlen hfront
      cases hb : log.blockBeforeEosioNum (n + 1) with
      | none =>
        rw [blockBeforeEosioNum, before, if_neg (by omega), List.getElem?_eq_none_iff] at hb
        have := lowerBound_le (fun b => decide (getEosioNum b < n + 1)) log.blocks
        have : log.lowerBoundByEosioNum (n + 1) ≤ log.blocks.length := this
        omega
      | some b =>
        obtain ⟨i, hi, rfl, hnum, hit⟩ := hfound b hb
        obtain rfl : i = pre.length := by
          have := hbound i hi hnum
          omega
        rw [hget]
        rfl

/-- Out of order, the search for 6 stops in front of 9 and misses the last block. -/
example :
    let blockOf (num eosioNum : UInt32) : BlockWithId := { num, eosioBlock := { num := eosioNum } }
    let log : BlockLog := { blocks := [blockOf 1 3, blockOf 2 9, blockOf 3 4] }
    (log.blockBeforeEosioNum 6).map (·.num) = some 1 ∧
      reachByEosioNum 0 log.blocks 5 = 3 := by decide

/-- **`add_block` reaches what it should** with a block that it appends, unless `n + 1`
wraps. -/
theorem addBlockIrreversible_iff {log : BlockLog} (h : log.WellFormed) {block : BlockWithId}
    (happended : (log.addBlock block).1 = .appended) {n : UInt32}
    (horder : InEosioOrder log.irreversible (log.addBlock block).2.2.blocks n) :
    (log.addBlockIrreversible block n).2.2.irreversible =
        reachByEosioNum log.irreversible (log.addBlock block).2.2.blocks n ↔
      n ≠ 0xffffffff := by
  rcases addBlock_cases h block with ⟨st, hne, heq⟩ | ⟨it, -, -, heq, -, -, -, habove⟩
  · rw [heq] at happended
    exact absurd happended hne
  have hwf := h.addBlock block
  rw [heq] at hwf horder
  rw [BlockLog.addBlockIrreversible, heq]
  dsimp only at horder ⊢
  constructor
  · rintro hreach rfl
    -- nothing is before 0, and the new block is the last one up to `n`
    have hall : (log.blocks.take it ++ [block]).filter
        (fun b => decide (getEosioNum b ≤ 0xffffffff)) = log.blocks.take it ++ [block] :=
      List.filter_eq_self.mpr fun b _ => decide_eq_true (UInt32.le_iff_toNat_le.mpr
        (Nat.le_of_lt_succ (getEosioNum b).toNat_lt))
    rw [reachByEosioNum, hall, List.getLast?_concat] at hreach
    have hzero : ∀ log : BlockLog, log.blockBeforeEosioNum (0xffffffff + 1) = none := by
      intro log
      cases hb : log.blockBeforeEosioNum (0xffffffff + 1) with
      | none => rfl
      | some b =>
        obtain ⟨i, hi, hit, -⟩ := before_eq_some hb
        have hprev := lowerBound_prev hit
        rw [List.getElem?_eq_getElem hi, Option.any_some, decide_eq_true_eq] at hprev
        exact absurd hprev (UInt32.not_lt.mpr UInt32.zero_le)
    rw [hzero] at hreach
    exact absurd (max_eq_left_iff.mp (Eq.symm hreach)) (UInt32.not_le.mpr habove)
  · intro hn
    exact raise_byEosioNum hwf.linked hn horder

/-! ## In every state of a run -/

theorem EosioSorted.inEosioOrder {blocks : List BlockWithId} (h : EosioSorted blocks)
    (irreversible n : UInt32) : InEosioOrder irreversible blocks n :=
  List.Pairwise.imp (fun {_ _} hlt _ hle => UInt32.le_trans (UInt32.le_of_lt hlt) hle) h

/-- An eosio block pushed at the end of a run of feeds leaves the log in order. -/
theorem run_pushed_sorted (sha256 : Bytes → Checksum256) (starterAccount : Name)
    {calls : List Call} (hfeeds : ∀ call ∈ calls, IsFeed call) (eosioBlock : EosioBlock)
    (n : UInt32) : EosioSorted
      (((ChainRun.start starterAccount).run sha256 calls).chain.addEosioBlock sha256 eosioBlock
        n).2.blockLog.blocks := by
  have hall : ∀ call ∈ calls ++ [Call.addEosioBlockJson (.ok eosioBlock) n], IsFeed call := by
    intro call hcall
    rcases List.mem_append.mp hcall with hcall | hcall
    · exact hfeeds call hcall
    · obtain rfl := List.mem_singleton.mp hcall
      exact trivial
  have hsorted := (run_eosioSorted sha256 starterAccount _ hall).1
  rw [ChainRun.run, List.foldl_append] at hsorted
  exact hsorted

/-- **Both updates, in every state that a run reaches**: for every `n` but the largest they
reach what they should, for `add_block` as far as the eosio numbers are in order, which they
are after every run of feeds. For the largest `n`, `setIrreversible` does only when nothing
is above `irreversible`, and `add_block` of a block that it appends never does. -/
theorem run_irreversible (sha256 : Bytes → Checksum256) (starterAccount : Name)
    (calls : List Call) (n : UInt32) :
    let m := ((ChainRun.start starterAccount).run sha256 calls).chain
    ((m.setIrreversible n).blockLog.irreversible =
        reachByNum m.blockLog.irreversible m.blockLog.blocks n ↔
      (n ≠ 0xffffffff ∨ ∀ b ∈ m.blockLog.blocks, b.num ≤ m.blockLog.irreversible)) ∧
    (∀ block, (m.blockLog.addBlock block).1 = .appended →
      let after := (m.addBlockWithId block n).2.blockLog
      InEosioOrder m.blockLog.irreversible after.blocks n →
        (after.irreversible = reachByEosioNum m.blockLog.irreversible after.blocks n ↔
          n ≠ 0xffffffff)) ∧
    ∀ eosioBlock, (∀ call ∈ calls, IsFeed call) →
      let after := (m.addBlockWithId
        (MicroChain.withId sha256 (MicroChain.nextBlock m.blockLog eosioBlock)) n).2.blockLog
      InEosioOrder m.blockLog.irreversible after.blocks n := by
  intro m
  have hwf : m.blockLog.WellFormed := run_wellFormed sha256 starterAccount calls
  refine ⟨setIrreversible_iff hwf.linked n, ?_, ?_⟩
  · intro block happended after horder
    have hafter : after = (m.blockLog.addBlockIrreversible block n).2.2 :=
      MicroChain.addBlockWithId_blockLog m block n
    rw [hafter, addBlockIrreversible_blocks] at horder ⊢
    exact addBlockIrreversible_iff hwf happended horder
  · intro eosioBlock hfeeds after
    have hsorted := run_pushed_sorted sha256 starterAccount hfeeds eosioBlock n
    have hafter : after = (m.addEosioBlock sha256 eosioBlock n).2.blockLog := by
      rw [addEosioBlock_blockLog]
      exact MicroChain.addBlockWithId_blockLog m _ n
    rw [hafter]
    exact EosioSorted.inEosioOrder hsorted _ n

/-- With the largest number, neither of them makes the first block final. -/
theorem largest_number_not_reached :
    let m := ((ChainRun.start (Name.ofString "starter")).run (fun _ => {})
      [.addEosioBlockJson (.ok (ChainRun.hiBlock (Name.ofString "starter") 5)) 0]).chain
    let block : BlockWithId := { num := 2, eosioBlock := { num := 6 } }
    (m.setIrreversible 0xffffffff).blockLog.irreversible ≠
        reachByNum m.blockLog.irreversible m.blockLog.blocks 0xffffffff ∧
      (m.blockLog.addBlock block).1 = .appended ∧
      (m.addBlockWithId block 0xffffffff).2.blockLog.irreversible ≠
        reachByEosioNum m.blockLog.irreversible
          (m.addBlockWithId block 0xffffffff).2.blockLog.blocks 0xffffffff := by
  decide +kernel

end Microchain.Feed
