import Microchain.Subchain.BlockLogInv

/-!
# A trimmed log beside the whole one

`TrimOf whole log pre` says that `log` is `whole` without its first blocks `pre`,
which are final, as is the block it starts with. The searches of the
two logs differ by `pre.length` as soon as they get past the start of `log`; what
lies below that is final, where no operation does anything. So each operation
gives two logs that differ by `pre` again:

- `TrimOf.addBlock`, `TrimOf.raiseIrreversible`, `TrimOf.undoEosioNum`;
- `TrimOf.trim`: trimming either of them leaves the same log.
-/

namespace Microchain.Subchain

open Lib

/-- Blocks in the order of their eosio numbers. -/
def EosioSorted (blocks : List BlockWithId) : Prop :=
  blocks.Pairwise fun a b => getEosioNum a < getEosioNum b

/-- `log` is `whole` without its first blocks `pre`. -/
structure TrimOf (whole log : BlockLog) (pre : List BlockWithId) : Prop where
  blocks : whole.blocks = pre ++ log.blocks
  irreversible : log.irreversible = whole.irreversible
  start : pre = [] ∨ ∃ block ∈ log.blocks.head?, block.num ≤ log.irreversible

namespace BlockLog

/-- The blocks that `trim` removes. -/
def trimmedBy (log : BlockLog) : List BlockWithId :=
  log.blocks.take (log.lowerBoundByNum log.irreversible)

theorem trimmedBy_append_trim (log : BlockLog) : log.trimmedBy ++ log.trim.blocks = log.blocks :=
  List.take_append_drop _ _

/-- The constant-time search is the halving one. -/
theorem lowerBoundByNum_eq_lowerBound {log : BlockLog} (h : log.blocks.IsChain Linked)
    (num : UInt32) :
    log.lowerBoundByNum num = lowerBound (fun b => decide (b.num < num)) log.blocks := by
  obtain ⟨hle, hlow, hhigh⟩ := lowerBoundByNum_spec h num
  refine (lowerBound_eq_of_partitioned ?_ hle (fun i hi hlt => ?_) fun i hi hge => ?_).symm
  · refine List.pairwise_iff_getElem.mpr fun i j hi hj hij hj' => ?_
    exact decide_eq_true (UInt32.lt_trans (num_lt_of_lt h hj hij) (of_decide_eq_true hj'))
  · exact decide_eq_true (hlow i hi hlt)
  · simpa using hhigh i hi hge

/-- A block with a final number is refused. -/
theorem refused_of_num_le {log : BlockLog} (h : log.WellFormed) {block : BlockWithId}
    (hnum : block.num ≤ log.irreversible) :
    (log.addBlock block).1 ≠ .appended ∧ (log.addBlock block).2.2 = log := by
  rcases addBlock_cases h block with ⟨st, hst, heq⟩ | ⟨it, -, -, -, -, -, -, hnew⟩
  · rw [heq]
    exact ⟨hst, rfl⟩
  · exact absurd hnew (UInt32.not_lt.mpr hnum)

theorem addBlockIrreversible_of_refused {log : BlockLog} {block : BlockWithId}
    (h : (log.addBlock block).1 ≠ .appended ∧ (log.addBlock block).2.2 = log)
    (eosioIrreversible : UInt32) :
    (log.addBlockIrreversible block eosioIrreversible).2.2 = log := by
  obtain ⟨hst, hlog⟩ := h
  rw [addBlockIrreversible]
  split
  · next heq =>
    rw [heq] at hst
    exact absurd rfl hst
  · exact hlog

/-- Trimming keeps the blocks from the irreversible one on. -/
theorem trim_eq_filter {log : BlockLog} (h : log.WellFormed) :
    log.trim.blocks = log.blocks.filter fun block => decide (log.irreversible ≤ block.num) := by
  obtain ⟨-, hlow, hhigh⟩ := lowerBoundByNum_spec h.linked log.irreversible
  have hsplit := List.take_append_drop (log.lowerBoundByNum log.irreversible) log.blocks
  conv_rhs => rw [← hsplit]
  rw [List.filter_append, List.filter_eq_nil_iff.mpr, List.filter_eq_self.mpr, List.nil_append, trim]
  · intro block hblock
    obtain ⟨i, hi, rfl⟩ := List.mem_iff_getElem.mp hblock
    rw [List.length_drop] at hi
    rw [List.getElem_drop]
    exact decide_eq_true (hhigh _ (by omega) (Nat.le_add_right _ _))
  · intro block hblock
    obtain ⟨i, hi, rfl⟩ := List.mem_iff_getElem.mp hblock
    rw [List.length_take] at hi
    rw [List.getElem_take, decide_eq_true_eq, UInt32.not_le]
    exact hlow i (by omega) (by omega)

/-- A log that starts at the irreversible block, or at block 1. -/
def Trimmed (log : BlockLog) : Prop := log.trim = log

theorem trimmed_iff {log : BlockLog} (h : log.blocks.IsChain Linked) :
    Trimmed log ↔ log.lowerBoundByNum log.irreversible = 0 := by
  have hle := lowerBoundByNum_le h log.irreversible
  constructor
  · intro htrim
    have hlen := congrArg (fun l => l.blocks.length) htrim
    simp only [trim, List.length_drop] at hlen
    omega
  · intro h0
    rw [Trimmed, trim, h0, List.drop_zero]

/-- Undoing from a trimmed log leaves a trimmed log. -/
theorem Trimmed.undo {log : BlockLog} (h : Trimmed log) (hwf : log.WellFormed) (num : UInt32) :
    Trimmed (log.undo num).2 := by
  rcases undo_cases log num with heq | ⟨it, hi, -, -, heq⟩
  · rw [heq]
    exact h
  rw [heq]
  rw [trimmed_iff hwf.linked] at h
  rw [trimmed_iff (hwf.linked.take it)]
  dsimp only
  by_contra hne
  have hlinked : ({ log with blocks := log.blocks.take it } : BlockLog).blocks.IsChain Linked :=
    hwf.linked.take it
  obtain ⟨hle, hlow, -⟩ := lowerBoundByNum_spec hlinked log.irreversible
  have h0 : 0 < log.blocks.length := by omega
  have hpos : 0 < (log.blocks.take it).length := by
    dsimp only at hle
    omega
  have hlt := hlow 0 hpos (Nat.pos_of_ne_zero hne)
  rw [List.getElem_take] at hlt
  have hge := (lowerBoundByNum_spec hwf.linked log.irreversible).2.2 0 h0 (by omega)
  exact absurd hlt (UInt32.not_lt.mpr hge)

theorem Trimmed.undoEosioNum {log : BlockLog} (h : Trimmed log) (hwf : log.WellFormed)
    (num : UInt32) : Trimmed (log.undoEosioNum num).2 := by
  rw [BlockLog.undoEosioNum]
  split
  · exact h.undo hwf _
  · exact h

end BlockLog

namespace TrimOf

open BlockLog

variable {whole log : BlockLog} {pre : List BlockWithId}

theorem eq_of_nil (h : TrimOf whole log []) : log = whole := by
  have hblocks := h.blocks
  have hirr := h.irreversible
  cases whole
  cases log
  simp_all

theorem linked_whole (h : TrimOf whole log pre) (hwf : whole.WellFormed) :
    (pre ++ log.blocks).IsChain Linked := h.blocks ▸ hwf.linked

theorem linked (h : TrimOf whole log pre) (hwf : whole.WellFormed) :
    log.blocks.IsChain Linked := (List.isChain_append.mp (h.linked_whole hwf)).2.1

/-- A search by number that gets past the start of the trimmed log. -/
theorem lowerBoundByNum (h : TrimOf whole log pre) (hwf : whole.WellFormed) {num : UInt32}
    (hpos : 0 < log.lowerBoundByNum num) :
    whole.lowerBoundByNum num = pre.length + log.lowerBoundByNum num := by
  rw [lowerBoundByNum_eq_lowerBound (h.linked hwf)] at hpos ⊢
  rw [lowerBoundByNum_eq_lowerBound hwf.linked, h.blocks]
  refine (lowerBound_append ?_).1 hpos
  refine List.pairwise_iff_getElem.mpr fun i j hi hj hij hj' => ?_
  exact decide_eq_true (UInt32.lt_trans (num_lt_of_lt (h.linked_whole hwf) hj hij)
    (of_decide_eq_true hj'))

/-- A search by eosio number that gets past the start of the trimmed log, and one
that does not. -/
theorem lowerBoundByEosioNum (h : TrimOf whole log pre) (hsorted : EosioSorted whole.blocks)
    (num : UInt32) :
    (0 < log.lowerBoundByEosioNum num →
        whole.lowerBoundByEosioNum num = pre.length + log.lowerBoundByEosioNum num) ∧
      (log.lowerBoundByEosioNum num = 0 → whole.lowerBoundByEosioNum num ≤ pre.length) := by
  rw [BlockLog.lowerBoundByEosioNum, BlockLog.lowerBoundByEosioNum, h.blocks]
  rw [h.blocks] at hsorted
  refine lowerBound_append (hsorted.imp fun {a b} hab hb => ?_)
  exact decide_eq_true (UInt32.lt_trans hab (of_decide_eq_true hb))

theorem before (h : TrimOf whole log pre) {it : Nat} (hpos : 0 < it) :
    whole.before (pre.length + it) = log.before it := by
  rw [BlockLog.before, BlockLog.before, if_neg (by omega), if_neg (by omega), h.blocks,
    show pre.length + it - 1 = pre.length + (it - 1) by omega,
    List.getElem?_append_right (Nat.le_add_right _ _), Nat.add_sub_cancel_left]

theorem getElem? (h : TrimOf whole log pre) (it : Nat) :
    whole.blocks[pre.length + it]? = log.blocks[it]? := by
  rw [h.blocks, List.getElem?_append_right (Nat.le_add_right _ _), Nat.add_sub_cancel_left]

/-- The trimmed blocks and the first one that is left are final. -/
theorem num_le (h : TrimOf whole log pre) (hwf : whole.WellFormed) (hne : pre ≠ []) {i : Nat}
    (hi : i < whole.blocks.length) (hle : i ≤ pre.length) :
    (whole.blocks[i]).num ≤ whole.irreversible := by
  obtain ⟨first, hfirst, hnum⟩ := h.start.resolve_left hne
  rw [List.head?_eq_getElem?] at hfirst
  have hsome : whole.blocks[pre.length]? = some first := by
    have hget := h.getElem? 0
    rw [Nat.add_zero] at hget
    exact hget.trans hfirst
  obtain ⟨hlen, rfl⟩ := List.getElem?_eq_some_iff.mp hsome
  rw [UInt32.le_iff_toNat_le, ← h.irreversible, num_getElem hwf.linked hi]
  rw [UInt32.le_iff_toNat_le, num_getElem hwf.linked hlen] at hnum
  omega

/-! ## Adding -/

/-- A search for a number above `irreversible` gets past the start of a log that is
trimmed. -/
theorem lowerBoundByNum_pos (h : TrimOf whole log pre) (hwf : whole.WellFormed) (hne : pre ≠ [])
    {num : UInt32} (hnum : whole.irreversible < num) : 0 < log.lowerBoundByNum num := by
  obtain ⟨first, hfirst, hle⟩ := h.start.resolve_left hne
  rw [List.head?_eq_getElem?] at hfirst
  obtain ⟨h0, rfl⟩ := List.getElem?_eq_some_iff.mp hfirst
  by_contra hzero
  have hge := (lowerBoundByNum_spec (h.linked hwf) num).2.2 0 h0 (by omega)
  exact absurd hnum (UInt32.not_lt.mpr (h.irreversible ▸ UInt32.le_trans hge hle))

/-- The head of what is kept of the trimmed log. -/
theorem start_take (h : TrimOf whole log pre) {it : Nat} (hpos : 0 < it) (rest : List BlockWithId) :
    pre = [] ∨ ∃ block ∈ (log.blocks.take it ++ rest).head?, block.num ≤ log.irreversible := by
  refine h.start.imp_right fun ⟨first, hfirst, hle⟩ => ⟨first, ?_, hle⟩
  have hne : log.blocks.take it ≠ [] := by
    rw [ne_eq, List.take_eq_nil_iff]
    rintro (h0 | h0)
    · omega
    · simp [h0] at hfirst
  rw [List.head?_append_of_ne_nil _ hne, List.head?_take, if_neg (by omega)]
  exact hfirst

theorem take_blocks (h : TrimOf whole log pre) (it : Nat) :
    whole.blocks.take (pre.length + it) = pre ++ log.blocks.take it := by
  rw [h.blocks, List.take_append, List.take_of_length_le (Nat.le_add_right _ _),
    Nat.add_sub_cancel_left]

/-- **Adding** a block does the same to both logs. -/
theorem addBlock (h : TrimOf whole log pre) (hwf : whole.WellFormed) (hwf' : log.WellFormed)
    (block : BlockWithId) :
    ((whole.addBlock block).1 = .appended ↔ (log.addBlock block).1 = .appended) ∧
      TrimOf (whole.addBlock block).2.2 (log.addBlock block).2.2 pre := by
  by_cases hne : pre = []
  · subst hne
    rw [h.eq_of_nil]
    exact ⟨Iff.rfl, rfl, rfl, .inl rfl⟩
  by_cases hnum : block.num ≤ whole.irreversible
  · obtain ⟨hwhole, heq⟩ := refused_of_num_le hwf hnum
    obtain ⟨hlog, heq'⟩ := refused_of_num_le hwf' (h.irreversible ▸ hnum)
    rw [heq, heq']
    exact ⟨iff_of_false hwhole hlog, h⟩
  have hpos := h.lowerBoundByNum_pos hwf hne (UInt32.not_le.mp hnum)
  have hle := lowerBoundByNum_le (h.linked hwf) block.num
  rw [BlockLog.addBlock, BlockLog.addBlock, h.lowerBoundByNum hwf hpos, h.getElem?,
    h.before hpos, ← h.irreversible]
  generalize log.lowerBoundByNum block.num = it at hpos hle
  have hlog : ¬ (it = 0 ∧ block.num ≠ 1) := by omega
  have hwhole : ¬ (pre.length + it = 0 ∧ block.num ≠ 1) := by omega
  rw [if_neg hlog, if_neg hwhole]
  split_ifs
  · exact ⟨Iff.rfl, h⟩
  · exact ⟨Iff.rfl, h⟩
  · exact ⟨Iff.rfl, h⟩
  · refine ⟨Iff.rfl, ?_, rfl, h.start_take hpos [block]⟩
    dsimp only
    rw [h.take_blocks, List.append_assoc]

/-! ## Raising `irreversible` -/

theorem max_eq_left {a b : UInt32} (h : b ≤ a) : max a b = a := by
  rw [UInt32.le_iff_toNat_le] at h
  refine UInt32.toNat_inj.mp ?_
  rw [toNat_max]
  omega

/-- **Raising `irreversible`** to the last block at or below an eosio number. -/
theorem raiseIrreversible (h : TrimOf whole log pre) (hwf : whole.WellFormed)
    (hsorted : EosioSorted whole.blocks) (num : UInt32) :
    TrimOf (whole.raiseIrreversible (whole.blockBeforeEosioNum num))
      (log.raiseIrreversible (log.blockBeforeEosioNum num)) pre := by
  have hirr : (log.raiseIrreversible (log.blockBeforeEosioNum num)).irreversible =
      (whole.raiseIrreversible (whole.blockBeforeEosioNum num)).irreversible := by
    obtain ⟨hmove, hstay⟩ := h.lowerBoundByEosioNum hsorted num
    rw [blockBeforeEosioNum, blockBeforeEosioNum]
    rcases Nat.eq_zero_or_pos (log.lowerBoundByEosioNum num) with h0 | hpos
    · by_cases hne : pre = []
      · subst hne
        rw [h.eq_of_nil]
      · have hlog : log.before (log.lowerBoundByEosioNum num) = none := by
          rw [h0]
          rfl
        rw [hlog]
        cases hwhole : whole.before (whole.lowerBoundByEosioNum num) with
        | none => exact h.irreversible
        | some block =>
          obtain ⟨i, hi, hit, rfl⟩ := before_eq_some hwhole
          have hle := h.num_le hwf hne hi (by have := hstay h0; omega)
          exact h.irreversible.trans (max_eq_left hle).symm
    · rw [hmove hpos, h.before hpos]
      cases log.before (log.lowerBoundByEosioNum num) with
      | none => exact h.irreversible
      | some block => exact congrArg (fun irr => max irr block.num) h.irreversible
  refine ⟨?_, hirr, h.start.imp_right fun ⟨first, hfirst, hnum⟩ => ⟨first, ?_, ?_⟩⟩
  · rw [raiseIrreversible_blocks, raiseIrreversible_blocks]
    exact h.blocks
  · rw [raiseIrreversible_blocks]
    exact hfirst
  · exact UInt32.le_trans hnum (irreversible_le_raiseIrreversible _ _)

/-- Adding a block and raising `irreversible`. -/
theorem addBlockIrreversible (h : TrimOf whole log pre) (hwf : whole.WellFormed)
    (hwf' : log.WellFormed) {block : BlockWithId}
    (hsorted : EosioSorted (whole.addBlock block).2.2.blocks) (eosioIrreversible : UInt32) :
    TrimOf (whole.addBlockIrreversible block eosioIrreversible).2.2
      (log.addBlockIrreversible block eosioIrreversible).2.2 pre := by
  obtain ⟨hst, htrim⟩ := h.addBlock hwf hwf' block
  have hwf₁ := hwf.addBlock block
  rw [BlockLog.addBlockIrreversible, BlockLog.addBlockIrreversible]
  rcases hwhole : whole.addBlock block with ⟨st, numForked, whole₁⟩
  rcases hlog : log.addBlock block with ⟨st', numForked', log₁⟩
  rw [hwhole, hlog] at hst htrim
  rw [hwhole] at hsorted hwf₁
  by_cases hap : st = .appended
  · obtain rfl := hap
    obtain rfl : st' = .appended := hst.mp rfl
    exact htrim.raiseIrreversible hwf₁ hsorted _
  · have hap' : st' ≠ .appended := fun heq => hap (hst.mpr heq)
    cases st <;> cases st' <;> first | exact absurd rfl hap | exact absurd rfl hap' | exact htrim

/-! ## Undoing -/

/-- **Undoing** the blocks from a number on. -/
theorem undo (h : TrimOf whole log pre) (hwf : whole.WellFormed) (num : UInt32) :
    (whole.undo num).1 = (log.undo num).1 ∧ TrimOf (whole.undo num).2 (log.undo num).2 pre := by
  by_cases hne : pre = []
  · subst hne
    rw [h.eq_of_nil]
    exact ⟨rfl, rfl, rfl, .inl rfl⟩
  rw [BlockLog.undo, BlockLog.undo, h.irreversible]
  split
  · exact ⟨rfl, h⟩
  · next hnum =>
    have hpos := h.lowerBoundByNum_pos hwf hne (UInt32.not_le.mp hnum)
    simp only [h.lowerBoundByNum hwf hpos, h.getElem?]
    split
    · refine ⟨?_, h.take_blocks _, rfl, ?_⟩
      · dsimp only
        rw [h.blocks, List.length_append]
        omega
      · have hstart := h.start_take hpos []
        rwa [List.append_nil, h.irreversible] at hstart
    · exact ⟨rfl, h⟩

/-- **Undoing** the blocks from one with an eosio number on. -/
theorem undoEosioNum (h : TrimOf whole log pre) (hwf : whole.WellFormed)
    (hsorted : EosioSorted whole.blocks) (num : UInt32) :
    (whole.undoEosioNum num).1 = (log.undoEosioNum num).1 ∧
      TrimOf (whole.undoEosioNum num).2 (log.undoEosioNum num).2 pre := by
  obtain ⟨hmove, hstay⟩ := h.lowerBoundByEosioNum hsorted num
  rcases Nat.eq_zero_or_pos (log.lowerBoundByEosioNum num) with h0 | hpos
  · by_cases hne : pre = []
    · subst hne
      rw [h.eq_of_nil]
      exact ⟨rfl, rfl, rfl, .inl rfl⟩
    -- what either search finds is final
    have hundo : ∀ (l : BlockLog), l.irreversible = whole.irreversible →
        (∀ b ∈ l.blockByEosioNum num, b.num ≤ whole.irreversible) → l.undoEosioNum num = (0, l) := by
      intro l hirr hfinal
      rw [BlockLog.undoEosioNum]
      cases hb : l.blockByEosioNum num with
      | none => rfl
      | some b => exact if_pos (hirr ▸ hfinal b hb)
    have hlen : ∀ i b, whole.blocks[i]? = some b → i ≤ pre.length → b.num ≤ whole.irreversible := by
      intro i b hb hle
      obtain ⟨hi, rfl⟩ := List.getElem?_eq_some_iff.mp hb
      exact h.num_le hwf hne hi hle
    rw [hundo whole rfl fun b hb => ?_, hundo log h.irreversible fun b hb => ?_]
    · exact ⟨rfl, h⟩
    · rw [blockByEosioNum, h0] at hb
      refine hlen pre.length b ?_ (Nat.le_refl _)
      have hget := h.getElem? 0
      rw [Nat.add_zero] at hget
      exact hget.trans (Option.mem_filter_iff.mp hb).1
    · rw [blockByEosioNum] at hb
      exact hlen _ b (Option.mem_filter_iff.mp hb).1 (hstay h0)
  · have hfound : whole.blockByEosioNum num = log.blockByEosioNum num := by
      rw [blockByEosioNum, blockByEosioNum, hmove hpos, h.getElem?]
    rw [BlockLog.undoEosioNum, BlockLog.undoEosioNum, hfound]
    cases log.blockByEosioNum num with
    | none => exact ⟨rfl, h⟩
    | some b => exact h.undo hwf b.num

/-! ## Trimming -/

/-- Nothing is missing while `irreversible` is 0. -/
theorem eq_nil_of_irreversible (h : TrimOf whole log pre) (hwf : whole.WellFormed)
    (h0 : whole.irreversible = 0) : pre = [] := by
  by_contra hne
  obtain ⟨first, hfirst, -⟩ := h.start.resolve_left hne
  have hlen : pre.length < whole.blocks.length := by
    rw [h.blocks, List.length_append]
    have := List.length_pos_of_mem (List.mem_of_mem_head? hfirst)
    omega
  have hle := h.num_le hwf hne hlen (Nat.le_refl _)
  rw [h0, UInt32.le_iff_toNat_le, num_getElem hwf.linked hlen] at hle
  exact hne (List.eq_nil_of_length_eq_zero (Nat.le_zero.mp (Nat.le_trans (Nat.le_add_left _ _) hle)))

/-- **Trimming** either log leaves the same one. -/
theorem trim (h : TrimOf whole log pre) (hwf : whole.WellFormed) (hwf' : log.WellFormed) :
    log.trim = whole.trim := by
  rcases trim_cases hwf' with ⟨h0, -⟩ | ⟨k, hk, hnum, heq⟩
  · obtain rfl := h.eq_nil_of_irreversible hwf (h.irreversible ▸ h0)
    rw [h.eq_of_nil]
  · have hlen : pre.length + k < whole.blocks.length := by
      rw [h.blocks, List.length_append]
      omega
    have hget : whole.blocks[pre.length + k] = log.blocks[k] := by
      have hsome := h.getElem? k
      rwa [List.getElem?_eq_getElem hlen, List.getElem?_eq_getElem hk, Option.some_inj] at hsome
    have hit : whole.lowerBoundByNum whole.irreversible = pre.length + k := by
      rw [← h.irreversible, ← hnum, ← hget, lowerBoundByNum_getElem hwf.linked hlen]
    rw [heq, BlockLog.trim, hit, h.blocks, List.drop_append,
      List.drop_eq_nil_of_le (Nat.le_add_right pre.length k), List.nil_append,
      Nat.add_sub_cancel_left, h.irreversible]

/-- What is missing from the trimmed log. -/
theorem trimmedBy (h : TrimOf whole log pre) (hwf : whole.WellFormed) (hwf' : log.WellFormed) :
    pre ++ log.trimmedBy = whole.trimmedBy := by
  have happend : pre ++ log.trimmedBy ++ whole.trim.blocks =
      whole.trimmedBy ++ whole.trim.blocks := by
    rw [trimmedBy_append_trim, List.append_assoc, ← h.trim hwf hwf', trimmedBy_append_trim,
      h.blocks]
  exact List.append_cancel_right happend

/-- The trimmed log of a whole one. -/
theorem of_trim (hwf : whole.WellFormed) : TrimOf whole whole.trim whole.trimmedBy := by
  refine ⟨(trimmedBy_append_trim whole).symm, rfl, ?_⟩
  rcases trim_cases hwf with ⟨h0, -⟩ | ⟨k, hk, hnum, heq⟩
  · refine .inl ?_
    rw [BlockLog.trimmedBy, h0, lowerBoundByNum_zero, List.take_zero]
  · refine .inr ⟨whole.blocks[k], ?_, ?_⟩
    · rw [heq, List.head?_drop, List.getElem?_eq_getElem hk, Option.mem_some]
    · exact UInt32.le_of_eq hnum

end TrimOf

end Microchain.Subchain
