import Microchain.Box.Twin

/-!
# The branch in the storage

`Storage.Holds` says which eosio blocks the storage holds and up to which eosio number
they may have become final. A block with a larger number than all of them goes on top
of the log, and undoing the number of the last one takes it off.

- `Holds.push`: a block that extends the branch.
- `Holds.undo`: the last block of the branch, unless it may be final.
- `Holds.undo_absent`: a number above the branch.
-/

namespace Microchain.Box

open Eosio Subchain Starter BlockLog Lib

/-! ## The log -/

section Log

variable {log : BlockLog} {eosioBlock : EosioBlock}

/-- Eosio numbers that grow from 1 on leave room for one more block number. -/
theorem length_lt_of_sorted {blocks : List BlockWithId} (hsorted : EosioSorted blocks)
    (hpos : ∀ block ∈ blocks, 0 < getEosioNum block) {num : UInt32}
    (hlt : ∀ block ∈ blocks, getEosioNum block < num) (hnum : 0 < num) :
    blocks.length < num.toNat := by
  induction blocks using List.reverseRecOn generalizing num with
  | nil => exact UInt32.lt_iff_toNat_lt.mp hnum
  | append_singleton blocks last ih =>
    obtain ⟨hsorted, -, hcross⟩ := List.pairwise_append.mp hsorted
    have hlast := hlt last (by simp)
    have hrest := ih hsorted (fun block hblock => hpos block (by simp [hblock]))
      (fun block hblock => hcross block hblock last (by simp)) (hpos last (by simp))
    rw [UInt32.lt_iff_toNat_lt] at hlast
    rw [List.length_append, List.length_singleton]
    omega

/-- A number above the log is searched to the end. -/
theorem lowerBoundByEosioNum_of_lt {num : UInt32}
    (hlt : ∀ block ∈ log.blocks, getEosioNum block < num) :
    log.lowerBoundByEosioNum num = log.blocks.length := by
  refine lowerBound_eq_of_partitioned ?_ (Nat.le_refl _) (fun i hi _ => ?_)
    fun i hi hle => absurd hi (Nat.not_lt.mpr hle)
  · exact List.pairwise_of_forall_mem_list fun a ha b _ _ => decide_eq_true (hlt a ha)
  · exact decide_eq_true (hlt _ (List.getElem_mem hi))

/-- **A block above the log** gets the next number and is appended. -/
theorem addBlock_nextBlock (hwf : log.WellFormed) (hnum : NumberedFromOne log)
    (hlt : ∀ block ∈ log.blocks, getEosioNum block < eosioBlock.num)
    (hroom : log.blocks.length + 1 < UInt32.size) {bi : BlockWithId}
    (hbi : bi.toBlock = MicroChain.nextBlock log eosioBlock) :
    bi.num.toNat = log.blocks.length + 1 ∧
      log.addBlock bi = (.appended, 0, { log with blocks := log.blocks ++ [bi] }) := by
  have hbefore : log.blockBeforeEosioNum eosioBlock.num = log.before log.blocks.length := by
    rw [blockBeforeEosioNum, lowerBoundByEosioNum_of_lt hlt]
  -- what `nextBlock` takes from the block it is placed behind
  have hprev : bi.num.toNat = log.blocks.length + 1 ∧
      ∀ prev, log.before log.blocks.length = some prev →
        bi.previous = prev.id ∧ bi.num = prev.num + 1 := by
    rw [hbi, MicroChain.nextBlock, hbefore]
    split
    · next prev hprev =>
      obtain ⟨i, hi, hlen, rfl⟩ := before_eq_some hprev
      refine ⟨?_, fun prev' h => ?_⟩
      · dsimp only
        rw [UInt32.toNat_add, hnum i hi, hlen]
        exact Nat.mod_eq_of_lt (by rw [hlen] at hroom; exact hroom)
      · obtain rfl : log.blocks[i] = prev' := Option.some.inj (hprev.symm.trans h)
        exact ⟨rfl, rfl⟩
    · next hnone =>
      refine ⟨?_, fun prev h => by rw [hnone] at h; cases h⟩
      cases hlen : log.blocks.length with
      | zero => rfl
      | succ i =>
        rw [hlen, before_succ, List.getElem?_eq_getElem (by omega)] at hnone
        cases hnone
  obtain ⟨hnext, hprev⟩ := hprev
  refine ⟨hnext, ?_⟩
  have hit : log.lowerBoundByNum bi.num = log.blocks.length := by
    obtain ⟨hle, -, hhigh⟩ := lowerBoundByNum_spec hwf.linked bi.num
    by_contra hne
    have hin : log.lowerBoundByNum bi.num < log.blocks.length := by omega
    have := hhigh _ hin (Nat.le_refl _)
    rw [UInt32.le_iff_toNat_le, hnum _ hin] at this
    omega
  have hend : log.blocks[log.blocks.length]? = none := List.getElem?_eq_none (Nat.le_refl _)
  -- none of the four rejection tests applies at the end of the log
  have hone : ¬ (log.blocks.length = 0 ∧ bi.num ≠ 1) := by
    rintro ⟨hlen, hne⟩
    refine hne (UInt32.toNat_inj.mp ?_)
    rw [hnext, hlen]
    rfl
  have hlink : ¬ ((log.before log.blocks.length).any
      (fun b => bi.previous ≠ b.id ∨ bi.num ≠ b.num + 1)) = true := by
    intro hany
    rw [Option.any_eq_true] at hany
    obtain ⟨prev, hsome, hne⟩ := hany
    obtain ⟨hid, hnum⟩ := hprev prev hsome
    simp [hid, hnum] at hne
  rw [BlockLog.addBlock, hit]
  simp only [hend, Option.any_none, Bool.false_eq_true, if_false, if_neg hone, if_neg hlink,
    Nat.sub_self, List.take_length]

/-- What raising `irreversible` by an eosio number can make final. -/
theorem final_raise (hlinked : log.blocks.IsChain Linked) (hsorted : EosioSorted log.blocks)
    {irreversible eosioIrreversible : UInt32} (hle : eosioIrreversible ≤ irreversible)
    (hfinal : ∀ block ∈ log.blocks, block.num ≤ log.irreversible →
      getEosioNum block ≤ irreversible) :
    ∀ block ∈ log.blocks,
      block.num ≤ (log.raiseIrreversible
        (log.blockBeforeEosioNum (eosioIrreversible + 1))).irreversible →
      getEosioNum block ≤ irreversible := by
  intro block hblock
  cases hbefore : log.blockBeforeEosioNum (eosioIrreversible + 1) with
  | none => exact hfinal block hblock
  | some last =>
    rcases raiseIrreversible_some log last with hirr | hirr
    · rw [hirr]
      exact hfinal block hblock
    rw [hirr]
    intro hnum
    -- `last` is at or below the number, and `block` is not after `last`
    obtain ⟨j, hj, hit, rfl⟩ := before_eq_some hbefore
    have hpart : Partitioned (fun b => decide (getEosioNum b < eosioIrreversible + 1)) log.blocks :=
      hsorted.imp fun {a b} hab hb => decide_eq_true (UInt32.lt_trans hab (of_decide_eq_true hb))
    have hlast := of_decide_eq_true ((lowerBound_spec hpart).1 j hj
      (show j < log.lowerBoundByEosioNum (eosioIrreversible + 1) by omega))
    have hlast' : getEosioNum log.blocks[j] ≤ eosioIrreversible := by
      rw [UInt32.lt_iff_toNat_lt, UInt32.toNat_add] at hlast
      rw [UInt32.le_iff_toNat_le]
      have h1 : (1 : UInt32).toNat = 1 := rfl
      have := eosioIrreversible.toNat_lt
      omega
    obtain ⟨i, hi, rfl⟩ := List.mem_iff_getElem.mp hblock
    refine UInt32.le_trans ?_ (UInt32.le_trans hlast' hle)
    rcases Nat.lt_trichotomy i j with hlt | heq | hgt
    · exact UInt32.le_of_lt (List.pairwise_iff_getElem.mp hsorted i j hi hj hlt)
    · subst heq
      exact UInt32.le_refl _
    · exact absurd (num_lt_of_lt hlinked hi hgt) (UInt32.not_lt.mpr hnum)

/-- Undoing the last block, which is above `irreversible`. -/
theorem undoEosioNum_last (hwf : log.WellFormed) (hsorted : EosioSorted log.blocks)
    {rest : List BlockWithId} {last : BlockWithId} (hblocks : log.blocks = rest ++ [last])
    (hirr : log.irreversible < last.num) :
    (log.undoEosioNum (getEosioNum last)).2 = { log with blocks := rest } := by
  have hi : rest.length < log.blocks.length := by simp [hblocks]
  have hget : log.blocks[rest.length] = last := by simp [hblocks]
  have hit : log.lowerBoundByEosioNum (getEosioNum last) = rest.length := by
    refine lowerBound_eq_of_partitioned ?_ (Nat.le_of_lt hi) (fun i hi' hlt => ?_)
      fun i hi' hle => ?_
    · exact hsorted.imp fun {a b} hab hb =>
        decide_eq_true (UInt32.lt_trans hab (of_decide_eq_true hb))
    · have := List.pairwise_iff_getElem.mp hsorted i rest.length hi' hi hlt
      rw [hget] at this
      exact decide_eq_true this
    · have hlen : log.blocks.length = rest.length + 1 := by simp [hblocks]
      obtain rfl : i = rest.length := by omega
      rw [hget, decide_eq_true_eq]
      exact UInt32.lt_irrefl _
  have hfound : log.blockByEosioNum (getEosioNum last) = some last := by
    rw [blockByEosioNum, hit, List.getElem?_eq_getElem hi, hget]
    simp
  have hnum : log.lowerBoundByNum last.num = rest.length := by
    rw [← hget]
    exact lowerBoundByNum_getElem hwf.linked hi
  rw [BlockLog.undoEosioNum, hfound]
  dsimp only
  rw [BlockLog.undo, if_neg (UInt32.not_le.mpr hirr), hnum]
  dsimp only
  rw [List.getElem?_eq_getElem hi, hget]
  simp [hblocks]

/-- Undoing a number above the log. -/
theorem undoEosioNum_absent {num : UInt32}
    (hlt : ∀ block ∈ log.blocks, getEosioNum block < num) : (log.undoEosioNum num).2 = log := by
  rw [BlockLog.undoEosioNum, blockByEosioNum, lowerBoundByEosioNum_of_lt hlt,
    List.getElem?_eq_none (Nat.le_refl _)]
  rfl

end Log

/-! ## One instance -/

section Instance

variable {account : Name} {m : MicroChain} {eosioBlock : EosioBlock}

/-- **An instance takes a block above its log** when the actions of the block decode. -/
theorem addEosioBlock_above (h : ChainInv account [] m)
    (hlt : ∀ block ∈ m.blockLog.blocks, getEosioNum block < eosioBlock.num)
    (hroom : m.blockLog.blocks.length + 1 < UInt32.size) (hdecodes : Decodes account eosioBlock)
    (sha256 : Bytes → Checksum256) (eosioIrreversible : UInt32) :
    ∃ bi : BlockWithId, bi.num.toNat = m.blockLog.blocks.length + 1 ∧
      bi.eosioBlock = eosioBlock ∧
      (m.addEosioBlock sha256 eosioBlock eosioIrreversible).1 = .ok true ∧
      (m.addEosioBlock sha256 eosioBlock eosioIrreversible).2.blockLog =
        MicroChain.addedLog { m.blockLog with blocks := m.blockLog.blocks ++ [bi] }
          eosioIrreversible := by
  obtain ⟨bi, hbi⟩ : ∃ bi, MicroChain.withId sha256 (MicroChain.nextBlock m.blockLog eosioBlock) =
    bi := ⟨_, rfl⟩
  obtain ⟨hnum, hadd⟩ := addBlock_nextBlock h.log (numberedFromOne h) hlt hroom
    (show bi.toBlock = MicroChain.nextBlock m.blockLog eosioBlock by rw [← hbi]; rfl)
  have heosio : bi.eosioBlock = eosioBlock := by
    rw [← hbi]
    exact nextBlock_eosioBlock _ _
  obtain ⟨result, hr⟩ : ∃ result, m.addEosioBlock sha256 eosioBlock eosioIrreversible =
      ({ m with result } : MicroChain).addBlockWithId bi eosioIrreversible :=
    ⟨_, by rw [← hbi]; rfl⟩
  refine ⟨bi, hnum, heosio, ?_, ?_⟩
  · rw [hr]
    rcases (h.setResult result).addBlockWithId bi eosioIrreversible with
      ⟨hne, -⟩ | ⟨-, -, hok, -⟩ | ⟨-, hnot, -⟩
    · exact absurd (by rw [show ({ m with result } : MicroChain).blockLog = m.blockLog from rfl, hadd])
        hne
    · exact hok
    · exact absurd (heosio ▸ hdecodes) hnot
  · rw [hr, MicroChain.addBlockWithId_blockLog, BlockLog.addBlockIrreversible, hadd]
    rfl

/-- `Subchain.pushJsonBlock` of a block that is added. -/
theorem pushJsonBlock_added {sha256 : Bytes → Checksum256} {eosioIrreversible : UInt32}
    (hadded : (m.addEosioBlock sha256 eosioBlock eosioIrreversible).1 = .ok true) :
    Box.pushJsonBlock sha256 m (.ok eosioBlock) eosioIrreversible =
      .ok (none, (m.addEosioBlock sha256 eosioBlock eosioIrreversible).2) := by
  have hexec : (Call.addEosioBlockJson (.ok eosioBlock) eosioIrreversible).exec sha256 m =
      (.ok true, (m.addEosioBlock sha256 eosioBlock eosioIrreversible).2) := Prod.ext hadded rfl
  rw [Box.pushJsonBlock, hexec]
  rfl

end Instance

/-! ## The storage -/

namespace Storage

variable {account : Name} {branch : List EosioBlock} {irreversible : UInt32} {s : Storage}

/-- The storage holds the eosio blocks of `branch`, and those that are final have eosio
numbers up to `irreversible`. -/
def Holds (account : Name) (branch : List EosioBlock) (irreversible : UInt32) (s : Storage) :
    Prop :=
  ∃ b t, s.blocksWasm = some b ∧ s.stateWasm = some t ∧ Twin account b t ∧
    b.blockLog.blocks.map (·.eosioBlock) = branch ∧
    ∀ block ∈ b.blockLog.blocks, block.num ≤ b.blockLog.irreversible →
      getEosioNum block ≤ irreversible

theorem holds_instantiate (account : Name) : (instantiate account).Holds account [] 0 := by
  have h : ChainInv account [] { starterAccount := account } := ChainRun.inv_start account
  exact ⟨_, _, rfl, rfl, ⟨h, h, rfl, .nil⟩, rfl, fun block hblock => by cases hblock⟩

theorem Holds.mono (h : s.Holds account branch irreversible) {irreversible' : UInt32}
    (hle : irreversible ≤ irreversible') : s.Holds account branch irreversible' := by
  obtain ⟨b, t, hb, ht, htwin, hblocks, hfinal⟩ := h
  exact ⟨b, t, hb, ht, htwin, hblocks, fun block hblock hnum =>
    UInt32.le_trans (hfinal block hblock hnum) hle⟩

/-- A bound on the numbers of the branch is one on the numbers of the log. -/
theorem getEosioNum_lt_of_branch {blocks : List BlockWithId} {num : UInt32}
    (hblocks : blocks.map (·.eosioBlock) = branch) (hlt : ∀ block ∈ branch, block.num < num) :
    ∀ block ∈ blocks, getEosioNum block < num := by
  intro block hblock
  exact hlt _ (hblocks ▸ List.mem_map_of_mem hblock)

/-- What a protected method of two runs that return leaves. -/
theorem protect_ok {α : Type} {b t b' t' : MicroChain} {a : α} (hb : s.blocksWasm = some b)
    (ht : s.stateWasm = some t)
    (f : MicroChain → MicroChain → Except Failure (α × MicroChain × MicroChain))
    (hf : f b t = .ok (a, b', t')) :
    ∃ s', thenChanged (s.protect f) = (.ok a, s') ∧ s'.blocksWasm = some b' ∧
      s'.stateWasm = some t' := by
  rw [protect, hb, ht]
  dsimp only
  rw [hf]
  refine ⟨_, rfl, ?_, ?_⟩
  · exact (changed_wasm _).1
  · exact (changed_wasm _).2

/-- **Pushing a block that extends the branch.** -/
theorem Holds.push (h : s.Holds account branch irreversible) {block : EosioBlock}
    (hlt : ∀ b ∈ branch, b.num < block.num) (hpos : ∀ b ∈ branch, 0 < b.num)
    (hnum : 0 < block.num) (hdecodes : Decodes account block) {eosioIrreversible : UInt32}
    (hle : eosioIrreversible ≤ irreversible) (sha256 : Bytes → Checksum256) :
    ∃ s', s.pushJsonBlock sha256 (.ok block) eosioIrreversible = (.ok none, s') ∧
      s'.Holds account (branch ++ [block]) irreversible := by
  obtain ⟨b, t, hb, ht, htwin, hblocks, hfinal⟩ := h
  have habove := getEosioNum_lt_of_branch hblocks hlt
  have hroom : b.blockLog.blocks.length + 1 < UInt32.size := by
    have hlen := length_lt_of_sorted htwin.sorted
      (fun block hblock => hpos _ (hblocks ▸ List.mem_map_of_mem hblock)) habove hnum
    exact Nat.lt_of_le_of_lt hlen block.num.toNat_lt
  obtain ⟨bi, hbinum, heosio, hadded, hlog⟩ :=
    addEosioBlock_above htwin.blocks habove hroom hdecodes sha256 eosioIrreversible
  obtain ⟨halike, htwin'⟩ := htwin.addEosioBlock sha256 block eosioIrreversible
  have htwin' := htwin' (by rw [hadded]; rfl)
  have hadded' : (t.addEosioBlock sha256 block eosioIrreversible).1 = .ok true := by
    rw [hadded] at halike
    cases hr : (t.addEosioBlock sha256 block eosioIrreversible).1 with
    | error e =>
      rw [hr] at halike
      cases halike
    | ok added =>
      rw [hr] at halike
      rw [Option.some.inj halike]
  obtain ⟨f, hf, hpushed⟩ : ∃ f,
      s.pushJsonBlock sha256 (.ok block) eosioIrreversible = thenChanged (s.protect f) ∧
      f b t = .ok (none, (b.addEosioBlock sha256 block eosioIrreversible).2,
        (t.addEosioBlock sha256 block eosioIrreversible).2.trimBlocks) := by
    refine ⟨_, rfl, ?_⟩
    dsimp only
    rw [pushJsonBlock_added hadded, pushJsonBlock_added hadded']
    rfl
  obtain ⟨s', hpush, hb', ht'⟩ := protect_ok hb ht f hpushed
  refine ⟨s', hf.trans hpush, _, _, hb', ht', htwin', ?_, ?_⟩
  · rw [hlog, MicroChain.addedLog, raiseIrreversible_blocks, List.map_append, hblocks,
      List.map_singleton, heosio]
  · -- the new block is above `irreversible` until it is raised
    have hlinked := htwin'.blocks.log.linked
    have hsorted := htwin'.sorted
    rw [hlog, MicroChain.addedLog, raiseIrreversible_blocks] at hlinked hsorted
    rw [hlog, MicroChain.addedLog, raiseIrreversible_blocks]
    refine final_raise hlinked hsorted hle fun b' hb' hfin => ?_
    rcases List.mem_append.mp hb' with hold | hnew
    · exact hfinal b' hold hfin
    · obtain rfl := List.mem_singleton.mp hnew
      have := htwin.blocks.irreversible_le
      rw [UInt32.le_iff_toNat_le, hbinum] at hfin
      rw [List.length_nil, Nat.zero_add] at this
      exact absurd (Nat.le_trans hfin this) (Nat.not_succ_le_self _)

/-- **Undoing the last block** of the branch, when it is not final. -/
theorem Holds.undo {block : EosioBlock} (h : s.Holds account (branch ++ [block]) irreversible)
    (hirr : irreversible < block.num) :
    ∃ s', s.undoEosioNum block.num = (.ok (), s') ∧ s'.Holds account branch irreversible := by
  obtain ⟨b, t, hb, ht, htwin, hblocks, hfinal⟩ := h
  obtain ⟨rest, tail, hsplit, hrest, htail⟩ := List.map_eq_append_iff.mp hblocks
  obtain ⟨last, rfl, hlast⟩ := List.map_eq_singleton_iff.mp htail
  -- a final block would have a number up to `irreversible`
  have hnum : b.blockLog.irreversible < last.num := by
    by_contra hle
    have := hfinal last (by simp [hsplit]) (UInt32.not_lt.mp hle)
    rw [getEosioNum, hlast] at this
    exact absurd hirr (UInt32.not_lt.mpr this)
  obtain ⟨s', hundo, hb', ht'⟩ := protect_ok hb ht
    (fun blocksWasm stateWasm =>
      .ok ((), blocksWasm.undoEosioNum block.num, stateWasm.undoEosioNum block.num)) rfl
  have hlog : (b.undoEosioNum block.num).blockLog = { b.blockLog with blocks := rest } := by
    rw [MicroChain.undoEosioNum_blockLog, ← hlast]
    exact undoEosioNum_last htwin.blocks.log htwin.sorted hsplit hnum
  refine ⟨s', hundo, _, _, hb', ht', htwin.undoEosioNum block.num, ?_, ?_⟩
  · rw [hlog]
    exact hrest
  · rw [hlog]
    intro b' hb' hfin
    exact hfinal b' (hsplit ▸ List.mem_append_left _ hb') hfin

/-- Undoing a number above the branch. -/
theorem Holds.undo_absent (h : s.Holds account branch irreversible) {num : UInt32}
    (hlt : ∀ b ∈ branch, b.num < num) :
    ∃ s', s.undoEosioNum num = (.ok (), s') ∧ s'.Holds account branch irreversible := by
  obtain ⟨b, t, hb, ht, htwin, hblocks, hfinal⟩ := h
  obtain ⟨s', hundo, hb', ht'⟩ := protect_ok hb ht
    (fun blocksWasm stateWasm =>
      .ok ((), blocksWasm.undoEosioNum num, stateWasm.undoEosioNum num)) rfl
  have hlog : (b.undoEosioNum num).blockLog = b.blockLog := by
    rw [MicroChain.undoEosioNum_blockLog]
    exact undoEosioNum_absent (getEosioNum_lt_of_branch hblocks hlt)
  refine ⟨s', hundo, _, _, hb', ht', htwin.undoEosioNum num, ?_, ?_⟩
  · rw [hlog]
    exact hblocks
  · rw [hlog]
    exact hfinal

end Storage

end Microchain.Box
