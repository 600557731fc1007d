import Microchain.Feed.Order

/-!
# Feeding a block again

Nothing remembers the blocks that were fed. A block that comes again is built once more
from what the log offers, and what comes out is the block that is there: its id is a
hash of what it is built from (`Hashed`). Where the log is trimmed, what comes out may
be another block, but one whose number is final.

- `Behind.addBlock_again`: a block of the chain is refused.
- `step_hashed`: one call keeps the ids hashes.
- `run_redelivery`: **feeding blocks of the chain again changes nothing**, after any
  run of feeds.
-/

namespace Microchain.Feed

open Eosio Subchain Starter BlockLog Box Lib

/-! ## Blocks with hashes as ids -/

/-- The ids of a chain are the hashes of its blocks, and its first block follows none. -/
structure Hashed (sha256 : Bytes → Checksum256) (blocks : List BlockWithId) : Prop where
  id : ∀ b ∈ blocks, MicroChain.withId sha256 b.toBlock = b
  first : ∀ b ∈ blocks.head?, b.previous = {}

section Hashed

variable {sha256 : Bytes → Checksum256} {whole log : BlockLog} {pre : List BlockWithId}

theorem Hashed.of_isPrefix {l l' : List BlockWithId} (h : Hashed sha256 l) (hinit : l' <+: l) :
    Hashed sha256 l' where
  id b hb := h.id b (hinit.subset hb)
  first := Behind.first_of_isPrefix hinit h.first

/-- A block with number 1 is built without a predecessor. -/
theorem nextBlock_previous (hnum : NumberedFromOne whole) {eosioBlock : EosioBlock}
    (hone : (MicroChain.nextBlock whole eosioBlock).num = 1) :
    (MicroChain.nextBlock whole eosioBlock).previous = {} := by
  rw [MicroChain.nextBlock] at hone ⊢
  split at hone
  · next prev hprev =>
    obtain ⟨i, hi, -, rfl⟩ := before_eq_some hprev
    have hsucc := congrArg UInt32.toNat (show (whole.blocks[i]).num + 1 = 1 from hone)
    have hi' := hnum i hi
    have hlt := (whole.blocks[i]).num.toNat_lt
    rw [UInt32.toNat_add] at hsucc
    change ((whole.blocks[i]).num.toNat + 1) % 2 ^ 32 = 1 at hsucc
    omega
  · rfl

/-- **An eosio block** enters with its hash. -/
theorem Hashed.addEosioBlock (hbehind : Behind whole log pre)
    (h : Hashed sha256 (pre ++ log.blocks)) (eosioBlock : EosioBlock)
    (eosioIrreversible : UInt32) :
    Hashed sha256 (pre ++ (log.addBlockIrreversible (MicroChain.withId sha256
      (MicroChain.nextBlock log eosioBlock)) eosioIrreversible).2.2.blocks) := by
  rw [addBlockIrreversible_blocks]
  rcases addBlock_cases hbehind.logInv (MicroChain.withId sha256
    (MicroChain.nextBlock log eosioBlock)) with ⟨st, -, heq⟩ | ⟨it, -, hle, heq, hone, -⟩
  · rw [heq]
    exact h
  rw [heq]
  dsimp only
  have hkept : pre ++ log.blocks.take it <+: pre ++ log.blocks :=
    (List.prefix_append_right_inj pre).mpr (List.take_prefix it log.blocks)
  rw [← List.append_assoc]
  constructor
  · intro b hb
    rcases List.mem_append.mp hb with hb | hb
    · exact (h.of_isPrefix hkept).id b hb
    · obtain rfl := List.mem_singleton.mp hb
      rfl
  · intro b hb
    rcases Classical.em (pre ++ log.blocks.take it = []) with hnil | hne
    · -- the block is the first one, and nothing was trimmed
      rw [hnil] at hb
      obtain rfl := Option.some.inj hb
      obtain ⟨rfl, htake⟩ := List.append_eq_nil_iff.mp hnil
      obtain rfl := hbehind.trim.eq_of_nil
      refine nextBlock_previous hbehind.numbered (hone ?_)
      rcases List.take_eq_nil_iff.mp htake with h0 | h0
      · exact h0
      · rw [h0] at hle
        exact Nat.le_zero.mp hle
    · rw [List.head?_append_of_ne_nil _ hne] at hb
      exact (h.of_isPrefix hkept).first b hb

end Hashed

/-! ## A block of the chain again -/

section Again

variable {sha256 : Bytes → Checksum256} {whole log : BlockLog} {pre : List BlockWithId}

/-- The whole log builds the block that is there. -/
theorem nextBlock_again (hbehind : Behind whole log pre) (h : Hashed sha256 whole.blocks) {i : Nat}
    (hi : i < whole.blocks.length) :
    MicroChain.nextBlock whole (whole.blocks[i]).eosioBlock = (whole.blocks[i]).toBlock := by
  have hplace : whole.lowerBoundByEosioNum (whole.blocks[i]).eosioBlock.num = i :=
    lowerBoundByEosioNum_getElem hbehind.sorted hi
  rw [MicroChain.nextBlock, blockBeforeEosioNum, hplace]
  cases i with
  | zero =>
    have hhead : whole.blocks[0] ∈ whole.blocks.head? := by
      rw [List.head?_eq_getElem?, List.getElem?_eq_getElem hi]
      rfl
    rw [← h.first _ hhead, ← hbehind.first _ hhead]
    rfl
  | succ i =>
    rw [before_succ, List.getElem?_eq_getElem (Nat.lt_of_succ_lt hi)]
    obtain ⟨hnum, hprevious⟩ := hbehind.wholeInv.linked.getElem i hi
    have hnum' : (whole.blocks[i]).num + 1 = (whole.blocks[i + 1]).num := by
      have hlt := (whole.blocks[i + 1]).num.toNat_lt
      rw [← UInt32.toNat_inj, UInt32.toNat_add, hnum]
      refine Nat.mod_eq_of_lt ?_
      change (whole.blocks[i]).num.toNat + 1 < 2 ^ 32
      omega
    dsimp only
    rw [hnum', ← hprevious]

/-- A block that is in the log is a duplicate. -/
theorem addBlock_duplicate (hwf : log.WellFormed) {b : BlockWithId} (hb : b ∈ log.blocks) :
    log.addBlock b = (.duplicate, 0, log) := by
  obtain ⟨i, hi, rfl⟩ := List.mem_iff_getElem.mp hb
  rw [addBlock, lowerBoundByNum_getElem hwf.linked hi, List.getElem?_eq_getElem hi]
  simp

/-- **A block of the chain is refused** when its eosio block comes again, whether it
is in the log or trimmed away. -/
theorem Behind.addBlock_again (hbehind : Behind whole log pre) (h : Hashed sha256 whole.blocks)
    {b : BlockWithId} (hb : b ∈ whole.blocks) :
    (log.addBlock (MicroChain.withId sha256 (MicroChain.nextBlock log b.eosioBlock))).1 ≠ .appended ∧
      (log.addBlock (MicroChain.withId sha256 (MicroChain.nextBlock log b.eosioBlock))).2.2 =
        log := by
  obtain ⟨i, hi, rfl⟩ := List.mem_iff_getElem.mp hb
  rcases nextBlock_cases hbehind.trim hbehind.wholeInv hbehind.numbered hbehind.sorted
    (whole.blocks[i]).eosioBlock with heq | ⟨-, hle⟩
  · rw [heq, nextBlock_again hbehind h hi, h.id _ hb]
    rcases Nat.lt_or_ge i pre.length with hlt | hge
    · -- it is trimmed away: its number is final
      have hne : pre ≠ [] := List.ne_nil_of_length_pos (Nat.zero_lt_of_lt hlt)
      refine refused_of_num_le hbehind.logInv ?_
      rw [hbehind.trim.irreversible]
      exact hbehind.trim.num_le hbehind.wholeInv hne hi (Nat.le_of_lt hlt)
    · have hget := hbehind.trim.getElem? (i - pre.length)
      rw [Nat.add_sub_cancel' hge, List.getElem?_eq_getElem hi] at hget
      rw [addBlock_duplicate hbehind.logInv (List.mem_of_getElem? hget.symm)]
      exact ⟨by simp, rfl⟩
  · exact refused_of_num_le hbehind.logInv hle

end Again

/-! ## Runs -/

section Runs

open Starter.ChainRun

variable {sha256 : Bytes → Checksum256} {r : Starter.ChainRun}

/-- **One call** of a feed keeps the ids hashes. -/
theorem step_hashed {whole : BlockLog} (hbehind : Behind whole r.chain.blockLog r.trimmed)
    (h : Hashed sha256 r.blocks) {call : Call} (hfeed : IsFeed call) :
    Hashed sha256 (r.step sha256 call).2.blocks := by
  rcases step_cases sha256 r hfeed with ⟨htrimmed, hfed⟩ | ⟨htrimmed, hlog⟩
  · rw [ChainRun.blocks, htrimmed]
    generalize (r.step sha256 call).2.chain.blockLog = log at hfed ⊢
    cases hfed with
    | same => exact h
    | addEosioBlock _ irr => exact .addEosioBlock hbehind h _ irr
    | setIrreversible n =>
      rw [setIrreversible, raiseIrreversible_blocks]
      exact h
    | undo n =>
      exact h.of_isPrefix ((List.prefix_append_right_inj _).mpr (Behind.undo_isPrefix _ n))
    | undoEosioNum n =>
      refine h.of_isPrefix ((List.prefix_append_right_inj _).mpr ?_)
      rw [BlockLog.undoEosioNum]
      split
      · exact Behind.undo_isPrefix _ _
      · exact ⟨[], List.append_nil _⟩
  · rw [ChainRun.blocks, htrimmed, hlog, List.append_assoc, trimmedBy_append_trim]
    exact h

/-- **Whole runs** of feeds. -/
theorem run_hashed {whole : BlockLog} (hbehind : Behind whole r.chain.blockLog r.trimmed)
    (h : Hashed sha256 r.blocks) {calls : List Call} (hfeeds : ∀ call ∈ calls, IsFeed call) :
    Hashed sha256 (r.run sha256 calls).blocks := by
  induction calls generalizing r whole with
  | nil => exact h
  | cons call calls ih =>
    obtain ⟨hfeed, hfeeds⟩ := List.forall_mem_cons.mp hfeeds
    obtain ⟨whole', hbehind'⟩ : ∃ whole', Behind whole' (r.step sha256 call).2.chain.blockLog
      (r.step sha256 call).2.trimmed := step_behind hbehind hfeed
    exact ih hbehind' (step_hashed hbehind h hfeed) hfeeds

/-- What a call does that feeds an eosio block. -/
theorem Feeds.exec {eosioBlock : EosioBlock} {call : Call} (h : Feeds eosioBlock call)
    (sha256 : Bytes → Checksum256) (m : MicroChain) :
    ∃ irreversible, call.exec sha256 m = m.addEosioBlock sha256 eosioBlock irreversible := by
  cases h with
  | json irreversible => exact ⟨irreversible, rfl⟩
  | @ship result thisBlock transactions hthis htransactions hblock =>
    refine ⟨result.lastIrreversible.blockNum, ?_⟩
    show m.addShipResult sha256 (.getBlocksResult result) = _
    rw [MicroChain.addShipResult, hthis]
    dsimp only
    rw [htransactions]
    dsimp only
    rw [hblock]

/-- A block that the log refuses changes the result buffer only. -/
theorem addBlockWithId_of_refused {m : MicroChain} {bi : BlockWithId}
    (hrefused : (m.blockLog.addBlock bi).1 ≠ .appended ∧ (m.blockLog.addBlock bi).2.2 = m.blockLog)
    (eosioIrreversible : UInt32) : m.addBlockWithId bi eosioIrreversible = (.ok false, m) := by
  obtain ⟨hst, hlog⟩ := hrefused
  rw [MicroChain.addBlockWithId]
  split
  · next heq =>
    rw [heq] at hst
    exact absurd rfl hst
  · next heq =>
    rw [heq] at hlog
    obtain rfl : _ = m.blockLog := hlog
    rfl

/-- One block of the chain again. -/
theorem step_again {whole : BlockLog} (hbehind : Behind whole r.chain.blockLog r.trimmed)
    (h : Hashed sha256 r.blocks) {b : BlockWithId} (hb : b ∈ r.blocks) {call : Call}
    (hfeeds : Feeds b.eosioBlock call) :
    (r.step sha256 call).1 = .ok false ∧
      (r.step sha256 call).2.chain.blockLog = r.chain.blockLog ∧
      (r.step sha256 call).2.chain.db = r.chain.db ∧
      (r.step sha256 call).2.trimmed = r.trimmed := by
  have hwhole : whole.blocks = r.blocks := hbehind.trim.blocks
  rw [← hwhole] at h hb
  obtain ⟨irreversible, hexec⟩ := hfeeds.exec sha256 r.chain
  have hstep : r.step sha256 call = ((call.exec sha256 r.chain).1,
      ⟨(call.exec sha256 r.chain).2, r.trimmed⟩) := by
    cases hfeeds <;> rfl
  have hadd := addBlockWithId_of_refused (m := { r.chain with
    result := .bytes (checksum256ToBin (MicroChain.withId sha256
      (MicroChain.nextBlock r.chain.blockLog b.eosioBlock)).id ++
      blockToBin (MicroChain.nextBlock r.chain.blockLog b.eosioBlock)) })
    (hbehind.addBlock_again h hb) irreversible
  rw [hstep, hexec, MicroChain.addEosioBlock, MicroChain.addSubchainBlock]
  dsimp only
  rw [hadd]
  exact ⟨rfl, rfl, rfl, rfl⟩

/-- **Feeding blocks of the chain again changes nothing.** After any run of feeds, undos,
irreversibility updates and trims, whatever eosio blocks of the current chain are fed
again, in whatever order and with whatever irreversible numbers: each call returns false,
and the log and the database are what they were. -/
theorem run_redelivery (sha256 : Bytes → Checksum256) (starterAccount : Name)
    (calls : List Call) (hfeeds : ∀ call ∈ calls, IsFeed call) (again : List Call)
    (hagain : ∀ call ∈ again, ∃ b ∈ ((start starterAccount).run sha256 calls).blocks,
      Feeds b.eosioBlock call) :
    let r := (start starterAccount).run sha256 calls
    (r.run sha256 again).chain.blockLog = r.chain.blockLog ∧
      (r.run sha256 again).chain.db = r.chain.db ∧
      ∀ i (hi : i < again.length),
        ((r.run sha256 (again.take i)).step sha256 again[i]).1 = .ok false := by
  intro r
  obtain ⟨whole, hbehind⟩ : ∃ whole, Behind whole r.chain.blockLog r.trimmed :=
    run_behind Behind.empty hfeeds
  have hhashed : Hashed sha256 r.blocks :=
    run_hashed Behind.empty ⟨by simp [start, ChainRun.blocks], by simp [start, ChainRun.blocks]⟩ hfeeds
  change ∀ call ∈ again, ∃ b ∈ r.blocks, Feeds b.eosioBlock call at hagain
  -- from here on only the invariants of the state matter, which a refused block keeps
  clear_value r
  induction again generalizing r with
  | nil => exact ⟨rfl, rfl, fun i hi => absurd hi (Nat.not_lt_zero i)⟩
  | cons call again ih =>
    obtain ⟨⟨b, hb, hcall⟩, hagain⟩ := List.forall_mem_cons.mp hagain
    obtain ⟨hresult, hlog, hdb, htrimmed⟩ := step_again hbehind hhashed hb hcall
    have hblocks : (r.step sha256 call).2.blocks = r.blocks := by
      rw [ChainRun.blocks, hlog, htrimmed]
      rfl
    obtain ⟨hlog', hdb', hresults⟩ := ih (r.step sha256 call).2 (by rwa [hlog, htrimmed])
      (by rwa [hblocks]) (by rwa [hblocks])
    refine ⟨hlog'.trans hlog, hdb'.trans hdb, fun i hi => ?_⟩
    cases i with
    | zero => exact hresult
    | succ i => exact hresults i (Nat.lt_of_succ_lt_succ hi)

/-- Calls that leave the blocks 5, 7 and 8, of which the first is trimmed away. -/
def historyCalls (starterAccount : Name) : List Call :=
  forkCalls starterAccount ++ [.addEosioBlockJson (.ok (hiBlock starterAccount 8)) 7, .trimBlocks]

/-- The history again. -/
def historyAgain (starterAccount : Name) : List Call :=
  [.addEosioBlockJson (.ok (hiBlock starterAccount 5)) 8,
    .addEosioBlockJson (.ok (hiBlock starterAccount 7)) 0,
    .addEosioBlockJson (.ok (hiBlock starterAccount 8)) 8]

theorem historyCalls_blocks :
    ((start (Name.ofString "starter")).run (fun _ => {})
      (historyCalls (Name.ofString "starter"))).blocks.map (·.eosioBlock) =
        [5, 7, 8].map (hiBlock (Name.ofString "starter")) := by
  decide +kernel

theorem run_redelivery_example :
    let r := (start (Name.ofString "starter")).run (fun _ => {})
      (historyCalls (Name.ofString "starter"))
    (r.run (fun _ => {}) (historyAgain (Name.ofString "starter"))).chain.blockLog =
      r.chain.blockLog := by
  refine (run_redelivery (fun _ => {}) (Name.ofString "starter")
    (historyCalls (Name.ofString "starter")) ?_ (historyAgain (Name.ofString "starter")) ?_).1
  · intro call hcall
    simp only [historyCalls, forkCalls, List.cons_append, List.nil_append, List.mem_cons,
      List.not_mem_nil, or_false] at hcall
    rcases hcall with rfl | rfl | rfl | rfl | rfl | rfl | rfl <;> exact trivial
  · intro call hcall
    have hfeeds : ∃ num ∈ [5, 7, 8], Feeds (hiBlock (Name.ofString "starter") num) call := by
      simp only [historyAgain, List.mem_cons, List.not_mem_nil, or_false] at hcall
      rcases hcall with rfl | rfl | rfl
      · exact ⟨5, by simp, .json _⟩
      · exact ⟨7, by simp, .json _⟩
      · exact ⟨8, by simp, .json _⟩
    obtain ⟨num, hnum, hfeeds⟩ := hfeeds
    have hmem := List.mem_map_of_mem (f := hiBlock (Name.ofString "starter")) hnum
    rw [← historyCalls_blocks] at hmem
    obtain ⟨b, hb, heq⟩ := List.mem_map.mp hmem
    refine ⟨b, hb, ?_⟩
    rwa [heq]

end Runs

end Microchain.Feed
