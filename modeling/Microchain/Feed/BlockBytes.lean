import Microchain.Feed.HashChain

/-!
# The bytes of a block

A block goes from one instance to another as bytes: those that `add_block` leaves in the
result buffer, built by hand from the id and the bytes that were hashed, or those that
`getBlock` encodes anew.

- `EosioBlock.fits_of_length`: a block whose bytes have a 32-bit size has containers of a
  32-bit size, so that its encoding can be read back.
- `getBlock_of_mem`: `getBlock` finds every block of the log under its number.
- `run_blockBytes`: **both ways give the same bytes**, and `addBlock` reads from them the
  block that was logged.
-/

namespace Microchain.Eosio

/-! ## Lengths of encodings -/

theorem length_checksum256ToBin (c : Checksum256) : (checksum256ToBin c).length = 32 := by
  have hword : ∀ w : UInt64, (wordToBytes w).length = 8 := fun _ => rfl
  rw [checksum256ToBin, List.length_flatMap, List.map_congr_left fun w _ => hword w]
  simp

/-- The elements of a vector, and how many there are, within the length of its encoding. -/
theorem length_le_vectorToBin {α : Type} {toBin : α → Bytes} {v : List α}
    (hpos : ∀ a ∈ v, 0 < (toBin a).length) :
    v.length ≤ (vectorToBin toBin v).length ∧
      ∀ a ∈ v, (toBin a).length ≤ (vectorToBin toBin v).length := by
  have hflat : v.length ≤ (v.flatMap toBin).length ∧
      ∀ a ∈ v, (toBin a).length ≤ (v.flatMap toBin).length := by
    induction v with
    | nil => simp
    | cons b v ih =>
      obtain ⟨hb, hv⟩ := List.forall_mem_cons.mp hpos
      obtain ⟨hlen, hmem⟩ := ih hv
      rw [List.flatMap_cons, List.length_append, List.length_cons]
      refine ⟨by omega, List.forall_mem_cons.mpr ⟨by omega, fun a ha => ?_⟩⟩
      have := hmem a ha
      omega
  rw [vectorToBin, List.length_append]
  exact ⟨by omega, fun a ha => Nat.le_trans (hflat.2 a ha) (by omega)⟩

end Microchain.Eosio

namespace Microchain.Subchain

open Eosio BlockLog

/-! ## Blocks whose bytes have a 32-bit size -/

theorem Action.fits_of_length {a : Action} (h : (actionToBin a).length < UInt32.size) :
    a.Fits := by
  have hdata := (@length_le_vectorToBin _ (fun b => [b]) a.hexData (by simp)).1
  rw [actionToBin, List.length_append] at h
  show a.hexData.length < UInt32.size
  rw [bytesToBin] at h
  omega

theorem Transaction.fits_of_length {t : Transaction}
    (h : (transactionToBin t).length < UInt32.size) : t.Fits := by
  have hpos : ∀ a ∈ t.actions, 0 < (actionToBin a).length := by
    intro a _
    rw [actionToBin]
    simp [uint64ToBin]
  obtain ⟨hlen, hmem⟩ := length_le_vectorToBin hpos
  rw [transactionToBin, List.length_append] at h
  refine ⟨show t.actions.length < UInt32.size by omega, fun a ha => Action.fits_of_length ?_⟩
  have := hmem a ha
  omega

theorem EosioBlock.fits_of_length {b : EosioBlock}
    (h : (eosioBlockToBin b).length < UInt32.size) : b.Fits := by
  have hpos : ∀ t ∈ b.transactions, 0 < (transactionToBin t).length := by
    intro t _
    rw [transactionToBin, List.length_append, length_checksum256ToBin]
    omega
  obtain ⟨hlen, hmem⟩ := length_le_vectorToBin hpos
  rw [eosioBlockToBin, List.length_append] at h
  refine ⟨show b.transactions.length < UInt32.size by omega,
    fun t ht => Transaction.fits_of_length ?_⟩
  have := hmem t ht
  omega

theorem BlockWithId.fits_of_length {b : BlockWithId}
    (h : (blockWithIdToBin b).length < UInt32.size) : b.eosioBlock.Fits := by
  rw [blockWithIdToBin, List.length_append, blockToBin, List.length_append] at h
  exact EosioBlock.fits_of_length (by omega)

/-! ## Blocks found by their number -/

/-- A block of the log is the one that its number finds. -/
theorem BlockLog.blockByNum_of_mem {log : BlockLog} (h : log.blocks.IsChain Linked)
    {b : BlockWithId} (hb : b ∈ log.blocks) : log.blockByNum b.num = some b := by
  obtain ⟨i, hi, rfl⟩ := List.mem_iff_getElem.mp hb
  rw [blockByNum, lowerBoundByNum_getElem h hi, List.getElem?_eq_getElem hi]
  exact Option.filter_some_pos (by simp)

end Microchain.Subchain

namespace Microchain.Feed

open Eosio Subchain Starter BlockLog

theorem getBlock_of_mem {m : MicroChain} (h : m.blockLog.WellFormed) {b : BlockWithId}
    (hb : b ∈ m.blockLog.blocks) :
    m.getBlock b.num = (true, { m with result := .bytes (blockWithIdToBin b) }) := by
  rw [MicroChain.getBlock, blockByNum_of_mem h.linked hb]

/-- The bytes that `add_block` builds are the encoding of the block with its id. -/
theorem byHand_eq_toBin (sha256 : Bytes → Checksum256) (block : Block) :
    checksum256ToBin (MicroChain.withId sha256 block).id ++ blockToBin block =
      blockWithIdToBin (MicroChain.withId sha256 block) := rfl

/-- An instance that takes the bytes of a block takes that block. -/
theorem exec_addBlockBytes (sha256 : Bytes → Checksum256) (replica : MicroChain)
    {b : BlockWithId} (h : (blockWithIdToBin b).length < UInt32.size) (eosioIrreversible : UInt32) :
    (addBlockBytes (blockWithIdToBin b) eosioIrreversible).exec sha256 replica =
      replica.addBlockWithId b eosioIrreversible := by
  have hread := blockWithIdFromBin_toBin (BlockWithId.fits_of_length h) []
  rw [List.append_nil] at hread
  rw [addBlockBytes, hread]
  rfl

/-- The log of every run is well formed. -/
theorem run_wellFormed (sha256 : Bytes → Checksum256) (starterAccount : Name)
    (calls : List Call) :
    ((ChainRun.start starterAccount).run sha256 calls).chain.blockLog.WellFormed := by
  obtain ⟨ops, hops⟩ : ∃ ops, ((ChainRun.start starterAccount).run sha256 calls).chain.blockLog =
    runLog {} ops := ChainRun.run_blockLog calls
  rw [hops]
  exact runLog_wellFormed wellFormed_empty ops

/-- The log is asked behind the result buffer, which `add_block` leaves as it is, and a
block is reported as added when the log has appended it. -/
theorem addBlockWithId_reports (m : MicroChain) (b : BlockWithId) (eosioIrreversible : UInt32) :
    (m.addBlockWithId b eosioIrreversible).2.result = m.result ∧
      ∀ added, (m.addBlockWithId b eosioIrreversible).1 = .ok added →
        (added = true ↔ (m.blockLog.addBlock b).1 = .appended) := by
  rcases heq : m.blockLog.addBlock b with ⟨st, numForked, log⟩
  cases st with
  | duplicate =>
    simp only [MicroChain.addBlockWithId, heq]
    exact ⟨trivial, fun added hadded => by cases hadded; decide⟩
  | unlinkable =>
    simp only [MicroChain.addBlockWithId, heq]
    exact ⟨trivial, fun added hadded => by cases hadded; decide⟩
  | appended =>
    by_cases hneed : (MicroChain.addedLog log eosioIrreversible).irreversible < b.num
    · rw [MicroChain.addBlockWithId_of_reversible heq rfl hneed]
      split
      · exact ⟨rfl, fun added hadded => by cases hadded⟩
      · exact ⟨rfl, fun added hadded => by cases hadded; exact iff_of_true rfl rfl⟩
    · rw [MicroChain.addBlockWithId_of_final heq rfl hneed]
      split
      · exact ⟨rfl, fun added hadded => by cases hadded⟩
      · split
        · exact ⟨rfl, fun added hadded => by cases hadded⟩
        · exact ⟨rfl, fun added hadded => by cases hadded; exact iff_of_true rfl rfl⟩

/-- A block that `add_block` has appended is in the log, and the result buffer is as it
was. -/
theorem addBlockWithId_logged {m m' : MicroChain} (h : m.blockLog.WellFormed) {b : BlockWithId}
    {eosioIrreversible : UInt32} (hexec : m.addBlockWithId b eosioIrreversible = (.ok true, m')) :
    m'.blockLog.WellFormed ∧ b ∈ m'.blockLog.blocks ∧ m'.result = m.result := by
  have hlog := MicroChain.addBlockWithId_blockLog m b eosioIrreversible
  obtain ⟨hresult, hreports⟩ := addBlockWithId_reports m b eosioIrreversible
  rw [hexec] at hlog hresult hreports
  have hwf : m'.blockLog.WellFormed := by
    rw [hlog]
    exact h.addBlockIrreversible b eosioIrreversible
  refine ⟨hwf, ?_, hresult⟩
  have happended := (hreports true rfl).mp rfl
  rcases addBlock_cases h b with ⟨st, hne, heq⟩ | ⟨it, -, -, heq, -⟩
  · rw [heq] at happended
    exact absurd happended hne
  · rw [hlog, addBlockIrreversible_blocks, heq]
    exact List.mem_append_right _ (List.mem_singleton_self b)

/-- **The bytes of a block**: the encoding of a block below 2^32 bytes is read back and
used up; `getBlock` returns the encoding of every block of the log of any run; and when
`add_block` appends a block, the bytes that it has built by hand are those that `getBlock`
returns for it, from which `addBlock` takes the same block on any replica. -/
theorem run_blockBytes (sha256 : Bytes → Checksum256) (starterAccount : Name)
    (calls : List Call) :
    let m := ((ChainRun.start starterAccount).run sha256 calls).chain
    (∀ b : BlockWithId, (blockWithIdToBin b).length < UInt32.size →
      blockWithIdFromBin (blockWithIdToBin b) = .ok (b, [])) ∧
    (∀ b ∈ m.blockLog.blocks,
      m.getBlock b.num = (true, { m with result := .bytes (blockWithIdToBin b) })) ∧
    ∀ (block : Block) (eosioIrreversible : UInt32) (m' : MicroChain),
      m.addSubchainBlock sha256 block eosioIrreversible = (.ok true, m') →
      let b := MicroChain.withId sha256 block
      b.toBlock = block ∧ b ∈ m'.blockLog.blocks ∧
      m'.result = .bytes (checksum256ToBin b.id ++ blockToBin block) ∧
      m'.getBlock block.num = (true, m') ∧
      ((checksum256ToBin b.id ++ blockToBin block).length < UInt32.size →
        ∀ (replica : MicroChain) (eosioIrreversible' : UInt32),
          (addBlockBytes (checksum256ToBin b.id ++ blockToBin block) eosioIrreversible').exec
            sha256 replica = replica.addBlockWithId b eosioIrreversible') := by
  intro m
  have hwf : m.blockLog.WellFormed := run_wellFormed sha256 starterAccount calls
  refine ⟨fun b hlen => ?_, fun b hb => getBlock_of_mem hwf hb,
    fun block eosioIrreversible m' hexec => ?_⟩
  · have hread := blockWithIdFromBin_toBin (BlockWithId.fits_of_length hlen) []
    rwa [List.append_nil] at hread
  · intro b
    -- the result buffer is written before the log is asked
    obtain ⟨hwf', hmem, hkept⟩ := addBlockWithId_logged (m := { m with
      result := .bytes (checksum256ToBin b.id ++ blockToBin block) }) hwf hexec
    have hresult : m'.result = .bytes (checksum256ToBin b.id ++ blockToBin block) := hkept
    refine ⟨rfl, hmem, hresult, ?_, fun hlen replica eosioIrreversible' => ?_⟩
    · have hget := getBlock_of_mem hwf' hmem
      rw [← byHand_eq_toBin sha256 block, ← hresult] at hget
      exact hget
    · rw [byHand_eq_toBin] at hlen ⊢
      exact exec_addBlockBytes sha256 replica hlen eosioIrreversible'

end Microchain.Feed
