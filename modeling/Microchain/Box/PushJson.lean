import Microchain.Box.Branch
import Microchain.Feed.BlockBytes

/-!
# What `Subchain.pushJsonBlock` reports

`pushJsonBlock` gives a block as JSON to the wasm and hands back the bytes and the number
that the wasm has left in its result buffer, or `null`. The wasm returns whether it has
appended the block; `pushJsonBlock` takes the negation for success, as if the wasm
returned a status.

- `pushJsonBlock_spec`: what it returns, by whether the wasm has appended the block.
- `not_reportsAppended`: **so its report is wrong on every block that does not trap**: an
  appended block gives `null`, and a rejected one its bytes.
-/

namespace Microchain.Box

open Eosio Subchain Starter BlockLog Feed

/-- The number is read where the encoding of a block has it, behind the id. -/
theorem resultNum_toBin (b : BlockWithId) : resultNum (blockWithIdToBin b) = .ok b.num := by
  have hdrop : (blockWithIdToBin b).drop 32 = blockToBin b.toBlock := by
    rw [blockWithIdToBin, ← length_checksum256ToBin b.id, List.drop_left]
  have hlong : ¬ (checksum256ToBin b.previous ++ eosioBlockToBin b.eosioBlock).length < 28 := by
    rw [List.length_append, length_checksum256ToBin]
    omega
  rw [resultNum, hdrop, blockToBin, uint32ToBin, List.append_assoc]
  dsimp only [List.cons_append, List.nil_append]
  rw [if_neg hlong]
  have hnum := congrArg (Except.map Prod.fst) (uint32FromBin_toBin b.num [])
  exact congrArg Except.ok (Except.ok.inj hnum)

/-! ## One push -/

section Push

variable (sha256 : Bytes → Checksum256) (m : MicroChain) (eosioBlock : EosioBlock)
  (eosioIrreversible : UInt32)

/-- The subchain block that the wasm makes of an eosio block. -/
def builtBlock : BlockWithId :=
  MicroChain.withId sha256 (MicroChain.nextBlock m.blockLog eosioBlock)

/-- The wasm appends the block to its log. -/
def Appends : Prop :=
  (m.blockLog.addBlock (builtBlock sha256 m eosioBlock)).1 = .appended

/-- What a caller expects of `pushJsonBlock`: a block and its number exactly when the wasm
has appended it, with bytes that `pushBlock` appends as the same block to an instance that
has the log from before the push. -/
def ReportsAppended : Prop :=
  ∃ r m', pushJsonBlock sha256 m (.ok eosioBlock) eosioIrreversible = .ok (r, m') ∧
    (r.isSome ↔ Appends sha256 m eosioBlock) ∧
    ∀ pushed ∈ r, pushed.num = (builtBlock sha256 m eosioBlock).num ∧
      ∀ (replica : MicroChain) (irreversible : UInt32), replica.blockLog = m.blockLog →
        ((addBlockBytes pushed.block irreversible).exec sha256 replica).2.blockLog.blocks =
          (m.blockLog.addBlock (builtBlock sha256 m eosioBlock)).2.2.blocks

variable {sha256 m eosioBlock eosioIrreversible}

/-- What `pushJsonBlock` returns for a block that does not trap. -/
theorem pushJsonBlock_spec {added : Bool} {m' : MicroChain}
    (hexec : (Call.addEosioBlockJson (.ok eosioBlock) eosioIrreversible).exec sha256 m =
      (.ok added, m')) :
    (added = true ↔ Appends sha256 m eosioBlock) ∧
      pushJsonBlock sha256 m (.ok eosioBlock) eosioIrreversible =
        .ok (if added then none else
          some ⟨blockWithIdToBin (builtBlock sha256 m eosioBlock),
            (builtBlock sha256 m eosioBlock).num⟩, m') := by
  have hbuffer : m.addEosioBlock sha256 eosioBlock eosioIrreversible =
      ({ m with result := .bytes (blockWithIdToBin (builtBlock sha256 m eosioBlock)) } :
        MicroChain).addBlockWithId (builtBlock sha256 m eosioBlock) eosioIrreversible := rfl
  have hadd : m.addEosioBlock sha256 eosioBlock eosioIrreversible = (.ok added, m') := hexec
  obtain ⟨hresult, hreports⟩ := addBlockWithId_reports
    { m with result := .bytes (blockWithIdToBin (builtBlock sha256 m eosioBlock)) }
    (builtBlock sha256 m eosioBlock) eosioIrreversible
  rw [← hbuffer, hadd] at hresult hreports
  refine ⟨hreports added rfl, ?_⟩
  rw [pushJsonBlock, hexec]
  cases added with
  | true => rfl
  | false =>
    -- the buffer was written before the log has rejected the block
    have hbytes : resultAsUint8Array m' = blockWithIdToBin (builtBlock sha256 m eosioBlock) := by
      rw [resultAsUint8Array, hresult]
    dsimp only [Bool.not_false]
    rw [hbytes, resultNum_toBin]
    rfl

/-- **The report is wrong on every block that does not trap.** -/
theorem not_reportsAppended {added : Bool} {m' : MicroChain}
    (hexec : (Call.addEosioBlockJson (.ok eosioBlock) eosioIrreversible).exec sha256 m =
      (.ok added, m')) : ¬ ReportsAppended sha256 m eosioBlock eosioIrreversible := by
  obtain ⟨hadded, hpush⟩ := pushJsonBlock_spec hexec
  rintro ⟨r, m'', hr, hiff, -⟩
  rw [hpush] at hr
  cases hr
  rw [← hadded] at hiff
  cases added with
  | true => exact absurd (hiff.mpr rfl) (by simp)
  | false => exact absurd (hiff.mp rfl) (by simp)

end Push

/-- **A push is never reported as it should be**: whatever the state, and for every block
that does not trap, an appended block gives `null`, and a rejected one the bytes and the
number of a block that is not in the log. -/
theorem pushJsonBlock_never (sha256 : Bytes → Checksum256) (m : MicroChain)
    (eosioBlock : EosioBlock) (eosioIrreversible : UInt32) (added : Bool) (m' : MicroChain)
    (hexec : (Call.addEosioBlockJson (.ok eosioBlock) eosioIrreversible).exec sha256 m =
      (.ok added, m')) :
    ¬ ReportsAppended sha256 m eosioBlock eosioIrreversible ∧
      ∃ r, pushJsonBlock sha256 m (.ok eosioBlock) eosioIrreversible = .ok (r, m') ∧
        (r = none ↔ Appends sha256 m eosioBlock) ∧
        ∀ pushed ∈ r, pushed.block = blockWithIdToBin (builtBlock sha256 m eosioBlock) ∧
          pushed.num = (builtBlock sha256 m eosioBlock).num := by
  obtain ⟨hadded, hpush⟩ := pushJsonBlock_spec hexec
  refine ⟨not_reportsAppended hexec, _, hpush, ?_, ?_⟩
  · rw [← hadded]
    cases added with
    | true => exact iff_of_true rfl rfl
    | false => exact iff_of_false (by simp) (by decide)
  · intro pushed hpushed
    cases added with
    | true => cases hpushed
    | false =>
      cases hpushed
      exact ⟨rfl, rfl⟩

/-- A stale block behind one that is final. -/
theorem pushJsonBlock_never_example :
    ¬ ReportsAppended (fun _ => {})
      ((Call.addEosioBlockJson (.ok (ChainRun.hiBlock (Name.ofString "starter") 5)) 5).exec
        (fun _ => {}) { starterAccount := Name.ofString "starter" }).2
      (ChainRun.hiBlock (Name.ofString "starter") 4) 5 :=
  (pushJsonBlock_never _ _ _ _ false _ (Prod.ext (by decide +kernel) rfl)).1

/-- The first block of an instance is appended, and reported as `null`. -/
theorem first_block_not_reported :
    ¬ ReportsAppended (fun _ => {}) { starterAccount := Name.ofString "starter" }
      (ChainRun.hiBlock (Name.ofString "starter") 5) 0 :=
  not_reportsAppended (Prod.ext (by decide +kernel) rfl)

end Microchain.Box
