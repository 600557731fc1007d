import Microchain.Starter.Replay

/-!
# A block that fails in `filter_block`

An `eosio::check` that fails is an exception that unwinds `add_block`: the undo session
of the block is undone. The log is not part of a session. `add_block` has already put
the block there, with the forked blocks gone and `irreversible` raised, so that after a
failure the log always ends with a block that no replay gets past
(`step_fails_disagrees`).

The failed instance goes on taking calls here, so a run may fail many times before: what
is kept even then is `Sound`.
-/

namespace Microchain.Starter

open Eosio Subchain Chainbase BlockLog

/-! ## Soundness of the table -/

/-- The table stands for some table with copies. Every call keeps this, also a failing
one. -/
def Sound (starterAccount : Name) (m : MicroChain) : Prop :=
  m.starterAccount = starterAccount ∧ ∃ t, TableRefines m.db.greetings t

/-- A block that was appended is in the log. -/
theorem mem_of_appended {log log' : BlockLog} {block : BlockWithId} {numForked : Nat}
    (h : log.addBlock block = (.appended, numForked, log')) : block ∈ log'.blocks := by
  rw [BlockLog.addBlock] at h
  -- only the last branch appends
  split_ifs at h <;> cases h
  exact List.mem_append_right _ (List.mem_singleton_self block)

namespace Sound

variable {starterAccount : Name} {m : MicroChain}

theorem forked (h : Sound starterAccount m) (n : Nat) (log : BlockLog) :
    Sound starterAccount ({ m with blockLog := log }.forkedNBlocks n) := by
  obtain ⟨haccount, t, ht⟩ := h
  rw [MicroChain.forkedNBlocks_eq]
  exact ⟨haccount, _, TableRefines.undo_iterate ht n⟩

/-- **Adding a block**, whether it is refused, appended or fails. When it fails, it does
not decode, and it is the last block of the log. -/
theorem addBlockWithId (h : Sound starterAccount m) (bi : BlockWithId)
    (eosioIrreversible : UInt32) :
    let r := m.addBlockWithId bi eosioIrreversible
    Sound starterAccount r.2 ∧ ∀ e, r.1 = .error (.filterBlock e) →
      ¬ Decodes starterAccount bi.eosioBlock ∧ bi ∈ r.2.blockLog.blocks := by
  intro r
  obtain ⟨rfl, t, ht⟩ := h
  rcases hadd : m.blockLog.addBlock bi with ⟨st, numForked, log⟩
  cases st with
  | duplicate =>
    have hr : r = (.ok false, { m with blockLog := log }) := by
      show m.addBlockWithId bi eosioIrreversible = _
      simp only [MicroChain.addBlockWithId, hadd]
    rw [hr]
    exact ⟨⟨rfl, t, ht⟩, fun _ he => by cases he⟩
  | unlinkable =>
    have hr : r = (.ok false, { m with blockLog := log }) := by
      show m.addBlockWithId bi eosioIrreversible = _
      simp only [MicroChain.addBlockWithId, hadd]
    rw [hr]
    exact ⟨⟨rfl, t, ht⟩, fun _ he => by cases he⟩
  | appended =>
    have hmem : bi ∈ r.2.blockLog.blocks := by
      show bi ∈ (m.addBlockWithId bi eosioIrreversible).2.blockLog.blocks
      rw [MicroChain.addBlockWithId_blockLog, addBlockIrreversible_blocks, hadd]
      exact mem_of_appended hadd
    have htable : TableRefines (m.committed numForked
        (MicroChain.addedLog log eosioIrreversible).irreversible) _ :=
      (TableRefines.undo_iterate ht numForked).commit _
    by_cases hneed : (MicroChain.addedLog log eosioIrreversible).irreversible < bi.num
    · have hexec : r = _ := MicroChain.addBlockWithId_of_reversible hadd rfl hneed
      by_cases hdecodes : Decodes m.starterAccount bi.eosioBlock
      · obtain ⟨u, hrun, hu⟩ := filterBlock_ok htable.addSession hdecodes
        simp only [hrun] at hexec
        rw [hexec]
        exact ⟨⟨rfl, _, hu⟩, fun _ he => by cases he⟩
      · -- the session undoes what the actions before the failure have written
        obtain ⟨e, u, s, hrun, hu⟩ := filterBlock_error htable.addSession hdecodes
        simp only [hrun] at hexec
        rw [hexec] at hmem ⊢
        exact ⟨⟨rfl, _, hu.undo⟩, fun _ _ => ⟨hdecodes, hmem⟩⟩
    · have hexec : r = _ := MicroChain.addBlockWithId_of_final hadd rfl hneed
      by_cases hdecodes : Decodes m.starterAccount bi.eosioBlock
      · obtain ⟨u, hrun, hu⟩ := filterBlock_ok htable hdecodes
        simp only [hrun] at hexec
        cases hset : u.setRevision bi.num.toNat with
        | error e =>
          simp only [hset] at hexec
          rw [hexec]
          exact ⟨⟨rfl, _, hu⟩, fun _ he => by cases he⟩
        | ok u' =>
          simp only [hset] at hexec
          rw [hexec]
          exact ⟨⟨rfl, _, (hu.setRevision hset).2⟩, fun _ he => by cases he⟩
      · -- there is no session, so the actions before the failure keep what they wrote
        obtain ⟨e, u, s, hrun, hu⟩ := filterBlock_error htable hdecodes
        simp only [hrun] at hexec
        rw [hexec] at hmem ⊢
        exact ⟨⟨rfl, _, hu⟩, fun _ _ => ⟨hdecodes, hmem⟩⟩

end Sound

/-! ## Replays and failing blocks -/

variable {starterAccount : Name}

/-- A replay that comes to its end has only met blocks that decode. -/
theorem decodes_of_replay_ok {u u' : GreetingIndex} {t : SnapshotTable Greeting}
    (h : TableRefines u t) {chain : List BlockWithId}
    (hreplay : replay starterAccount u chain = (.ok (), u')) :
    ∀ block ∈ chain, Decodes starterAccount block.eosioBlock := by
  induction chain generalizing u t with
  | nil => exact nofun
  | cons block chain ih =>
    rw [replay] at hreplay
    by_cases hdecodes : Decodes starterAccount block.eosioBlock
    · obtain ⟨u₁, hrun, hu₁⟩ := filterBlock_ok h hdecodes
      rw [hrun] at hreplay
      exact List.forall_mem_cons.mpr ⟨hdecodes, ih hu₁ hreplay⟩
    · obtain ⟨e, u₁, s, hrun, -⟩ := filterBlock_error h hdecodes
      rw [hrun] at hreplay
      cases hreplay

namespace ChainRun

/-- The log, `irreversible` and the database agree: the table is the replay of the
chain, and there is an undo state for each block above `irreversible`. -/
structure InAgreement (starterAccount : Name) (r : ChainRun) : Prop where
  replayed : ∃ table, replay starterAccount GreetingIndex.new r.blocks = (.ok (), table) ∧
    r.chain.db.greetings.rows = table.rows ∧ r.chain.db.greetings.nextId = table.nextId
  depth : r.chain.db.greetings.undoStack.length + r.chain.blockLog.irreversible.toNat =
    headNum r.chain.blockLog

/-- A chain with a block that does not decode has no replay. -/
theorem not_inAgreement {r : ChainRun} {block : BlockWithId}
    (hblock : block ∈ r.chain.blockLog.blocks)
    (hdecodes : ¬ Decodes starterAccount block.eosioBlock) : ¬ r.InAgreement starterAccount := by
  rintro ⟨⟨table, hreplay, -⟩, -⟩
  have hempty : TableRefines GreetingIndex.new .empty := Refines.empty [orderedByPk]
  exact hdecodes (decodes_of_replay_ok hempty hreplay block (List.mem_append_right _ hblock))

variable {sha256 : Bytes → Checksum256} {r : ChainRun}

/-- **One call** keeps a sound table; and if it fails in `filter_block`, the log has a
block that does not decode. -/
theorem step_sound (h : Sound starterAccount r.chain) (call : Call) :
    Sound starterAccount (r.step sha256 call).2.chain ∧
      ∀ e, (r.step sha256 call).1 = .error (.filterBlock e) →
        ∃ block ∈ (r.step sha256 call).2.chain.blockLog.blocks,
          ¬ Decodes starterAccount block.eosioBlock := by
  -- every call that adds a block does so through `addBlockWithId`
  have hadd : ∀ (result : ResultBuffer) bi irr,
      let r' := ({ r.chain with result } : MicroChain).addBlockWithId bi irr
      Sound starterAccount r'.2 ∧ ∀ e, r'.1 = .error (.filterBlock e) →
        ∃ block ∈ r'.2.blockLog.blocks, ¬ Decodes starterAccount block.eosioBlock := by
    intro result bi irr
    have hsound : Sound starterAccount { r.chain with result } := h
    obtain ⟨hkept, hfails⟩ := hsound.addBlockWithId bi irr
    refine ⟨hkept, fun e he => ?_⟩
    obtain ⟨hdecodes, hmem⟩ := hfails e he
    exact ⟨bi, hmem, hdecodes⟩
  cases call with
  | addEosioBlockJson json irr =>
    cases json with
    | error e => exact ⟨h, fun _ he => by cases he⟩
    | ok b => exact hadd _ _ _
  | addBlock data irr =>
    cases data with
    | error e => exact ⟨h, fun _ he => by cases he⟩
    | ok b => exact hadd r.chain.result b irr
  | pushShipMessage data =>
    match data with
    | .error e => exact ⟨h, fun _ he => by cases he⟩
    | .ok .getStatusResult => exact ⟨h, fun _ he => by cases he⟩
    | .ok (.getBlocksResult result) =>
      simp only [step, Call.exec, MicroChain.decoding, MicroChain.addShipResult]
      split
      · exact ⟨h, fun _ he => by cases he⟩
      · split
        · exact ⟨h, fun _ he => by cases he⟩
        · exact hadd _ _ _
  | setIrreversible n =>
    obtain ⟨haccount, t, ht⟩ := h
    exact ⟨⟨haccount, _, ht.commit _⟩, fun _ he => by cases he⟩
  | trimBlocks => exact ⟨h, fun _ he => by cases he⟩
  | undoBlockNum n => exact ⟨h.forked _ _, fun _ he => by cases he⟩
  | undoEosioNum n => exact ⟨h.forked _ _, fun _ he => by cases he⟩

theorem run_sound (h : Sound starterAccount r.chain) (calls : List Call) :
    Sound starterAccount (r.run sha256 calls).chain := by
  induction calls generalizing r with
  | nil => exact h
  | cons call calls ih => exact ih (step_sound h call).1

/-- **Adding a block is never all or nothing**: in every state, also after earlier
failures, a call that fails in `filter_block` leaves a log and a database that do not
agree. -/
theorem step_fails_disagrees (sha256 : Bytes → Checksum256) (starterAccount : Name)
    (calls : List Call) (call : Call) (e : String) :
    let r := (start starterAccount).run sha256 calls
    (r.step sha256 call).1 = .error (.filterBlock e) →
      ¬ (r.step sha256 call).2.InAgreement starterAccount := by
  intro r hfails
  have hstart : Sound starterAccount (start starterAccount).chain :=
    ⟨rfl, _, Refines.empty [orderedByPk]⟩
  obtain ⟨block, hblock, hdecodes⟩ := (step_sound (run_sound hstart calls) call).2 e hfails
  exact not_inAgreement hblock hdecodes

/-- A block whose second action does not decode. -/
def badBlock (starterAccount : Name) : EosioBlock where
  num := 7
  transactions := [{
    actions := [
      { firstReceiver := starterAccount, receiver := starterAccount, name := Name.ofString "hi"
        hexData := nameToBin (Name.ofString "bob") ++ [1, 66] },
      { firstReceiver := starterAccount, receiver := starterAccount, name := Name.ofString "hi" }] }]

theorem step_fails_disagrees_example :
    let r := (start (Name.ofString "starter")).run (fun _ => {})
      [.addEosioBlockJson (.ok (hiBlock (Name.ofString "starter") 5)) 0]
    let call := Call.addEosioBlockJson (.ok (badBlock (Name.ofString "starter"))) 0
    ∃ e, (r.step (fun _ => {}) call).1 = .error (.filterBlock e) ∧
      ¬ (r.step (fun _ => {}) call).2.InAgreement (Name.ofString "starter") :=
  ⟨_, rfl, step_fails_disagrees (fun _ => {}) (Name.ofString "starter")
    [.addEosioBlockJson (.ok (hiBlock (Name.ofString "starter") 5)) 0]
    (.addEosioBlockJson (.ok (badBlock (Name.ofString "starter"))) 0) _ rfl⟩

/-- After the failure of the second block the log has two blocks and the table one undo
state, that of the first. -/
theorem failure_keeps_block : ¬ ∀ (sha256 : Bytes → Checksum256) (starterAccount : Name)
    (calls : List Call) (call : Call) (e : String),
    let r := (start starterAccount).run sha256 calls
    (r.step sha256 call).1 = .error (.filterBlock e) →
      (r.step sha256 call).2.InAgreement starterAccount := by
  intro h
  have hagree := h (fun _ => {}) (Name.ofString "starter")
    [.addEosioBlockJson (.ok (hiBlock (Name.ofString "starter") 5)) 0]
    (.addEosioBlockJson (.ok (badBlock (Name.ofString "starter"))) 0) _ rfl
  exact absurd hagree.depth (by decide +kernel)

end ChainRun

end Microchain.Starter
