import Microchain.Feed.Irreversible
import Microchain.Sync.Connection

/-!
# The chain of the box under calls of its storage

A history receiver pushes blocks and undoes them, in any order. What stays through all
calls is what the clients rely on: the blocks keep their hashes, what is final stays, and
a block with the eosio number 0 is final (`Upholds`). After an exception both instances
are gone, and nothing happens any more.

- `Upholds.exec`: one call.
-/

namespace Microchain.Sync

open Eosio Subchain Starter Box Feed BlockLog Lib Chainbase Graphql

/-! ## What is pushed -/

/-- A call that pushes an eosio block, with its bound of what is irreversible. -/
inductive Pushes (eosioBlock : EosioBlock) : UInt32 → StorageCall → Prop
  | json (irreversible : UInt32) :
    Pushes eosioBlock irreversible (.pushJsonBlock (.ok eosioBlock) irreversible)
  | ship {result : GetBlocksResult} {thisBlock : BlockPosition} {transactions : List Transaction}
    (hthis : result.thisBlock = some thisBlock)
    (htransactions : shipToTransactions result.traces = some transactions)
    (hblock : MicroChain.shipEosioBlock result thisBlock transactions = eosioBlock) :
    Pushes eosioBlock result.lastIrreversible.blockNum
      (.pushShipMessage (.ok (.getBlocksResult result)))

/-- Blocks that fit into the memory of an instance, and where a block with the number 0 is
pushed, a bound other than the largest number. -/
def Fed (call : StorageCall) : Prop :=
  ∀ eosioBlock irreversible, Pushes eosioBlock irreversible call →
    eosioBlock.Fits ∧ (eosioBlock.num = 0 → irreversible ≠ 0xffffffff)

/-- What a call does to the log. -/
inductive Logged (sha256 : Bytes → Checksum256) (call : StorageCall) (log : BlockLog) :
    BlockLog → Prop
  | same : Logged sha256 call log log
  | push {eosioBlock : EosioBlock} {irreversible : UInt32}
    (h : Pushes eosioBlock irreversible call) :
    Logged sha256 call log (log.addBlockIrreversible
      (MicroChain.withId sha256 (MicroChain.nextBlock log eosioBlock)) irreversible).2.2
  | undoEosioNum (eosioNum : UInt32) : Logged sha256 call log (log.undoEosioNum eosioNum).2

section Logs

variable {sha256 : Bytes → Checksum256} {account : Name} {call : StorageCall}

theorem exec_logged (sha256 : Bytes → Checksum256) (call : StorageCall) (b : MicroChain) :
    Logged sha256 call b.blockLog (call.toCall.exec sha256 b).2.blockLog := by
  have hadd : ∀ {eosioBlock irr}, Pushes eosioBlock irr call → Logged sha256 call b.blockLog
      (b.addEosioBlock sha256 eosioBlock irr).2.blockLog := by
    intro eosioBlock irr h
    rw [addEosioBlock_blockLog]
    exact .push h
  cases call with
  | pushJsonBlock jsonBlock irreversible =>
    cases jsonBlock with
    | error e => exact .same
    | ok eosioBlock => exact hadd (.json irreversible)
  | pushShipMessage shipMessage =>
    match shipMessage with
    | .error e => exact .same
    | .ok .getStatusResult => exact .same
    | .ok (.getBlocksResult result) =>
      simp only [StorageCall.toCall, Call.exec, MicroChain.decoding, MicroChain.addShipResult]
      split
      · exact .same
      · next thisBlock hthis =>
        split
        · exact .same
        · next transactions htransactions => exact hadd (.ship hthis htransactions rfl)
  | undoEosioNum eosioNum =>
    show Logged _ _ _ (b.undoEosioNum eosioNum).blockLog
    rw [MicroChain.undoEosioNum_blockLog]
    exact .undoEosioNum eosioNum

variable {log log' : BlockLog}

theorem Logged.final (h : Logged sha256 call log log') (hwf : log.WellFormed) : Final log log' := by
  cases h with
  | same => exact Final.refl log
  | push h => exact Final.addBlockIrreversible hwf _ _
  | undoEosioNum n => exact LogOp.apply_final hwf (.undoEosioNum n)

/-- The blocks keep their hashes. -/
theorem Logged.isSealed (h : Logged sha256 call log log') (hfed : Fed call)
    (hold : ∀ b ∈ log.blocks, Sealed sha256 b) : ∀ b ∈ log'.blocks, Sealed sha256 b := by
  cases h with
  | same => exact hold
  | @push eosioBlock irreversible h =>
    intro b hb
    rw [addBlockIrreversible_blocks] at hb
    rcases mem_addBlock hb with hb | rfl
    · exact hold b hb
    · exact sealed_nextBlock log (hfed eosioBlock irreversible h).1
  | undoEosioNum n => exact fun b hb => hold b ((undoEosioNum_sublist log n).subset hb)

/-- The last block of a log is reached by a bound that is not below it. -/
theorem le_reachByEosioNum {old n : UInt32} {blocks : List BlockWithId} {b : BlockWithId}
    (hlast : blocks.getLast? = some b) (hle : getEosioNum b ≤ n) :
    b.num ≤ reachByEosioNum old blocks n := by
  obtain ⟨front, rfl⟩ := List.getLast?_eq_some_iff.mp hlast
  have hfilter : ((front ++ [b]).filter fun b => decide (getEosioNum b ≤ n)).getLast? = some b := by
    have hone : ([b].filter fun b => decide (getEosioNum b ≤ n)) = [b] :=
      List.filter_eq_self.mpr fun x hx => by
        obtain rfl := List.mem_singleton.mp hx
        exact decide_eq_true hle
    rw [List.filter_append, hone, List.getLast?_concat]
  rw [reachByEosioNum, hfilter]
  show b.num ≤ max old b.num
  rw [UInt32.le_iff_toNat_le, toNat_max]
  exact Nat.le_max_right _ _

/-- **A block with the eosio number 0** is final. -/
theorem Logged.born (h : Logged sha256 call log log') (hfed : Fed call) (hwf : log.WellFormed)
    (hsorted : EosioSorted log'.blocks)
    (hold : ∀ b ∈ log.blocks, getEosioNum b = 0 → b.num ≤ log.irreversible) :
    ∀ b ∈ log'.blocks, getEosioNum b = 0 → b.num ≤ log'.irreversible := by
  have hle := (h.final hwf).irreversible_le
  cases h with
  | same => exact hold
  | @push eosioBlock irreversible h =>
    intro b hb hzero
    obtain ⟨bi, hbi⟩ : ∃ bi, MicroChain.withId sha256 (MicroChain.nextBlock log eosioBlock) = bi :=
      ⟨_, rfl⟩
    rw [hbi] at hb hle hsorted ⊢
    rw [addBlockIrreversible_blocks] at hb hsorted
    by_cases hmem : b ∈ log.blocks
    · exact UInt32.le_trans (hold b hmem hzero) hle
    rcases addBlock_cases hwf bi with ⟨st, -, heq⟩ | ⟨it, -, -, heq, -⟩
    · rw [heq] at hb
      exact absurd hb hmem
    obtain rfl : b = bi := (mem_addBlock hb).resolve_left hmem
    have happended : (log.addBlock b).1 = .appended := by rw [heq]
    -- the bound of the push reaches it
    have heosio : getEosioNum b = eosioBlock.num := by
      rw [← hbi]
      exact congrArg EosioBlock.num (nextBlock_eosioBlock log eosioBlock)
    have hmax := (hfed eosioBlock irreversible h).2 (heosio ▸ hzero)
    have horder := EosioSorted.inEosioOrder hsorted log.irreversible irreversible
    rw [(addBlockIrreversible_iff hwf happended horder).mpr hmax]
    refine le_reachByEosioNum ?_ (hzero ▸ UInt32.zero_le)
    rw [heq]
    exact List.getLast?_concat
  | undoEosioNum n =>
    exact fun b hb hzero =>
      UInt32.le_trans (hold b ((undoEosioNum_sublist log n).subset hb) hzero) hle

/-- What is final in a chain stays. -/
theorem follows_of_final {b b' : MicroChain} (h : ChainInv account [] b)
    (h' : ChainInv account [] b') (hfinal : Final b.blockLog b'.blockLog) :
    (target b').Follows (target b) := by
  have hirr := UInt32.le_iff_toNat_le.mp hfinal.irreversible_le
  have hlen := target_sound h
  have hlen' := target_sound h'
  have hnum : ∀ {m : MicroChain}, ChainInv account [] m → ∀ {i}
      (hi : i < m.blockLog.blocks.length), (m.blockLog.blocks[i]).num.toNat = i + 1 := by
    intro m hm i hi
    have hget := hm.num hi
    rwa [List.length_nil, Nat.zero_add] at hget
  refine ⟨hirr, List.ext_getElem ?_ fun i hi hi' => ?_⟩
  · rw [List.length_take, List.length_take]
    exact (Nat.min_eq_left hlen).trans (Nat.min_eq_left (Nat.le_trans hirr hlen')).symm
  · rw [List.length_take] at hi hi'
    rw [List.getElem_take, List.getElem_take]
    have hlt : i < b.blockLog.irreversible.toNat := by
      change i < min (target b).final _ at hi
      exact Nat.lt_of_lt_of_le hi (Nat.min_le_left _ _)
    have hi₁ : i < b.blockLog.blocks.length := Nat.lt_of_lt_of_le hlt hlen
    have hi₂ : i < b'.blockLog.blocks.length := Nat.lt_of_lt_of_le hlt (Nat.le_trans hirr hlen')
    -- the block of the new chain is one of the old chain, with the same number
    have hmem := hfinal.mem_of_le _ (List.getElem_mem hi₂) (by
      rw [UInt32.le_iff_toNat_le, hnum h' hi₂]
      exact hlt)
    refine eq_of_num_eq h.log.linked (List.getElem_mem hi₁) hmem ?_
    show (b.blockLog.blocks[i]).num = (b'.blockLog.blocks[i]).num
    rw [← UInt32.toNat_inj, hnum h hi₁, hnum h' hi₂]

end Logs

/-! ## The storage -/

/-- What the clients rely on: `T` is the chain of the box, the last one that it had when
its instances are gone. -/
structure Upholds (sha256 : Bytes → Checksum256) (account : Name)
    (chains : List (List BlockWithId)) (T : Replica BlockWithId) (s : Storage) : Prop where
  valid : ∀ chain ∈ chains, Valid sha256 account chain
  genuine : Genuine chains T
  sound : T.Sound
  twins : s.Twins account
  head : s.head = T.chain.length
  target : ∀ b, s.blocksWasm = some b → target b = T

section Calls

variable {sha256 : Bytes → Checksum256} {account : Name} {chains : List (List BlockWithId)}
  {T : Replica BlockWithId} {s : Storage}

/-- The chain that a storage holds. -/
def chainOf (s : Storage) : List (List BlockWithId) :=
  (s.blocksWasm.map fun b => b.blockLog.blocks).toList

/-- A method that returns, or throws. -/
theorem thenChanged_protect {α : Type} (account : Name) (s : Storage)
    (f : MicroChain → MicroChain → Except Failure (α × MicroChain × MicroChain)) :
    (∃ b t a b' t', s.blocksWasm = some b ∧ s.stateWasm = some t ∧ f b t = .ok (a, b', t') ∧
        Storage.thenChanged (s.protect f) =
          (.ok a, { s with blocksWasm := some b', stateWasm := some t' }.changed)) ∨
      ∃ e, (Storage.thenChanged (s.protect f)).1 = .error e ∧
        (Storage.thenChanged (s.protect f)).2.head = s.head ∧
        (s.Twins account → (Storage.thenChanged (s.protect f)).2.blocksWasm = none) := by
  match hb : s.blocksWasm, ht : s.stateWasm with
  | some b, some t =>
    match hf : f b t with
    | .ok (a, b', t') =>
      refine .inl ⟨b, t, a, b', t', rfl, rfl, hf, ?_⟩
      rw [Storage.protect, hb, ht]
      dsimp only
      rw [hf]
      rfl
    | .error e =>
      refine .inr ⟨.failure e, ?_⟩
      rw [Storage.protect, hb, ht]
      dsimp only
      rw [hf]
      exact ⟨rfl, rfl, fun _ => rfl⟩
  | none, _ =>
    refine .inr ⟨.corrupt, ?_⟩
    rw [Storage.protect, hb]
    exact ⟨rfl, rfl, fun _ => hb⟩
  | some b, none =>
    refine .inr ⟨.corrupt, ?_⟩
    rw [Storage.protect, hb, ht]
    refine ⟨rfl, rfl, fun htwins => ?_⟩
    rcases htwins with ⟨_, t, -, ht', -⟩ | ⟨hnone, -⟩
    · rw [ht] at ht'
      cases ht'
    · rw [hb] at hnone
      cases hnone

/-- A method by which the first instance executes a call. -/
theorem method_cases {α : Type} (htwins : s.Twins account) {call : Call}
    {f : MicroChain → MicroChain → Except Failure (α × MicroChain × MicroChain)}
    (hf : ∀ b t a b' t', f b t = .ok (a, b', t') → ∃ added, call.exec sha256 b = (.ok added, b'))
    {r : Except StorageError α × Storage} (hr : r = Storage.thenChanged (s.protect f)) :
    (r.1.toOption.isSome = true ∧ ∃ b b' added, s.blocksWasm = some b ∧
        call.exec sha256 b = (.ok added, b') ∧ r.2.blocksWasm = some b' ∧
        r.2.head = headNum b'.blockLog) ∨
      r.1.toOption.isSome = false ∧ r.2.blocksWasm = none ∧ r.2.head = s.head := by
  subst hr
  rcases thenChanged_protect account s f with
    ⟨b, t, a, b', t', hb, -, hrun, hr⟩ | ⟨e, he, hhead, hnone⟩
  · obtain ⟨added, hexec⟩ := hf b t a b' t' hrun
    rw [hr]
    exact .inl ⟨rfl, b, b', added, hb, hexec, rfl, rfl⟩
  · exact .inr ⟨congrArg (fun r => r.toOption.isSome) he, hnone htwins, hhead⟩

/-- **A call of the storage**: it returns, and the first instance has executed it, or it
throws and leaves no instance. -/
theorem call_cases (sha256 : Bytes → Checksum256) (htwins : s.Twins account)
    (call : StorageCall) :
    (returns sha256 s call = true ∧ ∃ b b' added, s.blocksWasm = some b ∧
        call.toCall.exec sha256 b = (.ok added, b') ∧
        (call.exec sha256 s).blocksWasm = some b' ∧
        (call.exec sha256 s).head = headNum b'.blockLog) ∨
      returns sha256 s call = false ∧ (call.exec sha256 s).blocksWasm = none ∧
        (call.exec sha256 s).head = s.head := by
  cases call with
  | pushJsonBlock jsonBlock irreversible =>
    refine method_cases htwins (fun b t a b' t' hrun => ?_) rfl
    obtain ⟨⟨r₁, b₁⟩, hb₁, hrun⟩ := ok_of_bind hrun
    obtain ⟨⟨r₂, t₁⟩, -, hrun⟩ := ok_of_bind hrun
    cases hrun
    exact Storage.pushJsonBlock_ok hb₁
  | pushShipMessage shipMessage =>
    refine method_cases htwins (fun b t a b' t' hrun => ?_) rfl
    obtain ⟨⟨r₁, b₁⟩, hb₁, hrun⟩ := ok_of_bind hrun
    obtain ⟨⟨r₂, t₁⟩, -, hrun⟩ := ok_of_bind hrun
    cases hrun
    exact Storage.pushShipMessage_ok hb₁
  | undoEosioNum eosioNum =>
    refine method_cases htwins (fun b t a b' t' hrun => ?_) rfl
    cases hrun
    exact ⟨false, rfl⟩

/-- Both instances of a storage that is up. -/
theorem Upholds.serving (h : Upholds sha256 account chains T s) {b : MicroChain}
    (hb : s.blocksWasm = some b) : Serving account s b ∧ EosioSorted b.blockLog.blocks := by
  rcases h.twins with ⟨b', t, hb', ht, htwin⟩ | ⟨hnone, -⟩
  · obtain rfl : b' = b := Option.some.inj (hb'.symm.trans hb)
    refine ⟨⟨fun _ => ⟨hb, by rw [ht]; rfl⟩, htwin.blocks, ?_⟩, htwin.sorted⟩
    rw [h.head, ← h.target b' hb]
    rfl
  · rw [hb] at hnone
    cases hnone

/-- **One call**: the chain goes on, without a change of what is final. -/
theorem Upholds.exec (h : Upholds sha256 account chains T s) {call : StorageCall}
    (hfed : Fed call) :
    ∃ T', Upholds sha256 account (chains ++ chainOf (call.exec sha256 s)) T'
        (call.exec sha256 s) ∧ T'.Follows T ∧
      (returns sha256 s call = true → ∃ b, (call.exec sha256 s).blocksWasm = some b) ∧
      (returns sha256 s call = false → T' = T ∧ (call.exec sha256 s).blocksWasm = none) := by
  have htwins := Storage.twins_exec h.twins sha256 call
  rcases call_cases sha256 h.twins call with
    ⟨hreturns, b, b', added, hb, hexec, hb', hhead⟩ | ⟨hreturns, hnone, hhead⟩
  · obtain ⟨hserving, -⟩ := h.serving hb
    have hlogged := exec_logged sha256 call b
    rw [hexec] at hlogged
    obtain ⟨b'', t', hb'', ht', htwin⟩ : ∃ b'' t', (call.exec sha256 s).blocksWasm = some b'' ∧
        (call.exec sha256 s).stateWasm = some t' ∧ Twin account b'' t' := by
      rcases htwins with htwins | ⟨hnone, -⟩
      · exact htwins
      · rw [hb'] at hnone
        cases hnone
    obtain rfl : b'' = b' := Option.some.inj (hb''.symm.trans hb')
    have hchain : chainOf (call.exec sha256 s) = [b''.blockLog.blocks] := by
      rw [chainOf, hb']
      rfl
    have htarget := h.target b hb
    have hold := h.genuine
    rw [← htarget] at hold
    have hvalid : Valid sha256 account b''.blockLog.blocks := by
      have hsealed : ∀ x ∈ b.blockLog.blocks, Sealed sha256 x := by
        intro x hx
        obtain ⟨whole, hwhole, hpre⟩ := hold.seen
        exact (h.valid whole hwhole).isSealed x (hpre.subset hx)
      exact ⟨htwin.blocks.linked, htwin.blocks.first, hlogged.isSealed hfed hsealed,
        htwin.blocks.decodes⟩
    refine ⟨Sync.target b'', ⟨?_, ⟨?_, ?_⟩, target_sound htwin.blocks, htwins, ?_, ?_⟩, ?_,
      fun _ => ⟨b'', hb'⟩, fun hthrows => ?_⟩
    · rw [hchain]
      intro chain hmem
      rcases List.mem_append.mp hmem with hmem | hmem
      · exact h.valid chain hmem
      · obtain rfl := List.mem_singleton.mp hmem
        exact hvalid
    · rw [hchain]
      exact ⟨_, List.mem_append_right _ (List.mem_singleton_self _), List.prefix_rfl⟩
    · intro x hx hzero
      refine UInt32.le_iff_toNat_le.mp ?_
      refine hlogged.born hfed hserving.inv.log htwin.sorted (fun y hy hy0 => ?_) x hx hzero
      exact UInt32.le_iff_toNat_le.mpr (hold.born y hy hy0)
    · rw [hhead, htwin.blocks.headNum_eq]
      rfl
    · intro b₁ hb₁
      rw [hb'] at hb₁
      obtain rfl := Option.some.inj hb₁
      rfl
    · rw [← htarget]
      exact follows_of_final hserving.inv htwin.blocks (hlogged.final hserving.inv.log)
    · rw [hreturns] at hthrows
      cases hthrows
  · have hchain : chainOf (call.exec sha256 s) = [] := by
      rw [chainOf, hnone]
      rfl
    rw [hchain, List.append_nil]
    refine ⟨T, ⟨h.valid, h.genuine, h.sound, htwins, hhead.trans h.head, ?_⟩,
      Replica.Follows.refl T, fun hok => ?_, fun _ => ⟨rfl, hnone⟩⟩
    · intro b hb
      rw [hnone] at hb
      cases hb
    · rw [hreturns] at hok
      cases hok

/-- The storage at the start. -/
theorem upholds_instantiate (sha256 : Bytes → Checksum256) (account : Name) :
    Upholds sha256 account [[]] ⟨[], 0⟩ (Storage.instantiate account) := by
  refine ⟨?_, ⟨⟨[], List.mem_singleton_self _, List.prefix_rfl⟩, ?_⟩, Nat.le_refl 0,
    Storage.twins_instantiate account, rfl, ?_⟩
  · intro chain hmem
    obtain rfl := List.mem_singleton.mp hmem
    exact ⟨.nil, nofun, nofun, nofun⟩
  · exact nofun
  · intro b hb
    cases hb
    rfl

end Calls

end Microchain.Sync
