import Microchain.Box.Storage
import Microchain.Lib.Except
import Microchain.Starter.Replay

/-!
# Trimming is unobservable

The two instances of the storage hold the same chain: `Twin` says that the log of
`stateWasm` is the trimmed log of `blocksWasm`, and that both tables are replays of
the same blocks. A new eosio block is placed by a search for its number. If the
search gets past the start of the trimmed log both instances build the same block;
otherwise they build different ones, and both are refused because their numbers are
final.

- `Twin.addEosioBlock`, `Twin.undoEosioNum`: one call.
- `Storage.run_twin`: whole runs.
-/

namespace Microchain.Box

open Eosio Subchain Starter Chainbase BlockLog Lib

/-! ## The block that is built -/

section NextBlock

variable {whole log : BlockLog} {pre : List BlockWithId}

/-- The blocks of a chain that starts at 1. -/
def NumberedFromOne (log : BlockLog) : Prop :=
  ∀ i (hi : i < log.blocks.length), (log.blocks[i]).num.toNat = i + 1

/-- The number of the block that is built: one more than the block it is placed
behind, up to the wrap of `uint32_t`. -/
theorem nextBlock_num_le (hnum : NumberedFromOne whole) (eosioBlock : EosioBlock) :
    (MicroChain.nextBlock whole eosioBlock).num.toNat ≤
      whole.lowerBoundByEosioNum eosioBlock.num + 1 := by
  rw [MicroChain.nextBlock]
  split
  · next prev hprev =>
    obtain ⟨i, hi, hit, rfl⟩ := before_eq_some hprev
    dsimp only
    rw [UInt32.toNat_add, hnum i hi, hit]
    exact Nat.mod_le _ _
  · exact Nat.le_add_left _ _

/-- Both instances build the same block, or blocks with final numbers. -/
theorem nextBlock_cases (h : TrimOf whole log pre) (hwf : whole.WellFormed)
    (hnum : NumberedFromOne whole) (hsorted : EosioSorted whole.blocks) (eosioBlock : EosioBlock) :
    MicroChain.nextBlock log eosioBlock = MicroChain.nextBlock whole eosioBlock ∨
      (MicroChain.nextBlock whole eosioBlock).num ≤ whole.irreversible ∧
        (MicroChain.nextBlock log eosioBlock).num ≤ log.irreversible := by
  obtain ⟨hmove, hstay⟩ := h.lowerBoundByEosioNum hsorted eosioBlock.num
  by_cases hne : pre = []
  · subst hne
    rw [h.eq_of_nil]
    exact .inl rfl
  rcases Nat.eq_zero_or_pos (log.lowerBoundByEosioNum eosioBlock.num) with h0 | hpos
  · -- the search stays at the start: the blocks are placed at or below the first one left
    right
    have hlen : pre.length < whole.blocks.length := by
      obtain ⟨first, hfirst, -⟩ := h.start.resolve_left hne
      have := List.length_pos_of_mem (List.mem_of_mem_head? hfirst)
      rw [h.blocks, List.length_append]
      omega
    have hfinal := h.num_le hwf hne hlen (Nat.le_refl _)
    rw [UInt32.le_iff_toNat_le, hnum _ hlen] at hfinal
    constructor
    · have hle := nextBlock_num_le hnum eosioBlock
      have := hstay h0
      rw [UInt32.le_iff_toNat_le]
      omega
    · have hlog : log.blockBeforeEosioNum eosioBlock.num = none := by
        rw [blockBeforeEosioNum, h0]
        rfl
      rw [MicroChain.nextBlock, hlog, UInt32.le_iff_toNat_le, h.irreversible]
      exact Nat.le_trans (Nat.le_add_left 1 _) hfinal
  · left
    rw [MicroChain.nextBlock, MicroChain.nextBlock, blockBeforeEosioNum, blockBeforeEosioNum,
      hmove hpos, h.before hpos]

/-- A log that takes an eosio block stays in the order of the eosio numbers. -/
theorem sorted_addBlock (hwf : whole.WellFormed) (hnum : NumberedFromOne whole)
    (hsorted : EosioSorted whole.blocks) {bi : BlockWithId} {eosioBlock : EosioBlock}
    (hbi : bi.toBlock = MicroChain.nextBlock whole eosioBlock) :
    EosioSorted (whole.addBlock bi).2.2.blocks := by
  rcases addBlock_cases hwf bi with ⟨st, -, heq⟩ | ⟨it, hit, hle, heq, -, -, -, -⟩
  · rw [heq]
    exact hsorted
  rw [heq]
  have hbound : bi.num.toNat ≤ whole.lowerBoundByEosioNum eosioBlock.num + 1 := by
    rw [hbi]
    exact nextBlock_num_le hnum eosioBlock
  have hlow := (lowerBoundByNum_spec hwf.linked bi.num).2.1
  rw [← hit] at hlow
  -- what stays was found to be before the block, by number and so by eosio number
  have hkept : ∀ i (hi : i < whole.blocks.length), i < it →
      getEosioNum whole.blocks[i] < getEosioNum bi := by
    intro i hi hlt
    have hlt' := hlow i hi hlt
    rw [UInt32.lt_iff_toNat_lt, hnum i hi] at hlt'
    have hpart : Partitioned (fun b => decide (getEosioNum b < eosioBlock.num)) whole.blocks :=
      hsorted.imp fun {a b} hab hb => decide_eq_true (UInt32.lt_trans hab (of_decide_eq_true hb))
    have hlt'' := (lowerBound_spec hpart).1 i hi
      (show i < whole.lowerBoundByEosioNum eosioBlock.num by omega)
    have heosio : getEosioNum bi = eosioBlock.num := by
      rw [getEosioNum, hbi, nextBlock_eosioBlock]
    rw [heosio]
    exact of_decide_eq_true hlt''
  refine List.pairwise_append.mpr ⟨hsorted.sublist (List.take_sublist _ _),
    List.pairwise_singleton _ _, fun a ha b hb => ?_⟩
  obtain rfl := List.mem_singleton.mp hb
  obtain ⟨i, hi, rfl⟩ := List.mem_iff_getElem.mp ha
  rw [List.length_take] at hi
  rw [List.getElem_take]
  exact hkept i (by omega) (by omega)

end NextBlock

/-! ## The two instances -/

/-- `stateWasm` is `blocksWasm` trimmed. -/
structure Twin (account : Name) (blocksWasm stateWasm : MicroChain) : Prop where
  blocks : ChainInv account [] blocksWasm
  state : ChainInv account blocksWasm.blockLog.trimmedBy stateWasm
  log : stateWasm.blockLog = blocksWasm.blockLog.trim
  sorted : EosioSorted blocksWasm.blockLog.blocks

section Twin

variable {account : Name} {b t b' t' : MicroChain}

theorem numberedFromOne (h : ChainInv account [] b) : NumberedFromOne b.blockLog := by
  intro i hi
  rw [h.num hi, List.length_nil, Nat.zero_add]

theorem Twin.trimOf (h : Twin account b t) :
    TrimOf b.blockLog t.blockLog b.blockLog.trimmedBy := by
  rw [h.log]
  exact .of_trim h.blocks.log

/-- Two instances that differ by trimmed blocks, once the second is trimmed. -/
theorem Twin.of_trimOf {pre : List BlockWithId} (hb : ChainInv account [] b)
    (ht : ChainInv account pre t) (htrim : TrimOf b.blockLog t.blockLog pre)
    (hsorted : EosioSorted b.blockLog.blocks) : Twin account b t.trimBlocks := by
  refine ⟨hb, ?_, htrim.trim hb.log ht.log, hsorted⟩
  have hstate := ht.trimBlocks
  rwa [htrim.trimmedBy hb.log ht.log] at hstate

/-- Adding a block to each of two instances has the same outcome when both logs take
it or neither does. -/
theorem addBlockWithId_alike {pre : List BlockWithId} (hb : ChainInv account [] b)
    (ht : ChainInv account pre t) {bi bi' : BlockWithId}
    (hst : (b.blockLog.addBlock bi).1 = .appended ↔ (t.blockLog.addBlock bi').1 = .appended)
    (heosio : bi'.eosioBlock = bi.eosioBlock) (eosioIrreversible : UInt32) :
    (b.addBlockWithId bi eosioIrreversible).1.toOption =
      (t.addBlockWithId bi' eosioIrreversible).1.toOption := by
  rcases hb.addBlockWithId bi eosioIrreversible with
    ⟨hne, heq⟩ | ⟨happ, hdec, hok, -⟩ | ⟨happ, hdec, e, herr⟩ <;>
  rcases ht.addBlockWithId bi' eosioIrreversible with
    ⟨hne', heq'⟩ | ⟨happ', hdec', hok', -⟩ | ⟨happ', hdec', e', herr'⟩
  · rw [heq, heq']
  · exact absurd (hst.mpr happ') hne
  · exact absurd (hst.mpr happ') hne
  · exact absurd (hst.mp happ) hne'
  · rw [hok, hok']
  · exact absurd (heosio ▸ hdec) hdec'
  · exact absurd (hst.mp happ) hne'
  · exact absurd (heosio ▸ hdec') hdec
  · rw [herr, herr']
    rfl

/-- **An eosio block** is taken by both instances or by neither. -/
theorem Twin.addEosioBlock (h : Twin account b t) (sha256 : Bytes → Checksum256)
    (eosioBlock : EosioBlock) (eosioIrreversible : UInt32) :
    let r := b.addEosioBlock sha256 eosioBlock eosioIrreversible
    let r' := t.addEosioBlock sha256 eosioBlock eosioIrreversible
    r.1.toOption = r'.1.toOption ∧
      (r.1.toOption.isSome → Twin account r.2 r'.2.trimBlocks) := by
  intro r r'
  have htrim := h.trimOf
  have hwf := h.blocks.log
  have hwf' := h.state.log
  have hnum := numberedFromOne h.blocks
  obtain ⟨bi, hbi⟩ : ∃ bi, MicroChain.withId sha256 (MicroChain.nextBlock b.blockLog eosioBlock) =
    bi := ⟨_, rfl⟩
  obtain ⟨bi', hbi'⟩ : ∃ bi, MicroChain.withId sha256 (MicroChain.nextBlock t.blockLog eosioBlock) =
    bi := ⟨_, rfl⟩
  have hsame : ((b.blockLog.addBlock bi).1 = .appended ↔ (t.blockLog.addBlock bi').1 = .appended) ∧
      TrimOf (b.blockLog.addBlockIrreversible bi eosioIrreversible).2.2
        (t.blockLog.addBlockIrreversible bi' eosioIrreversible).2.2 b.blockLog.trimmedBy ∧
      EosioSorted (b.blockLog.addBlock bi).2.2.blocks := by
    have hsorted := sorted_addBlock hwf hnum h.sorted
      (show bi.toBlock = MicroChain.nextBlock b.blockLog eosioBlock by rw [← hbi]; rfl)
    -- one block for both, or blocks that both logs refuse
    rcases nextBlock_cases htrim hwf hnum h.sorted eosioBlock with heq | ⟨hle, hle'⟩
    · obtain rfl : bi = bi' := by rw [← hbi, ← hbi', heq]
      exact ⟨(htrim.addBlock hwf hwf' bi).1, htrim.addBlockIrreversible hwf hwf' hsorted _, hsorted⟩
    · have hrefused := refused_of_num_le hwf (hbi ▸ hle : bi.num ≤ _)
      have hrefused' := refused_of_num_le hwf' (hbi' ▸ hle' : bi'.num ≤ _)
      rw [addBlockIrreversible_of_refused hrefused, addBlockIrreversible_of_refused hrefused']
      exact ⟨iff_of_false hrefused.1 hrefused'.1, htrim, hsorted⟩
  obtain ⟨hst, hlogs, hsorted⟩ := hsame
  have heosio : bi'.eosioBlock = bi.eosioBlock := by
    rw [← hbi, ← hbi']
    exact (nextBlock_eosioBlock _ _).trans (nextBlock_eosioBlock _ _).symm
  obtain ⟨result, hr⟩ : ∃ result, r =
      ({ b with result } : MicroChain).addBlockWithId bi eosioIrreversible :=
    ⟨_, by rw [← hbi]; rfl⟩
  obtain ⟨result', hr'⟩ : ∃ result, r' =
      ({ t with result } : MicroChain).addBlockWithId bi' eosioIrreversible :=
    ⟨_, by rw [← hbi']; rfl⟩
  have hb := h.blocks.setResult result
  have ht := h.state.setResult result'
  have halike := addBlockWithId_alike hb ht hst heosio eosioIrreversible
  rw [hr, hr']
  refine ⟨halike, fun hok => .of_trimOf ((hb.kept_addBlockWithId _ _).inv hok)
    ((ht.kept_addBlockWithId _ _).inv (halike ▸ hok)) ?_ ?_⟩
  · rw [MicroChain.addBlockWithId_blockLog, MicroChain.addBlockWithId_blockLog]
    exact hlogs
  · rw [MicroChain.addBlockWithId_blockLog, addBlockIrreversible_blocks]
    exact hsorted

/-- **Undoing** from an eosio number on. -/
theorem Twin.undoEosioNum (h : Twin account b t) (eosioNum : UInt32) :
    Twin account (b.undoEosioNum eosioNum) (t.undoEosioNum eosioNum) := by
  have htrim := (h.trimOf.undoEosioNum h.blocks.log h.sorted eosioNum).2
  have hwf := h.blocks.log.undoEosioNum eosioNum
  have hwf' := h.state.log.undoEosioNum eosioNum
  have htrimmed : Trimmed t.blockLog :=
    (h.trimOf.trim h.blocks.log h.state.log).trans h.log.symm
  have htrimmed' := htrimmed.undoEosioNum h.state.log eosioNum
  have hnothing : (t.blockLog.undoEosioNum eosioNum).2.trimmedBy = [] := by
    rw [BlockLog.trimmedBy, (trimmed_iff hwf'.linked).mp htrimmed', List.take_zero]
  have hpre := htrim.trimmedBy hwf hwf'
  rw [hnothing, List.append_nil] at hpre
  have hstate := (h.state.undoEosioNum eosioNum).1
  refine ⟨(h.blocks.undoEosioNum eosioNum).1, ?_, ?_, ?_⟩
  · rwa [b.undoEosioNum_blockLog, ← hpre]
  · rw [b.undoEosioNum_blockLog, t.undoEosioNum_blockLog, ← htrim.trim hwf hwf']
    exact htrimmed'.symm
  · rw [b.undoEosioNum_blockLog]
    exact h.sorted.sublist (undoEosioNum_sublist b.blockLog eosioNum)

/-- A call that reaches neither log leaves the instances as they are. -/
theorem Twin.trimBlocks (h : Twin account b t) : Twin account b t.trimBlocks :=
  .of_trimOf h.blocks h.state h.trimOf h.sorted

/-- The result of a call on an instance, and the instance that is left. -/
abbrev Outcome := Except Failure Bool × MicroChain

/-- Both instances return the same, or both abort; and when they return they are twins
once the second one is trimmed. -/
def Alike (account : Name) (r r' : Outcome) : Prop :=
  r.1.toOption = r'.1.toOption ∧ (r.1.toOption.isSome → Twin account r.2 r'.2.trimBlocks)

theorem Twin.alike_error (failure : Failure) :
    Alike account (.error failure, b) (.error failure, t) := ⟨rfl, nofun⟩

/-- **A pushed JSON block** is taken by both instances or by neither. -/
theorem Twin.pushJson (h : Twin account b t) (sha256 : Bytes → Checksum256)
    (jsonBlock : Except String EosioBlock) (irreversible : UInt32) :
    Alike account ((Call.addEosioBlockJson jsonBlock irreversible).exec sha256 b)
      ((Call.addEosioBlockJson jsonBlock irreversible).exec sha256 t) := by
  cases jsonBlock with
  | error e => exact alike_error _
  | ok block => exact h.addEosioBlock sha256 block irreversible

/-- **A pushed state-history message** is taken by both instances or by neither. -/
theorem Twin.pushShip (h : Twin account b t) (sha256 : Bytes → Checksum256)
    (shipMessage : Except String ShipResult) :
    Alike account ((Call.pushShipMessage shipMessage).exec sha256 b)
      ((Call.pushShipMessage shipMessage).exec sha256 t) := by
  match shipMessage with
  | .error e => exact alike_error _
  | .ok .getStatusResult => exact ⟨rfl, fun _ => h.trimBlocks⟩
  | .ok (.getBlocksResult r) =>
    simp only [Call.exec, MicroChain.decoding, MicroChain.addShipResult]
    split
    · exact alike_error _
    · split
      · exact alike_error _
      · exact h.addEosioBlock sha256 _ _

/-- Every call of the storage is taken by both instances or by neither. -/
theorem Twin.exec (h : Twin account b t) (sha256 : Bytes → Checksum256) (call : StorageCall) :
    (call.toCall.exec sha256 b).1.toOption = (call.toCall.exec sha256 t).1.toOption := by
  cases call with
  | pushJsonBlock jsonBlock irreversible => exact (h.pushJson sha256 jsonBlock irreversible).1
  | pushShipMessage shipMessage => exact (h.pushShip sha256 shipMessage).1
  | undoEosioNum eosioNum => rfl

/-- Twins hold the same chain and the same rows. -/
theorem Twin.same (h : Twin account b t) :
    t.blockLog.head = b.blockLog.head ∧ t.blockLog.irreversible = b.blockLog.irreversible ∧
      t.db.greetings.rows = b.db.greetings.rows ∧
      t.db.greetings.nextId = b.db.greetings.nextId ∧
      t.blockLog.blocks =
        b.blockLog.blocks.filter fun block => decide (b.blockLog.irreversible ≤ block.num) := by
  have hirr : t.blockLog.irreversible = b.blockLog.irreversible := by
    rw [h.log]
    rfl
  have hchain : b.blockLog.trimmedBy ++ t.blockLog.blocks = [] ++ b.blockLog.blocks := by
    rw [h.log]
    exact trimmedBy_append_trim _
  have hsnap : t.db.greetings.content.snapshot = b.db.greetings.content.snapshot := by
    rw [h.state.table.current, h.blocks.table.current, hchain, hirr]
  refine ⟨?_, hirr, ?_, congrArg Snapshot.nextId hsnap, ?_⟩
  · have hhead : ∀ {pre : List BlockWithId}, b.blockLog.blocks = pre ++ t.blockLog.blocks →
        (pre = [] ∨ t.blockLog.blocks ≠ []) →
        t.blockLog.blocks.getLast? = b.blockLog.blocks.getLast? := by
      rintro pre hpre (rfl | hne)
      · rw [hpre, List.nil_append]
      · rw [hpre, List.getLast?_append_of_ne_nil _ hne]
    refine hhead h.trimOf.blocks (h.trimOf.start.imp_right ?_)
    rintro ⟨first, hfirst, -⟩ hnil
    simp [hnil] at hfirst
  · rw [h.state.table.store.rows_eq, h.blocks.table.store.rows_eq, hsnap]
  · rw [h.log, trim_eq_filter h.blocks.log]

end Twin

/-! ## Runs of the storage -/

namespace Storage

/-- Both instances are there and are twins, or both have been dropped. -/
def Twins (account : Name) (s : Storage) : Prop :=
  (∃ b t, s.blocksWasm = some b ∧ s.stateWasm = some t ∧ Twin account b t) ∨
    s.blocksWasm = none ∧ s.stateWasm = none

theorem changed_wasm (s : Storage) :
    s.changed.blocksWasm = s.blocksWasm ∧ s.changed.stateWasm = s.stateWasm := by
  rw [changed]
  split <;> exact ⟨rfl, rfl⟩

variable {account : Name} {s : Storage}

/-- A protected method keeps the twins when each run that returns does. -/
theorem twins_protect {α : Type} (h : s.Twins account)
    {f : MicroChain → MicroChain → Except Failure (α × MicroChain × MicroChain)}
    (hf : ∀ b t a b' t', Twin account b t → f b t = .ok (a, b', t') → Twin account b' t') :
    (thenChanged (s.protect f)).2.Twins account := by
  rcases h with ⟨b, t, hb, ht, htwin⟩ | ⟨hb, ht⟩
  · rw [protect, hb, ht]
    dsimp only
    cases hrun : f b t with
    | error e => exact .inr ⟨rfl, rfl⟩
    | ok r =>
      obtain ⟨a, b', t'⟩ := r
      refine .inl ⟨b', t', ?_, ?_, hf b t a b' t' htwin hrun⟩
      · exact (changed_wasm _).1
      · exact (changed_wasm _).2
  · rw [protect, hb, ht]
    exact .inr ⟨hb, ht⟩

/-- What `Subchain.pushJsonBlock` returns comes from a call that returned. -/
theorem pushJsonBlock_ok {sha256 : Bytes → Checksum256} {m m' : MicroChain}
    {jsonBlock : Except String EosioBlock} {irreversible : UInt32} {r : Option PushedBlock}
    (h : Box.pushJsonBlock sha256 m jsonBlock irreversible = .ok (r, m')) :
    ∃ added, (Call.addEosioBlockJson jsonBlock irreversible).exec sha256 m = (.ok added, m') := by
  rw [Box.pushJsonBlock] at h
  split at h
  · cases h
  · next added m₁ hexec =>
    refine ⟨added, hexec.trans ?_⟩
    dsimp only at h
    split at h
    · cases h
      rfl
    · obtain ⟨num, -, h⟩ := ok_of_bind h
      cases h
      rfl

theorem pushShipMessage_ok {sha256 : Bytes → Checksum256} {m m' : MicroChain}
    {shipMessage : Except String ShipResult} {r : Bool}
    (h : Box.pushShipMessage sha256 m shipMessage = .ok (r, m')) :
    ∃ added, (Call.pushShipMessage shipMessage).exec sha256 m = (.ok added, m') := by
  rw [Box.pushShipMessage] at h
  split at h
  · cases h
  · next added m₁ hexec =>
    cases h
    exact ⟨_, hexec⟩

/-- A push runs its call on both instances, then trims the second. -/
theorem twins_push {α : Type} (h : s.Twins account) {sha256 : Bytes → Checksum256} {call : Call}
    {push : MicroChain → Except Failure (α × MicroChain)}
    (hok : ∀ m r m', push m = .ok (r, m') → ∃ added, call.exec sha256 m = (.ok added, m'))
    (halike : ∀ b t, Twin account b t →
      Alike account (call.exec sha256 b) (call.exec sha256 t)) :
    Twins account (thenChanged (s.protect fun blocksWasm stateWasm => do
      let (result, blocksWasm) ← push blocksWasm
      let (_, stateWasm) ← push stateWasm
      .ok (result, blocksWasm, stateWasm.trimBlocks))).2 := by
  refine twins_protect h fun b t a b' t' htwin hrun => ?_
  -- an exception of either push leaves the storage as it was
  obtain ⟨⟨r, b₁⟩, hb, hrun⟩ := ok_of_bind hrun
  obtain ⟨⟨r', t₁⟩, ht, hrun⟩ := ok_of_bind hrun
  cases hrun
  obtain ⟨x, hx⟩ := hok b _ _ hb
  obtain ⟨y, hy⟩ := hok t _ _ ht
  have htwins := (halike b t htwin).2
  rw [hx, hy] at htwins
  exact htwins rfl

/-- **One call** of the storage. -/
theorem twins_exec (h : s.Twins account) (sha256 : Bytes → Checksum256) (call : StorageCall) :
    (call.exec sha256 s).Twins account := by
  cases call with
  | undoEosioNum eosioNum =>
    refine twins_protect h fun b t _ b' t' htwin hrun => ?_
    cases hrun
    exact htwin.undoEosioNum eosioNum
  | pushJsonBlock jsonBlock irreversible =>
    exact twins_push h (fun m r m' => pushJsonBlock_ok)
      fun b t htwin => htwin.pushJson sha256 jsonBlock irreversible
  | pushShipMessage shipMessage =>
    exact twins_push h (fun m r m' => pushShipMessage_ok)
      fun b t htwin => htwin.pushShip sha256 shipMessage

theorem twins_instantiate (account : Name) : (instantiate account).Twins account := by
  have h : ChainInv account [] { starterAccount := account } := ChainRun.inv_start account
  exact .inl ⟨_, _, rfl, rfl, h, h, rfl, .nil⟩

theorem twins_run (h : s.Twins account) (sha256 : Bytes → Checksum256) (calls : List StorageCall) :
    (s.run sha256 calls).Twins account := by
  induction calls generalizing s with
  | nil => exact h
  | cons call calls ih => exact ih (twins_exec h sha256 call)

/-- **Trimming is unobservable**: after every run of the storage in which no instance
has aborted, both instances take or refuse the next push alike, have the same head, the
same `irreversible` and the same rows, and the log of `stateWasm` is the part of the log
of `blocksWasm` from `irreversible` on. -/
theorem run_twin (sha256 : Bytes → Checksum256) (account : Name) (calls : List StorageCall)
    (b : MicroChain) (hb : ((instantiate account).run sha256 calls).blocksWasm = some b) :
    ∃ t, ((instantiate account).run sha256 calls).stateWasm = some t ∧
      (∀ call : StorageCall, (call.toCall.exec sha256 b).1.toOption =
        (call.toCall.exec sha256 t).1.toOption) ∧
      t.blockLog.head = b.blockLog.head ∧ t.blockLog.irreversible = b.blockLog.irreversible ∧
      t.db.greetings.rows = b.db.greetings.rows ∧
      t.db.greetings.nextId = b.db.greetings.nextId ∧
      t.blockLog.blocks =
        b.blockLog.blocks.filter fun block => decide (b.blockLog.irreversible ≤ block.num) := by
  rcases twins_run (twins_instantiate account) sha256 calls with
    ⟨b', t, hb', ht, htwin⟩ | ⟨hnone, -⟩
  · obtain rfl : b' = b := Option.some.inj (hb'.symm.trans hb)
    exact ⟨t, ht, htwin.exec sha256, htwin.same⟩
  · rw [hb] at hnone
    cases hnone

/-- A block, one that is final at once, and a stale one. -/
def exampleCalls : List StorageCall :=
  [.pushJsonBlock (.ok (ChainRun.hiBlock (Name.ofString "starter") 5)) 0,
    .pushJsonBlock (.ok (ChainRun.hiBlock (Name.ofString "starter") 8)) 8,
    .pushJsonBlock (.ok (ChainRun.hiBlock (Name.ofString "starter") 4)) 8]

theorem run_twin_example :
    let s := (instantiate (Name.ofString "starter")).run (fun _ => {}) exampleCalls
    ∃ b t, s.blocksWasm = some b ∧ s.stateWasm = some t ∧ t.blockLog.head = b.blockLog.head := by
  intro s
  have hsome : s.blocksWasm.isSome := by decide +kernel
  obtain ⟨b, hb⟩ := Option.isSome_iff_exists.mp hsome
  obtain ⟨t, ht, -, hhead, -⟩ := run_twin (fun _ => {}) (Name.ofString "starter") exampleCalls b hb
  exact ⟨b, t, hb, ht, hhead⟩

end Storage

end Microchain.Box
