import Microchain.Box.ShipReceiver
import Microchain.Box.Twin
import Microchain.Lib.Splice

/-!
# A node's blocks in the storage

A storage that gets nothing but the blocks of a node, each with the number behind the one
before it, has in its log what is made of consecutive blocks (`logged`). A block that comes
then is put at its place (`Tracks.push`): nothing happens if it is there already, and
otherwise what is there and behind goes. The ids are hashes, so that a block is told from
another one only as far as these are (`Apart`).
-/

namespace Microchain.Box

open Eosio Subchain Starter BlockLog Lib

/-! ## What is made of the blocks -/

section Logged

variable (sha256 : Bytes → Checksum256)

/-- The block that is logged behind others. -/
def loggedOn (blocks : List BlockWithId) (eosioBlock : EosioBlock) : BlockWithId :=
  MicroChain.withId sha256
    { num := UInt32.ofNat (blocks.length + 1)
      previous := (blocks.getLast?.map (·.id)).getD {}
      eosioBlock }

/-- The log of a list of eosio blocks. -/
def logged (eosioBlocks : List EosioBlock) : List BlockWithId :=
  eosioBlocks.foldl (fun blocks eosioBlock => blocks ++ [loggedOn sha256 blocks eosioBlock]) []

/-- The ids tell the blocks of these branches from one another. -/
def Apart (branches : List (List EosioBlock)) : Prop :=
  ∀ c ∈ branches, ∀ c' ∈ branches, ∀ p ∈ (logged sha256 c).zip (logged sha256 c'),
    p.1.id = p.2.id → p.1.eosioBlock = p.2.eosioBlock

instance (branches : List (List EosioBlock)) : Decidable (Apart sha256 branches) :=
  inferInstanceAs (Decidable (∀ c ∈ branches, ∀ c' ∈ branches,
    ∀ p ∈ (logged sha256 c).zip (logged sha256 c'),
      p.1.id = p.2.id → p.1.eosioBlock = p.2.eosioBlock))

variable {l l' : List EosioBlock}

theorem logged_concat (l : List EosioBlock) (eosioBlock : EosioBlock) :
    logged sha256 (l ++ [eosioBlock]) =
      logged sha256 l ++ [loggedOn sha256 (logged sha256 l) eosioBlock] := by
  rw [logged, List.foldl_append]
  rfl

theorem logged_map (l : List EosioBlock) : (logged sha256 l).map (·.eosioBlock) = l := by
  induction l using List.reverseRecOn with
  | nil => rfl
  | append_singleton l eosioBlock ih =>
    rw [logged_concat, List.map_append, ih]
    rfl

theorem logged_length (l : List EosioBlock) : (logged sha256 l).length = l.length := by
  rw [← List.length_map (·.eosioBlock), logged_map]

theorem logged_isPrefix (h : l <+: l') : logged sha256 l <+: logged sha256 l' := by
  obtain ⟨rest, rfl⟩ := h
  induction rest using List.reverseRecOn with
  | nil => exact ⟨[], by rw [List.append_nil, List.append_nil]⟩
  | append_singleton rest eosioBlock ih =>
    rw [← List.append_assoc, logged_concat]
    exact ih.trans (List.prefix_append _ _)

theorem logged_take (l : List EosioBlock) (i : Nat) :
    (logged sha256 l).take i = logged sha256 (l.take i) := by
  have hprefix := logged_isPrefix sha256 (List.take_prefix i l)
  obtain ⟨rest, hrest⟩ := hprefix
  have hlen := logged_length sha256 (l.take i)
  rcases Nat.le_total i l.length with hle | hge
  · rw [List.length_take, Nat.min_eq_left hle] at hlen
    rw [← hrest]
    exact List.take_left' hlen
  · rw [List.take_of_length_le hge, List.take_of_length_le]
    rwa [logged_length]

theorem logged_eosioBlock {i : Nat} {b : BlockWithId} (hb : (logged sha256 l)[i]? = some b) :
    l[i]? = some b.eosioBlock := by
  rw [← logged_map sha256 l, List.getElem?_map, hb]
  rfl

/-- The block at a place. -/
theorem getElem_logged {i : Nat} (hi : i < l.length) :
    (logged sha256 l)[i]? = some (loggedOn sha256 (logged sha256 (l.take i)) l[i]) := by
  have hprefix := logged_isPrefix sha256 (List.take_prefix (i + 1) l)
  rw [List.take_succ_eq_append_getElem hi, logged_concat] at hprefix
  obtain ⟨rest, hrest⟩ := hprefix
  have hlen : (logged sha256 (l.take i)).length = i := by
    rw [logged_length, List.length_take, Nat.min_eq_left (Nat.le_of_lt hi)]
  rw [← hrest, List.append_assoc, List.getElem?_append_right (Nat.le_of_eq hlen), hlen,
    Nat.sub_self]
  rfl

end Logged

/-! ## The log -/

/-- Consecutive numbers. -/
def Numbered (firstBlock : UInt32) (l : List EosioBlock) : Prop :=
  ∀ (i : Nat) e, l[i]? = some e → e.num.toNat = firstBlock.toNat + i

section Log

variable {sha256 : Bytes → Checksum256} {firstBlock : UInt32} {log : BlockLog}
  {l : List EosioBlock} {eosioBlock : EosioBlock} {i : Nat}

theorem getEosioNum_logged (hlog : log.blocks = logged sha256 l) (hnum : Numbered firstBlock l)
    {j : Nat} (hj : j < log.blocks.length) :
    (getEosioNum log.blocks[j]).toNat = firstBlock.toNat + j := by
  refine hnum j _ ?_
  rw [← logged_map sha256 l, ← hlog, List.getElem?_map, List.getElem?_eq_getElem hj]
  rfl

/-- A number behind those that are there is searched to its place. -/
theorem lowerBoundByEosioNum_logged (hlog : log.blocks = logged sha256 l)
    (hnum : Numbered firstBlock l) {num : UInt32} (hi : i ≤ l.length)
    (heosio : num.toNat = firstBlock.toNat + i) : log.lowerBoundByEosioNum num = i := by
  have hlen : log.blocks.length = l.length := by rw [hlog, logged_length]
  refine lowerBound_eq_of_partitioned ?_ (hlen ▸ hi) (fun j hj hlt => ?_) fun j hj hle => ?_
  · refine List.pairwise_iff_getElem.mpr fun j k hj hk hjk hlt => decide_eq_true ?_
    have hlt := of_decide_eq_true hlt
    rw [UInt32.lt_iff_toNat_lt, getEosioNum_logged hlog hnum] at hlt ⊢
    omega
  · refine decide_eq_true (UInt32.lt_iff_toNat_lt.mpr ?_)
    rw [getEosioNum_logged hlog hnum hj, heosio]
    omega
  · rw [decide_eq_true_eq, UInt32.lt_iff_toNat_lt, getEosioNum_logged hlog hnum hj, heosio]
    omega

/-- **The block that is built** is that behind the ones in front of its place. -/
theorem nextBlock_logged (hlog : log.blocks = logged sha256 l) (hnum : Numbered firstBlock l)
    (hfirst : 0 < firstBlock) (hi : i ≤ l.length)
    (heosio : eosioBlock.num.toNat = firstBlock.toNat + i) (hone : NumberedFromOne log) :
    MicroChain.withId sha256 (MicroChain.nextBlock log eosioBlock) =
      loggedOn sha256 (logged sha256 (l.take i)) eosioBlock := by
  have hlen : (logged sha256 (l.take i)).length = i := by
    rw [logged_length, List.length_take, Nat.min_eq_left hi]
  have hplace := lowerBoundByEosioNum_logged hlog hnum hi heosio
  rw [MicroChain.nextBlock, blockBeforeEosioNum, hplace]
  rw [loggedOn, hlen]
  congr 1
  cases i with
  | zero => rfl
  | succ i =>
    have hi' : i < log.blocks.length := by
      rw [hlog, logged_length]
      exact hi
    rw [before_succ, List.getElem?_eq_getElem hi']
    have hlast : (logged sha256 (l.take (i + 1))).getLast? = some log.blocks[i] := by
      rw [← logged_take, ← hlog, List.take_succ_eq_append_getElem hi', List.getLast?_concat]
    rw [hlast]
    have hsucc : log.blocks[i].num + 1 = UInt32.ofNat (i + 1 + 1) := by
      have hroom : i + 1 + 1 < 2 ^ 32 := by
        have := eosioBlock.num.toNat_lt
        rw [UInt32.lt_iff_toNat_lt] at hfirst
        change 0 < firstBlock.toNat at hfirst
        omega
      rw [← UInt32.toNat_inj, UInt32.toNat_add, hone i hi', UInt32.toNat_ofNat_of_lt' hroom]
      exact Nat.mod_eq_of_lt hroom
    show ({ num := log.blocks[i].num + 1, previous := log.blocks[i].id, eosioBlock } : Block) = _
    rw [hsucc]
    rfl

/-- **The log takes the block**, unless it has one with the same id there. -/
theorem addBlock_logged (hwf : log.WellFormed) (hone : NumberedFromOne log)
    (hlog : log.blocks = logged sha256 l) (hfirst : 0 < firstBlock) (hi : i ≤ l.length)
    (heosio : eosioBlock.num.toNat = firstBlock.toNat + i)
    (hfinal : i < log.irreversible.toNat → l[i]? = some eosioBlock) :
    let bi := loggedOn sha256 (logged sha256 (l.take i)) eosioBlock
    (∃ b, (logged sha256 l)[i]? = some b ∧ b.id = bi.id) ∧ (log.addBlock bi).1 ≠ .appended ∧
        (log.addBlock bi).2.2 = log ∨
      (log.addBlock bi).1 = .appended ∧
        (log.addBlock bi).2.2 =
          { log with blocks := logged sha256 (l.take i ++ [eosioBlock]) } := by
  intro bi
  have hlen : (logged sha256 (l.take i)).length = i := by
    rw [logged_length, List.length_take, Nat.min_eq_left hi]
  have hloglen : log.blocks.length = l.length := by rw [hlog, logged_length]
  have hroom : i + 1 < 2 ^ 32 := by
    have := eosioBlock.num.toNat_lt
    rw [UInt32.lt_iff_toNat_lt] at hfirst
    change 0 < firstBlock.toNat at hfirst
    omega
  have hbinum : bi.num.toNat = i + 1 := by
    show (UInt32.ofNat ((logged sha256 (l.take i)).length + 1)).toNat = _
    rw [hlen, UInt32.toNat_ofNat_of_lt' hroom]
  have hit : log.lowerBoundByNum bi.num = i := by
    obtain ⟨hle, hlow, hhigh⟩ := lowerBoundByNum_spec hwf.linked bi.num
    rcases Nat.lt_trichotomy (log.lowerBoundByNum bi.num) i with hlt | heq | hgt
    · have hin : log.lowerBoundByNum bi.num < log.blocks.length := by omega
      have := hhigh _ hin (Nat.le_refl _)
      rw [UInt32.le_iff_toNat_le, hone _ hin] at this
      omega
    · exact heq
    · have hin : i < log.blocks.length := by omega
      have := hlow i hin hgt
      rw [UInt32.lt_iff_toNat_lt, hone _ hin] at this
      omega
  by_cases hsame : (log.blocks[i]?).any (fun b => bi.id = b.id)
  · -- a duplicate
    left
    obtain ⟨b, hb, hid⟩ := (Option.any_eq_true _ _).mp hsame
    have hadd : log.addBlock bi = (.duplicate, 0, log) := by
      rw [addBlock, hit]
      exact if_pos hsame
    rw [hadd]
    refine ⟨⟨b, hlog ▸ hb, (of_decide_eq_true hid).symm⟩, fun h => ?_, rfl⟩
    cases h
  · -- it links to the block in front of it, and nothing final is behind that
    right
    have hstart : ¬ (i = 0 ∧ bi.num ≠ 1) := by
      rintro ⟨rfl, hne⟩
      exact hne (UInt32.toNat_inj.mp (by rw [hbinum]; rfl))
    have hlink : ¬ (log.before i).any (fun b => bi.previous ≠ b.id ∨ bi.num ≠ b.num + 1) := by
      intro hany
      obtain ⟨prev, hprev, hne⟩ := (Option.any_eq_true _ _).mp hany
      obtain ⟨j, hj, rfl, rfl⟩ := before_eq_some hprev
      have hlast : (logged sha256 (l.take (j + 1))).getLast? = some log.blocks[j] := by
        rw [← logged_take, ← hlog, List.take_succ_eq_append_getElem hj, List.getLast?_concat]
      have hprevious : bi.previous = log.blocks[j].id := by
        show ((logged sha256 (l.take (j + 1))).getLast?.map (·.id)).getD {} = _
        rw [hlast]
        rfl
      have hsucc : bi.num = log.blocks[j].num + 1 := by
        rw [← UInt32.toNat_inj, hbinum, UInt32.toNat_add, hone j hj]
        exact (Nat.mod_eq_of_lt hroom).symm
      simp [hprevious, hsucc] at hne
    have hirr : ¬ (log.blocks[i]?).any (fun b => b.num ≤ log.irreversible) := by
      intro hany
      obtain ⟨b, hb, hle⟩ := (Option.any_eq_true _ _).mp hany
      obtain ⟨hi', rfl⟩ := List.getElem?_eq_some_iff.mp hb
      have hle := of_decide_eq_true hle
      rw [UInt32.le_iff_toNat_le, hone i hi'] at hle
      -- the final block is this one
      have hthere := hfinal hle
      obtain ⟨hil, hvalue⟩ := List.getElem?_eq_some_iff.mp hthere
      refine hsame ?_
      rw [hlog, getElem_logged sha256 hil, hvalue]
      simp [bi]
    have hadd : log.addBlock bi = (.appended, log.blocks.length - i,
        { log with blocks := log.blocks.take i ++ [bi] }) := by
      rw [addBlock, hit]
      simp only [hsame, hlink, hirr, Bool.false_eq_true, if_false, if_neg hstart]
    rw [hadd]
    refine ⟨rfl, ?_⟩
    rw [logged_concat]
    show ({ log with blocks := log.blocks.take i ++ [bi] } : BlockLog) =
      { log with blocks := logged sha256 (l.take i) ++ [bi] }
    rw [← logged_take, ← hlog]

/-- What `add_block` takes for final then. -/
theorem addedLog_irreversible (hlog : log.blocks = logged sha256 l) (hnum : Numbered firstBlock l)
    (hone : NumberedFromOne log) (lib : UInt32) :
    log.irreversible.toNat ≤ (MicroChain.addedLog log lib).irreversible.toNat ∧
      (MicroChain.addedLog log lib).irreversible.toNat ≤
        max log.irreversible.toNat (lib.toNat + 1 - firstBlock.toNat) := by
  refine ⟨UInt32.le_iff_toNat_le.mp (irreversible_le_raiseIrreversible _ _), ?_⟩
  rw [MicroChain.addedLog]
  cases hbefore : log.blockBeforeEosioNum (lib + 1) with
  | none => exact Nat.le_max_left _ _
  | some last =>
    rcases raiseIrreversible_some log last with hirr | hirr
    · rw [hirr]
      exact Nat.le_max_left _ _
    · obtain ⟨j, hj, hit, rfl⟩ := before_eq_some hbefore
      rw [hirr, hone j hj]
      have hpart : Partitioned (fun b => decide (getEosioNum b < lib + 1)) log.blocks := by
        refine List.pairwise_iff_getElem.mpr fun j k hj hk hjk hlt => decide_eq_true ?_
        have hlt := of_decide_eq_true hlt
        rw [UInt32.lt_iff_toNat_lt, getEosioNum_logged hlog hnum] at hlt ⊢
        omega
      have hlast := of_decide_eq_true ((lowerBound_spec hpart).1 j hj
        (show j < log.lowerBoundByEosioNum (lib + 1) by omega))
      rw [UInt32.lt_iff_toNat_lt, getEosioNum_logged hlog hnum hj, UInt32.toNat_add] at hlast
      have hone' : (1 : UInt32).toNat = 1 := rfl
      have := lib.toNat_lt
      refine Nat.le_trans ?_ (Nat.le_max_right _ _)
      omega

theorem Numbered.put (h : Numbered firstBlock l) (hi : i ≤ l.length)
    (heosio : eosioBlock.num.toNat = firstBlock.toNat + i) :
    Numbered firstBlock (l.take i ++ [eosioBlock]) := by
  intro j e he
  have hlen : (l.take i).length = i := by rw [List.length_take, Nat.min_eq_left hi]
  rcases Nat.lt_trichotomy j i with hlt | rfl | hgt
  · rw [List.getElem?_append_left (hlen.symm ▸ hlt), List.getElem?_take_of_lt hlt] at he
    exact h j e he
  · rw [List.getElem?_append_right (Nat.le_of_eq hlen), hlen, Nat.sub_self] at he
    obtain rfl := Option.some.inj he
    exact heosio
  · rw [List.getElem?_eq_none] at he
    · cases he
    · rw [List.length_append, hlen]
      exact hgt

end Log

/-! ## The storage -/

namespace Storage

variable {sha256 : Bytes → Checksum256} {account : Name} {s : Storage} {firstBlock : UInt32}
  {l : List EosioBlock} {told i : Nat}

/-- The storage has the log of these blocks, of which the first `told` are final. -/
def Tracks (sha256 : Bytes → Checksum256) (account : Name) (l : List EosioBlock) (told : Nat)
    (s : Storage) : Prop :=
  ∃ b t, s.blocksWasm = some b ∧ s.stateWasm = some t ∧ Twin account b t ∧
    b.blockLog.blocks = logged sha256 l ∧ b.blockLog.irreversible.toNat = told

theorem tracks_instantiate (sha256 : Bytes → Checksum256) (account : Name) :
    (instantiate account).Tracks sha256 account [] 0 := by
  have h : ChainInv account [] { starterAccount := account } := ChainRun.inv_start account
  exact ⟨_, _, rfl, rfl, ⟨h, h, rfl, .nil⟩, rfl, rfl⟩

theorem Tracks.told_le (h : s.Tracks sha256 account l told) : told ≤ l.length := by
  obtain ⟨b, t, -, -, htwin, hlog, rfl⟩ := h
  have hle := htwin.blocks.irreversible_le
  rwa [List.length_nil, Nat.zero_add, hlog, logged_length] at hle

/-- The message is the eosio block for each instance. -/
theorem exec_message (m : MicroChain) (block : NodeBlock account) (lib : UInt32) :
    (Call.pushShipMessage (.ok (block.message lib))).exec sha256 m =
      m.addEosioBlock sha256 block.eosioBlock lib := by
  show m.addShipResult sha256 (block.message lib) = _
  rw [NodeBlock.message, MicroChain.addShipResult]
  dsimp only
  rw [block.this]
  dsimp only
  rw [block.converts]
  rfl

/-- **One instance.** -/
theorem addEosioBlock_logged {m : MicroChain} (h : ChainInv account [] m)
    (hlog : m.blockLog.blocks = logged sha256 l) (hnum : Numbered firstBlock l)
    (hfirst : 0 < firstBlock) {eosioBlock : EosioBlock} (hdecodes : Decodes account eosioBlock)
    (hi : i ≤ l.length) (heosio : eosioBlock.num.toNat = firstBlock.toNat + i)
    (hfinal : i < m.blockLog.irreversible.toNat → l[i]? = some eosioBlock) (lib : UInt32) :
    let r := m.addEosioBlock sha256 eosioBlock lib
    r.1 = .ok false ∧ r.2.blockLog = m.blockLog ∧ (∃ b, (logged sha256 l)[i]? = some b ∧
        b.id = (loggedOn sha256 (logged sha256 (l.take i)) eosioBlock).id) ∨
      r.1 = .ok true ∧ r.2.blockLog =
        MicroChain.addedLog { m.blockLog with
          blocks := logged sha256 (l.take i ++ [eosioBlock]) } lib := by
  intro r
  have hone := numberedFromOne h
  obtain ⟨bi, hbi⟩ : ∃ bi, loggedOn sha256 (logged sha256 (l.take i)) eosioBlock = bi := ⟨_, rfl⟩
  obtain ⟨result, hr⟩ : ∃ result, r =
      ({ m with result } : MicroChain).addBlockWithId bi lib :=
    ⟨_, by rw [← hbi, ← nextBlock_logged hlog hnum hfirst hi heosio hone]; rfl⟩
  have hadd := addBlock_logged h.log hone hlog hfirst hi heosio hfinal
  dsimp only at hadd
  rw [hbi] at hadd ⊢
  rw [hr, MicroChain.addBlockWithId_blockLog]
  rcases hadd with ⟨hthere, hrefused⟩ | ⟨hst, hblocks⟩
  · left
    rw [addBlockIrreversible_of_refused hrefused]
    rcases (h.setResult result).addBlockWithId bi lib with ⟨-, heq⟩ | ⟨hst, -⟩ | ⟨hst, -⟩
    · rw [heq]
      exact ⟨rfl, rfl, hthere⟩
    · exact absurd hst hrefused.1
    · exact absurd hst hrefused.1
  · right
    constructor
    · rcases (h.setResult result).addBlockWithId bi lib with
        ⟨hne, -⟩ | ⟨-, -, hok, -⟩ | ⟨-, hnot, -⟩
      · exact absurd hst hne
      · exact hok
      · exact absurd (hbi ▸ hdecodes) hnot
    · show (m.blockLog.addBlockIrreversible bi lib).2.2 = _
      rw [BlockLog.addBlockIrreversible]
      generalize hadded : m.blockLog.addBlock bi = added at hst hblocks
      obtain ⟨st, numForked, log⟩ := added
      dsimp only at hst hblocks
      subst hst
      rw [← hblocks]
      rfl

/-- **The storage gets a block** behind some of those it has: it never throws. -/
theorem Tracks.push (h : s.Tracks sha256 account l told) (hnum : Numbered firstBlock l)
    (hfirst : 0 < firstBlock) {block : NodeBlock account} (hi : i ≤ l.length)
    (heosio : block.eosioBlock.num.toNat = firstBlock.toNat + i)
    (hfinal : i < told → l[i]? = some block.eosioBlock) (lib : UInt32) :
    ∃ added s' l' told', s.pushShipMessage sha256 (.ok (block.message lib)) = (.ok added, s') ∧
      s'.Tracks sha256 account l' told' ∧
      ((∃ b, (logged sha256 l)[i]? = some b ∧
          b.id = (loggedOn sha256 (logged sha256 (l.take i)) block.eosioBlock).id) ∧
          l' = l ∧ told' = told ∨
        l' = l.take i ++ [block.eosioBlock] ∧ told ≤ told' ∧
          told' ≤ max told (lib.toNat + 1 - firstBlock.toNat)) := by
  obtain ⟨b, t, hb, ht, htwin, hlog, rfl⟩ := h
  obtain ⟨halike, htwin'⟩ := htwin.addEosioBlock sha256 block.eosioBlock lib
  have hadded := addEosioBlock_logged htwin.blocks hlog hnum hfirst
    (show Decodes account block.eosioBlock from block.decodes) hi heosio hfinal lib
  generalize hr : b.addEosioBlock sha256 block.eosioBlock lib = r at halike htwin'
  generalize hr' : t.addEosioBlock sha256 block.eosioBlock lib = r' at halike htwin'
  obtain ⟨added, b'⟩ := r
  obtain ⟨added', t'⟩ := r'
  dsimp only at hadded
  rw [hr] at hadded
  -- both instances return, and the same
  have hreturns : ∃ value, added = .ok value := by
    rcases hadded with ⟨hok, -⟩ | ⟨hok, -⟩
    · exact ⟨_, hok⟩
    · exact ⟨_, hok⟩
  obtain ⟨value, rfl⟩ := hreturns
  cases added' with
  | error e => cases halike
  | ok value' =>
    have hpush : ∀ {m m' : MicroChain} {value : Bool},
        m.addEosioBlock sha256 block.eosioBlock lib = (.ok value, m') →
        Box.pushShipMessage sha256 m (.ok (block.message lib)) = .ok (value, m') := by
      intro m m' value hm
      rw [Box.pushShipMessage, exec_message, hm]
    obtain ⟨s', hpushed, hb', ht'⟩ : ∃ s', s.pushShipMessage sha256 (.ok (block.message lib)) =
        (.ok value, s') ∧ s'.blocksWasm = some b' ∧ s'.stateWasm = some t'.trimBlocks := by
      rw [pushShipMessage, protect, hb, ht]
      dsimp only [bind, Except.bind]
      rw [hpush hr]
      dsimp only
      rw [hpush hr']
      refine ⟨_, rfl, ?_, ?_⟩
      · exact (changed_wasm _).1
      · exact (changed_wasm _).2
    have htwins : Twin account b' t'.trimBlocks := htwin' rfl
    rcases hadded with ⟨-, hsame, hthere⟩ | ⟨-, hnew⟩
    · dsimp only at hsame
      refine ⟨value, s', l, _, hpushed, ⟨b', _, hb', ht', htwins, ?_, rfl⟩, .inl ⟨hthere, rfl, ?_⟩⟩
      · rw [hsame, hlog]
      · rw [hsame]
    · dsimp only at hnew
      have hblocks : b'.blockLog.blocks = logged sha256 (l.take i ++ [block.eosioBlock]) := by
        rw [hnew, MicroChain.addedLog, raiseIrreversible_blocks]
      have hone : NumberedFromOne
          { b.blockLog with blocks := logged sha256 (l.take i ++ [block.eosioBlock]) } := by
        intro j hj
        have hone' := numberedFromOne htwins.blocks j (hblocks ▸ hj)
        simp only [hblocks] at hone'
        exact hone'
      refine ⟨value, s', _, _, hpushed, ⟨b', _, hb', ht', htwins, hblocks, rfl⟩, .inr ⟨rfl, ?_⟩⟩
      rw [hnew]
      exact addedLog_irreversible rfl (hnum.put hi heosio) hone lib

end Storage

end Microchain.Box
