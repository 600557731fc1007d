import Microchain.Feed.BlockBytes
import Microchain.Lib.Replica
import Microchain.Sync.Protocol

/-!
# A client is a replica

What the box sends are updates of a replica (`encode`). A client that shows a replica
and gets an update that the replica accepts shows the updated replica, whatever it has
trimmed away in between (`Shows.exec`). The blocks come from the chains that the box has
had, and two of these that have one id somewhere are the same up to there.

`final` of the replica bounds `irreversible` of the client: for a client a block with the
eosio number 0 is final at once, because the bound that it pushes blocks with is 0.
-/

namespace Microchain.Sync

open Eosio Subchain Starter Box Feed BlockLog Lib Chainbase Graphql

/-! ## The chains of the box -/

/-- What all chains of the box have in common. -/
structure Valid (sha256 : Bytes → Checksum256) (account : Name) (chain : List BlockWithId) :
    Prop where
  linked : chain.IsChain Linked
  first : ∀ b ∈ chain.head?, b.num = 1
  isSealed : ∀ b ∈ chain, Sealed sha256 b
  decodes : ∀ b ∈ chain, Decodes account b.eosioBlock

/-- Chains without a collision between any two. -/
structure History (sha256 : Bytes → Checksum256) (account : Name)
    (chains : List (List BlockWithId)) : Prop where
  valid : ∀ chain ∈ chains, Valid sha256 account chain
  free : CollisionFree sha256 chains.flatten chains.flatten

/-- A beginning of one of the chains. -/
def Seen (chains : List (List BlockWithId)) (chain : List BlockWithId) : Prop :=
  ∃ whole ∈ chains, chain <+: whole

section Chains

variable {sha256 : Bytes → Checksum256} {account : Name} {chains : List (List BlockWithId)}
  {chain chain' : List BlockWithId}

theorem Valid.of_isPrefix (h : Valid sha256 account chain) (hinit : chain' <+: chain) :
    Valid sha256 account chain' where
  linked := h.linked.prefix hinit
  first := Behind.first_of_isPrefix hinit h.first
  isSealed b hb := h.isSealed b (hinit.subset hb)
  decodes b hb := h.decodes b (hinit.subset hb)

theorem Valid.num (h : Valid sha256 account chain) {i : Nat} (hi : i < chain.length) :
    (chain[i]).num.toNat = i + 1 := num_chain h.linked h.first hi

theorem Valid.length_lt (h : Valid sha256 account chain) : chain.length < 2 ^ 32 := by
  rcases Nat.eq_zero_or_pos chain.length with h0 | hpos
  · omega
  · have hnum := h.num (show chain.length - 1 < chain.length by omega)
    have hlt := (chain[chain.length - 1]).num.toNat_lt
    omega

theorem Seen.of_isPrefix (h : Seen chains chain) (hinit : chain' <+: chain) :
    Seen chains chain' := by
  obtain ⟨whole, hwhole, hpre⟩ := h
  exact ⟨whole, hwhole, hinit.trans hpre⟩

theorem Seen.append (h : Seen chains chain) (more : List (List BlockWithId)) :
    Seen (chains ++ more) chain := by
  obtain ⟨whole, hwhole, hpre⟩ := h
  exact ⟨whole, List.mem_append_left _ hwhole, hpre⟩

theorem getLast?_take_succ {l : List BlockWithId} {i : Nat} (hi : i < l.length) :
    (l.take (i + 1)).getLast? = some l[i] := by
  rw [List.getLast?_take, if_neg (Nat.succ_ne_zero i), Nat.add_sub_cancel,
    List.getElem?_eq_getElem hi]
  rfl

theorem Seen.mem_flatten (hc : Seen chains chain) {b : BlockWithId} (hb : b ∈ chain) :
    b ∈ chains.flatten := by
  obtain ⟨whole, hwhole, hpre⟩ := hc
  exact List.mem_flatten.mpr ⟨whole, hwhole, hpre.subset hb⟩

namespace History

variable (h : History sha256 account chains)
include h

theorem seen (hc : Seen chains chain) : Valid sha256 account chain := by
  obtain ⟨whole, hwhole, hpre⟩ := hc
  exact (h.valid whole hwhole).of_isPrefix hpre

/-- Blocks with one id. -/
theorem eq_of_id (hc : Seen chains chain) (hc' : Seen chains chain') {b b' : BlockWithId}
    (hb : b ∈ chain) (hb' : b' ∈ chain') (hid : b.id = b'.id) : b = b' :=
  Feed.eq_of_id ((h.seen hc).isSealed b hb) ((h.seen hc').isSealed b' hb')
    (h.free b (hc.mem_flatten hb) b' (hc'.mem_flatten hb')) hid

/-- **Chains that have one id at one place** are the same up to there. -/
theorem take_eq (hc : Seen chains chain) (hc' : Seen chains chain') {i : Nat}
    (hi : i < chain.length) (hi' : i < chain'.length) (hid : (chain[i]).id = (chain'[i]).id) :
    chain.take (i + 1) = chain'.take (i + 1) := by
  have hv := (h.seen hc).of_isPrefix (List.take_prefix (i + 1) chain)
  have hv' := (h.seen hc').of_isPrefix (List.take_prefix (i + 1) chain')
  refine eq_of_last_id hv.linked hv'.linked hv.first hv'.first hv.isSealed hv'.isSealed ?_
    (getLast?_take_succ hi) (getLast?_take_succ hi') hid
  intro b hb b' hb'
  exact h.free b (hc.mem_flatten (List.mem_of_mem_take hb)) b'
    (hc'.mem_flatten (List.mem_of_mem_take hb'))

end History

end Chains

/-! ## Updates as messages -/

/-- What the box sends for an update. -/
def encode : Update BlockWithId → Data
  | .put b _ _ => .blob (blockWithIdToBin b)
  | .cut length => .text { type := .setHead, head := some length }
  | .settle count => .text { type := .setIrreversible, irreversible := some count }

/-- The request for a status. -/
def request : Data := .text { type := .sendStatus }

/-- A replica of the box's history, in which the blocks with the eosio number 0 are
final. -/
structure Genuine (chains : List (List BlockWithId)) (R : Replica BlockWithId) : Prop where
  seen : Seen chains R.chain
  born : ∀ b ∈ R.chain, getEosioNum b = 0 → b.num.toNat ≤ R.final

theorem Genuine.append {chains : List (List BlockWithId)} {R : Replica BlockWithId}
    (h : Genuine chains R) (more : List (List BlockWithId)) : Genuine (chains ++ more) R :=
  ⟨h.seen.append more, h.born⟩

/-- An instance that holds the chain of a replica, and no more of it final. -/
def Shows (account : Name) (m : MicroChain) (R : Replica BlockWithId) : Prop :=
  ∃ trimmed, ChainInv account trimmed m ∧ trimmed ++ m.blockLog.blocks = R.chain ∧
    m.blockLog.irreversible.toNat ≤ R.final

/-! ## One update -/

section Steps

variable {sha256 : Bytes → Checksum256} {account : Name} {chains : List (List BlockWithId)}
  {trimmed : List BlockWithId} {m : MicroChain} {R : Replica BlockWithId}

/-- The blocks up to `irreversible` hold all that is trimmed away. -/
theorem trimmed_le (h : ChainInv account trimmed m) {n : Nat}
    (hn : m.blockLog.irreversible.toNat ≤ n) : trimmed.length ≤ n := by
  rcases h.final with hnil | hlt
  · rw [hnil]
    exact Nat.zero_le n
  · omega

/-- A block of the chain behind what is trimmed away. -/
theorem getElem?_log {chain : List BlockWithId} (hc : trimmed ++ m.blockLog.blocks = chain)
    {n : Nat} (hn : trimmed.length ≤ n) : m.blockLog.blocks[n - trimmed.length]? = chain[n]? := by
  rw [← hc, List.getElem?_append_right hn]

theorem take_log {chain : List BlockWithId} (hc : trimmed ++ m.blockLog.blocks = chain) {n : Nat}
    (hn : trimmed.length ≤ n) : trimmed ++ m.blockLog.blocks.take (n - trimmed.length) =
      chain.take n := by
  rw [← hc, List.take_append, List.take_of_length_le hn]

/-- The place of a number in the log. -/
theorem lowerBoundByNum_eq (h : ChainInv account trimmed m) {n : Nat} {num : UInt32}
    (hnum : num.toNat = n + 1) (htrimmed : trimmed.length ≤ n)
    (hle : n ≤ trimmed.length + m.blockLog.blocks.length) :
    m.blockLog.lowerBoundByNum num = n - trimmed.length := by
  obtain ⟨hlen, hlow, hhigh⟩ := lowerBoundByNum_spec h.log.linked num
  rcases Nat.lt_trichotomy (m.blockLog.lowerBoundByNum num) (n - trimmed.length) with
    hlt | heq | hgt
  · have hi : m.blockLog.lowerBoundByNum num < m.blockLog.blocks.length := by omega
    have hge := UInt32.le_iff_toNat_le.mp (hhigh _ hi (Nat.le_refl _))
    rw [h.num hi] at hge
    omega
  · exact heq
  · have hi : n - trimmed.length < m.blockLog.blocks.length := by omega
    have hlt := UInt32.lt_iff_toNat_lt.mp (hlow _ hi hgt)
    rw [h.num hi] at hlt
    omega

/-- **A block that continues a part of the chain** is appended, when what it replaces is
not final and it is not there already. -/
theorem addBlock_put (h : ChainInv account trimmed m) {chain : List BlockWithId}
    (hc : trimmed ++ m.blockLog.blocks = chain) {b : BlockWithId} {pos : Nat}
    (hirr : m.blockLog.irreversible.toNat ≤ pos) (hpos : pos ≤ chain.length)
    (hnum : b.num.toNat = pos + 1) (hlinked : (chain.take pos ++ [b]).IsChain Linked)
    (hnew : ∀ old ∈ chain[pos]?, b.id ≠ old.id) :
    m.blockLog.addBlock b = (.appended, m.blockLog.blocks.length - (pos - trimmed.length),
      { m.blockLog with blocks := m.blockLog.blocks.take (pos - trimmed.length) ++ [b] }) := by
  have htrimmed := trimmed_le h hirr
  have hlen : chain.length = trimmed.length + m.blockLog.blocks.length := by
    rw [← hc, List.length_append]
  have hit := lowerBoundByNum_eq h hnum htrimmed (by omega)
  rw [BlockLog.addBlock, hit, getElem?_log hc htrimmed]
  dsimp only
  rw [if_neg, if_neg, if_neg, if_neg]
  · -- a block that is there is not final
    rw [Option.any_eq_true]
    rintro ⟨old, hold, hfinal⟩
    obtain ⟨hlt, rfl⟩ := List.getElem?_eq_some_iff.mp hold
    have hold' := getElem?_log hc htrimmed
    rw [hold] at hold'
    obtain ⟨hi, hget⟩ := List.getElem?_eq_some_iff.mp hold'
    have hfinal' := UInt32.le_iff_toNat_le.mp (of_decide_eq_true hfinal)
    rw [← hget, h.num hi] at hfinal'
    omega
  · -- the block before it is the one that it follows
    rw [Option.any_eq_true]
    rintro ⟨prev, hprev, hbad⟩
    obtain ⟨i, hi, hsucc, rfl⟩ := before_eq_some hprev
    have hmem : (m.blockLog.blocks[i]) ∈ (chain.take pos).getLast? := by
      rw [← take_log hc htrimmed, hsucc, List.getLast?_append_of_ne_nil _ (by
        intro hnil
        rw [List.take_eq_nil_iff] at hnil
        rcases hnil with hnil | hnil
        · cases hnil
        · rw [hnil] at hi
          cases hi), getLast?_take_succ hi]
      rfl
    obtain ⟨hnext, hprevious⟩ := (List.isChain_append.mp hlinked).2.2 _ hmem b (by simp)
    have hnum' : b.num = (m.blockLog.blocks[i]).num + 1 := by
      have hlt := b.num.toNat_lt
      rw [← UInt32.toNat_inj, UInt32.toNat_add, hnext]
      exact (Nat.mod_eq_of_lt (by omega)).symm
    rw [decide_eq_true_eq] at hbad
    rcases hbad with hbad | hbad
    · exact hbad hprevious
    · exact hbad hnum'
  · -- at the start of the log it is block 1
    rintro ⟨h0, hne⟩
    refine hne (UInt32.toNat_inj.mp ?_)
    rcases h.final with hnil | hlt
    · have hpos0 : pos = 0 := by
        rw [hnil, List.length_nil] at h0
        omega
      rw [hnum, hpos0]
      rfl
    · omega
  · rw [Option.any_eq_true]
    rintro ⟨old, hold, hid⟩
    exact hnew old hold (of_decide_eq_true hid)

/-- The block that the bound of a push makes final has at most that eosio number. -/
theorem getEosioNum_lt_of_before {log : BlockLog} {n : UInt32} {b : BlockWithId}
    (h : log.blockBeforeEosioNum n = some b) : b ∈ log.blocks ∧ getEosioNum b < n := by
  obtain ⟨i, hi, hit, rfl⟩ := before_eq_some h
  have hprev := lowerBound_prev hit
  rw [List.getElem?_eq_getElem hi, Option.any_some, decide_eq_true_eq] at hprev
  exact ⟨List.getElem_mem hi, hprev⟩

theorem num_lt_of_before {log : BlockLog} (h : log.blocks.IsChain Linked) {n : UInt32}
    {b : BlockWithId} (hb : log.blockBeforeNum n = some b) : b.num < n := by
  obtain ⟨i, hi, hit, rfl⟩ := before_eq_some hb
  exact (lowerBoundByNum_spec h n).2.1 i hi (by omega)

/-- `irreversible` rises to the number of the block, if at all. -/
theorem raiseIrreversible_toNat_le {log : BlockLog} {block : Option BlockWithId} {n : Nat}
    (hlog : log.irreversible.toNat ≤ n) (hblock : ∀ b ∈ block, b.num.toNat ≤ n) :
    (log.raiseIrreversible block).irreversible.toNat ≤ n := by
  cases block with
  | none => exact hlog
  | some b =>
    rcases raiseIrreversible_some log b with heq | heq
    · rwa [heq]
    · rw [heq]
      exact hblock b rfl

/-- **A block.** -/
theorem Shows.put (h : Shows account m R) (hhistory : History sha256 account chains)
    (hgenuine : Genuine chains R) {b : BlockWithId} {pos settled : Nat}
    (haccepts : R.Accepts (.put b pos settled))
    (hgenuine' : Genuine chains (R.apply (.put b pos settled))) :
    ∃ m', (addBlockBytes (blockWithIdToBin b) 0).exec sha256 m = (.ok true, m') ∧
      Shows account m' (R.apply (.put b pos settled)) := by
  obtain ⟨trimmed, hinv, hchain, hirr⟩ := h
  obtain ⟨hfinal, hpos, hdiffers, -⟩ := haccepts
  have hvalid := hhistory.seen hgenuine'.seen
  have hmem : b ∈ (R.apply (.put b pos settled)).chain :=
    List.mem_append_right _ (List.mem_singleton_self b)
  have hnum : b.num.toNat = pos + 1 := by
    have hlen : (R.chain.take pos).length = pos := by rw [List.length_take]; omega
    have hget : (R.apply (.put b pos settled)).chain[pos]? = some b := by
      show (R.chain.take pos ++ [b])[pos]? = some b
      rw [List.getElem?_append_right (by omega), hlen, Nat.sub_self]
      rfl
    obtain ⟨hi, hget⟩ := List.getElem?_eq_some_iff.mp hget
    rw [← hget, hvalid.num hi]
  have hadd := addBlock_put hinv hchain (Nat.le_trans hirr hfinal) hpos hnum hvalid.linked
    (fun old hold hid => hdiffers (by
      obtain ⟨hi, rfl⟩ := List.getElem?_eq_some_iff.mp hold
      rw [hhistory.eq_of_id hgenuine'.seen hgenuine.seen hmem (List.getElem_mem hi) hid]
      exact hold))
  -- the bytes decode to the block
  have hread := blockWithIdFromBin_toBin (hvalid.isSealed b hmem).fits []
  rw [List.append_nil] at hread
  have hexec : (addBlockBytes (blockWithIdToBin b) 0).exec sha256 m = m.addBlockWithId b 0 := by
    rw [addBlockBytes, hread]
    rfl
  rw [hexec]
  have happended : (m.blockLog.addBlock b).1 = .appended := by rw [hadd]
  rcases hinv.addBlockWithId b 0 with ⟨hne, -⟩ | ⟨-, -, hok, hinv'⟩ | ⟨-, hnot, -⟩
  · exact absurd happended hne
  · refine ⟨_, Prod.ext hok rfl, trimmed, hinv', ?_, ?_⟩
    · rw [MicroChain.addBlockWithId_blockLog, addBlockIrreversible_blocks, hadd]
      dsimp only
      rw [← List.append_assoc, take_log hchain (trimmed_le hinv (Nat.le_trans hirr hfinal))]
      rfl
    · rw [MicroChain.addBlockWithId_blockLog, BlockLog.addBlockIrreversible, hadd]
      refine raiseIrreversible_toNat_le (Nat.le_trans hirr (Nat.le_max_left _ _)) fun x hx => ?_
      obtain ⟨hxmem, hlt⟩ := getEosioNum_lt_of_before hx
      refine hgenuine'.born x ?_ ?_
      · show x ∈ R.chain.take pos ++ [b]
        rw [← take_log hchain (trimmed_le hinv (Nat.le_trans hirr hfinal)), List.append_assoc]
        exact List.mem_append_right _ hxmem
      · rw [UInt32.lt_iff_toNat_lt] at hlt
        exact UInt32.toNat_inj.mp (Nat.lt_one_iff.mp hlt)
  · exact absurd (hvalid.decodes b hmem) hnot

/-- **A new head.** -/
theorem Shows.cut (h : Shows account m R) (hhistory : History sha256 account chains)
    (hgenuine : Genuine chains R) {n : Nat} (haccepts : R.Accepts (.cut n)) :
    Shows account (m.undoBlockNum (UInt32.ofNat (toUint32 n + 1))) (R.apply (.cut n)) := by
  obtain ⟨trimmed, hinv, hchain, hirr⟩ := h
  obtain ⟨hfinal, hlt⟩ := haccepts
  have hvalid := hhistory.seen hgenuine.seen
  have hnum : (UInt32.ofNat (toUint32 n + 1)).toNat = n + 1 := by
    have hbound := hvalid.length_lt
    rw [toUint32, Nat.mod_eq_of_lt (by omega)]
    exact Nat.mod_eq_of_lt (by omega)
  have htrimmed := trimmed_le hinv (Nat.le_trans hirr hfinal)
  have hlen : R.chain.length = trimmed.length + m.blockLog.blocks.length := by
    rw [← hchain, List.length_append]
  have hit := lowerBoundByNum_eq hinv hnum htrimmed (by omega)
  have hi : n - trimmed.length < m.blockLog.blocks.length := by omega
  have hblock : (m.blockLog.blocks[n - trimmed.length]).num = UInt32.ofNat (toUint32 n + 1) := by
    rw [← UInt32.toNat_inj, hnum, hinv.num hi]
    omega
  have hundo : m.blockLog.undo (UInt32.ofNat (toUint32 n + 1)) =
      (m.blockLog.blocks.length - (n - trimmed.length),
        { m.blockLog with blocks := m.blockLog.blocks.take (n - trimmed.length) }) := by
    rw [BlockLog.undo, if_neg, hit, if_pos]
    · rw [List.getElem?_eq_getElem hi]
      exact decide_eq_true hblock
    · rw [UInt32.le_iff_toNat_le, hnum]
      omega
  refine ⟨trimmed, (hinv.undoBlockNum _).1, ?_, ?_⟩
  · rw [MicroChain.undoBlockNum_blockLog, hundo]
    exact take_log hchain htrimmed
  · rw [MicroChain.undoBlockNum_blockLog, hundo]
    exact hirr

/-- **A new bound of what is final**, and trimming. -/
theorem Shows.settle (h : Shows account m R) (n : Nat) :
    Shows account (m.setIrreversible (UInt32.ofNat (toUint32 n))).trimBlocks
      (R.apply (.settle n)) := by
  obtain ⟨trimmed, hinv, hchain, hirr⟩ := h
  have hraised : ChainInv account trimmed (m.setIrreversible (UInt32.ofNat (toUint32 n))) :=
    hinv.raise fun _ hx => mem_of_before hx
  refine ⟨_, hraised.trimBlocks, ?_, ?_⟩
  · show (trimmed ++ trimmedBy (m.setIrreversible _).blockLog) ++
      (m.setIrreversible _).blockLog.trim.blocks = R.chain
    rw [List.append_assoc, trimmedBy_append_trim]
    show trimmed ++ (m.blockLog.setIrreversible _).blocks = R.chain
    rw [BlockLog.setIrreversible, raiseIrreversible_blocks]
    exact hchain
  · show (m.blockLog.setIrreversible _).irreversible.toNat ≤ max R.final n
    refine raiseIrreversible_toNat_le (Nat.le_trans hirr (Nat.le_max_left _ _)) fun x hx => ?_
    have hlt := UInt32.lt_iff_toNat_lt.mp (num_lt_of_before hinv.log.linked hx)
    have hle : (UInt32.ofNat (toUint32 n) + 1).toNat ≤ n + 1 := by
      rw [UInt32.toNat_add]
      refine Nat.le_trans (Nat.mod_le _ _) (Nat.add_le_add_right ?_ 1)
      exact Nat.le_trans (Nat.mod_le _ _) (Nat.mod_le _ _)
    omega

/-- **One update**: the client takes it without an exception. -/
theorem Shows.exec (h : Shows account m R) (hhistory : History sha256 account chains)
    (hgenuine : Genuine chains R) {u : Update BlockWithId} (haccepts : R.Accepts u)
    (hgenuine' : Genuine chains (R.apply u)) :
    ∃ m', SubchainClient.exec sha256 m (SubchainClient.calls (encode u)) = .running m' ∧
      Shows account m' (R.apply u) := by
  cases u with
  | put b pos settled =>
    obtain ⟨m', hexec, hshows⟩ := h.put hhistory hgenuine haccepts hgenuine'
    refine ⟨m', ?_, hshows⟩
    show SubchainClient.exec sha256 m [addBlockBytes (blockWithIdToBin b) 0] = _
    rw [SubchainClient.exec, hexec]
    rfl
  | cut n => exact ⟨_, rfl, h.cut hhistory hgenuine haccepts⟩
  | settle n => exact ⟨_, rfl, h.settle n⟩

/-! ## The status -/

/-- What a status says about a block. -/
def blockInfo (b : BlockWithId) : BlockInfo := ⟨b.num.toNat, idText b.id⟩

theorem getIrreversible_eq (h : ChainInv account trimmed m) :
    getIrreversible m = m.blockLog.irreversible.toNat := by
  rcases h.log.irreversible_mem with h0 | ⟨b, hb, hnum⟩
  · -- no block has the number 0
    have hnone : m.blockLog.blockByNum m.blockLog.irreversible = none := by
      rw [h0]
      refine Option.eq_none_iff_forall_not_mem.mpr fun b hb => ?_
      obtain ⟨hget, hnum⟩ := Option.mem_filter_iff.mp hb
      obtain ⟨hi, rfl⟩ := List.getElem?_eq_some_iff.mp hget
      have hzero := congrArg UInt32.toNat (of_decide_eq_true hnum)
      rw [h.num hi] at hzero
      cases hzero
    rw [getIrreversible, hnone, h0]
    rfl
  · rw [getIrreversible, ← hnum, blockByNum_of_mem h.log.linked hb]
    rfl

/-- The blocks from `irreversible` on are the last ones of the chain. -/
theorem filter_irreversible (h : ChainInv account trimmed m) {chain : List BlockWithId}
    (hc : trimmed ++ m.blockLog.blocks = chain) :
    (m.blockLog.blocks.filter fun b => decide (m.blockLog.irreversible ≤ b.num)) =
      chain.drop (m.blockLog.irreversible.toNat - 1) := by
  rcases Nat.eq_zero_or_pos m.blockLog.irreversible.toNat with h0 | hpos
  · have hzero : m.blockLog.irreversible = 0 := UInt32.toNat_inj.mp h0
    rw [h0, ← hc, h.trimmed_eq_nil hzero, List.filter_eq_self.mpr]
    · rfl
    · intro b _
      rw [hzero]
      exact decide_eq_true UInt32.zero_le
  · have htrimmed : trimmed.length ≤ m.blockLog.irreversible.toNat - 1 := by
      rcases h.final with hnil | hlt
      · rw [hnil]
        exact Nat.zero_le _
      · omega
    have hirr := h.irreversible_le
    rw [← trim_eq_filter h.log, BlockLog.trim, lowerBoundByNum_eq h (n :=
      m.blockLog.irreversible.toNat - 1) (by omega) htrimmed (by omega), ← hc,
      List.drop_append, List.drop_eq_nil_of_le htrimmed, List.nil_append]

/-- **The status of a client**: the end of its chain from the irreversible block on. -/
theorem status_eq (h : ChainInv account trimmed m) {chain : List BlockWithId}
    (hc : trimmed ++ m.blockLog.blocks = chain) (slowmo : Bool) :
    SubchainClient.status slowmo m = some
      { maxBlocksToSend := if slowmo then 1 else 1000
        irreversible := m.blockLog.irreversible.toNat
        blocks := (chain.drop (m.blockLog.irreversible.toNat - 1)).map blockInfo } := by
  obtain ⟨conn, hconn, hedges⟩ := Graphql.makeConnection_all
    (blocks_ordered h.log.linked) { ge := some m.blockLog.irreversible }
  have hirr := getIrreversible_eq h
  have hquery : Query.blocks m { ge := some (UInt32.ofNat m.blockLog.irreversible.toNat) } {} =
      .ok conn := by
    rw [UInt32.ofNat_toNat]
    exact hconn
  simp only [SubchainClient.status, hquery, hirr]
  rw [hedges, List.map_map, ← filter_irreversible h hc]
  have hfilter : (fun b : BlockWithId => (RangeArgs.contains { ge := some m.blockLog.irreversible }
      blockSchema.key (blockSchema.toKey b))) =
      fun b => decide (m.blockLog.irreversible ≤ b.num) := by
    funext b
    show (!decide (b.num < m.blockLog.irreversible) && true && true && true) = _
    rw [Bool.and_true, Bool.and_true, Bool.and_true, ← decide_not, decide_eq_decide]
    exact UInt32.not_lt
  show some _ = some _
  rw [show (blockContainer m.blockLog).elems = m.blockLog.blocks from rfl, hfilter]
  rfl

end Steps

end Microchain.Sync
