import Microchain.Sync.Client

/-!
# What the box sends brings a client up to it

`update` goes down the blocks of a status as long as the box has others, and then sends
its own. The status shows the end of the chain that the client will have when all that is
on its way has arrived. So what `update` sends are updates that a replica with that chain
accepts, one after another, and that make it a beginning of the chain of the box:

- `popBlocks_eq`: the first loop finds how far the two chains agree;
- `sendBlocks_eq`: the second loop goes on from there;
- `update_eq`: both, with the new head and the request for a status.
-/

namespace Microchain.Sync

open Eosio Subchain Starter Box Feed BlockLog Lib Chainbase Graphql

/-! ## Ids as text -/

theorem flatMap_hexPair (bytes : Bytes) : bytes.flatMap hexPair = hex bytes := by
  have hpair : ∀ n : Fin 256, hexPair (UInt8.ofNat n) =
      [nibble (UInt8.ofNat n >>> 4), nibble (UInt8.ofNat n &&& 0xf)] := by
    decide +kernel
  refine List.flatMap_congr fun b _ => ?_
  simpa using hpair ⟨b.toNat, b.toNat_lt⟩

theorem idText_inj {id id' : Checksum256} (h : idText id = idText id') : id = id' := by
  rw [idText, idText, flatMap_hexPair, flatMap_hexPair] at h
  have hbin := congrArg unhex h
  rw [unhex_hex, unhex_hex] at hbin
  have hread := checksum256FromBin_toBin id []
  rw [Option.some.inj hbin, checksum256FromBin_toBin] at hread
  cases hread
  rfl

/-! ## A storage that is up -/

/-- A storage that can send the blocks of an instance: it is up, or there are none. -/
structure Serving (account : Name) (s : Storage) (b : MicroChain) : Prop where
  up : b.blockLog.blocks ≠ [] → s.blocksWasm = some b ∧ s.stateWasm.isSome
  inv : ChainInv account [] b
  head : s.head = b.blockLog.blocks.length

/-- What a replica copies: the chain of the box. -/
def target (b : MicroChain) : Replica BlockWithId :=
  ⟨b.blockLog.blocks, b.blockLog.irreversible.toNat⟩

section Serving

variable {account : Name} {s : Storage} {b : MicroChain}

theorem target_sound (h : ChainInv account [] b) : (target b).Sound := by
  have hirr := h.irreversible_le
  rwa [List.length_nil, Nat.zero_add] at hirr

/-- A protected call that leaves both instances. -/
theorem Serving.protect (h : Serving account s b) {k : Nat} (hk : k < b.blockLog.blocks.length)
    {α : Type} (f : MicroChain → α × MicroChain) :
    (s.protect fun blocksWasm stateWasm =>
      .ok ((f blocksWasm).1, (f blocksWasm).2, stateWasm)).1 = .ok (f b).1 := by
  obtain ⟨hblocks, hstate⟩ := h.up (List.ne_nil_of_length_pos (Nat.zero_lt_of_lt hk))
  obtain ⟨t, ht⟩ := Option.isSome_iff_exists.mp hstate
  rw [Storage.protect, hblocks, ht]

theorem Serving.blockByNum (h : Serving account s b) {k : Nat}
    (hk : k < b.blockLog.blocks.length) :
    b.blockLog.blockByNum (UInt32.ofNat (k + 1)) = some b.blockLog.blocks[k] := by
  have hnum : UInt32.ofNat (k + 1) = (b.blockLog.blocks[k]).num := by
    have hget := h.inv.num hk
    rw [List.length_nil, Nat.zero_add] at hget
    rw [← hget, UInt32.ofNat_toNat]
  rw [hnum]
  exact blockByNum_of_mem h.inv.log.linked (List.getElem_mem hk)

theorem Serving.getBlock (h : Serving account s b) {k : Nat} (hk : k < b.blockLog.blocks.length) :
    s.getBlock (k + 1) = .ok (some (blockWithIdToBin b.blockLog.blocks[k])) := by
  have hget := h.protect hk fun m => (if (m.getBlock (UInt32.ofNat (k + 1))).1 then
    some (resultAsUint8Array (m.getBlock (UInt32.ofNat (k + 1))).2) else none,
    (m.getBlock (UInt32.ofNat (k + 1))).2)
  refine Eq.trans hget ?_
  rw [MicroChain.getBlock, h.blockByNum hk]
  rfl

theorem Serving.idForNum (h : Serving account s b) {k : Nat} (hk : k < b.blockLog.blocks.length) :
    s.idForNum (k + 1) = .ok (idText b.blockLog.blocks[k].id) := by
  rw [Storage.idForNum, h.protect hk fun m => (m.blockLog.blockByNum (UInt32.ofNat (k + 1)), m)]
  dsimp only
  rw [h.blockByNum hk]

end Serving

/-! ## The first loop -/

section Update

variable {sha256 : Bytes → Checksum256} {account : Name} {chains : List (List BlockWithId)}
  {s : Storage} {b : MicroChain} {V : Replica BlockWithId} {a k : Nat}

/-- The end of a part of a chain as a status shows it. -/
def shown (chain : List BlockWithId) (a n : Nat) : List BlockInfo :=
  ((chain.take n).drop a).map blockInfo

theorem shown_succ {chain : List BlockWithId} {n : Nat} (ha : a ≤ n) (hn : n < chain.length) :
    shown chain a (n + 1) = shown chain a n ++ [blockInfo chain[n]] := by
  rw [shown, List.take_succ_eq_append_getElem hn, List.drop_append_of_le_length, List.map_append]
  · rfl
  · rw [List.length_take]
    omega

/-- **The first loop** ends where the chains agree. -/
theorem popBlocks_eq (h : Serving account s b) (hhistory : History sha256 account chains)
    {chain : List BlockWithId} (hchain : Seen chains chain)
    (htarget : Seen chains b.blockLog.blocks) (ha : a ≤ b.blockLog.blocks.length)
    (hbase : chain.take a = b.blockLog.blocks.take a) {n : Nat} (han : a ≤ n)
    (hn : n ≤ chain.length) (needHeadUpdate : Bool) :
    ∃ k, a ≤ k ∧ k ≤ n ∧ k ≤ b.blockLog.blocks.length ∧
      chain.take k = b.blockLog.blocks.take k ∧
      (k < n → ∀ elem ∈ b.blockLog.blocks[k]?, chain[k]? ≠ some elem) ∧
      popBlocks s (shown chain a n).reverse needHeadUpdate =
        (.ok (needHeadUpdate || decide (k < n)), (shown chain a k).reverse) := by
  induction n, han using Nat.le_induction generalizing needHeadUpdate with
  | base =>
    refine ⟨a, Nat.le_refl a, Nat.le_refl a, ha, hbase, fun hlt => absurd hlt (Nat.lt_irrefl a), ?_⟩
    have hempty : shown chain a a = [] := by
      rw [shown, List.drop_eq_nil_of_le (by rw [List.length_take]; omega)]
      rfl
    rw [hempty, decide_eq_false (Nat.lt_irrefl a), Bool.or_false]
    rfl
  | succ n han ih =>
    have hlt : n < chain.length := hn
    have hnum : (chain[n]).num.toNat = n + 1 := (hhistory.seen hchain).num hlt
    -- the last block is not one of the box, so the loop goes on
    have hpop : (∀ elem ∈ b.blockLog.blocks[n]?, chain[n]? ≠ some elem) →
        popBlocks s (shown chain a (n + 1)).reverse needHeadUpdate =
          popBlocks s (shown chain a n).reverse true →
        ∃ k, a ≤ k ∧ k ≤ n + 1 ∧ k ≤ b.blockLog.blocks.length ∧
          chain.take k = b.blockLog.blocks.take k ∧
          (k < n + 1 → ∀ elem ∈ b.blockLog.blocks[k]?, chain[k]? ≠ some elem) ∧
          popBlocks s (shown chain a (n + 1)).reverse needHeadUpdate =
            (.ok (needHeadUpdate || decide (k < n + 1)), (shown chain a k).reverse) := by
      intro hdiffers hloop
      obtain ⟨k, hak, hkn, hkb, htake, hnext, heq⟩ := ih (Nat.le_of_lt hlt) true
      refine ⟨k, hak, Nat.le_succ_of_le hkn, hkb, htake, fun _ => ?_, ?_⟩
      · rcases Nat.lt_or_eq_of_le hkn with hk | rfl
        · exact hnext hk
        · exact hdiffers
      · rw [hloop, heq, decide_eq_true (Nat.lt_succ_of_le hkn), Bool.or_true, Bool.true_or]
    have hrev : (shown chain a (n + 1)).reverse =
        blockInfo chain[n] :: (shown chain a n).reverse := by
      rw [shown_succ han hlt, List.reverse_append]
      rfl
    have hget : chain[n]? = some chain[n] := List.getElem?_eq_getElem hlt
    by_cases hhead : s.head < n + 1
    · refine hpop ?_ ?_
      · intro elem helem
        rw [h.head] at hhead
        rw [List.getElem?_eq_none (by omega)] at helem
        cases helem
      · rw [hrev, popBlocks, if_pos (by rw [blockInfo, hnum]; exact hhead)]
    · have hnb : n < b.blockLog.blocks.length := by
        rw [h.head] at hhead
        omega
      have hid : s.idForNum (blockInfo chain[n]).num = .ok (idText b.blockLog.blocks[n].id) := by
        rw [blockInfo, hnum]
        exact h.idForNum hnb
      have hstep : popBlocks s (shown chain a (n + 1)).reverse needHeadUpdate =
          if idText chain[n].id ≠ idText b.blockLog.blocks[n].id then
            popBlocks s (shown chain a n).reverse true
          else (.ok needHeadUpdate, blockInfo chain[n] :: (shown chain a n).reverse) := by
        rw [hrev, popBlocks, if_neg (by rw [blockInfo, hnum]; exact hhead), hid]
        rfl
      by_cases heq : (chain[n]).id = (b.blockLog.blocks[n]).id
      · rw [if_neg (not_not.mpr (congrArg idText heq)), ← hrev] at hstep
        refine ⟨n + 1, Nat.le_succ_of_le han, Nat.le_refl _, hnb,
          hhistory.take_eq hchain htarget hlt hnb heq, fun hlt => absurd hlt (Nat.lt_irrefl _), ?_⟩
        rw [hstep, decide_eq_false (Nat.lt_irrefl _), Bool.or_false]
      · rw [if_pos fun htext => heq (idText_inj htext)] at hstep
        refine hpop (fun elem helem => ?_) hstep
        rw [List.getElem?_eq_getElem hnb] at helem
        obtain rfl := Option.some.inj helem
        rw [hget]
        exact fun hsame => heq (congrArg (·.id) (Option.some.inj hsame))

/-! ## The second loop -/

/-- A status shows the replica up to `k`, at least its end from the last final block on. -/
structure Status (V : Replica BlockWithId) (a : Nat) (blocks : List BlockInfo) : Prop where
  start : a = 0 ∨ a < V.final
  blocks : blocks = shown V.chain a V.chain.length

/-- `head` finds the last block that is shown. -/
theorem head_shown {chain : List BlockWithId} (hvalid : Valid sha256 account chain)
    (hstart : a = 0 ∨ a < k) (hk : k ≤ chain.length) {status : ClientStatus}
    (hblocks : status.blocks = shown chain a k) : status.head = k := by
  rw [ClientStatus.head, hblocks]
  cases k with
  | zero =>
    rw [shown, List.take_zero, List.drop_nil]
    rfl
  | succ k =>
    rw [shown_succ (by omega) hk, List.getLast?_append_of_ne_nil _ (List.cons_ne_nil _ _)]
    exact hvalid.num hk

/-- How many blocks are sent. -/
def blobs (sent : List Data) : Nat :=
  sent.countP fun data =>
    match data with
    | .blob _ => true
    | .text _ => false

theorem blobs_append (sent more : List Data) : blobs (sent ++ more) = blobs sent + blobs more :=
  List.countP_append

/-- Where the second loop stands: the replica has what is sent, and agrees with the chain
of the box up to `k`. -/
structure Brought (chains : List (List BlockWithId)) (b : MicroChain) (a k : Nat)
    (V : Replica BlockWithId) (u : Updating) : Prop where
  genuine : Genuine chains V
  follows : (target b).Follows V
  agrees : V.Agrees b.blockLog.blocks k
  start : a = 0 ∨ a < k
  blocks : u.status.blocks = shown b.blockLog.blocks a k
  needHeadUpdate : u.needHeadUpdate = decide (k < V.chain.length)

/-- So much of a replica is final in the chain of the box as agrees with it. -/
theorem follows_of_agrees (h : V.Agrees b.blockLog.blocks k) (hfinal : V.final ≤ (target b).final) :
    (target b).Follows V := by
  refine ⟨hfinal, ?_⟩
  have hcut := congrArg (List.take V.final) h.take_eq
  rwa [List.take_take, List.take_take, Nat.min_eq_left h.final_le] at hcut

/-- The block that comes next, as an update. -/
def nextUpdate (b : MicroChain) (k : Nat) (hk : k < b.blockLog.blocks.length) :
    Update BlockWithId :=
  .put b.blockLog.blocks[k] k (if getEosioNum b.blockLog.blocks[k] = 0 then k + 1 else 0)

/-- **The next block.** -/
theorem Brought.put (hinv : ChainInv account [] b) (htarget : Genuine chains (target b))
    {u : Updating} (h : Brought chains b a k V u) (hk : k < b.blockLog.blocks.length) {n : Nat} :
    V.Accepts (nextUpdate b k hk) ∧ Brought chains b a (k + 1) (V.apply (nextUpdate b k hk))
      { u with
        sent := u.sent ++ [.blob (blockWithIdToBin b.blockLog.blocks[k])]
        status := { u.status with
          maxBlocksToSend := n
          blocks := u.status.blocks ++ [⟨k + 1, idText b.blockLog.blocks[k].id⟩] }
        needHeadUpdate := false } := by
  have hnum : (b.blockLog.blocks[k]).num.toNat = k + 1 := by
    have hget := hinv.num hk
    rwa [List.length_nil, Nat.zero_add] at hget
  obtain ⟨haccepts, hagrees, hchain⟩ := @Replica.Agrees.put _ _ _ _ h.agrees hk
    (if getEosioNum b.blockLog.blocks[k] = 0 then k + 1 else 0) (by split <;> omega)
  have hlen : (V.apply (nextUpdate b k hk)).chain.length = k + 1 := by
    rw [nextUpdate, hchain, List.length_take]
    omega
  have hstart := h.start
  refine ⟨haccepts, ⟨?_, ?_⟩, follows_of_agrees hagrees ?_, hagrees, by omega, ?_, ?_⟩
  · rw [nextUpdate, hchain]
    exact htarget.seen.of_isPrefix (List.take_prefix _ _)
  · -- a block with the eosio number 0 is final for the client, too
    intro x hx hzero
    rw [nextUpdate, hchain, List.take_succ_eq_append_getElem hk] at hx
    show x.num.toNat ≤ max V.final _
    rcases List.mem_append.mp hx with hx | hx
    · rw [← h.agrees.take_eq] at hx
      exact Nat.le_trans (h.genuine.born x (List.mem_of_mem_take hx) hzero) (Nat.le_max_left _ _)
    · obtain rfl := List.mem_singleton.mp hx
      rw [if_pos hzero, hnum]
      exact Nat.le_max_right _ _
  · show max V.final _ ≤ (target b).final
    refine Nat.max_le.mpr ⟨h.follows.final_le, ?_⟩
    split
    · next hzero =>
      rw [← hnum]
      exact htarget.born _ (List.getElem_mem hk) hzero
    · exact Nat.zero_le _
  · have hinfo : blockInfo b.blockLog.blocks[k] = ⟨k + 1, idText b.blockLog.blocks[k].id⟩ := by
      rw [blockInfo, hnum]
    show u.status.blocks ++ _ = _
    rw [h.blocks, shown_succ (by have := h.start; omega) hk, hinfo]
  · rw [hlen, decide_eq_false (Nat.lt_irrefl _)]

/-- **`irreversible`** as far as the client has the blocks. -/
theorem Brought.settle (hhistory : History sha256 account chains) (hinv : ChainInv account [] b)
    (htarget : Genuine chains (target b)) {u : Updating} (h : Brought chains b a k V u) :
    ∃ us, us.length ≤ 1 ∧ blobs (us.map encode) = 0 ∧
      (u.sendIrreversible b).sent = u.sent ++ us.map encode ∧
      Replica.Takes (Genuine chains) V us ∧ Brought chains b a k (V.run us) (u.sendIrreversible b) ∧
      (u.sendIrreversible b).status.maxBlocksToSend = u.status.maxBlocksToSend ∧
      (V.run us).chain = V.chain := by
  have hhead : u.status.head = k := head_shown (hhistory.seen htarget.seen) h.start
    h.agrees.le_target h.blocks
  have hirr : getIrreversible b = (target b).final := getIrreversible_eq hinv
  rw [Updating.sendIrreversible]
  dsimp only
  split
  · refine ⟨[.settle (min (target b).final k)], Nat.le_refl 1, rfl, ?_, ?_, ?_, rfl, rfl⟩
    · rw [hirr, hhead]
      rfl
    · obtain ⟨haccepts, hagrees⟩ := h.agrees.settle (Nat.min_le_right (target b).final k)
      exact ⟨h.genuine, haccepts, h.genuine.seen, fun x hx hzero =>
        Nat.le_trans (h.genuine.born x hx hzero) (Nat.le_max_left _ _)⟩
    · obtain ⟨haccepts, hagrees⟩ := h.agrees.settle (Nat.min_le_right (target b).final k)
      refine ⟨⟨h.genuine.seen, fun x hx hzero =>
        Nat.le_trans (h.genuine.born x hx hzero) (Nat.le_max_left _ _)⟩,
        follows_of_agrees hagrees (Nat.max_le.mpr ⟨h.follows.final_le, Nat.min_le_left _ _⟩),
        hagrees, h.start, h.blocks, h.needHeadUpdate⟩
  · exact ⟨[], Nat.zero_le 1, rfl, (List.append_nil _).symm, h.genuine, h, rfl, rfl⟩

/-- **The second loop** sends as many blocks as there are, or as the client can take. -/
theorem sendBlocks_eq (hserving : Serving account s b) (hhistory : History sha256 account chains)
    (htarget : Genuine chains (target b)) (n : Nat) {u : Updating} (h : Brought chains b a k V u)
    (hn : u.status.maxBlocksToSend = n) :
    ∃ us u' k', sendBlocks s n u = (.ok (), u') ∧ u'.sent = u.sent ++ us.map encode ∧
      Replica.Takes (Genuine chains) V us ∧ Brought chains b a k' (V.run us) u' ∧
      k' = min (k + n) b.blockLog.blocks.length ∧ u'.status.maxBlocksToSend = n - (k' - k) ∧
      us.length ≤ 2 * (k' - k) ∧ blobs (us.map encode) = k' - k ∧
      (k < k' → k' = (V.run us).chain.length) := by
  induction n generalizing V u k with
  | zero =>
    refine ⟨[], u, k, rfl, (List.append_nil _).symm, h.genuine, h, ?_, ?_, by simp, ?_,
      fun hlt => absurd hlt (Nat.lt_irrefl k)⟩
    · have := h.agrees.le_target
      omega
    · rw [hn]
      omega
    · rw [Nat.sub_self]
      rfl
  | succ n ih =>
    have hle := h.agrees.le_target
    have hhead : u.status.head = k := head_shown (hhistory.seen htarget.seen) h.start hle h.blocks
    by_cases hk : k < b.blockLog.blocks.length
    · -- a block is sent, and the rest of the loop starts behind it
      obtain ⟨haccepts, hput⟩ := h.put hserving.inv htarget hk (n := n)
      obtain ⟨vs, hvs, hblobs, hsent, htakes, hsettled, hmax, hlast⟩ :=
        hput.settle hhistory hserving.inv htarget
      obtain ⟨us, u', k', hloop, hsent', htakes', hbrought, hk', hmax', hlen', hblobs', hlast'⟩ :=
        ih hsettled hmax
      have hkk' : k + 1 ≤ k' := by
        rw [hk']
        omega
      refine ⟨nextUpdate b k hk :: (vs ++ us), u', k', ?_, ?_, ?_, ?_, ?_, ?_, ?_, ?_, ?_⟩
      · rw [sendBlocks, hhead]
        dsimp only
        rw [if_neg (by rw [hserving.head]; omega), hserving.getBlock hk]
        dsimp only
        rw [hserving.idForNum hk]
        dsimp only
        rw [(hserving.up (List.ne_nil_of_length_pos (Nat.zero_lt_of_lt hk))).1]
        exact hloop
      · rw [hsent', hsent, List.map_cons, List.map_append, List.append_assoc, List.append_assoc]
        rfl
      · exact ⟨h.genuine, haccepts, Replica.takes_append.mpr ⟨htakes, htakes'⟩⟩
      · rw [Replica.run_cons, Replica.run_append]
        exact hbrought
      · rw [hk']
        omega
      · rw [hmax']
        omega
      · rw [List.length_cons, List.length_append]
        omega
      · have hone : blobs [encode (nextUpdate b k hk)] = 1 := rfl
        rw [List.map_cons, List.map_append, ← List.singleton_append, blobs_append, blobs_append,
          hone, hblobs, hblobs']
        omega
      · intro _
        rw [Replica.run_cons, Replica.run_append]
        rcases Nat.eq_or_lt_of_le hkk' with heq | hlt
        · -- no block behind it: nothing is put behind
          have hempty : us = [] := by
            rw [← heq] at hlen'
            exact List.eq_nil_of_length_eq_zero (by omega)
          have hneed := hput.needHeadUpdate
          rw [hempty, Replica.run_nil, hlast, ← heq]
          have hnot := of_decide_eq_false hneed.symm
          have hle' := hput.agrees.le_length
          omega
        · exact hlast' hlt
    · refine ⟨[], u, k, ?_, (List.append_nil _).symm, h.genuine, h, ?_, ?_, by simp, ?_,
        fun hlt => absurd hlt (Nat.lt_irrefl k)⟩
      · rw [sendBlocks, hhead]
        exact if_pos (by rw [hserving.head]; omega)
      · omega
      · rw [hn]
        omega
      · rw [Nat.sub_self]
        rfl

/-! ## The update -/

/-- What `update` sends for a status: updates that bring the replica of the client to a
beginning of the chain of the box, from the `k` blocks in which it agrees with it. -/
structure Sends (chains : List (List BlockWithId)) (b : MicroChain) (V : Replica BlockWithId)
    (maxBlocksToSend k : Nat) (us : List (Update BlockWithId)) : Prop where
  takes : Replica.Takes (Genuine chains) V us
  follows : (target b).Follows (V.run us)
  agrees : V.Agrees b.blockLog.blocks k
  chain : (V.run us).chain =
    b.blockLog.blocks.take (min (k + maxBlocksToSend) b.blockLog.blocks.length)
  length_le : us.length ≤ 2 * (min (k + maxBlocksToSend) b.blockLog.blocks.length - k) +
    if k < b.blockLog.blocks.length then 0 else 1
  blobs_eq : blobs (us.map encode) = min (k + maxBlocksToSend) b.blockLog.blocks.length - k

/-- **The two loops**, for a status that shows the replica. -/
theorem serve_eq (hserving : Serving account s b) (hhistory : History sha256 account chains)
    (htarget : Genuine chains (target b)) (hgenuine : Genuine chains V) (hsound : V.Sound)
    (hfollows : (target b).Follows V) {status : ClientStatus} (hpos : 0 < status.maxBlocksToSend)
    (hstatus : Status V a status.blocks) :
    ∃ us k, Sends chains b V status.maxBlocksToSend k us ∧
      ∃ u, status.serve s = (.ok (), u) ∧ u.sendHead.sent = us.map encode ∧
        u.status.maxBlocksToSend = status.maxBlocksToSend -
          (min (k + status.maxBlocksToSend) b.blockLog.blocks.length - k) ∧
        u.status.blocks = shown (V.run us).chain a (V.run us).chain.length ∧
        (a = 0 ∨ a < (V.run us).final) := by
  have htsound := target_sound hserving.inv
  have hfinal : V.final ≤ b.blockLog.blocks.length := Nat.le_trans hfollows.final_le htsound
  have hafinal : a ≤ V.final := by
    have := hstatus.start
    omega
  have hbase : V.chain.take a = b.blockLog.blocks.take a := by
    have hcut := congrArg (List.take a) hfollows.take_final
    rwa [List.take_take, List.take_take, Nat.min_eq_left hafinal] at hcut
  obtain ⟨k, hak, hkn, hkb, htake, hdiffers, hpop⟩ := popBlocks_eq hserving hhistory hgenuine.seen
    htarget.seen (Nat.le_trans hafinal hfinal) hbase (Nat.le_trans hafinal hsound)
    (Nat.le_refl _) false
  -- what is final agrees, so the loop ends behind it
  have hkfinal : V.final ≤ k := by
    by_contra hlt
    have hkV : k < V.chain.length := Nat.lt_of_lt_of_le (by omega) hsound
    have hkB : k < b.blockLog.blocks.length := by omega
    refine hdiffers hkV _ (List.getElem?_eq_getElem hkB) ?_
    have hget := congrArg (·[k]?) hfollows.take_final
    rw [List.getElem?_take_of_lt (by omega), List.getElem?_take_of_lt (by omega)] at hget
    rw [hget]
    exact List.getElem?_eq_getElem hkB
  have hagrees : V.Agrees b.blockLog.blocks k := by
    refine ⟨hkfinal, hkn, hkb, htake, fun elem helem => ?_⟩
    rcases Nat.lt_or_eq_of_le hkn with hlt | heq
    · exact hdiffers hlt elem helem
    · rw [List.getElem?_eq_none (by omega)]
      nofun
  have hshown : shown V.chain a k = shown b.blockLog.blocks a k := by rw [shown, shown, htake]
  have hserve : status.serve s = sendBlocks s status.maxBlocksToSend
      { status := { status with blocks := shown b.blockLog.blocks a k }
        needHeadUpdate := decide (k < V.chain.length) } := by
    rw [ClientStatus.serve, hstatus.blocks, hpop]
    dsimp only
    rw [List.reverse_reverse, hshown, Bool.false_or]
  have hbrought : Brought chains b a k V
      { status := { status with blocks := shown b.blockLog.blocks a k }
        needHeadUpdate := decide (k < V.chain.length) } :=
    ⟨hgenuine, hfollows, hagrees, by have := hstatus.start; omega, rfl, rfl⟩
  obtain ⟨us, u, k', hloop, hsent, htakes, hb, hk', hmax, hlen, hblobs, hlast⟩ :=
    sendBlocks_eq hserving hhistory htarget status.maxBlocksToSend hbrought rfl
  have hk'le : k' ≤ b.blockLog.blocks.length := hb.agrees.le_target
  have hlength : ∀ {chain}, chain = b.blockLog.blocks.take k' → chain.length = k' := by
    intro chain hchain
    rw [hchain, List.length_take, Nat.min_eq_left hk'le]
  have hstart : a = 0 ∨ a < (V.run us).final := by
    have := htakes.final.1
    have := hstatus.start
    omega
  by_cases hneed : k' < (V.run us).chain.length
  · -- no block was sent, and the client has more than what agrees
    have hkk' : k = k' := by
      by_contra hne
      have := hlast (by omega)
      omega
    have hkB : ¬ k < b.blockLog.blocks.length := by omega
    obtain ⟨haccepts, hchain⟩ := hb.agrees.cut hneed
    refine ⟨us ++ [.cut k'], k, ⟨?_, ?_, hagrees, ?_, ?_, ?_⟩, u, hserve.trans hloop, ?_, ?_, ?_,
      ?_⟩
    · refine Replica.takes_append.mpr ⟨htakes, hb.genuine, haccepts, ?_, fun x hx hzero => ?_⟩
      · rw [hchain]
        exact htarget.seen.of_isPrefix (List.take_prefix _ _)
      · exact hb.genuine.born x (List.mem_of_mem_take hx) hzero
    · rw [Replica.run_append]
      refine ⟨hb.follows.final_le, ?_⟩
      show ((V.run us).chain.take k').take (V.run us).final = _
      rw [List.take_take, Nat.min_eq_left hb.agrees.final_le]
      exact hb.follows.take_final
    · rw [Replica.run_append]
      exact hchain.trans (by rw [hk'])
    · rw [if_neg hkB, List.length_append, List.length_singleton]
      omega
    · rw [List.map_append, blobs_append, hblobs, hk']
      rfl
    · have hhead : u.status.head = k' := head_shown (hhistory.seen htarget.seen) hb.start hk'le
        hb.blocks
      rw [Updating.sendHead, hb.needHeadUpdate, if_pos (decide_eq_true hneed), List.map_append]
      show u.sent ++ _ = _
      rw [hsent, hhead]
      rfl
    · rw [hmax, hk']
    · rw [Replica.run_append]
      show _ = shown ((V.run us).apply (.cut k')).chain a ((V.run us).apply (.cut k')).chain.length
      rw [hlength hchain, hchain, hb.blocks, shown, shown, List.take_take, Nat.min_self]
    · rw [Replica.run_append]
      exact hstart
  · have heq : k' = (V.run us).chain.length := by
      have := hb.agrees.le_length
      omega
    have hchain := hb.agrees.chain_eq heq
    refine ⟨us, k, ⟨htakes, hb.follows, hagrees, by rw [hchain, hk'], ?_, by rw [hblobs, hk']⟩, u,
      hserve.trans hloop, ?_, by rw [hmax, hk'], ?_, hstart⟩
    · rw [← hk']
      omega
    · rw [Updating.sendHead, hb.needHeadUpdate, decide_eq_false hneed]
      exact hsent
    · rw [hlength hchain, hchain, hb.blocks, shown, shown, List.take_take, Nat.min_self]

/-- **An update for a status**: all blocks are sent, and a callback waits for more, or as
many as the client can take, and the next status is asked for. -/
theorem update_eq (hserving : Serving account s b) (hhistory : History sha256 account chains)
    (htarget : Genuine chains (target b)) (hgenuine : Genuine chains V) (hsound : V.Sound)
    (hfollows : (target b).Follows V) {cs : ConnectionState} (hws : cs.ws = some .opened)
    {status : ClientStatus} (hcs : cs.status = some status) (hpos : 0 < status.maxBlocksToSend)
    (hstatus : Status V a status.blocks) :
    ∃ us k, Sends chains b V status.maxBlocksToSend k us ∧
      (status.maxBlocksToSend ≤ b.blockLog.blocks.length - k ∧
          cs.update s = ({ cs with status := none }, us.map encode ++ [request]) ∨
        ∃ status', b.blockLog.blocks.length - k < status.maxBlocksToSend ∧
          cs.update s =
            ({ cs with status := some status', haveCallback := true }, us.map encode) ∧
          Status (V.run us) a status'.blocks ∧
          status'.maxBlocksToSend =
            status.maxBlocksToSend - (b.blockLog.blocks.length - k)) := by
  obtain ⟨us, k, hsends, u, hserve, hsent, hmax, hblocks, hstart⟩ := serve_eq hserving hhistory
    htarget hgenuine hsound hfollows hpos hstatus
  have hkb := hsends.agrees.le_target
  have hstatus' : u.sendHead.status = u.status := by
    rw [Updating.sendHead]
    split <;> rfl
  refine ⟨us, k, hsends, ?_⟩
  rw [ConnectionState.update, hws]
  dsimp only
  rw [hcs]
  dsimp only
  rw [hserve]
  dsimp only
  rw [hstatus']
  by_cases hall : b.blockLog.blocks.length - k < status.maxBlocksToSend
  · right
    refine ⟨u.status, hall, ?_, ⟨hstart, hblocks⟩, by rw [hmax]; omega⟩
    rw [if_neg (by rw [hmax]; omega), hsent]
  · left
    refine ⟨by omega, ?_⟩
    rw [if_pos (by rw [hmax]; omega)]
    show _ = (_, _)
    rw [← hsent]
    rfl

end Update

end Microchain.Sync
