import Microchain.Sync.Storage

/-!
# One client and its connection

Whatever is on its way to a client are updates that it will accept, one after another, and
perhaps a request for its status behind them (`Copies`). On an open connection one of
three holds (`Link`): the box keeps a status of the client and tells it every change, or
it has asked for a status, or the status is on its way. In each of them both sides mean
the same chain: the one that the client will have when it has worked off its queue.

- `PeerInv`: what holds between any two steps, also while the connection is down;
- `Copies.serve`: an update of the box;
- one lemma for each step of a client or its connection.
-/

namespace Microchain.Sync

open Eosio Subchain Starter Box Feed BlockLog Lib Chainbase Graphql

/-! ## The invariant -/

/-- A client that shows the replica `R`, with the updates `us` on their way to it. -/
structure Copies (account : Name) (chains : List (List BlockWithId)) (T : Replica BlockWithId)
    (p : Peer) (m : MicroChain) (R : Replica BlockWithId) (us : List (Update BlockWithId))
    (asked : Bool) : Prop where
  subchain : p.client.subchain = .running m
  shows : Shows account m R
  sound : R.Sound
  messageQueue : p.client.messageQueue = us.map encode ++ if asked then [request] else []
  takes : Replica.Takes (Genuine chains) R us
  follows : T.Follows (R.run us)

/-- The two ends of an open connection, where `V` is the replica of the client once it has
worked off its queue. -/
inductive Link (T V : Replica BlockWithId) (p : Peer) : Bool → Prop
  /-- The box keeps a status; the client has, or gets, all blocks that there are. -/
  | held {status : ClientStatus} {a : Nat} (hstatus : p.connection.status = some status)
    (hcallback : p.connection.haveCallback = true) (hstatuses : p.client.statuses = [])
    (hshows : Status V a status.blocks) (hpos : 0 < status.maxBlocksToSend)
    (hcredit : blobs p.client.messageQueue + status.maxBlocksToSend ≤ 1000)
    (hchain : V.chain = T.chain) : Link T V p false
  /-- The box has asked for a status. -/
  | asked (hstatus : p.connection.status = none) (hcallback : p.connection.haveCallback = false)
    (hstatuses : p.client.statuses = []) (hcredit : blobs p.client.messageQueue ≤ 1000) :
    Link T V p true
  /-- A status is on its way to the box. -/
  | answered {status : ClientStatus} {a : Nat} (hstatus : p.connection.status = none)
    (hcallback : p.connection.haveCallback = false) (hqueue : p.client.messageQueue = [])
    (hstatuses : p.client.statuses = [status])
    (hshows : Status V a (sanitizeClientStatus status).blocks)
    (hpos : 0 < (sanitizeClientStatus status).maxBlocksToSend) : Link T V p false

/-- How many messages it takes, at most, until the client has all blocks, when it lacks
`lacking` of them. -/
def owed (p : Peer) (lacking : Nat) : Nat :=
  p.client.messageQueue.length +
    if p.connection.status.isSome then 0 else 4 * lacking + 2

/-- A client on an open connection, for which at most `n` messages are owed. -/
inductive Connected (account : Name) (chains : List (List BlockWithId))
    (T : Replica BlockWithId) (p : Peer) (n : Nat) : Prop
  | intro {m : MicroChain} {R : Replica BlockWithId} {us : List (Update BlockWithId)}
    {asked : Bool} {k : Nat} (hcopies : Copies account chains T p m R us asked)
    (honline : p.client.ws = true) (hopened : p.connection.ws = some .opened)
    (hlink : Link T (R.run us) p asked) (hagrees : (R.run us).Agrees T.chain k)
    (howed : owed p (T.chain.length - k) ≤ n)

/-- What holds of a client and its connection. -/
inductive PeerInv (account : Name) (chains : List (List BlockWithId)) (T : Replica BlockWithId)
    (s : Storage) (p : Peer) : Prop
  /-- No page is loaded. -/
  | missing (hsubchain : p.client.subchain = .missing) (hoffline : p.client.ws = false)
    (hqueue : p.client.messageQueue = []) (hstatuses : p.client.statuses = [])
    (hclosed : p.connection.ws ≠ some .opened)
  /-- The connection is lost, or the box has closed it. -/
  | down {m : MicroChain} {R : Replica BlockWithId} {us : List (Update BlockWithId)}
    {asked : Bool} (hcopies : Copies account chains T p m R us asked)
    (hclosed : p.connection.ws ≠ some .opened)
    (hoffline : p.client.ws = false → p.client.statuses = [])
    (honline : p.client.ws = true → s.blocksWasm = none)
  | connected {n : Nat} (h : Connected account chains T p n)

/-! ## What stays when the box goes on -/

section Steps

variable {sha256 : Bytes → Checksum256} {account : Name}
  {chains more : List (List BlockWithId)} {T T' : Replica BlockWithId} {s s' : Storage}
  {b : MicroChain} {p : Peer} {m : MicroChain} {R : Replica BlockWithId}
  {us vs : List (Update BlockWithId)} {asked : Bool} {a k : Nat}

theorem Copies.mono (h : Copies account chains T p m R us asked) (hfollows : T'.Follows T)
    (more : List (List BlockWithId)) : Copies account (chains ++ more) T' p m R us asked :=
  ⟨h.subchain, h.shows, h.sound, h.messageQueue, h.takes.mono fun _ h => h.append more,
    h.follows.trans hfollows⟩

/-- A connection that is not open sends nothing and stays so. -/
theorem update_closed {cs : ConnectionState} (hws : cs.ws ≠ some .opened) (s : Storage) :
    (cs.update s).2 = [] ∧ (cs.update s).1.ws ≠ some .opened := by
  unfold ConnectionState.update
  split
  · exact ⟨rfl, hws⟩
  · exact ⟨rfl, nofun⟩
  · next hopened => exact absurd hopened hws

theorem changed_closed {cs : ConnectionState} (hws : cs.ws ≠ some .opened) (s : Storage) :
    (cs.changed s).2 = [] ∧ (cs.changed s).1.ws ≠ some .opened := by
  unfold ConnectionState.changed
  split
  · exact @update_closed { cs with haveCallback := false } hws s
  · exact ⟨rfl, hws⟩

/-- A client to which nothing is sent. -/
theorem Copies.send_nil (h : Copies account chains T p m R us asked)
    {r : ConnectionState × List Data} (hr : r.2 = []) :
    Copies account chains T (p.send r) m R us asked := by
  refine ⟨h.subchain, h.shows, h.sound, ?_, h.takes, h.follows⟩
  show p.client.messageQueue ++ r.2 = _
  rw [hr, List.append_nil, h.messageQueue]

/-! ## An update of the box -/

/-- **An update of the box** for a status that the client will show: the updates that it
sends come behind those on their way, and the box keeps the status or asks for the next. -/
theorem Copies.serve (h : Copies account chains (target b) p m R us false)
    (hserving : Serving account s b) (hhistory : History sha256 account chains)
    (htarget : Genuine chains (target b)) {cs : ConnectionState} (hws : cs.ws = some .opened)
    (hcallback : cs.haveCallback = false) (hstatuses : p.client.statuses = [])
    {status : ClientStatus} (hcs : cs.status = some status)
    (hshows : Status (R.run us) a status.blocks) (hpos : 0 < status.maxBlocksToSend)
    (hcredit : blobs p.client.messageQueue + status.maxBlocksToSend ≤ 1000)
    (hagrees : (R.run us).Agrees b.blockLog.blocks k) (honline : p.client.ws = true) :
    Connected account chains (target b) (p.send (cs.update s))
      (p.client.messageQueue.length + 4 * (b.blockLog.blocks.length - k) + 1) := by
  have hsound := h.takes.sound h.sound
  obtain ⟨vs, k₁, hsends, hcases⟩ := update_eq hserving hhistory htarget h.takes.last hsound
    h.follows hws hcs hpos hshows
  obtain rfl := hsends.agrees.unique hagrees
  have hkb := hsends.agrees.le_target
  have hlen := hsends.length_le
  have hrun : R.run (us ++ vs) = (R.run us).run vs := Replica.run_append R us vs
  have htakes : Replica.Takes (Genuine chains) R (us ++ vs) :=
    Replica.takes_append.mpr ⟨h.takes, hsends.takes⟩
  have hqueue : p.client.messageQueue = us.map encode := by
    rw [h.messageQueue]
    exact List.append_nil _
  have hsent : blobs (us.map encode ++ vs.map encode) = blobs p.client.messageQueue +
      (min (k₁ + status.maxBlocksToSend) b.blockLog.blocks.length - k₁) := by
    rw [blobs_append, hqueue, hsends.blobs_eq]
  have hagrees' : ((R.run us).run vs).Agrees b.blockLog.blocks
      (min (k₁ + status.maxBlocksToSend) b.blockLog.blocks.length) :=
    .of_take (hsends.takes.sound hsound) (Nat.min_le_right _ _) hsends.chain
  rcases hcases with ⟨hmax, hupdate⟩ | ⟨status', hlt, hupdate, hstatus', hmax'⟩
  · have hcopies : Copies account chains (target b) (p.send (cs.update s)) m R (us ++ vs) true := by
      refine ⟨h.subchain, h.shows, h.sound, ?_, htakes, hrun ▸ hsends.follows⟩
      show p.client.messageQueue ++ (cs.update s).2 = _
      rw [hupdate, hqueue, List.map_append, List.append_assoc]
      rfl
    refine .intro hcopies honline ?_ (.asked ?_ ?_ hstatuses ?_) (hrun ▸ hagrees') ?_
    · show (cs.update s).1.ws = _
      rw [hupdate]
      exact hws
    · show (cs.update s).1.status = none
      rw [hupdate]
    · show (cs.update s).1.haveCallback = false
      rw [hupdate]
      exact hcallback
    · show blobs (p.client.messageQueue ++ (cs.update s).2) ≤ 1000
      have hrequest : blobs [request] = 0 := rfl
      rw [hupdate, hqueue, ← List.append_assoc, blobs_append, hsent, hrequest]
      omega
    · show (p.client.messageQueue ++ (cs.update s).2).length +
        (if (cs.update s).1.status.isSome then 0 else 4 * (b.blockLog.blocks.length - _) + 2) ≤ _
      rw [hupdate]
      simp only [List.length_append, List.length_map, List.length_singleton, Option.isSome_none,
        Bool.false_eq_true, if_false]
      rw [if_pos (by omega)] at hlen
      omega
  · have hall : min (k₁ + status.maxBlocksToSend) b.blockLog.blocks.length =
        b.blockLog.blocks.length := by omega
    have hcopies : Copies account chains (target b) (p.send (cs.update s)) m R (us ++ vs)
        false := by
      refine ⟨h.subchain, h.shows, h.sound, ?_, htakes, hrun ▸ hsends.follows⟩
      show p.client.messageQueue ++ (cs.update s).2 = _
      rw [hupdate, hqueue, List.map_append]
      exact (List.append_nil _).symm
    refine .intro hcopies honline ?_ (@Link.held _ _ _ status' a ?_ ?_ hstatuses ?_ ?_ ?_ ?_)
      (hrun ▸ hagrees') ?_
    · show (cs.update s).1.ws = _
      rw [hupdate]
      exact hws
    · show (cs.update s).1.status = some status'
      rw [hupdate]
    · show (cs.update s).1.haveCallback = true
      rw [hupdate]
    · rw [hrun]
      exact hstatus'
    · omega
    · show blobs (p.client.messageQueue ++ (cs.update s).2) + status'.maxBlocksToSend ≤ 1000
      rw [hupdate, hqueue, hsent]
      omega
    · rw [hrun, hsends.chain, hall, List.take_length]
      rfl
    · show (p.client.messageQueue ++ (cs.update s).2).length +
        (if (cs.update s).1.status.isSome then 0 else _) ≤ _
      rw [hupdate]
      simp only [List.length_append, List.length_map, Option.isSome_some, if_true]
      rw [hall] at hlen
      split at hlen <;> omega

/-! ## Calls of the storage -/

/-- **A change of the chain** of the box, of which it tells its clients. -/
theorem Connected.changed {n : Nat} (h : Connected account chains T p n)
    (hfollows : (target b).Follows T) (hserving : Serving account s' b)
    (hhistory : History sha256 account (chains ++ more))
    (htarget : Genuine (chains ++ more) (target b)) :
    ∃ n', Connected account (chains ++ more) (target b) (p.changed s') n' := by
  obtain @⟨m, R, us, asked, -, hcopies, honline, hopened, hlink, -, -⟩ := h
  have hcopies := hcopies.mono hfollows more
  obtain ⟨k, hagrees⟩ := Replica.Agrees.exists_of_follows hcopies.follows
    (hcopies.takes.sound hcopies.sound) (target_sound hserving.inv)
  have hidle : p.connection.haveCallback = false → p.changed s' = p := by
    intro hcallback
    have hsame : p.changed s' = p.send (p.connection, []) :=
      congrArg p.send (if_neg (by rw [hcallback]; nofun))
    rw [hsame]
    show { p with client := { p.client with messageQueue := p.client.messageQueue ++ [] } } = p
    rw [List.append_nil]
  cases hlink with
  | held hstatus hcallback hstatuses hshows hpos hcredit hchain =>
    -- the callback runs
    have hchanged : p.changed s' =
        p.send ({ p.connection with haveCallback := false }.update s') :=
      congrArg p.send (if_pos hcallback)
    rw [hchanged]
    exact ⟨_, @Copies.serve sha256 account _ s' b p m R us _ k hcopies hserving hhistory htarget
      { p.connection with haveCallback := false } hopened rfl hstatuses _ hstatus hshows hpos
      hcredit hagrees honline⟩
  | asked hstatus hcallback hstatuses hcredit =>
    rw [hidle hcallback]
    exact ⟨_, .intro hcopies honline hopened (.asked hstatus hcallback hstatuses hcredit) hagrees
      (Nat.le_refl _)⟩
  | answered hstatus hcallback hqueue hstatuses hshows hpos =>
    rw [hidle hcallback]
    exact ⟨_, .intro hcopies honline hopened
      (.answered hstatus hcallback hqueue hstatuses hshows hpos) hagrees (Nat.le_refl _)⟩

theorem PeerInv.changed (h : PeerInv account chains T s p) (hup : s.blocksWasm ≠ none)
    (hfollows : (target b).Follows T) (hserving : Serving account s' b)
    (hhistory : History sha256 account (chains ++ more))
    (htarget : Genuine (chains ++ more) (target b)) :
    PeerInv account (chains ++ more) (target b) s' (p.changed s') := by
  cases h with
  | missing hsubchain hoffline hqueue hstatuses hclosed =>
    obtain ⟨hsent, hclosed'⟩ := changed_closed hclosed s'
    refine .missing hsubchain hoffline ?_ hstatuses hclosed'
    show p.client.messageQueue ++ (p.connection.changed s').2 = []
    rw [hqueue, hsent]
    rfl
  | down hcopies hclosed hoffline honline =>
    obtain ⟨hsent, hclosed'⟩ := changed_closed hclosed s'
    exact .down ((hcopies.mono hfollows more).send_nil hsent) hclosed' hoffline
      fun hon => absurd (honline hon) hup
  | connected h =>
    obtain ⟨n', h'⟩ := h.changed hfollows hserving hhistory htarget
    exact .connected h'

/-- A call that throws leaves no instance, and tells nobody. -/
theorem PeerInv.throws (h : PeerInv account chains T s p) (hdown : s'.blocksWasm = none) :
    PeerInv account chains T s' p := by
  cases h with
  | missing hsubchain hoffline hqueue hstatuses hclosed =>
    exact .missing hsubchain hoffline hqueue hstatuses hclosed
  | down hcopies hclosed hoffline honline =>
    exact .down hcopies hclosed hoffline fun _ => hdown
  | connected h => exact .connected h

/-! ## A status -/

/-- A storage that has lost its instances. -/
theorem popBlocks_down (hdown : s.blocksWasm = none) (blocks : List BlockInfo)
    (needHeadUpdate : Bool) :
    (∃ e rest, popBlocks s blocks needHeadUpdate = (.error e, rest)) ∨
      ∃ needHeadUpdate', popBlocks s blocks needHeadUpdate = (.ok needHeadUpdate', []) := by
  induction blocks generalizing needHeadUpdate with
  | nil => exact .inr ⟨needHeadUpdate, rfl⟩
  | cons info blocks ih =>
    rw [popBlocks]
    split
    · exact ih true
    · have hid : s.idForNum info.num = .error (.storage .corrupt) := by
        rw [Storage.idForNum, Storage.protect, hdown]
      rw [hid]
      exact .inl ⟨_, _, rfl⟩

/-- The box closes a connection when it should send a block and has lost them. -/
theorem update_down (hdown : s.blocksWasm = none) (hhead : 0 < s.head) {cs : ConnectionState}
    (hws : cs.ws = some .opened) {status : ClientStatus} (hcs : cs.status = some status)
    (hpos : 0 < status.maxBlocksToSend) : (cs.update s).2 = [] ∧ (cs.update s).1.ws = none := by
  have hserve : ∃ e u, status.serve s = (.error e, u) ∧ u.sent = [] := by
    rcases popBlocks_down hdown status.blocks.reverse false with ⟨e, rest, hpop⟩ | ⟨need, hpop⟩
    · rw [ClientStatus.serve, hpop]
      exact ⟨_, _, rfl, rfl⟩
    · rw [ClientStatus.serve, hpop]
      dsimp only
      obtain ⟨n, hn⟩ := Nat.exists_eq_add_of_lt hpos
      have hget : ∀ num, s.getBlock num = .error .corrupt := by
        intro num
        rw [Storage.getBlock, Storage.protect, hdown]
      rw [hn, Nat.zero_add, sendBlocks]
      dsimp only
      rw [if_neg (by exact Nat.not_lt.mpr hhead)]
      rw [hget]
      exact ⟨_, _, rfl, rfl⟩
  obtain ⟨e, u, hserve, hsent⟩ := hserve
  rw [ConnectionState.update, hws]
  dsimp only
  rw [hcs]
  dsimp only
  rw [hserve]
  exact ⟨hsent, rfl⟩

/-- A storage that can send all blocks of the chain, or one that has lost some. -/
theorem Upholds.serves (h : Upholds sha256 account chains T s) :
    (∃ b, Serving account s b ∧ Sync.target b = T) ∨ s.blocksWasm = none ∧ 0 < s.head := by
  cases hb : s.blocksWasm with
  | some b => exact .inl ⟨b, (h.serving hb).1, h.target b hb⟩
  | none =>
    rcases Nat.eq_zero_or_pos s.head with hzero | hpos
    · -- there are no blocks
      have hlen : T.chain.length = 0 := h.head.symm.trans hzero
      have hfinal : T.final = 0 := Nat.le_zero.mp (hlen ▸ h.sound)
      refine .inl ⟨{ starterAccount := account }, ⟨nofun, ChainRun.inv_start account, hzero⟩, ?_⟩
      cases T
      exact congr (congrArg Replica.mk (List.eq_nil_of_length_eq_zero hlen).symm) hfinal.symm
    · exact .inr ⟨rfl, hpos⟩

/-- **A status arrives.** -/
theorem Connected.message {n : Nat} (h : Connected account chains (target b) p (n + 1))
    (hserving : Serving account s b) (hhistory : History sha256 account chains)
    (htarget : Genuine chains (target b)) (hstatuses : p.client.statuses ≠ []) :
    Connected account chains (target b) (p.message s) n := by
  obtain @⟨m, R, us, asked, k, hcopies, honline, hopened, hlink, hagrees, howed⟩ := h
  cases hlink with
  | held _ _ hnone => exact absurd hnone hstatuses
  | asked _ _ hnone => exact absurd hnone hstatuses
  | @answered status a hstatus hcallback hqueue hone hshows hpos =>
    have hcopies' : Copies account chains (target b)
        { p with client := { p.client with statuses := [] } } m R us false :=
      ⟨hcopies.subchain, hcopies.shows, hcopies.sound, hcopies.messageQueue, hcopies.takes,
        hcopies.follows⟩
    have hcredit : blobs p.client.messageQueue + (sanitizeClientStatus status).maxBlocksToSend ≤
        1000 := by
      rw [hqueue]
      exact Nat.le_trans (Nat.le_of_eq (Nat.zero_add _)) (Nat.min_le_right _ _)
    have hmessage : p.message s = { p with client := { p.client with statuses := [] } }.send
        (p.connection.message s status) := by
      rw [Peer.message, hone]
    obtain ⟨hcopies'', honline', hopened', hlink', hagrees', howed'⟩ :=
      @Copies.serve sha256 account _ s b _ m R us a k hcopies' hserving hhistory htarget
        { p.connection with status := some (sanitizeClientStatus status) } hopened hcallback rfl
        _ rfl hshows hpos hcredit hagrees honline
    rw [hmessage]
    refine .intro hcopies'' honline' hopened' hlink' hagrees' (Nat.le_trans howed' ?_)
    -- what has been owed before
    rw [owed, hstatus, hqueue] at howed
    show p.client.messageQueue.length + 4 * (b.blockLog.blocks.length - k) + 1 ≤ n
    rw [hqueue]
    change 0 + (4 * (b.blockLog.blocks.length - k) + 2) ≤ n + 1 at howed
    show 0 + 4 * (b.blockLog.blocks.length - k) + 1 ≤ n
    omega

theorem PeerInv.message (h : PeerInv account chains T s p)
    (hupholds : Upholds sha256 account chains T s) (hhistory : History sha256 account chains) :
    PeerInv account chains T s (p.message s) := by
  cases hstatuses : p.client.statuses with
  | nil =>
    rw [Peer.message, hstatuses]
    exact h
  | cons status statuses =>
    have hmessage : p.message s = { p with client := { p.client with statuses } }.send
        (p.connection.message s status) := by
      rw [Peer.message, hstatuses]
    -- a connection that sends nothing and is closed
    have hdown : ∀ {m R us asked}, Copies account chains T p m R us asked → p.client.ws = true →
        s.blocksWasm = none → (p.connection.message s status).2 = [] →
        (p.connection.message s status).1.ws ≠ some .opened →
        PeerInv account chains T s (p.message s) := by
      intro m R us asked hcopies honline hnone hsent hclosed
      rw [hmessage]
      have hcopies' : Copies account chains T { p with client := { p.client with statuses } } m R us
          asked := ⟨hcopies.subchain, hcopies.shows, hcopies.sound, hcopies.messageQueue,
            hcopies.takes, hcopies.follows⟩
      exact .down (hcopies'.send_nil hsent) hclosed
        (fun hoff => absurd (honline.symm.trans hoff) nofun) fun _ => hnone
    cases h with
    | missing _ _ _ hnil =>
      rw [hstatuses] at hnil
      cases hnil
    | down hcopies hclosed hoffline honline =>
      have hon : p.client.ws = true := by
        by_contra hoff
        have hnil := hoffline (Bool.eq_false_of_not_eq_true hoff)
        rw [hstatuses] at hnil
        cases hnil
      obtain ⟨hsent, hclosed'⟩ := @update_closed
        { p.connection with status := some (sanitizeClientStatus status) } hclosed s
      exact hdown hcopies hon (honline hon) hsent hclosed'
    | @connected n h =>
      rcases hupholds.serves with ⟨b, hserving, rfl⟩ | ⟨hnone, hhead⟩
      · obtain ⟨hcopies, honline, hopened, hlink, hagrees, howed⟩ := h
        exact .connected (Connected.message (.intro hcopies honline hopened hlink hagrees
          (Nat.le_succ_of_le howed)) hserving hhistory hupholds.genuine (by rw [hstatuses]; nofun))
      · obtain ⟨hcopies, honline, hopened, hlink, -, -⟩ := h
        cases hlink with
        | held _ _ hnil =>
          rw [hstatuses] at hnil
          cases hnil
        | asked _ _ hnil =>
          rw [hstatuses] at hnil
          cases hnil
        | answered _ _ _ hone _ hpos =>
          rw [hstatuses] at hone
          cases hone
          obtain ⟨hsent, hclosed⟩ := @update_down _ hnone hhead
            { p.connection with status := some (sanitizeClientStatus status) } hopened _ rfl hpos
          refine hdown hcopies honline hnone hsent ?_
          show (ConnectionState.update s _).1.ws ≠ _
          rw [hclosed]
          nofun

/-! ## Steps of a client -/

/-- **What a client says about itself** shows its replica, and survives the checks of the
box. -/
theorem status_shows (h : Shows account m R) (hhistory : History sha256 account chains)
    (hgenuine : Genuine chains R) (slowmo : Bool) :
    ∃ status a, SubchainClient.status slowmo m = some status ∧
      Status R a (sanitizeClientStatus status).blocks ∧
      0 < (sanitizeClientStatus status).maxBlocksToSend := by
  obtain ⟨trimmed, hinv, hchain, hirr⟩ := h
  have hvalid := hhistory.seen hgenuine.seen
  refine ⟨_, m.blockLog.irreversible.toNat - 1, status_eq hinv hchain slowmo, ⟨by omega, ?_⟩, ?_⟩
  · show List.map sanitizeBlockInfo (List.map blockInfo _) = _
    rw [shown, List.take_length, List.map_map]
    refine List.map_congr_left fun x _ => ?_
    show BlockInfo.mk (toUint32 x.num.toNat) _ = _
    rw [toUint32, Nat.mod_eq_of_lt x.num.toNat_lt]
    rfl
  · show 0 < min (toUint32 (if slowmo then 1 else 1000)) 1000
    cases slowmo <;> decide

/-- A client that has worked off its queue and is asked for its status, or opens a
connection. -/
theorem Connected.answer {n : Nat} (hcopies : Copies account chains T p m R [] false)
    (hhistory : History sha256 account chains) (hT : T.Sound) (honline : p.client.ws = true)
    (hopened : p.connection.ws = some .opened) (hstatus : p.connection.status = none)
    (hcallback : p.connection.haveCallback = false) (hstatuses : p.client.statuses = [])
    (howed : ∀ k, R.Agrees T.chain k → 4 * (T.chain.length - k) + 2 ≤ n) :
    Connected account chains T { p with client := p.client.sendStatus } n := by
  obtain ⟨status, a, hsend, hshows, hpos⟩ :=
    status_shows hcopies.shows hhistory hcopies.takes.here p.client.slowmo
  obtain ⟨k, hagrees⟩ := Replica.Agrees.exists_of_follows hcopies.follows hcopies.sound hT
  have hsent : p.client.sendStatus = { p.client with statuses := [status] } := by
    rw [SubchainClient.sendStatus, if_pos honline]
    split
    · next m' hm' =>
      rw [hcopies.subchain] at hm'
      cases hm'
      rw [hsend, hstatuses]
      rfl
    · next hnot => exact absurd hcopies.subchain (hnot m)
  have hqueue : p.client.messageQueue = [] := hcopies.messageQueue
  rw [hsent]
  refine .intro (k := k) ⟨hcopies.subchain, hcopies.shows, hcopies.sound, hcopies.messageQueue,
    hcopies.takes, hcopies.follows⟩ honline hopened
    (.answered hstatus hcallback hqueue rfl hshows hpos) hagrees ?_
  show p.client.messageQueue.length + (if p.connection.status.isSome then 0 else
    4 * (T.chain.length - k) + 2) ≤ n
  rw [hqueue, hstatus]
  exact Nat.le_trans (Nat.le_of_eq (Nat.zero_add _)) (howed k hagrees)

theorem processMessage_encode {client : SubchainClient} (h : client.subchain = .running m)
    (u : Update BlockWithId) : client.processMessage sha256 (encode u) =
      { client with
        subchain := SubchainClient.exec sha256 m (SubchainClient.calls (encode u)) } := by
  rw [SubchainClient.processMessage, h]
  cases u <;> rfl

/-- **An update** is processed. -/
theorem Copies.update {u : Update BlockWithId}
    (h : Copies account chains T p m R (u :: us) asked)
    (hhistory : History sha256 account chains) :
    ∃ m', p.onmessage sha256 = { p with client := { p.client with
          subchain := .running m'
          messageQueue := us.map encode ++ if asked then [request] else [] } } ∧
      Copies account chains T (p.onmessage sha256) m' (R.apply u) us asked := by
  obtain ⟨hgenuine, haccepts, htakes⟩ := h.takes
  obtain ⟨m', hexec, hshows⟩ := h.shows.exec hhistory hgenuine haccepts htakes.here
  have hprocess : p.onmessage sha256 = { p with client := { p.client with
      subchain := .running m'
      messageQueue := us.map encode ++ if asked then [request] else [] } } := by
    have hqueue : p.client.messageQueue =
        encode u :: (us.map encode ++ if asked then [request] else []) := h.messageQueue
    rw [Peer.onmessage, SubchainClient.processQueue, hqueue]
    dsimp only
    rw [@processMessage_encode sha256 m { p.client with
      messageQueue := us.map encode ++ if asked then [request] else [] } h.subchain, hexec]
  refine ⟨m', hprocess, ?_⟩
  rw [hprocess]
  exact ⟨rfl, hshows, h.sound.apply haccepts, rfl, htakes, h.follows⟩

/-- **A request** is processed. -/
theorem onmessage_request (hsubchain : p.client.subchain = .running m)
    (hqueue : p.client.messageQueue = [request]) : p.onmessage sha256 =
      { p with client := { p.client with messageQueue := [] }.sendStatus } := by
  rw [Peer.onmessage, SubchainClient.processQueue, hqueue]
  dsimp only
  rw [SubchainClient.processMessage, hsubchain]
  rfl

theorem Copies.onrequest (h : Copies account chains T p m R [] true) :
    Copies account chains T { p with client := { p.client with messageQueue := [] } } m R []
      false :=
  ⟨h.subchain, h.shows, h.sound, rfl, h.takes, h.follows⟩

/-- Only the statuses change. -/
theorem sendStatus_cases (client : SubchainClient) : ∃ statuses,
    client.sendStatus = { client with statuses } ∧
      (client.ws = false → statuses = client.statuses) := by
  unfold SubchainClient.sendStatus
  split
  · next honline =>
    split
    · exact ⟨_, rfl, fun hoff => absurd (honline.symm.trans hoff) nofun⟩
    · exact ⟨_, rfl, fun _ => rfl⟩
  · exact ⟨_, rfl, fun _ => rfl⟩

/-- **A message is processed** on an open connection, and one message less is owed. -/
theorem Connected.onmessage {n : Nat} (h : Connected account chains T p (n + 1))
    (hhistory : History sha256 account chains) (hT : T.Sound)
    (hqueue : p.client.messageQueue ≠ []) :
    Connected account chains T (p.onmessage sha256) n := by
  obtain @⟨m, R, us, asked, k, hcopies, honline, hopened, hlink, hagrees, howed⟩ := h
  cases us with
  | nil =>
    cases hlink with
    | held => exact absurd hcopies.messageQueue hqueue
    | answered _ _ hempty => exact absurd hempty hqueue
    | asked hstatus hcallback hstatuses hcredit =>
      rw [onmessage_request hcopies.subchain hcopies.messageQueue]
      refine Connected.answer hcopies.onrequest hhistory hT honline hopened hstatus hcallback
        hstatuses fun k' hk' => ?_
      obtain rfl := hk'.unique hagrees
      rw [owed, hstatus, hcopies.messageQueue] at howed
      change 1 + (4 * (T.chain.length - k') + 2) ≤ n + 1 at howed
      omega
  | cons u us =>
    obtain ⟨m', hprocess, hcopies'⟩ := hcopies.update hhistory
    have hold : p.client.messageQueue =
        [encode u] ++ (us.map encode ++ if asked then [request] else []) := hcopies.messageQueue
    have hlen := congrArg List.length hold
    have hblobs := congrArg blobs hold
    rw [List.length_append, List.length_singleton] at hlen
    rw [blobs_append] at hblobs
    have hlink' : Link T ((R.apply u).run us) (p.onmessage sha256) asked := by
      rw [hprocess]
      cases hlink with
      | held hstatus hcallback hstatuses hshows hpos hcredit hchain =>
        exact .held hstatus hcallback hstatuses hshows hpos (by dsimp only; omega) hchain
      | asked hstatus hcallback hstatuses hcredit =>
        exact .asked hstatus hcallback hstatuses (by dsimp only; omega)
      | answered _ _ hempty => exact absurd hempty hqueue
    have hclient : (p.onmessage sha256).client.ws = p.client.ws ∧
        (p.onmessage sha256).connection = p.connection := by
      rw [hprocess]
      exact ⟨rfl, rfl⟩
    refine .intro hcopies' (hclient.1.trans honline) (hclient.2 ▸ hopened) hlink' hagrees ?_
    rw [owed, hlen] at howed
    rw [owed, hclient.2, hcopies'.messageQueue]
    omega

theorem PeerInv.onmessage (h : PeerInv account chains T s p)
    (hhistory : History sha256 account chains) (hT : T.Sound) :
    PeerInv account chains T s (p.onmessage sha256) := by
  by_cases hqueue : p.client.messageQueue = []
  · rw [Peer.onmessage, SubchainClient.processQueue, hqueue]
    exact h
  cases h with
  | missing _ _ hempty => exact absurd hempty hqueue
  | @down m R us asked hcopies hclosed hoffline honline =>
    cases us with
    | nil =>
      cases asked with
      | false => exact absurd hcopies.messageQueue hqueue
      | true =>
        rw [onmessage_request hcopies.subchain hcopies.messageQueue]
        obtain ⟨statuses, hsent, hsame⟩ :=
          sendStatus_cases { p.client with messageQueue := [] }
        have hcopies' := hcopies.onrequest
        rw [hsent]
        exact .down ⟨hcopies'.subchain, hcopies'.shows, hcopies'.sound, hcopies'.messageQueue,
          hcopies'.takes, hcopies'.follows⟩ hclosed
          (fun hoff => (hsame hoff).trans (hoffline hoff)) honline
    | cons u us =>
      obtain ⟨m', hprocess, hcopies'⟩ := hcopies.update hhistory
      rw [hprocess] at hcopies' ⊢
      exact .down hcopies' hclosed hoffline honline
  | @connected n h =>
    obtain ⟨hcopies, honline, hopened, hlink, hagrees, howed⟩ := h
    exact .connected (Connected.onmessage (.intro hcopies honline hopened hlink hagrees
      (Nat.le_succ_of_le howed)) hhistory hT hqueue)

/-! ## Connections and pages -/

/-- **A connection is opened.** -/
theorem PeerInv.connect (h : PeerInv account chains T s p)
    (hhistory : History sha256 account chains) (hT : T.Sound) :
    PeerInv account chains T s p.connect := by
  have hidle : p.client.ws = true → p.connect = p := fun hon => by
    rw [Peer.connect, hon]
    rfl
  cases h with
  | missing hsubchain hoffline hqueue hstatuses hclosed =>
    have hsame : p.connect = p := by
      rw [Peer.connect, hoffline, hqueue, hsubchain]
      rfl
    rw [hsame]
    exact .missing hsubchain hoffline hqueue hstatuses hclosed
  | @down m R us asked hcopies hclosed hoffline honline =>
    have hdown := PeerInv.down hcopies hclosed hoffline honline
    cases hws : p.client.ws with
    | true =>
      rw [hidle hws]
      exact hdown
    | false =>
      cases hqueue : p.client.messageQueue with
      | cons data queue =>
        have hsame : p.connect = p := by
          rw [Peer.connect, hqueue]
          exact if_pos (by rw [hws]; rfl)
        rw [hsame]
        exact hdown
      | nil =>
        have hopen : p.connect =
            { client := { p.client with ws := true }.sendStatus, connection := {} } := by
          rw [Peer.connect, hws, hqueue, hcopies.subchain]
          rfl
        have hempty := hcopies.messageQueue
        rw [hqueue] at hempty
        obtain ⟨hus, hasked⟩ := List.append_eq_nil_iff.mp hempty.symm
        obtain rfl := List.map_eq_nil_iff.mp hus
        have hcopies' : Copies account chains T
            { client := { p.client with ws := true }, connection := {} } m R [] false :=
          ⟨hcopies.subchain, hcopies.shows, hcopies.sound, hqueue, hcopies.takes, hcopies.follows⟩
        rw [hopen]
        exact .connected (Connected.answer hcopies' hhistory hT rfl rfl rfl rfl (hoffline hws)
          fun k _ => Nat.add_le_add_right (Nat.mul_le_mul_left 4 (Nat.sub_le _ k)) 2)
  | connected h =>
    have hon : p.client.ws = true := by
      cases h
      assumption
    rw [hidle hon]
    exact .connected h

/-- A part of what is on its way to a client gets lost. -/
theorem Copies.onclose (h : Copies account chains T p m R us asked) (received : Nat) :
    ∃ us' asked', Copies account chains T (p.onclose received) m R us' asked' := by
  have hlost : (p.onclose received).client.messageQueue =
      (us.map encode ++ if asked then [request] else []).take received := by
    rw [← h.messageQueue]
    rfl
  rcases Nat.lt_or_ge us.length received with hlt | hle
  · refine ⟨us, asked, h.subchain, h.shows, h.sound, ?_, h.takes, h.follows⟩
    rw [hlost, List.take_of_length_le]
    rw [List.length_append, List.length_map]
    split <;> simp only [List.length_nil, List.length_singleton] <;> omega
  · have htakes : Replica.Takes (Genuine chains) R (us.take received ++ us.drop received) := by
      rw [List.take_append_drop]
      exact h.takes
    obtain ⟨htaken, hrest⟩ := Replica.takes_append.mp htakes
    refine ⟨us.take received, false, h.subchain, h.shows, h.sound, ?_, htaken,
      Replica.Follows.of_run hrest ?_⟩
    · rw [hlost, List.take_append_of_le_length (by rwa [List.length_map]), ← List.map_take]
      exact (List.append_nil _).symm
    · rw [← Replica.run_append, List.take_append_drop]
      exact h.follows

/-- **A connection is lost.** -/
theorem PeerInv.onclose (h : PeerInv account chains T s p) (received : Nat) :
    PeerInv account chains T s (p.onclose received) := by
  have hclosed : (p.onclose received).connection.ws ≠ some .opened := by
    show p.connection.ws.map (fun _ => ReadyState.closed) ≠ _
    cases p.connection.ws <;> nofun
  have hdown : ∀ {m R us asked}, Copies account chains T p m R us asked →
      PeerInv account chains T s (p.onclose received) := by
    intro m R us asked hcopies
    obtain ⟨us', asked', hcopies'⟩ := hcopies.onclose received
    exact .down hcopies' hclosed (fun _ => rfl) nofun
  cases h with
  | missing hsubchain hoffline hqueue hstatuses =>
    refine .missing hsubchain rfl ?_ rfl hclosed
    show p.client.messageQueue.take received = []
    rw [hqueue, List.take_nil]
  | down hcopies => exact hdown hcopies
  | connected h =>
    obtain ⟨hcopies⟩ := h
    exact hdown hcopies

/-- An instance that a page can start with. -/
def Loads (account : Name) (chains : List (List BlockWithId)) (T : Replica BlockWithId)
    (m : MicroChain) : Prop :=
  ∃ R, Shows account m R ∧ R.Sound ∧ Genuine chains R ∧ T.Follows R

theorem Loads.mono (h : Loads account chains T m) (hfollows : T'.Follows T)
    (more : List (List BlockWithId)) : Loads account (chains ++ more) T' m := by
  obtain ⟨R, hshows, hsound, hgenuine, hR⟩ := h
  exact ⟨R, hshows, hsound, hgenuine.append more, hR.trans hfollows⟩

/-- **A page is loaded.** -/
theorem PeerInv.instantiateStreaming (p : Peer) (hloads : Loads account chains T m)
    (slowmo : Bool) : PeerInv account chains T s (p.instantiateStreaming m slowmo) := by
  obtain ⟨R, hshows, hsound, hgenuine, hfollows⟩ := hloads
  have hclosed : (p.instantiateStreaming m slowmo).connection.ws ≠ some .opened := by
    show p.connection.ws.map (fun _ => ReadyState.closed) ≠ _
    cases p.connection.ws <;> nofun
  have hcopies : Copies account chains T (p.instantiateStreaming m slowmo) m R [] false :=
    ⟨rfl, hshows, hsound, rfl, hgenuine, hfollows⟩
  exact .down hcopies hclosed (fun _ => rfl) nofun

end Steps

end Microchain.Sync
