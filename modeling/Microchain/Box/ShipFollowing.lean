import Microchain.Box.ShipLog

/-!
# The storage follows the node

Every connection begins with the first block again, so what has been sent over it lags behind
what the storage has, and the node may have switched to another branch in between. The
storage is a copy by splices all the same (`Lib.Stream`): it is never between two branches,
what it takes for final stays, and what is left of an old branch goes with the first block
that it did not have.

- `shipRequestFromBin_toBin`: the node gets the request;
- `ShipInv`: what holds between any two steps;
- `run_follows`: **what the storage has** after every run.
-/

namespace Microchain.Box

open Eosio Subchain Starter Lib

/-! ## The request -/

theorem boolFromBin_toBin (b : Bool) (s : Bytes) : boolFromBin (boolToBin b ++ s) = .ok (b, s) := by
  cases b <;> rfl

theorem blockPositionFromBin_toBin (position : BlockPosition) (s : Bytes) :
    blockPositionFromBin (blockPositionToBin position ++ s) = .ok (position, s) := by
  rw [blockPositionToBin, List.append_assoc, blockPositionFromBin]
  simp only [uint32FromBin_toBin, checksum256FromBin_toBin, bind, Except.bind]

theorem getBlocksRequestFromBin_toBin {request : GetBlocksRequest}
    (h : Sized request.havePositions) (s : Bytes) :
    getBlocksRequestFromBin (getBlocksRequestToBin request ++ s) = .ok (request, s) := by
  rw [getBlocksRequestToBin]
  simp only [List.append_assoc]
  rw [getBlocksRequestFromBin]
  simp only [uint32FromBin_toBin, vectorFromBin_toBin h fun p _ => blockPositionFromBin_toBin p,
    boolFromBin_toBin, bind, Except.bind]

/-- **A request is read back**, whatever it is. -/
theorem shipRequestFromBin_toBin (request : ShipRequest)
    (h : ∀ r, request = .getBlocksRequest r → Sized r.havePositions) (s : Bytes) :
    shipRequestFromBin (shipRequestToBin request ++ s) = .ok (request, s) := by
  cases request with
  | getStatusRequest =>
    rw [shipRequestToBin, shipRequestFromBin]
    simp only [varuint32FromBin_toBin, bind, Except.bind]
    rfl
  | getBlocksRequest r =>
    rw [shipRequestToBin, List.append_assoc, shipRequestFromBin]
    simp only [varuint32FromBin_toBin, getBlocksRequestFromBin_toBin (h r rfl), bind, Except.bind]
    rfl
  | getBlocksAckRequest numMessages =>
    rw [shipRequestToBin, List.append_assoc, shipRequestFromBin]
    simp only [varuint32FromBin_toBin, uint32FromBin_toBin, bind, Except.bind]
    rfl

/-- The node begins with the first block. -/
theorem shipBlocksRequest_read (firstBlock : UInt32) :
    shipRequestFromBin (shipRequestToBin (shipBlocksRequest firstBlock)) =
      .ok (shipBlocksRequest firstBlock, []) := by
  have hread := shipRequestFromBin_toBin (shipBlocksRequest firstBlock)
    (fun r hr => by
      cases hr
      exact (by decide : (0 : Nat) < UInt32.size)) []
  rwa [List.append_nil] at hread

/-! ## The storage -/

section Storage

variable {sha256 : Bytes → Checksum256} {account : Name} {s : Storage} {l : List EosioBlock}
  {told : Nat}

theorem Storage.Tracks.getShipBlocksRequest (h : s.Tracks sha256 account l told)
    (blockNum : UInt32) :
    ∃ s', s.getShipBlocksRequest blockNum =
        (.ok (some (shipRequestToBin (shipBlocksRequest blockNum))), s') ∧
      s'.Tracks sha256 account l told := by
  obtain ⟨b, t, hb, ht, htwin, hlog, htold⟩ := h
  rw [Storage.getShipBlocksRequest, Storage.protect, hb, ht]
  refine ⟨_, rfl, _, t, rfl, rfl, ⟨htwin.blocks.setResult _, ?_, htwin.log, htwin.sorted⟩, hlog,
    htold⟩
  exact htwin.state

theorem Storage.Tracks.saveState (h : s.Tracks sha256 account l told) :
    ∃ memory s', s.saveState = (.ok memory, s') ∧ s'.Tracks sha256 account l told := by
  obtain ⟨b, t, hb, ht, htwin⟩ := h
  rw [Storage.saveState, Storage.protect, hb, ht]
  exact ⟨t, _, rfl, b, t, rfl, rfl, htwin⟩

end Storage

/-! ## The invariant -/

section Invariant

variable (sha256 : Bytes → Checksum256) (firstBlock : UInt32) {account : Name}
  (branches : List (List EosioBlock))

/-- A beginning of a branch that the node has been on. -/
structure Known (l : List EosioBlock) : Prop where
  numbered : Numbered firstBlock l
  branch : ∃ c ∈ branches, l <+: c

/-- How many of the node's blocks are irreversible. -/
def settled (lib : UInt32) : Nat := lib.toNat + 1 - firstBlock.toNat

/-- The place of a block that is sent. -/
def splice (m : NodeBlock account × UInt32) : Splice EosioBlock where
  place := m.1.eosioBlock.num.toNat - firstBlock.toNat
  value := m.1.eosioBlock
  settled := settled firstBlock m.2

/-- The receiver and its connection; `S` says how what has been read over it, what is on its
way and what is sent next go together. -/
inductive Phase (S : List EosioBlock → List (Splice EosioBlock) → Nat → Prop) (r : ShipReceiver) :
    Option (ShipConnection account) → Prop
  | down (hclient : r.wsClient = false) (hasked : r.requestedBlocks = false) : Phase S r none
  | greeting (hclient : r.wsClient = true) (hasked : r.requestedBlocks = false) :
    Phase S r (some {})
  | asked (hclient : r.wsClient = true) (hasked : r.requestedBlocks = true) :
    Phase S r (some
      { queue := [], requests := [shipRequestToBin (shipBlocksRequest firstBlock)] })
  | streaming {c : ShipConnection account} {msgs : List (NodeBlock account × UInt32)}
    {view : List EosioBlock} {next : Nat} (hclient : r.wsClient = true)
    (hasked : r.requestedBlocks = true) (hrequests : c.requests = [])
    (hsending : c.sending = some next) (hqueue : c.queue = msgs.map fun m => .block m.1 m.2)
    (hstream : S view (msgs.map (splice firstBlock)) next) : Phase S r (some c)

/-- The storage of the receiver is a copy of the node's branch. -/
structure Following (branch : List EosioBlock) (lib : UInt32) (r : ShipReceiver)
    (connection : Option (ShipConnection account)) (l : List EosioBlock) (told : Nat) : Prop where
  tracks : r.storage.Tracks sha256 account l told
  copy : Copy (Known firstBlock branches) branch (settled firstBlock lib) told l
  phase : Phase firstBlock
    (Stream (Known firstBlock branches) branch (settled firstBlock lib) told l) r connection

/-- What holds between any two steps. -/
structure ShipInv (sys : ShipSystem account) : Prop where
  known : Known firstBlock branches sys.branch
  lib : sys.lib.toNat < firstBlock.toNat + sys.chain.length
  threw : sys.threw = false
  following : ∀ r, sys.process = some r →
    ∃ l told, Following sha256 firstBlock branches sys.branch sys.lib r sys.connection l told
  absent : sys.process = none → sys.connection = none

end Invariant

section Steps

variable {sha256 : Bytes → Checksum256} {firstBlock : UInt32} {account : Name}
  {branches : List (List EosioBlock)} {sys : ShipSystem account}

theorem known_closed : ClosedUnderPrefix (Known firstBlock branches) := by
  intro l l' hl h
  constructor
  · intro i e he
    obtain ⟨hi, rfl⟩ := List.getElem?_eq_some_iff.mp he
    refine h.numbered i _ ?_
    rw [List.getElem?_eq_getElem (Nat.lt_of_lt_of_le hi hl.length_le), hl.getElem hi]
  · obtain ⟨c, hc, hl'⟩ := h.branch
    exact ⟨c, hc, hl.trans hl'⟩

theorem Phase.imp {S S' : List EosioBlock → List (Splice EosioBlock) → Nat → Prop}
    {r r' : ShipReceiver} {connection : Option (ShipConnection account)}
    (h : Phase firstBlock S r connection) (hclient : r'.wsClient = r.wsClient)
    (hasked : r'.requestedBlocks = r.requestedBlocks)
    (hS : ∀ view queue next, S view queue next → S' view queue next) :
    Phase firstBlock S' r' connection := by
  cases h with
  | down hdown hnot => exact .down (hclient.trans hdown) (hasked.trans hnot)
  | greeting hup hnot => exact .greeting (hclient.trans hup) (hasked.trans hnot)
  | asked hup hyes => exact .asked (hclient.trans hup) (hasked.trans hyes)
  | streaming hup hyes hrequests hsending hqueue hstream =>
    exact .streaming (hclient.trans hup) (hasked.trans hyes) hrequests hsending hqueue
      (hS _ _ _ hstream)

variable {branch : List EosioBlock} {lib : UInt32} {r : ShipReceiver}
  {connection : Option (ShipConnection account)} {l : List EosioBlock} {told : Nat}

/-! ## Steps of the node -/

/-- The request is for the first block. -/
theorem ShipConnection.serve_asked (account : Name) (firstBlock : UInt32) :
    ShipConnection.serve firstBlock ({ queue := [], requests :=
      [shipRequestToBin (shipBlocksRequest firstBlock)] } : ShipConnection account) =
        { queue := [], sending := some 0, maxInFlight := 0xffffffff } := by
  rw [ShipConnection.serve]
  dsimp only
  rw [shipBlocksRequest_read]
  dsimp only [shipBlocksRequest]
  rw [Nat.sub_self]
  rfl

theorem Following.accept (h : Following sha256 firstBlock branches branch lib r connection l told)
    (e : EosioBlock) :
    Following sha256 firstBlock branches (branch ++ [e]) lib r connection l told where
  tracks := h.tracks
  copy := h.copy.keep ((List.take_prefix _ _).trans (List.prefix_append _ _))
  phase := h.phase.imp rfl rfl fun _ _ _ hstream => hstream.extend e

theorem Following.switch (h : Following sha256 firstBlock branches branch lib r connection l told)
    {n : Nat} (hn : settled firstBlock lib ≤ n) :
    Following sha256 firstBlock branches (branch.take n) lib r
      (connection.map (ShipConnection.switch n)) l told where
  tracks := h.tracks
  copy := by
    refine h.copy.keep ?_
    rw [← Nat.min_eq_left hn, ← List.take_take]
    exact List.take_prefix _ _
  phase := by
    cases h.phase with
    | down hdown hnot => exact .down hdown hnot
    | greeting hup hnot => exact .greeting hup hnot
    | asked hup hyes => exact .asked hup hyes
    | streaming hup hyes hrequests hsending hqueue hstream =>
      refine .streaming hup hyes hrequests ?_ hqueue (hstream.cut hn)
      rw [ShipConnection.switch, hsending]
      rfl

theorem Following.finalize
    (h : Following sha256 firstBlock branches branch lib r connection l told) {lib' : UInt32}
    (hle : settled firstBlock lib ≤ settled firstBlock lib') :
    Following sha256 firstBlock branches branch lib' r connection l told where
  tracks := h.tracks
  copy := h.copy.settle hle
  phase := h.phase.imp rfl rfl fun _ _ _ hstream => hstream.settle hle

theorem Following.serve (h : Following sha256 firstBlock branches branch lib r connection l told) :
    Following sha256 firstBlock branches branch lib r
      (connection.map (ShipConnection.serve firstBlock)) l told where
  tracks := h.tracks
  copy := h.copy
  phase := by
    cases h.phase with
    | down hdown hnot => exact .down hdown hnot
    | greeting hup hnot => exact .greeting hup hnot
    | asked hup hyes =>
      rw [Option.map_some, ShipConnection.serve_asked]
      exact @Phase.streaming _ _ _ _ _ [] _ _ hup hyes rfl rfl rfl (Stream.start ..)
    | @streaming c msgs view next hup hyes hrequests hsending hqueue hstream =>
      have hsame : c.serve firstBlock = c := by
        rw [ShipConnection.serve, hrequests]
      rw [Option.map_some, hsame]
      exact .streaming hup hyes hrequests hsending hqueue hstream

theorem Following.send {chain : List (NodeBlock account)}
    (h : Following sha256 firstBlock branches (chain.map NodeBlock.eosioBlock) lib r connection l
      told) (hknown : Known firstBlock branches (chain.map NodeBlock.eosioBlock)) :
    Following sha256 firstBlock branches (chain.map NodeBlock.eosioBlock) lib r
      (connection.map (ShipConnection.send chain lib)) l told where
  tracks := h.tracks
  copy := h.copy
  phase := by
    cases h.phase with
    | down hdown hnot => exact .down hdown hnot
    | greeting hup hnot => exact .greeting hup hnot
    | asked hup hyes => exact .asked hup hyes
    | @streaming c msgs view next hup hyes hrequests hsending hqueue hstream =>
      rw [Option.map_some, ShipConnection.send, hsending]
      dsimp only
      cases hnext : chain[next]? with
      | none => exact .streaming hup hyes hrequests hsending hqueue hstream
      | some block =>
        dsimp only
        split
        · obtain ⟨hlt, hblock⟩ := List.getElem?_eq_some_iff.mp hnext
          have hlt' : next < (chain.map NodeBlock.eosioBlock).length := by
            rwa [List.length_map]
          have hsent := hstream.send known_closed hknown h.copy.told_le hlt'
          -- the message is for the place
          have hnum := hknown.numbered next block.eosioBlock (by
            rw [List.getElem?_map, hnext]
            rfl)
          have hsplice : splice firstBlock (block, lib) =
              ⟨next, (chain.map NodeBlock.eosioBlock)[next], settled firstBlock lib⟩ := by
            rw [splice]
            congr 1
            · dsimp only
              omega
            · rw [List.getElem_map, hblock]
          refine @Phase.streaming _ _ _ _ _ (msgs ++ [(block, lib)]) view (next + 1) hup hyes
            hrequests rfl ?_ ?_
          · rw [List.map_append, hqueue]
            rfl
          · rw [List.map_append, List.map_singleton, hsplice]
            exact hsent
        · exact .streaming hup hyes hrequests hsending hqueue hstream

/-! ## Steps of the receiver -/

theorem IsPrefix.getElem?_eq_some {α : Type} {l l' : List α} (h : l <+: l') {i : Nat} {a : α}
    (ha : l[i]? = some a) : l'[i]? = some a := by
  obtain ⟨hi, rfl⟩ := List.getElem?_eq_some_iff.mp ha
  rw [List.getElem?_eq_getElem (Nat.lt_of_lt_of_le hi h.length_le), h.getElem hi]

/-- Two blocks at a place of lists that are known are the same if their ids are. -/
theorem same_of_id (hapart : Apart sha256 branches) {i : Nat} {e : EosioBlock} {b : BlockWithId}
    (hl : Known firstBlock branches l) (hput : Known firstBlock branches (l.take i ++ [e]))
    (hi : i ≤ l.length) (hb : (logged sha256 l)[i]? = some b)
    (hid : b.id = (loggedOn sha256 (logged sha256 (l.take i)) e).id) : l[i]? = some e := by
  obtain ⟨c, hc, hlc⟩ := hl.branch
  obtain ⟨c', hc', hlc'⟩ := hput.branch
  have hlen : (l.take i).length = i := by rw [List.length_take, Nat.min_eq_left hi]
  have hnewLogged : (logged sha256 (l.take i ++ [e]))[i]? =
      some (loggedOn sha256 (logged sha256 (l.take i)) e) := by
    have hlen' : (logged sha256 (l.take i)).length = i := by rw [logged_length, hlen]
    rw [logged_concat, List.getElem?_append_right (Nat.le_of_eq hlen'), hlen', Nat.sub_self]
    rfl
  have hmem : (b, loggedOn sha256 (logged sha256 (l.take i)) e) ∈
      (logged sha256 c).zip (logged sha256 c') := by
    refine List.mem_iff_getElem?.mpr ⟨i, List.getElem?_zip_eq_some.mpr ⟨?_, ?_⟩⟩
    · exact IsPrefix.getElem?_eq_some (logged_isPrefix sha256 hlc) hb
    · exact IsPrefix.getElem?_eq_some (logged_isPrefix sha256 hlc') hnewLogged
  rw [logged_eosioBlock sha256 hb]
  exact congrArg some (hapart c hc c' hc' _ hmem hid)

/-- **A message** never makes the receiver throw. -/
theorem Following.deliver {c : ShipConnection account} {data : ShipData account}
    {queue : List (ShipData account)}
    (h : Following sha256 firstBlock branches branch lib r (some c) l told)
    (hfirst : 0 < firstBlock) (hapart : Apart sha256 branches) (hqueue : c.queue = data :: queue) :
    ∃ request r' l' told', r.onMessage sha256 firstBlock data = (.ok request, r') ∧
      Following sha256 firstBlock branches branch lib r'
        (some { c with queue, requests := c.requests ++ request.toList }) l' told' := by
  cases h.phase with
  | greeting hup hnot =>
    cases hqueue
    obtain ⟨s', hrequest, htracks⟩ := h.tracks.getShipBlocksRequest firstBlock
    refine ⟨some (shipRequestToBin (shipBlocksRequest firstBlock)),
      { r with storage := s', requestedBlocks := true }, l, told, ?_, htracks, h.copy,
      .asked hup rfl⟩
    rw [ShipReceiver.onMessage, hnot, hrequest]
    rfl
  | asked hup hyes => cases hqueue
  | @streaming _ msgs view next hup hyes hrequests hsending hmsgs hstream =>
    cases msgs with
    | nil =>
      rw [hqueue] at hmsgs
      cases hmsgs
    | cons m msgs =>
      rw [hqueue] at hmsgs
      obtain ⟨rfl, rfl⟩ := List.cons.inj hmsgs
      rw [List.map_cons] at hstream
      obtain ⟨hplace, hknown, -, -⟩ := hstream.sound
      have hplace' : (splice firstBlock m).place ≤ l.length :=
        Nat.le_trans hplace hstream.behind.length_le
      have honto := (splice firstBlock m).onto_eq hstream.behind hplace
      rw [honto] at hknown
      have hnum : m.1.eosioBlock.num.toNat = firstBlock.toNat + (splice firstBlock m).place := by
        refine hknown.numbered _ _ ?_
        have hlen : (l.take (splice firstBlock m).place).length = (splice firstBlock m).place := by
          rw [List.length_take, Nat.min_eq_left hplace']
        rw [Splice.onto, List.getElem?_append_right (Nat.le_of_eq hlen), hlen, Nat.sub_self]
        rfl
      obtain ⟨added, s', l', told', hpush, htracks, hput⟩ := h.tracks.push h.copy.seen.numbered
        hfirst hplace' hnum
        (fun hlt => hstream.settled_same h.copy hlt h.tracks.told_le) m.2
      obtain ⟨memory, s'', hsave, htracks⟩ := htracks.saveState
      have hput : l[(splice firstBlock m).place]? = some (splice firstBlock m).value ∧ l' = l ∧
          told' = told ∨ l' = (splice firstBlock m).onto l ∧ told ≤ told' ∧
            told' ≤ max told (splice firstBlock m).settled := by
        rcases hput with ⟨⟨b, hb, hid⟩, hsame, htold⟩ | ⟨hnew, htold⟩
        · exact .inl ⟨same_of_id hapart h.copy.seen hknown hplace' hb hid, hsame, htold⟩
        · exact .inr ⟨hnew, htold⟩
      obtain ⟨hcopy, hstream⟩ := hstream.deliver h.copy hput
      refine ⟨none, { r with storage := s'', stateFile := some memory }, l', told', ?_, htracks,
        hcopy, .streaming hup hyes ?_ hsending rfl hstream⟩
      · rw [ShipReceiver.onMessage, hyes]
        rw [if_neg (show ¬ (!true) = true by decide), ShipData.decoded, hpush]
        dsimp only
        rw [hsave]
      · rw [hrequests]
        rfl

/-- A receiver that connects, or does not. -/
theorem Following.connect (h : Following sha256 firstBlock branches branch lib r
      (none : Option (ShipConnection account)) l told) (constructed : Bool) :
    Following sha256 firstBlock branches branch lib (r.connect constructed)
      (if (r.connect constructed).wsClient then some ({} : ShipConnection account) else none) l
      told := by
  cases h.phase with
  | down hdown hnot =>
    have hconnect : r.connect constructed =
        if constructed then { r with wsClient := true } else { r with timers := r.timers + 1 } := by
      rw [ShipReceiver.connect, hdown]
      rfl
    rw [hconnect]
    cases constructed with
    | true => exact ⟨h.tracks, h.copy, .greeting rfl hnot⟩
    | false =>
      show Following sha256 firstBlock branches branch lib { r with timers := r.timers + 1 }
        (if r.wsClient then some ({} : ShipConnection account) else none) l told
      rw [hdown]
      exact ⟨h.tracks, h.copy, .down rfl hnot⟩

theorem Phase.up {S : List EosioBlock → List (Splice EosioBlock) → Nat → Prop}
    {c : ShipConnection account} (h : Phase firstBlock S r (some c)) : r.wsClient = true := by
  cases h with
  | greeting hup _ => exact hup
  | asked hup _ => exact hup
  | streaming hup _ _ _ _ _ => exact hup

/-- **A lost connection**, whether or not with an error. -/
theorem Following.close {c : ShipConnection account}
    (h : Following sha256 firstBlock branches branch lib r (some c) l told) (error : Bool) :
    Following sha256 firstBlock branches branch lib
      (if error then r.disconnect.disconnect else r.disconnect)
      (none : Option (ShipConnection account)) l told := by
  have hdisconnect : r.disconnect =
      { r with requestedBlocks := false, wsClient := false, timers := r.timers + 1 } := by
    rw [ShipReceiver.disconnect, h.phase.up]
    rfl
  rw [hdisconnect]
  cases error with
  | true => exact ⟨h.tracks, h.copy, .down rfl rfl⟩
  | false => exact ⟨h.tracks, h.copy, .down rfl rfl⟩

/-! ## Runs -/

theorem shipInv_start (hfirst : 0 < firstBlock) (hbranches : [] ∈ branches) :
    ShipInv sha256 firstBlock branches ({} : ShipSystem account) where
  known := ⟨nofun, [], hbranches, List.prefix_rfl⟩
  lib := UInt32.lt_iff_toNat_lt.mp hfirst
  threw := rfl
  following := nofun
  absent _ := rfl

theorem branches_subset (sys : ShipSystem account) (a : ShipAction account) :
    sys.branches ⊆ (sys.step sha256 firstBlock a).branches := by
  cases a with
  | accept block =>
    rw [ShipSystem.step]
    split
    · exact List.subset_cons_self ..
    · exact List.Subset.refl _
  | switch n =>
    rw [ShipSystem.step]
    split
    · exact List.subset_cons_self ..
    · exact List.Subset.refl _
  | finalize lib =>
    rw [ShipSystem.step]
    split <;> exact List.Subset.refl _
  | serve => exact List.Subset.refl _
  | send => exact List.Subset.refl _
  | deliver =>
    rw [ShipSystem.step]
    split
    · split
      · exact List.Subset.refl _
      · split <;> exact List.Subset.refl _
    · exact List.Subset.refl _
  | close error =>
    rw [ShipSystem.step]
    split <;> exact List.Subset.refl _
  | retry constructed =>
    rw [ShipSystem.step]
    split
    · exact List.Subset.refl _
    · split
      · exact List.Subset.refl _
      · dsimp only
        split <;> exact List.Subset.refl _
  | crash => exact List.Subset.refl _
  | restart constructed =>
    rw [ShipSystem.step]
    split <;> exact List.Subset.refl _

/-- The node is on a branch that is known. -/
theorem ShipInv.onBranch (h : ShipInv sha256 firstBlock branches sys) {e : EosioBlock}
    (hnum : e.num.toNat = firstBlock.toNat + sys.chain.length)
    (hmem : sys.branch ++ [e] ∈ branches) : Known firstBlock branches (sys.branch ++ [e]) := by
  refine ⟨fun i e' he => ?_, _, hmem, List.prefix_rfl⟩
  have hlen : sys.branch.length = sys.chain.length := List.length_map _
  rcases Nat.lt_trichotomy i sys.branch.length with hlt | rfl | hgt
  · rw [List.getElem?_append_left hlt] at he
    exact h.known.numbered i e' he
  · rw [List.getElem?_append_right (Nat.le_refl _), Nat.sub_self] at he
    obtain rfl := Option.some.inj he
    rw [hnum, hlen]
  · rw [List.getElem?_eq_none] at he
    · cases he
    · rw [List.length_append]
      exact hgt

/-- **One step.** -/
theorem ShipInv.step (h : ShipInv sha256 firstBlock branches sys) (hfirst : 0 < firstBlock)
    (hapart : Apart sha256 branches) (a : ShipAction account)
    (hbranches : (sys.step sha256 firstBlock a).branches ⊆ branches) :
    ShipInv sha256 firstBlock branches (sys.step sha256 firstBlock a) := by
  cases a with
  | accept block =>
    rw [ShipSystem.step] at hbranches ⊢
    split at hbranches
    · next hnum =>
      rw [if_pos hnum]
      have hbranch : (sys.onBranch (sys.chain ++ [block])).branch =
          sys.branch ++ [block.eosioBlock] := List.map_append
      have hknown := h.onBranch hnum (by
        rw [← hbranch]
        exact hbranches (List.mem_cons_self ..))
      constructor
      · rw [hbranch]
        exact hknown
      · show sys.lib.toNat < firstBlock.toNat + (sys.chain ++ [block]).length
        have := h.lib
        rw [List.length_append]
        omega
      · exact h.threw
      · intro r hr
        obtain ⟨l, told, hfollowing⟩ := h.following r hr
        rw [hbranch]
        exact ⟨l, told, hfollowing.accept _⟩
      · exact h.absent
    · next hnum =>
      rw [if_neg hnum]
      exact h
  | switch n =>
    rw [ShipSystem.step]
    split
    · next hn =>
      have hbranch : (sys.onBranch (sys.chain.take n)).branch = sys.branch.take n := List.map_take
      constructor
      · show Known firstBlock branches (sys.onBranch (sys.chain.take n)).branch
        rw [hbranch]
        exact known_closed _ _ (List.take_prefix _ _) h.known
      · show sys.lib.toNat < firstBlock.toNat + (sys.chain.take n).length
        have := h.lib
        rw [List.length_take]
        omega
      · exact h.threw
      · intro r hr
        obtain ⟨l, told, hfollowing⟩ := h.following r hr
        refine ⟨l, told, ?_⟩
        show Following sha256 firstBlock branches (sys.onBranch (sys.chain.take n)).branch _ _ _ _ _
        rw [hbranch]
        refine hfollowing.switch ?_
        rw [settled]
        omega
      · intro hprocess
        show sys.connection.map _ = none
        rw [h.absent hprocess]
        rfl
    · exact h
  | finalize lib =>
    rw [ShipSystem.step]
    split
    · next hlib =>
      obtain ⟨hle, hlt⟩ := hlib
      refine ⟨h.known, hlt, h.threw, fun r hr => ?_, h.absent⟩
      obtain ⟨l, told, hfollowing⟩ := h.following r hr
      refine ⟨l, told, hfollowing.finalize ?_⟩
      rw [UInt32.le_iff_toNat_le] at hle
      show sys.lib.toNat + 1 - firstBlock.toNat ≤ lib.toNat + 1 - firstBlock.toNat
      omega
    · exact h
  | serve =>
    refine ⟨h.known, h.lib, h.threw, fun r hr => ?_, fun hprocess => ?_⟩
    · obtain ⟨l, told, hfollowing⟩ := h.following r hr
      exact ⟨l, told, hfollowing.serve⟩
    · show sys.connection.map _ = none
      rw [h.absent hprocess]
      rfl
  | send =>
    refine ⟨h.known, h.lib, h.threw, fun r hr => ?_, fun hprocess => ?_⟩
    · obtain ⟨l, told, hfollowing⟩ := h.following r hr
      exact ⟨l, told, hfollowing.send h.known⟩
    · show sys.connection.map _ = none
      rw [h.absent hprocess]
      rfl
  | deliver =>
    rw [ShipSystem.step]
    split
    · next r c hr hc =>
      split
      · exact h
      · next data queue hqueue =>
        obtain ⟨l, told, hfollowing⟩ := h.following r hr
        rw [hc] at hfollowing
        obtain ⟨request, r', l', told', hmessage, hfollowing⟩ :=
          hfollowing.deliver hfirst hapart hqueue
        rw [hmessage]
        refine ⟨h.known, h.lib, h.threw, fun r'' hr'' => ?_, nofun⟩
        obtain rfl := Option.some.inj hr''
        exact ⟨l', told', hfollowing⟩
    · exact h
  | close error =>
    rw [ShipSystem.step]
    split
    · next r c hr hc =>
      obtain ⟨l, told, hfollowing⟩ := h.following r hr
      rw [hc] at hfollowing
      refine ⟨h.known, h.lib, h.threw, fun r' hr' => ?_, nofun⟩
      obtain rfl := Option.some.inj hr'
      exact ⟨l, told, hfollowing.close error⟩
    · exact h
  | retry constructed =>
    rw [ShipSystem.step]
    split
    · exact h
    · next r hr =>
      split
      · exact h
      · obtain ⟨l, told, hfollowing⟩ := h.following r hr
        have hless : Following sha256 firstBlock branches sys.branch sys.lib
            { r with timers := r.timers - 1 } sys.connection l told :=
          ⟨hfollowing.tracks, hfollowing.copy, hfollowing.phase.imp rfl rfl fun _ _ _ hs => hs⟩
        dsimp only
        split
        · refine ⟨h.known, h.lib, h.threw, fun r' hr' => ?_, nofun⟩
          obtain rfl := Option.some.inj hr'
          exact ⟨l, told, hless⟩
        · next hclient =>
          -- without a socket there is no connection
          have hdown : sys.connection = none := by
            cases hconnection : sys.connection with
            | none => rfl
            | some c =>
              rw [hconnection] at hless
              exact absurd hless.phase.up hclient
          rw [hdown] at hless
          refine ⟨h.known, h.lib, h.threw, fun r' hr' => ?_, nofun⟩
          obtain rfl := Option.some.inj hr'
          exact ⟨l, told, hless.connect constructed⟩
  | crash => exact ⟨h.known, h.lib, h.threw, nofun, fun _ => rfl⟩
  | restart constructed =>
    rw [ShipSystem.step]
    split
    · exact h
    · refine ⟨h.known, h.lib, h.threw, fun r' hr' => ?_, nofun⟩
      obtain rfl := Option.some.inj hr'
      have hstart : Following sha256 firstBlock branches sys.branch sys.lib
          { storage := Storage.instantiate account, stateFile := sys.stateFile }
          (none : Option (ShipConnection account)) [] 0 := by
        refine ⟨Storage.tracks_instantiate sha256 account, ⟨?_, Nat.zero_le _, List.nil_prefix⟩,
          .down rfl rfl⟩
        exact known_closed _ _ List.nil_prefix h.known
      exact ⟨[], 0, hstart.connect constructed⟩

/-- **Any steps**, as long as the branches of the node are known. -/
theorem ShipInv.run (hfirst : 0 < firstBlock) (hapart : Apart sha256 branches)
    (actions : List (ShipAction account))
    (hbranches : (({} : ShipSystem account).run sha256 firstBlock actions).branches ⊆ branches) :
    ShipInv sha256 firstBlock branches
      (({} : ShipSystem account).run sha256 firstBlock actions) := by
  induction actions using List.reverseRecOn with
  | nil => exact shipInv_start hfirst (hbranches (List.mem_singleton_self _))
  | append_singleton actions a ih =>
    rw [ShipSystem.run, List.foldl_append] at hbranches ⊢
    exact (ih fun c hc => hbranches (branches_subset _ a hc)).step hfirst hapart a hbranches

/-- What the storage has between any two steps. -/
theorem ShipInv.storage (h : ShipInv sha256 firstBlock branches sys) {r : ShipReceiver}
    (hr : sys.process = some r) :
    ∃ b t l table, r.storage.blocksWasm = some b ∧ r.storage.stateWasm = some t ∧
      b.blockLog.blocks = logged sha256 l ∧ (∃ c ∈ branches, l <+: c) ∧
      replay account GreetingIndex.new (logged sha256 l) = (.ok (), table) ∧
      b.db.greetings.rows = table.rows ∧ t.db.greetings.rows = table.rows ∧
      t.blockLog.head = b.blockLog.head ∧
      l.take b.blockLog.irreversible.toNat <+: sys.branch ∧
      b.blockLog.irreversible.toNat ≤ settled firstBlock sys.lib ∧
      (sys.CaughtUp → sys.branch <+: l) := by
  obtain ⟨l, told, hfollowing⟩ := h.following r hr
  obtain ⟨b, t, hb, ht, htwin, hlog, rfl⟩ := hfollowing.tracks
  obtain ⟨table, hreplay, hrows, -⟩ := ChainRun.rows_replay htwin.blocks
  obtain ⟨hhead, -, hsame, -⟩ := htwin.same
  rw [List.nil_append, hlog] at hreplay
  refine ⟨b, t, l, table, hb, ht, hlog, hfollowing.copy.seen.branch, hreplay, hrows,
    hsame.trans hrows, hhead, hfollowing.copy.agrees, hfollowing.copy.told_le, ?_⟩
  rintro ⟨c, hc, hsending, hqueue⟩
  have hphase := hfollowing.phase
  rw [hc] at hphase
  cases hphase with
  | greeting hup hnot => cases hsending
  | asked hup hyes => cases hsending
  | @streaming _ msgs view next hup hyes hrequests hnext hmsgs hstream =>
    rw [hqueue] at hmsgs
    obtain rfl := List.map_eq_nil_iff.mp hmsgs.symm
    obtain rfl := Option.some.inj (hnext.symm.trans hsending)
    have hlen : sys.branch.length = sys.chain.length := List.length_map _
    rw [← hlen] at hstream
    exact hstream.caughtUp

/-- A hash for examples, which tells the blocks of a short chain from one another. -/
def sumHash (bin : Bytes) : Checksum256 :=
  ⟨#v[bin.foldl (fun h byte => 31 * h + byte.toUInt64) 7, 0, 0, 0]⟩

/-- A block in which the account `bob` says the letter. -/
def saidBlock (num : UInt32) (letter : UInt8) : NodeBlock (Name.ofString "starter") where
  result := {
    thisBlock := some { blockNum := num }
    traces := [{
      actionTraces := [{
        receipt := some { globalSequence := 1 }
        receiver := Name.ofString "starter"
        act := {
          account := Name.ofString "starter"
          name := Name.ofString "hi"
          data := nameToBin (Name.ofString "bob") ++ [1, letter] } }] }] }
  position := { blockNum := num }
  transactions := _
  this := rfl
  converts := rfl
  decodes := by
    intro action haction
    obtain rfl := List.mem_singleton.mp haction
    exact ⟨_, rfl⟩

/-- The connection is lost after two blocks, and the second one has another one in its place
when the receiver has connected again. -/
def followedRun : List (ShipAction (Name.ofString "starter")) :=
  [.accept (saidBlock 1 65), .finalize 1, .accept (saidBlock 2 66), .restart true, .deliver, .serve,
    .send, .send, .deliver, .deliver, .close true, .switch 1, .accept (saidBlock 2 67),
    .retry true, .deliver, .serve, .send, .deliver, .send, .deliver]

end Steps

end Microchain.Box
