import Microchain.Box.ShipFollowing
import Microchain.Lib.Rounds

/-!
# The receiver catches up

A receiver acknowledges nothing: the node stops once it has sent as many messages over a
connection as the request allows. While there is room, the connection stays open and the branch
of the node stays as it is, every request that is served, every block that is sent and every
message that the receiver gets brings the storage nearer to the branch, and nothing else that
happens changes what is left to do (`lags_descends`). So the receiver has all blocks after so
many rounds in which each end has a turn (`run_catchesUp`).
-/

namespace Microchain.Box

open Eosio Subchain Starter Lib

/-! ## What is left to do -/

namespace ShipConnection

variable {account : Name}

/-- How many steps it takes until the receiver has a branch of `length` blocks: a step for the
request, and two for a block. -/
def left (length : Nat) (c : ShipConnection account) : Nat :=
  c.queue.length + match c.sending with
    | none => 2 * length + 1
    | some next => 2 * (length - next)

/-- The blocks that are left to send can be sent without an acknowledgment. -/
def HasRoom (length : Nat) (c : ShipConnection account) : Prop :=
  match c.sending with
  | none => c.inFlight + length < 2 ^ 32
  | some next => c.inFlight + (length - next) ≤ c.maxInFlight

end ShipConnection

/-- Steps that leave the branch of the node and keep the connection. -/
def Idle {account : Name} : ShipAction account → Prop
  | .accept _ => False
  | .switch _ => False
  | .close _ => False
  | .crash => False
  | _ => True

/-- A step that does something on the connection. -/
def Works {account : Name} (sys : ShipSystem account) (a : ShipAction account) : Prop :=
  ∃ c, sys.connection = some c ∧ (a = .deliver ∧ c.queue ≠ [] ∨ a = .serve ∧ c.requests ≠ [] ∨
    a = .send ∧ ∃ next, c.sending = some next ∧ next < sys.chain.length)

/-- So many steps are left at most. -/
structure Lags (sha256 : Bytes → Checksum256) (firstBlock : UInt32) {account : Name}
    (branches : List (List EosioBlock)) (chain : List (NodeBlock account)) (n : Nat)
    (sys : ShipSystem account) : Prop where
  inv : ShipInv sha256 firstBlock branches sys
  known : sys.branches ⊆ branches
  same : sys.chain = chain
  connected : ∃ c, sys.connection = some c ∧ c.HasRoom chain.length ∧ c.left chain.length ≤ n

section Steps

variable {sha256 : Bytes → Checksum256} {firstBlock : UInt32} {account : Name}
  {branches : List (List EosioBlock)} {chain : List (NodeBlock account)} {n : Nat}
  {sys : ShipSystem account} {c : ShipConnection account} {a : ShipAction account}

/-- A connection has a receiver, in some phase. -/
theorem ShipInv.phase (h : ShipInv sha256 firstBlock branches sys)
    (hconnection : sys.connection = some c) : ∃ r l told, sys.process = some r ∧
      Following sha256 firstBlock branches sys.branch sys.lib r (some c) l told := by
  cases hprocess : sys.process with
  | none =>
    rw [h.absent hprocess] at hconnection
    cases hconnection
  | some r =>
    obtain ⟨l, told, hfollowing⟩ := h.following r hprocess
    rw [hconnection] at hfollowing
    exact ⟨r, l, told, rfl, hfollowing⟩

/-! ## Idle steps -/

/-- An idle step leaves the branch, and the connection unless it does something on it. -/
theorem idle_step (h : ShipInv sha256 firstBlock branches sys) (hidle : Idle a)
    (hconnection : sys.connection = some c) :
    (sys.step sha256 firstBlock a).chain = sys.chain ∧
      (sys.step sha256 firstBlock a).branches = sys.branches ∧
      ((sys.step sha256 firstBlock a).connection = sys.connection ∨ Works sys a) := by
  obtain ⟨r, l, told, hprocess, hfollowing⟩ := h.phase hconnection
  cases a with
  | accept block => exact hidle.elim
  | switch n => exact hidle.elim
  | close error => exact hidle.elim
  | crash => exact hidle.elim
  | finalize lib =>
    rw [ShipSystem.step]
    split <;> exact ⟨rfl, rfl, .inl rfl⟩
  | serve =>
    refine ⟨rfl, rfl, ?_⟩
    by_cases hrequests : c.requests = []
    · left
      show sys.connection.map (ShipConnection.serve firstBlock) = sys.connection
      rw [hconnection, Option.map_some, ShipConnection.serve, hrequests]
    · exact .inr ⟨c, hconnection, .inr (.inl ⟨rfl, hrequests⟩)⟩
  | send =>
    refine ⟨rfl, rfl, ?_⟩
    by_cases hsends : ∃ next, c.sending = some next ∧ next < sys.chain.length
    · exact .inr ⟨c, hconnection, .inr (.inr ⟨rfl, hsends⟩)⟩
    · left
      show sys.connection.map (ShipConnection.send sys.chain sys.lib) = sys.connection
      rw [hconnection, Option.map_some, ShipConnection.send]
      cases hsending : c.sending with
      | none => rfl
      | some next =>
        have hnone : sys.chain[next]? = none :=
          List.getElem?_eq_none (Nat.le_of_not_lt fun hlt => hsends ⟨next, hsending, hlt⟩)
        dsimp only
        rw [hnone]
  | deliver =>
    rw [ShipSystem.step, hprocess, hconnection]
    dsimp only
    cases hqueue : c.queue with
    | nil => exact ⟨rfl, rfl, .inl hconnection⟩
    | cons data queue =>
      have hworks : Works sys .deliver :=
        ⟨c, hconnection, .inl ⟨rfl, hqueue ▸ List.cons_ne_nil data queue⟩⟩
      dsimp only
      split <;> exact ⟨rfl, rfl, .inr hworks⟩
  | retry constructed =>
    rw [ShipSystem.step, hprocess]
    dsimp only
    split
    · exact ⟨rfl, rfl, .inl rfl⟩
    · -- the receiver is connected already
      rw [hfollowing.phase.up]
      exact ⟨rfl, rfl, .inl rfl⟩
  | restart constructed =>
    rw [ShipSystem.step, hprocess]
    exact ⟨rfl, rfl, .inl rfl⟩

/-- The invariant with the same branch. -/
theorem Lags.inv_step (h : Lags sha256 firstBlock branches chain n sys) (hfirst : 0 < firstBlock)
    (hapart : Apart sha256 branches) (hidle : Idle a) :
    ShipInv sha256 firstBlock branches (sys.step sha256 firstBlock a) ∧
      (sys.step sha256 firstBlock a).branches ⊆ branches ∧
      (sys.step sha256 firstBlock a).chain = chain := by
  obtain ⟨c, hconnection, -⟩ := h.connected
  obtain ⟨hchain, hbranches, -⟩ := idle_step h.inv hidle hconnection
  have hknown : (sys.step sha256 firstBlock a).branches ⊆ branches := by
    rw [hbranches]
    exact h.known
  exact ⟨h.inv.step hfirst hapart a hknown, hknown, hchain.trans h.same⟩

/-! ## Steps on the connection -/

/-- **A message** that the receiver gets. -/
theorem left_deliver (h : ShipInv sha256 firstBlock branches sys) (hfirst : 0 < firstBlock)
    (hapart : Apart sha256 branches) (hconnection : sys.connection = some c) (hqueue : c.queue ≠ [])
    {length : Nat} (hroom : c.HasRoom length) :
    ∃ c', (sys.step sha256 firstBlock .deliver).connection = some c' ∧ c'.HasRoom length ∧
      c'.left length + 1 = c.left length := by
  obtain ⟨r, l, told, hprocess, hfollowing⟩ := h.phase hconnection
  obtain ⟨data, queue, hdata⟩ := List.exists_cons_of_ne_nil hqueue
  obtain ⟨request, r', l', told', hmessage, -⟩ := hfollowing.deliver hfirst hapart hdata
  refine ⟨{ c with queue, requests := c.requests ++ request.toList }, ?_, hroom, ?_⟩
  · rw [ShipSystem.step, hprocess, hconnection]
    dsimp only
    rw [hdata]
    dsimp only
    rw [hmessage]
  · rw [ShipConnection.left, ShipConnection.left, hdata, List.length_cons]
    exact Nat.add_right_comm ..

/-- **The request** that the node serves. -/
theorem left_serve (h : ShipInv sha256 firstBlock branches sys)
    (hconnection : sys.connection = some c) (hrequests : c.requests ≠ []) {length : Nat}
    (hroom : c.HasRoom length) :
    ∃ c', (sys.step sha256 firstBlock .serve).connection = some c' ∧ c'.HasRoom length ∧
      c'.left length + 1 = c.left length := by
  obtain ⟨r, l, told, -, hfollowing⟩ := h.phase hconnection
  cases hfollowing.phase with
  | greeting hup hnot => exact absurd rfl hrequests
  | streaming hup hyes hnil => exact absurd hnil hrequests
  | asked hup hyes =>
    refine ⟨{ queue := [], sending := some 0, maxInFlight := 0xffffffff }, ?_, ?_, ?_⟩
    · show sys.connection.map (ShipConnection.serve firstBlock) = _
      rw [hconnection, Option.map_some, ShipConnection.serve_asked]
    · change 0 + length < 2 ^ 32 at hroom
      show 0 + (length - 0) ≤ 0xffffffff
      omega
    · show 0 + 2 * (length - 0) + 1 = 0 + (2 * length + 1)
      omega

/-- **A block** that the node sends. -/
theorem left_send (hconnection : sys.connection = some c) {next : Nat}
    (hsending : c.sending = some next) (hnext : next < sys.chain.length)
    (hroom : c.HasRoom sys.chain.length) :
    ∃ c', (sys.step sha256 firstBlock .send).connection = some c' ∧
      c'.HasRoom sys.chain.length ∧ c'.left sys.chain.length + 1 = c.left sys.chain.length := by
  rw [ShipConnection.HasRoom, hsending] at hroom
  dsimp only at hroom
  refine ⟨{ c with
    sending := some (next + 1)
    inFlight := c.inFlight + 1
    queue := c.queue ++ [.block sys.chain[next] sys.lib] }, ?_, ?_, ?_⟩
  · show sys.connection.map (ShipConnection.send sys.chain sys.lib) = _
    rw [hconnection, Option.map_some, ShipConnection.send, hsending]
    dsimp only
    rw [List.getElem?_eq_getElem hnext]
    dsimp only
    rw [if_pos (by omega)]
  · show c.inFlight + 1 + (sys.chain.length - (next + 1)) ≤ c.maxInFlight
    omega
  · rw [ShipConnection.left, ShipConnection.left, hsending]
    dsimp only
    rw [List.length_append, List.length_singleton]
    omega

/-- Any of them. -/
theorem Lags.works (h : Lags sha256 firstBlock branches chain (n + 1) sys)
    (hfirst : 0 < firstBlock) (hapart : Apart sha256 branches) (hidle : Idle a)
    (hworks : Works sys a) :
    Lags sha256 firstBlock branches chain n (sys.step sha256 firstBlock a) := by
  obtain ⟨hinv, hknown, hchain⟩ := h.inv_step hfirst hapart hidle
  obtain ⟨c, hconnection, hroom, hleft⟩ := h.connected
  obtain ⟨c', hsame, hworks⟩ := hworks
  obtain rfl := Option.some.inj (hconnection.symm.trans hsame)
  have hstep : ∃ c', (sys.step sha256 firstBlock a).connection = some c' ∧
      c'.HasRoom chain.length ∧ c'.left chain.length + 1 = c.left chain.length := by
    rcases hworks with ⟨rfl, hqueue⟩ | ⟨rfl, hrequests⟩ | ⟨rfl, next, hsending, hnext⟩
    · exact left_deliver h.inv hfirst hapart hconnection hqueue hroom
    · exact left_serve h.inv hconnection hrequests hroom
    · rw [← h.same] at hroom ⊢
      exact left_send hconnection hsending hnext hroom
  obtain ⟨c', hconnection', hroom', hfallen⟩ := hstep
  exact ⟨hinv, hknown, hchain, c', hconnection', hroom', by omega⟩

/-- **There is something to do** until all has arrived. -/
theorem Lags.enabled (h : Lags sha256 firstBlock branches chain (n + 1) sys) :
    Lags sha256 firstBlock branches chain n sys ∨
      ∃ a ∈ [.serve, .send, .deliver], Works sys a := by
  obtain ⟨c, hconnection, hroom, hleft⟩ := h.connected
  obtain ⟨r, l, told, -, hfollowing⟩ := h.inv.phase hconnection
  by_cases hqueue : c.queue = []
  · cases hfollowing.phase with
    | greeting hup hnot => cases hqueue
    | asked hup hyes =>
      exact .inr ⟨.serve, List.mem_cons_self ..,
        _, hconnection, .inr (.inl ⟨rfl, List.cons_ne_nil _ _⟩)⟩
    | @streaming _ msgs view next hup hyes hrequests hsending hmsgs hstream =>
      by_cases hnext : next < sys.chain.length
      · exact .inr ⟨.send, List.mem_cons_of_mem _ (List.mem_cons_self ..),
          c, hconnection, .inr (.inr ⟨rfl, next, hsending, hnext⟩)⟩
      · refine .inl ⟨h.inv, h.known, h.same, c, hconnection, hroom, ?_⟩
        rw [ShipConnection.left, hqueue, hsending, ← h.same]
        show 0 + 2 * (sys.chain.length - next) ≤ n
        omega
  · exact .inr ⟨.deliver, List.mem_cons_of_mem _ (List.mem_cons_of_mem _
      (List.mem_singleton_self _)), c, hconnection, .inl ⟨rfl, hqueue⟩⟩

/-- Nothing is left to do. -/
theorem Lags.caughtUp (h : Lags sha256 firstBlock branches chain 0 sys) : sys.CaughtUp := by
  obtain ⟨c, hconnection, -, hleft⟩ := h.connected
  obtain ⟨r, l, told, -, hfollowing⟩ := h.inv.phase hconnection
  rw [ShipConnection.left] at hleft
  have hqueue : c.queue = [] :=
    List.eq_nil_of_length_eq_zero (Nat.le_zero.mp (Nat.le_trans (Nat.le_add_right _ _) hleft))
  have hrest := Nat.le_trans (Nat.le_add_left _ _) hleft
  cases hfollowing.phase with
  | greeting hup hnot => cases hqueue
  | asked hup hyes => exact absurd hrest (Nat.not_succ_le_zero _)
  | @streaming _ msgs view next hup hyes hrequests hsending hmsgs hstream =>
    rw [hsending, ← h.same] at hrest
    change 2 * (sys.chain.length - next) ≤ 0 at hrest
    have hnext := hstream.next_le
    rw [show sys.branch.length = sys.chain.length from List.length_map _] at hnext
    obtain rfl : next = sys.chain.length := by omega
    exact ⟨c, hconnection, hsending, hqueue⟩

/-- **What is left** falls under fair scheduling. -/
theorem lags_descends (hfirst : 0 < firstBlock) (hapart : Apart sha256 branches) :
    Descends (ShipSystem.step sha256 firstBlock) Idle (Lags sha256 firstBlock branches chain)
      Works [.serve, .send, .deliver] where
  keeps := by
    intro n sys a hidle h
    obtain ⟨hinv, hknown, hchain⟩ := h.inv_step hfirst hapart hidle
    obtain ⟨c, hconnection, hroom, hleft⟩ := h.connected
    rcases (idle_step h.inv hidle hconnection).2.2 with hsame | hworks
    · exact ⟨hinv, hknown, hchain, c, hsame.trans hconnection, hroom, hleft⟩
    · have hmore : Lags sha256 firstBlock branches chain (n + 1) sys :=
        ⟨h.inv, h.known, h.same, c, hconnection, hroom, Nat.le_succ_of_le hleft⟩
      exact hmore.works hfirst hapart hidle hworks
  falls hidle h hworks := h.works hfirst hapart hidle hworks
  stays := by
    intro n sys a hidle h
    obtain ⟨c, hconnection, -⟩ := h.connected
    obtain ⟨hchain, -, hsame | hworks⟩ := idle_step h.inv hidle hconnection
    · refine .inr fun a' hworks => ?_
      rw [Works, hsame, hchain]
      exact hworks
    · exact .inl (h.works hfirst hapart hidle hworks)
  enabled h := h.enabled

end Steps

/-- Two blocks, and a receiver that has just connected. -/
def connectedRun : List (ShipAction (Name.ofString "starter")) :=
  [.accept (saidBlock 1 65), .accept (saidBlock 2 66), .finalize 1, .restart true]

end Microchain.Box
