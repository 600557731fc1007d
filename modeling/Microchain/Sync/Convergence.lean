import Microchain.Lib.Rounds
import Microchain.Sync.System

/-!
# Clients catch up

While the storage is not called and the connection of a client stays open, each message
that is taken on it brings the client nearer to the chain of the box (`Connected.onmessage`,
`Connected.message`), and nothing else that happens changes what is owed. So the client
gets there in so many rounds in which both ends of its connection have a turn, however the
steps of the other clients are mixed in (`run_converges`).
-/

namespace Microchain.Sync

open Eosio Subchain Starter Box Feed BlockLog Lib Chainbase Graphql

/-! ## What is owed -/

section Owed

variable {sha256 : Bytes → Checksum256} {account : Name} {chains : List (List BlockWithId)}
  {T : Replica BlockWithId} {p : Peer} {n n' : Nat}

theorem Connected.mono (h : Connected account chains T p n) (hle : n ≤ n') :
    Connected account chains T p n' := by
  obtain ⟨hcopies, honline, hopened, hlink, hagrees, howed⟩ := h
  exact .intro hcopies honline hopened hlink hagrees (Nat.le_trans howed hle)

theorem Connected.online (h : Connected account chains T p n) : p.client.ws = true := by
  obtain ⟨-, honline⟩ := h
  exact honline

/-- A message that can be taken is owed. -/
theorem Connected.pos (h : Connected account chains T p n)
    (hwaits : p.client.messageQueue ≠ [] ∨ p.client.statuses ≠ []) : 0 < n := by
  obtain @⟨m, R, us, asked, k, hcopies, -, -, hlink, -, howed⟩ := h
  rw [owed] at howed
  rcases hwaits with hqueue | hstatuses
  · have hpos := List.length_pos_of_ne_nil hqueue
    omega
  · cases hlink with
    | held _ _ hnil => exact absurd hnil hstatuses
    | asked _ _ hnil => exact absurd hnil hstatuses
    | answered hstatus =>
      rw [hstatus] at howed
      change _ + (4 * (T.chain.length - k) + 2) ≤ n at howed
      omega

/-- Nothing is owed when there is no message to take. -/
theorem Connected.idle (h : Connected account chains T p n) (hqueue : p.client.messageQueue = [])
    (hstatuses : p.client.statuses = []) : Connected account chains T p 0 := by
  obtain @⟨m, R, us, asked, k, hcopies, honline, hopened, hlink, hagrees, -⟩ := h
  have hmessages := hcopies.messageQueue
  refine .intro hcopies honline hopened hlink hagrees (Nat.le_of_eq ?_)
  cases hlink with
  | held hstatus =>
    rw [owed, hqueue, hstatus]
    rfl
  | asked =>
    rw [hqueue] at hmessages
    exact absurd (List.append_eq_nil_iff.mp hmessages.symm).2 (List.cons_ne_nil request [])
  | answered _ _ _ hone =>
    rw [hstatuses] at hone
    cases hone

/-- When nothing is owed, the box keeps a status. -/
theorem Connected.done (h : Connected account chains T p 0) :
    p.client.messageQueue = [] ∧ p.client.statuses = [] ∧ p.connection.ws = some .opened ∧
      ∃ status, p.connection.status = some status := by
  obtain ⟨-, -, hopened, hlink, -, howed⟩ := h
  rw [owed] at howed
  have hempty := List.eq_nil_of_length_eq_zero
    (Nat.le_zero.mp (Nat.le_trans (Nat.le_add_right _ _) howed))
  have hkeeps : p.connection.status ≠ none := by
    intro hnone
    rw [hnone] at howed
    have hpos := Nat.le_trans (Nat.le_add_left _ _) howed
    exact absurd hpos (Nat.not_le_of_lt (Nat.succ_pos _))
  cases hlink with
  | held hstatus _ hstatuses => exact ⟨hempty, hstatuses, hopened, _, hstatus⟩
  | asked hstatus => exact absurd hstatus hkeeps
  | answered hstatus => exact absurd hstatus hkeeps

end Owed

/-! ## Steps that leave a connection -/

/-- Steps that leave the chain of the box and the connection of a client. -/
def Quiet (i : Nat) : Action → Prop
  | .call _ => False
  | .instantiateStreaming j _ => j ≠ i
  | .onclose j _ => j ≠ i
  | _ => True

/-- A step that takes a message on the connection. -/
def Delivers (i : Nat) (sys : System) (action : Action) : Prop :=
  action = .onmessage i ∧ (sys.peers i).client.messageQueue ≠ [] ∨
    action = .message i ∧ (sys.peers i).client.statuses ≠ []

/-- So many messages are owed to a client, by a box that has a chain. -/
structure Owes (sha256 : Bytes → Checksum256) (account : Name) (chains : List (List BlockWithId))
    (b : MicroChain) (i : Nat) (n : Nat) (sys : System) : Prop where
  inv : SystemInv sha256 account chains (target b) sys
  up : sys.storage.blocksWasm = some b
  connected : Connected account chains (target b) (sys.peers i) n

section Steps

variable {sha256 : Bytes → Checksum256} {account : Name} {chains : List (List BlockWithId)}
  {b : MicroChain} {i n : Nat} {sys : System} {action : Action}

/-- A quiet step leaves the storage, and the client unless it takes a message. -/
theorem quiet_step (sha256 : Bytes → Checksum256) (account : Name) (hquiet : Quiet i action)
    (honline : (sys.peers i).client.ws = true) :
    (sys.step sha256 account action).storage = sys.storage ∧
      ((sys.step sha256 account action).peers i = sys.peers i ∨ Delivers i sys action) := by
  have hother : ∀ {j} (f : Peer → Peer), j ≠ i → (sys.onPeer j f).peers i = sys.peers i :=
    fun f hne => sys.onPeer_of_ne (Ne.symm hne) f
  have hsame : ∀ (f : Peer → Peer), f (sys.peers i) = sys.peers i →
      (sys.onPeer i f).peers i = sys.peers i := fun f hf => (sys.onPeer_self i f).trans hf
  cases action with
  | call call => exact hquiet.elim
  | saveState =>
    rw [System.step]
    split <;> exact ⟨rfl, .inl rfl⟩
  | instantiateStreaming j slowmo =>
    exact ⟨rfl, .inl (hother (·.instantiateStreaming
      (sys.stateFile.getD { starterAccount := account }) slowmo) hquiet)⟩
  | onclose j received => exact ⟨rfl, .inl (hother (·.onclose received) hquiet)⟩
  | connect j =>
    refine ⟨rfl, .inl ?_⟩
    by_cases hj : j = i
    · subst hj
      refine hsame Peer.connect ?_
      rw [Peer.connect, honline]
      rfl
    · exact hother Peer.connect hj
  | onmessage j =>
    refine ⟨rfl, ?_⟩
    by_cases hj : j = i
    · subst hj
      by_cases hqueue : (sys.peers j).client.messageQueue = []
      · refine .inl (hsame (·.onmessage sha256) ?_)
        show (sys.peers j).onmessage sha256 = _
        rw [Peer.onmessage, SubchainClient.processQueue, hqueue]
      · exact .inr (.inl ⟨rfl, hqueue⟩)
    · exact .inl (hother (·.onmessage sha256) hj)
  | message j =>
    refine ⟨rfl, ?_⟩
    by_cases hj : j = i
    · subst hj
      by_cases hstatuses : (sys.peers j).client.statuses = []
      · refine .inl (hsame (·.message sys.storage) ?_)
        show (sys.peers j).message sys.storage = _
        rw [Peer.message, hstatuses]
      · exact .inr (.inr ⟨rfl, hstatuses⟩)
    · exact .inl (hother (·.message sys.storage) hj)

/-- The invariant with the same chain. -/
theorem Owes.inv_step (h : Owes sha256 account chains b i n sys)
    (hhistory : History sha256 account chains) (hquiet : Quiet i action) :
    SystemInv sha256 account chains (target b) (sys.step sha256 account action) ∧
      (sys.step sha256 account action).storage.blocksWasm = some b := by
  obtain ⟨hstorage, -⟩ := quiet_step sha256 account hquiet h.connected.online
  have hnil : sys.gets sha256 action = [] := by
    cases action with
    | call call => exact hquiet.elim
    | _ => rfl
  obtain ⟨T, hinv, -⟩ := h.inv.step action (fun call heq => by subst heq; exact hquiet.elim)
    (by rw [hnil, List.append_nil]; exact hhistory.free)
  rw [hnil, List.append_nil] at hinv
  have hup : (sys.step sha256 account action).storage.blocksWasm = some b := by
    rw [hstorage]
    exact h.up
  obtain rfl := hinv.upholds.target b hup
  exact ⟨hinv, hup⟩

/-- **A message that is taken** is not owed any more. -/
theorem Owes.delivers (h : Owes sha256 account chains b i (n + 1) sys)
    (hhistory : History sha256 account chains) (hquiet : Quiet i action)
    (hdelivers : Delivers i sys action) :
    Owes sha256 account chains b i n (sys.step sha256 account action) := by
  obtain ⟨hinv, hup⟩ := h.inv_step hhistory hquiet
  refine ⟨hinv, hup, ?_⟩
  rcases hdelivers with ⟨rfl, hqueue⟩ | ⟨rfl, hstatuses⟩
  · show Connected account chains (target b) ((sys.onPeer i (·.onmessage sha256)).peers i) n
    rw [System.onPeer_self]
    exact h.connected.onmessage hhistory h.inv.upholds.sound hqueue
  · show Connected account chains (target b) ((sys.onPeer i (·.message sys.storage)).peers i) n
    rw [System.onPeer_self]
    exact h.connected.message (h.inv.upholds.serving h.up).1 hhistory h.inv.upholds.genuine
      hstatuses

/-- **What is owed** falls under fair scheduling. -/
theorem owes_descends (hhistory : History sha256 account chains) :
    Descends (System.step sha256 account) (Quiet i) (Owes sha256 account chains b i) (Delivers i)
      [.message i, .onmessage i] where
  keeps := by
    intro n sys action hquiet h
    obtain ⟨hinv, hup⟩ := h.inv_step hhistory hquiet
    rcases (quiet_step sha256 account hquiet h.connected.online).2 with hsame | hdelivers
    · exact ⟨hinv, hup, hsame ▸ h.connected⟩
    · have hpos : 0 < n := h.connected.pos (hdelivers.imp (·.2) (·.2))
      obtain ⟨k, rfl⟩ := Nat.exists_eq_add_one_of_ne_zero (Nat.ne_of_gt hpos)
      have hfallen := h.delivers hhistory hquiet hdelivers
      exact ⟨hinv, hup, hfallen.connected.mono (Nat.le_succ k)⟩
  falls hquiet h hdelivers := h.delivers hhistory hquiet hdelivers
  stays := by
    intro n sys action hquiet h
    rcases (quiet_step sha256 account hquiet h.connected.online).2 with hsame | hdelivers
    · refine .inr fun action' hdelivers => ?_
      rw [Delivers, hsame]
      exact hdelivers
    · exact .inl (h.delivers hhistory hquiet hdelivers)
  enabled := by
    intro n sys h
    by_cases hqueue : (sys.peers i).client.messageQueue = []
    · by_cases hstatuses : (sys.peers i).client.statuses = []
      · exact .inl ⟨h.inv, h.up, (h.connected.idle hqueue hstatuses).mono (Nat.zero_le n)⟩
      · exact .inr ⟨.message i, List.mem_cons_self .., .inr ⟨rfl, hstatuses⟩⟩
    · exact .inr ⟨.onmessage i, List.mem_cons_of_mem _ (List.mem_singleton_self _),
        .inl ⟨rfl, hqueue⟩⟩

/-- So much is owed at most. -/
theorem SystemInv.owes (h : SystemInv sha256 account chains (target b) sys)
    (hup : sys.storage.blocksWasm = some b) (hopened : (sys.peers i).connection.ws = some .opened) :
    Owes sha256 account chains b i
      ((sys.peers i).client.messageQueue.length + 4 * b.blockLog.blocks.length + 2) sys := by
  refine ⟨h, hup, ?_⟩
  cases h.peers i with
  | missing _ _ _ _ hclosed => exact absurd hopened hclosed
  | down _ hclosed => exact absurd hopened hclosed
  | connected hconnected =>
    obtain @⟨m, R, us, asked, k, hcopies, honline, -, hlink, hagrees, -⟩ := hconnected
    refine .intro hcopies honline hopened hlink hagrees ?_
    rw [owed]
    have hlacks : 4 * ((target b).chain.length - k) + 2 ≤ 4 * b.blockLog.blocks.length + 2 :=
      Nat.add_le_add_right (Nat.mul_le_mul_left 4 (Nat.sub_le _ k)) 2
    split <;> omega

end Steps

end Microchain.Sync
