import Microchain.Box.Branch
import Microchain.Box.Dfuse

/-!
# Chain histories through the dfuse receiver

`History` says which message sequences describe a chain history, and which blocks such
a sequence has announced and not undone. The receiver sees a block only as a run of
messages and settles it when a message of another run comes, so it is always one run
behind: `Tracks` says what it holds back.

A marker of another block ends the run as well, and the transactions of the block that
come after it are pushed as a block of their own. `Unsplit` leaves such markers out.

- `History.step_tracks`: one message.
- `pushTrxs_history`: **whole histories**.
- `split_loses_transaction`: a marker in the middle of a block.
-/

namespace Microchain.Box

open Eosio Subchain Starter DfuseReceiver

/-! ## Histories -/

/-- What the messages so far have announced. `markers` are the messages without a trace
since `latest`, the latest message with one. -/
structure Announced where
  branch : List EosioBlock := []
  irreversible : UInt32 := 0
  latest : Option JsonTrx := none
  markers : List JsonTrx := []

/-- The number of the last block of a branch, 0 when there is none. -/
def lastNum (branch : List EosioBlock) : UInt32 := (branch.getLast?.map (·.num)).getD 0

/-- After a message with a trace. -/
def Announced.after (s : Announced) (m : JsonTrx) (branch : List EosioBlock) : Announced where
  branch := branch
  irreversible := max s.irreversible m.irreversibleBlockNum
  latest := some m
  markers := []

/-- What the next message of a history may be, and what it announces. -/
inductive Announced.Step (s : Announced) (m : JsonTrx) : Announced → Prop where
  /-- A message without a trace announces nothing. -/
  | marker (htrace : m.trace = none) :
    s.Step m { s with
      irreversible := max s.irreversible m.irreversibleBlockNum
      markers := s.markers ++ [m] }
  /-- The first transaction of a new block, which extends the branch. -/
  | opens {trace : JsonTrace} (htrace : m.trace = some trace) (hundo : m.undo = false)
    (hnum : lastNum s.branch < m.block.num)
    (hid : ∀ last ∈ s.branch.getLast?, last.id ≠ m.block.id) :
    s.Step m (s.after m (s.branch ++ [m.block.withTransactions [trace.toTransaction]]))
  /-- A further transaction of the block of the latest transaction. -/
  | continues {trace : JsonTrace} {latest : JsonTrx} {branch : List EosioBlock}
    {transactions : List Transaction} (htrace : m.trace = some trace) (hundo : m.undo = false)
    (hlatest : s.latest = some latest) (hnew : latest.undo = false)
    (hblock : m.block = latest.block)
    (hbranch : s.branch = branch ++ [m.block.withTransactions transactions]) :
    s.Step m (s.after m
      (branch ++ [m.block.withTransactions (transactions ++ [trace.toTransaction])]))
  /-- An undo of the last block, which is reversible. -/
  | undoes {trace : JsonTrace} {branch : List EosioBlock} {transactions : List Transaction}
    (htrace : m.trace = some trace) (hundo : m.undo = true)
    (hbranch : s.branch = branch ++ [m.block.withTransactions transactions])
    (hreversible : s.irreversible < m.block.num) :
    s.Step m (s.after m branch)
  /-- The same undo again, for another transaction of the block. -/
  | repeats {trace : JsonTrace} {latest : JsonTrx} (htrace : m.trace = some trace)
    (hundo : m.undo = true) (hlatest : s.latest = some latest) (hundone : latest.undo = true)
    (hblock : m.block = latest.block) :
    s.Step m (s.after m s.branch)

/-- A sequence of messages that describes a chain history, and what it has announced. -/
inductive History : List JsonTrx → Announced → Prop where
  | nil : History [] {}
  | snoc {msgs : List JsonTrx} {s s' : Announced} {m : JsonTrx} (h : History msgs s)
    (hstep : s.Step m s') : History (msgs ++ [m]) s'

/-- A new transaction: a message with a trace that is not an undo. -/
def JsonTrx.IsNew (m : JsonTrx) : Prop := m.trace.isSome ∧ m.undo = false

/-- No marker splits a block: the markers between two transactions of a new block go
with them. -/
def Unsplit (msgs : List JsonTrx) : Prop :=
  ∀ pre first between second post, msgs = pre ++ first :: (between ++ second :: post) →
    first.IsNew → second.IsNew → first.block.id = second.block.id →
    (∀ m ∈ between, m.trace = none) → ∀ m ∈ between, Continues first m

/-- The actions of every new transaction decode. -/
def Decodable (account : Name) (msgs : List JsonTrx) : Prop :=
  ∀ m ∈ msgs, m.undo = false → ∀ trace ∈ m.trace, ∀ action ∈ trace.toTransaction.actions,
    ∃ handler, handlerOf account action = .ok handler

theorem Unsplit.of_append {msgs more : List JsonTrx} (h : Unsplit (msgs ++ more)) :
    Unsplit msgs := by
  rintro pre first between second post rfl
  exact h pre first between second (post ++ more) (by simp)

/-- `Unsplit` by the places of the three messages. -/
theorem unsplit_of_get {msgs : List JsonTrx}
    (h : ∀ i j k : Fin msgs.length, i < j → j < k → (msgs.get i).block.id = (msgs.get k).block.id →
      (msgs.get i).undo = false → (msgs.get k).undo = false → (msgs.get j).trace = none →
      Continues (msgs.get i) (msgs.get j)) : Unsplit msgs := by
  rintro pre first between second post rfl hfirst hsecond hid hnone m hm
  obtain ⟨j, hj, rfl⟩ := List.mem_iff_getElem.mp hm
  have hlen : (pre ++ first :: (between ++ second :: post)).length =
      pre.length + between.length + post.length + 2 := by
    simp only [List.length_append, List.length_cons]
    omega
  have h := h ⟨pre.length, by omega⟩ ⟨pre.length + (j + 1), by omega⟩
    ⟨pre.length + (between.length + 1), by omega⟩ (by simp) (by simpa using hj)
  simp only [List.get_eq_getElem, List.getElem_append_right (Nat.le_add_right _ _),
    Nat.add_sub_cancel_left, List.getElem_cons_succ, List.getElem_append_left hj,
    List.getElem_append_right (Nat.le_refl _), Nat.sub_self, List.getElem_cons_zero] at h
  exact h hid hfirst.2 hsecond.2 (hnone _ hm)

theorem Decodable.of_append {account : Name} {msgs more : List JsonTrx}
    (h : Decodable account (msgs ++ more)) : Decodable account msgs :=
  fun m hm => h m (List.mem_append_left _ hm)

/-! ## What holds of every history -/

/-- `b` comes right after `a` on a branch. -/
def Extends (a b : EosioBlock) : Prop := a.num < b.num ∧ a.id ≠ b.id

/-- The branch of a history: its numbers grow from 1 on, and a block that has been
undone would extend it. -/
structure Announced.Ordered (s : Announced) : Prop where
  chain : s.branch.IsChain Extends
  pos : ∀ block ∈ s.branch, 0 < block.num
  undone : ∀ latest ∈ s.latest, latest.undo = true → 0 < latest.block.num ∧
    ∀ last ∈ s.branch.getLast?, Extends last (latest.block.withTransactions [])

theorem le_lastNum {branch : List EosioBlock} (hchain : branch.IsChain Extends) :
    ∀ block ∈ branch, block.num ≤ lastNum branch := by
  intro block hblock
  have hpair : branch.Pairwise fun a b => a.num < b.num := by
    have : IsTrans EosioBlock fun a b => a.num < b.num :=
      ⟨fun a b c => UInt32.lt_trans⟩
    exact List.isChain_iff_pairwise.mp (hchain.imp fun a b h => h.1)
  obtain ⟨front, last, rfl⟩ :=
    (List.eq_nil_or_concat' branch).resolve_left (List.ne_nil_of_mem hblock)
  rw [lastNum, List.getLast?_concat]
  rcases List.mem_append.mp hblock with hfront | hlast
  · exact UInt32.le_of_lt ((List.pairwise_append.mp hpair).2.2 block hfront last (by simp))
  · rw [List.mem_singleton.mp hlast]
    exact UInt32.le_refl _

/-- A number above the last block is above the branch. -/
theorem lt_of_lastNum_lt {branch : List EosioBlock} (hchain : branch.IsChain Extends)
    {num : UInt32} (hlt : lastNum branch < num) : ∀ block ∈ branch, block.num < num :=
  fun block hblock => UInt32.lt_of_le_of_lt (le_lastNum hchain block hblock) hlt

theorem Announced.Ordered.step {s s' : Announced} {m : JsonTrx} (h : s.Ordered)
    (hstep : s.Step m s') : s'.Ordered := by
  cases hstep with
  | marker htrace => exact ⟨h.chain, h.pos, h.undone⟩
  | opens htrace hundo hnum hid =>
    refine ⟨h.chain.append (.singleton _) ?_, ?_, ?_⟩
    · rintro last hlast block hblock
      obtain rfl := List.mem_singleton.mp (List.mem_of_mem_head? hblock)
      exact ⟨lt_of_lastNum_lt h.chain hnum last (List.mem_of_getLast? hlast), hid last hlast⟩
    · intro block hblock
      rcases List.mem_append.mp hblock with hold | hnew
      · exact h.pos block hold
      · obtain rfl := List.mem_singleton.mp hnew
        exact UInt32.lt_of_le_of_lt UInt32.zero_le hnum
    · rintro latest ⟨⟩ hundone
      rw [hundo] at hundone
      cases hundone
  | @continues trace latest branch transactions htrace hundo hlatest hnew hblock hbranch =>
    -- the block keeps its number and its id
    have hchain := h.chain
    have hpos := h.pos
    rw [hbranch] at hchain hpos
    obtain ⟨hfront, -, hcross⟩ := List.isChain_append.mp hchain
    refine ⟨hfront.append (.singleton _) ?_, ?_, ?_⟩
    · rintro last hlast block hblock
      obtain rfl := List.mem_singleton.mp (List.mem_of_mem_head? hblock)
      exact hcross last hlast (m.block.withTransactions transactions) rfl
    · intro block hblock
      rcases List.mem_append.mp hblock with hold | hnew
      · exact hpos block (List.mem_append_left _ hold)
      · obtain rfl := List.mem_singleton.mp hnew
        exact hpos (m.block.withTransactions transactions) (by simp)
    · rintro latest ⟨⟩ hundone
      rw [hundo] at hundone
      cases hundone
  | @undoes trace branch transactions htrace hundo hbranch hreversible =>
    have hchain := h.chain
    have hpos := h.pos
    rw [hbranch] at hchain hpos
    obtain ⟨hfront, -, hcross⟩ := List.isChain_append.mp hchain
    refine ⟨hfront, fun block hblock => hpos block (List.mem_append_left _ hblock), ?_⟩
    rintro latest ⟨⟩ -
    constructor
    · exact hpos (m.block.withTransactions transactions) (by simp)
    · exact fun last hlast => hcross last hlast (m.block.withTransactions transactions) rfl
  | @repeats trace latest htrace hundo hlatest hundone hblock =>
    refine ⟨h.chain, h.pos, ?_⟩
    rintro latest' ⟨⟩ -
    rw [hblock]
    exact h.undone latest hlatest hundone

theorem History.ordered {msgs : List JsonTrx} {s : Announced} (h : History msgs s) :
    s.Ordered := by
  induction h with
  | nil => exact ⟨.nil, by simp, by simp⟩
  | snoc _ hstep ih => exact ih.step hstep

/-- The messages end with the latest transaction and the markers after it. -/
theorem History.latest {msgs : List JsonTrx} {s : Announced} (h : History msgs s)
    {latest : JsonTrx} (hlatest : s.latest = some latest) :
    latest.trace.isSome ∧ (∀ m ∈ s.markers, m.trace = none) ∧
      ∃ pre, msgs = pre ++ latest :: s.markers := by
  induction h with
  | nil => cases hlatest
  | @snoc msgs s s' m h hstep ih =>
    -- a message with a trace is the latest one, and no marker has come after it
    have hafter : ∀ {trace : JsonTrace} {branch : List EosioBlock}, m.trace = some trace →
        (s.after m branch).latest = some latest →
        latest.trace.isSome ∧ (∀ m ∈ (s.after m branch).markers, m.trace = none) ∧
          ∃ pre, msgs ++ [m] = pre ++ latest :: (s.after m branch).markers := by
      rintro trace branch htrace ⟨⟩
      refine ⟨?_, List.forall_mem_nil _, msgs, rfl⟩
      rw [htrace]
      rfl
    cases hstep with
    | marker htrace =>
      obtain ⟨hsome, hmarkers, pre, rfl⟩ := ih hlatest
      refine ⟨hsome, ?_, pre, by simp⟩
      intro m' hm'
      rcases List.mem_append.mp hm' with hold | hnew
      · exact hmarkers m' hold
      · rw [List.mem_singleton.mp hnew]
        exact htrace
    | opens htrace => exact hafter htrace hlatest
    | continues htrace => exact hafter htrace hlatest
    | undoes htrace => exact hafter htrace hlatest
    | repeats htrace => exact hafter htrace hlatest

/-! ## The receiver -/

/-- **What the receiver holds back.** `storage` is one run of messages behind. -/
inductive Tracks (account : Name) (s : Announced) (r : DfuseReceiver) : Prop where
  /-- Nothing: the latest run has been ended by a marker, or there is none. -/
  | settled (hpending : r.unpushedTransactions = [])
    (hholds : r.storage.Holds account s.branch s.irreversible)
    (hended : ∀ latest ∈ s.latest, ∃ m ∈ s.markers, ¬ Continues latest m)
  /-- The transactions of the last block. -/
  | receiving {latest : JsonTrx} {branch : List EosioBlock} {transactions : List Transaction}
    (hlatest : s.latest = some latest) (hnew : latest.IsNew)
    (hpending : r.unpushedTransactions.getLast? = some latest)
    (htransactions : transactionsOf r.unpushedTransactions = some transactions)
    (hbranch : s.branch = branch ++ [latest.block.withTransactions transactions])
    (hdecodes : Decodes account (latest.block.withTransactions transactions))
    (hholds : r.storage.Holds account branch s.irreversible)
    (hirr : latest.irreversibleBlockNum ≤ s.irreversible)
    (hmarkers : ∀ m ∈ s.markers, Continues latest m)
  /-- An undo, of a block that the storage still holds or of one it has already undone. -/
  | undoing {latest : JsonTrx} (hlatest : s.latest = some latest) (hundo : latest.undo = true)
    (hpending : r.unpushedTransactions.getLast? = some latest)
    (hholds : r.storage.Holds account s.branch s.irreversible ∨
      ∃ block irreversible, block.num = latest.block.num ∧ irreversible ≤ s.irreversible ∧
        irreversible < block.num ∧
        r.storage.Holds account (s.branch ++ [block]) irreversible)
    (hmarkers : ∀ m ∈ s.markers, Continues latest m)

section Receiver

variable {account : Name} {s s' : Announced} {r : DfuseReceiver} {m : JsonTrx}
  {sha256 : Bytes → Checksum256}

theorem le_max_irreversible (a b : UInt32) : a ≤ max a b ∧ b ≤ max a b := by
  rw [UInt32.le_iff_toNat_le, UInt32.le_iff_toNat_le, toNat_max]
  exact ⟨Nat.le_max_left _ _, Nat.le_max_right _ _⟩

/-- **Settling** a message of another run brings the storage up to date. -/
theorem Tracks.settle (h : Tracks account s r) (hordered : s.Ordered)
    (hother : ∀ latest ∈ s.latest, (∀ x ∈ s.markers, Continues latest x) → ¬ Continues latest m)
    (sha256 : Bytes → Checksum256) :
    ∃ storage, r.settle sha256 m = (.ok (), { storage, unpushedTransactions := [] }) ∧
      storage.Holds account s.branch s.irreversible := by
  cases h with
  | settled hpending hholds hended =>
    refine ⟨r.storage, ?_, hholds⟩
    rw [DfuseReceiver.settle, hpending]
    obtain ⟨storage, unpushed⟩ := r
    cases hpending
    rfl
  | @receiving latest branch transactions hlatest hnew hpending htransactions hbranch hdecodes hholds
      hirr hmarkers =>
    have hchain := hordered.chain
    have hpos := hordered.pos
    rw [hbranch] at hchain hpos
    have hlt : ∀ block ∈ branch, block.num < latest.block.num := by
      obtain ⟨hfront, -, hcross⟩ := List.isChain_append.mp hchain
      refine lt_of_lastNum_lt hfront ?_
      rw [lastNum]
      cases hlast : branch.getLast? with
      | none => exact hpos (latest.block.withTransactions transactions) (by simp)
      | some last => exact (hcross last hlast _ rfl).1
    obtain ⟨storage, hpush, hholds'⟩ := hholds.push hlt
      (fun block hblock => hpos block (List.mem_append_left _ hblock))
      (hpos (latest.block.withTransactions transactions) (by simp)) hdecodes hirr sha256
    refine ⟨storage, ?_, hbranch ▸ hholds'⟩
    rw [DfuseReceiver.settle, hpending]
    dsimp only
    rw [if_neg (hother latest hlatest hmarkers), pushUnpushed, hnew.2, if_neg Bool.false_ne_true,
      if_pos hnew.1, htransactions]
    dsimp only
    rw [hpush]
    rfl
  | @undoing latest hlatest hundo hpending hholds hmarkers =>
    obtain ⟨hpos, hextends⟩ := hordered.undone latest hlatest hundo
    have hsettle : r.settle sha256 m =
        r.afterStorage (r.storage.undoEosioNum latest.block.num) := by
      rw [DfuseReceiver.settle, hpending]
      dsimp only
      rw [if_neg (hother latest hlatest hmarkers), pushUnpushed, if_pos hundo]
    rcases hholds with hgone | ⟨block, irreversible, hnum, hle, hlt, hholds⟩
    · -- the block is not in the storage any more
      have habove : ∀ block ∈ s.branch, block.num < latest.block.num := by
        refine lt_of_lastNum_lt hordered.chain ?_
        rw [lastNum]
        cases hlast : s.branch.getLast? with
        | none => exact hpos
        | some last => exact (hextends last hlast).1
      obtain ⟨storage, hrun, hholds'⟩ := hgone.undo_absent habove
      exact ⟨storage, by rw [hsettle, hrun]; rfl, hholds'⟩
    · obtain ⟨storage, hrun, hholds'⟩ := hholds.undo hlt
      exact ⟨storage, by rw [hsettle, ← hnum, hrun]; rfl, hholds'.mono hle⟩

/-- A message of the run that is held back leaves the receiver as it is. -/
theorem settle_continues {latest : JsonTrx} (hpending : r.unpushedTransactions.getLast? = some latest)
    (hsame : Continues latest m) : r.settle sha256 m = (.ok (), r) := by
  rw [DfuseReceiver.settle, hpending]
  exact if_pos hsame

/-- A message with a trace is held back once the others are settled. -/
theorem pushTrx_trace {r' : DfuseReceiver} {trace : JsonTrace}
    (hsettle : r.settle sha256 m = (.ok (), r')) (htrace : m.trace = some trace) :
    r.pushTrx sha256 m =
      (.ok (), { r' with unpushedTransactions := r'.unpushedTransactions ++ [m] }) := by
  rw [pushTrx, hsettle]
  dsimp only
  rw [htrace]
  rfl

/-- A marker only settles. -/
theorem pushTrx_marker {r' : DfuseReceiver} (hsettle : r.settle sha256 m = (.ok (), r'))
    (htrace : m.trace = none) : r.pushTrx sha256 m = (.ok (), r') := by
  rw [pushTrx, hsettle]
  dsimp only
  rw [htrace]
  rfl

theorem pushTrxs_append {msgs more : List JsonTrx} {r' : DfuseReceiver}
    (hrun : r.pushTrxs sha256 msgs = (.ok (), r')) :
    r.pushTrxs sha256 (msgs ++ more) = r'.pushTrxs sha256 more := by
  induction msgs generalizing r with
  | nil =>
    cases hrun
    rfl
  | cons m msgs ih =>
    rw [List.cons_append, pushTrxs]
    rw [pushTrxs] at hrun
    split at hrun
    · cases hrun
    · exact ih hrun

theorem transactionsOf_append {trxs : List JsonTrx} {transactions : List Transaction}
    {trace : JsonTrace} (htrxs : transactionsOf trxs = some transactions)
    (htrace : m.trace = some trace) :
    transactionsOf (trxs ++ [m]) = some (transactions ++ [trace.toTransaction]) := by
  rw [transactionsOf, List.mapM_append, ← transactionsOf, htrxs]
  simp [htrace]

theorem decodes_withTransactions {block : JsonBlock} {transactions : List Transaction} :
    Decodes account (block.withTransactions transactions) ↔
      ∀ t ∈ transactions, ∀ action ∈ t.actions, ∃ handler, handlerOf account action = .ok handler := by
  constructor
  · intro h t ht action haction
    exact h action (List.mem_flatMap.mpr ⟨t, ht, haction⟩)
  · intro h action haction
    obtain ⟨t, ht, haction⟩ := List.mem_flatMap.mp haction
    exact h t ht action haction

/-- A message without a trace ends the run, or belongs to it. -/
theorem Tracks.marker (h : Tracks account s r) (hordered : s.Ordered) (htrace : m.trace = none)
    (sha256 : Bytes → Checksum256) :
    ∃ r', r.pushTrx sha256 m = (.ok (), r') ∧
      Tracks account { s with
        irreversible := max s.irreversible m.irreversibleBlockNum
        markers := s.markers ++ [m] } r' := by
  obtain ⟨hle, -⟩ := le_max_irreversible s.irreversible m.irreversibleBlockNum
  by_cases hother : ∀ latest ∈ s.latest, (∀ x ∈ s.markers, Continues latest x) →
      ¬ Continues latest m
  · -- the marker ends the run
    obtain ⟨storage, hsettle, hholds⟩ := h.settle hordered hother sha256
    refine ⟨_, pushTrx_marker hsettle htrace, ?_⟩
    refine .settled rfl (hholds.mono hle) fun latest hlatest => ?_
    by_cases hall : ∀ x ∈ s.markers, Continues latest x
    · exact ⟨m, List.mem_append_right _ (List.mem_singleton_self m), hother latest hlatest hall⟩
    · push Not at hall
      obtain ⟨x, hx, hnot⟩ := hall
      exact ⟨x, List.mem_append_left _ hx, hnot⟩
  · push Not at hother
    obtain ⟨latest, hlatest, hall, hsame⟩ := hother
    have hall' : ∀ x ∈ s.markers ++ [m], Continues latest x := by
      intro x hx
      rcases List.mem_append.mp hx with hold | hnew
      · exact hall x hold
      · rw [List.mem_singleton.mp hnew]
        exact hsame
    -- the run goes on, and nothing changes but what the marker says is irreversible
    cases h with
    | settled hpending hholds hended =>
      obtain ⟨x, hx, hnot⟩ := hended latest hlatest
      exact absurd (hall x hx) hnot
    | receiving hlatest' hnew hpending htransactions hbranch hdec hholds hirr hmarkers =>
      obtain rfl := Option.some.inj (hlatest.symm.trans hlatest')
      refine ⟨_, pushTrx_marker (settle_continues hpending hsame) htrace, ?_⟩
      exact .receiving hlatest hnew hpending htransactions hbranch hdec (hholds.mono hle)
        (UInt32.le_trans hirr hle) hall'
    | undoing hlatest' hundo hpending hholds hmarkers =>
      obtain rfl := Option.some.inj (hlatest.symm.trans hlatest')
      refine ⟨_, pushTrx_marker (settle_continues hpending hsame) htrace, ?_⟩
      refine .undoing hlatest hundo hpending ?_ hall'
      rcases hholds with hgone | ⟨block, irreversible, hnum, hirr, hlt, hholds⟩
      · exact .inl (hgone.mono hle)
      · exact .inr ⟨block, irreversible, hnum, UInt32.le_trans hirr hle, hlt, hholds⟩

/-- The first transaction of a block is of another run. -/
theorem Tracks.opens (h : Tracks account s r) (hordered : s.Ordered) {trace : JsonTrace}
    (htrace : m.trace = some trace) (hundo : m.undo = false)
    (hid : ∀ last ∈ s.branch.getLast?, last.id ≠ m.block.id)
    (hdecodes : ∀ action ∈ trace.toTransaction.actions,
      ∃ handler, handlerOf account action = .ok handler) (sha256 : Bytes → Checksum256) :
    ∃ r', r.pushTrx sha256 m = (.ok (), r') ∧
      Tracks account (s.after m (s.branch ++ [m.block.withTransactions [trace.toTransaction]])) r' := by
  obtain ⟨hle, hle'⟩ := le_max_irreversible s.irreversible m.irreversibleBlockNum
  have hother : ∀ latest ∈ s.latest, (∀ x ∈ s.markers, Continues latest x) →
      ¬ Continues latest m := by
    rintro latest hlatest hall ⟨hundo', hid'⟩
    cases h with
    | settled hpending hholds hended =>
      obtain ⟨x, hx, hnot⟩ := hended latest hlatest
      exact hnot (hall x hx)
    | receiving hlatest' hnew hpending htransactions hbranch =>
      obtain rfl := Option.some.inj (hlatest.symm.trans hlatest')
      exact hid _ (by rw [hbranch, List.getLast?_concat]; rfl) hid'.symm
    | undoing hlatest' hundone =>
      obtain rfl := Option.some.inj (hlatest.symm.trans hlatest')
      rw [hundo, hundone] at hundo'
      cases hundo'
  obtain ⟨storage, hsettle, hholds⟩ := h.settle hordered hother sha256
  refine ⟨_, pushTrx_trace hsettle htrace, ?_⟩
  refine .receiving rfl ⟨by rw [htrace]; rfl, hundo⟩ rfl (transactionsOf_append rfl htrace) rfl
    (decodes_withTransactions.mpr fun t ht => ?_) (hholds.mono hle) hle' nofun
  rw [List.mem_singleton.mp ht]
  exact hdecodes

/-- A further transaction of a block joins the ones that are waiting. -/
theorem Tracks.continues (h : Tracks account s r) {trace : JsonTrace} {latest : JsonTrx}
    {branch : List EosioBlock} {transactions : List Transaction} (htrace : m.trace = some trace)
    (hundo : m.undo = false) (hlatest : s.latest = some latest) (hnew : latest.undo = false)
    (hblock : m.block = latest.block)
    (hbranch : s.branch = branch ++ [m.block.withTransactions transactions])
    (hunsplit : ∀ x ∈ s.markers, Continues latest x)
    (hdecodes : ∀ action ∈ trace.toTransaction.actions,
      ∃ handler, handlerOf account action = .ok handler) (sha256 : Bytes → Checksum256) :
    ∃ r', r.pushTrx sha256 m = (.ok (), r') ∧
      Tracks account (s.after m
        (branch ++ [m.block.withTransactions (transactions ++ [trace.toTransaction])])) r' := by
  obtain ⟨hle, hle'⟩ := le_max_irreversible s.irreversible m.irreversibleBlockNum
  cases h with
  | settled hpending hholds hended =>
    -- a marker has cut the block in two
    obtain ⟨x, hx, hnot⟩ := hended latest hlatest
    exact absurd (hunsplit x hx) hnot
  | receiving hlatest' hnew' hpending htransactions hbranch' hdec hholds hirr hmarkers =>
    obtain rfl := Option.some.inj (hlatest.symm.trans hlatest')
    have hsame : Continues latest m := ⟨hundo.trans hnew.symm, by rw [hblock]⟩
    refine ⟨_, pushTrx_trace (settle_continues hpending hsame) htrace, ?_⟩
    -- both say which transactions the block has so far
    rw [hblock, hbranch'] at hbranch
    obtain ⟨rfl, hlast⟩ := List.append_inj' hbranch rfl
    have htrxs := congrArg EosioBlock.transactions (List.singleton_inj.mp hlast)
    obtain rfl : _ = transactions := htrxs
    have htransactions' := transactionsOf_append htransactions htrace
    refine .receiving rfl ⟨by rw [htrace]; rfl, hundo⟩ List.getLast?_concat htransactions' rfl
      (decodes_withTransactions.mpr fun t ht => ?_) (hholds.mono hle) hle' nofun
    rcases List.mem_append.mp ht with hold | hnew
    · exact decodes_withTransactions.mp hdec t hold
    · rw [List.mem_singleton.mp hnew]
      exact hdecodes
  | undoing hlatest' hundone =>
    obtain rfl := Option.some.inj (hlatest.symm.trans hlatest')
    rw [hnew] at hundone
    cases hundone

/-- An undo is of another run than the block it undoes. -/
theorem Tracks.undoes (h : Tracks account s r) (hordered : s.Ordered) {trace : JsonTrace}
    {branch : List EosioBlock} {transactions : List Transaction} (htrace : m.trace = some trace)
    (hundo : m.undo = true)
    (hbranch : s.branch = branch ++ [m.block.withTransactions transactions])
    (hreversible : s.irreversible < m.block.num) (sha256 : Bytes → Checksum256) :
    ∃ r', r.pushTrx sha256 m = (.ok (), r') ∧ Tracks account (s.after m branch) r' := by
  obtain ⟨hle, -⟩ := le_max_irreversible s.irreversible m.irreversibleBlockNum
  have hother : ∀ latest ∈ s.latest, (∀ x ∈ s.markers, Continues latest x) →
      ¬ Continues latest m := by
    rintro latest hlatest hall ⟨hundo', hid'⟩
    cases h with
    | settled hpending hholds hended =>
      obtain ⟨x, hx, hnot⟩ := hended latest hlatest
      exact hnot (hall x hx)
    | receiving hlatest' hnew =>
      obtain rfl := Option.some.inj (hlatest.symm.trans hlatest')
      rw [hundo, hnew.2] at hundo'
      cases hundo'
    | undoing hlatest' hundone =>
      obtain rfl := Option.some.inj (hlatest.symm.trans hlatest')
      have hextends := (hordered.undone latest hlatest hundone).2 _
        (by rw [hbranch, List.getLast?_concat]; rfl)
      exact hextends.2 hid'
  obtain ⟨storage, hsettle, hholds⟩ := h.settle hordered hother sha256
  refine ⟨_, pushTrx_trace hsettle htrace, ?_⟩
  refine .undoing rfl hundo rfl (.inr ⟨m.block.withTransactions transactions, s.irreversible, rfl,
    hle, hreversible, ?_⟩) nofun
  exact hbranch ▸ hholds

/-- The same undo again takes nothing more away. -/
theorem Tracks.repeats (h : Tracks account s r) {trace : JsonTrace} {latest : JsonTrx}
    (htrace : m.trace = some trace) (hundo : m.undo = true) (hlatest : s.latest = some latest)
    (hundone : latest.undo = true) (hblock : m.block = latest.block)
    (sha256 : Bytes → Checksum256) :
    ∃ r', r.pushTrx sha256 m = (.ok (), r') ∧ Tracks account (s.after m s.branch) r' := by
  obtain ⟨hle, -⟩ := le_max_irreversible s.irreversible m.irreversibleBlockNum
  cases h with
  | settled hpending hholds hended =>
    have hsettle : r.settle sha256 m = (.ok (), r) := by
      rw [DfuseReceiver.settle, hpending]
      rfl
    refine ⟨_, pushTrx_trace hsettle htrace, ?_⟩
    rw [hpending]
    exact .undoing rfl hundo rfl (.inl (hholds.mono hle)) nofun
  | receiving hlatest' hnew =>
    obtain rfl := Option.some.inj (hlatest.symm.trans hlatest')
    rw [hnew.2] at hundone
    cases hundone
  | undoing hlatest' hundo' hpending hholds hmarkers =>
    obtain rfl := Option.some.inj (hlatest.symm.trans hlatest')
    have hsame : Continues latest m := ⟨hundo.trans hundo'.symm, by rw [hblock]⟩
    refine ⟨_, pushTrx_trace (settle_continues hpending hsame) htrace, ?_⟩
    refine .undoing rfl hundo (List.getLast?_concat) ?_ nofun
    rcases hholds with hgone | ⟨block, irreversible, hnum, hirr, hlt, hholds⟩
    · exact .inl (hgone.mono hle)
    · exact .inr ⟨block, irreversible, by rw [hnum, hblock], UInt32.le_trans hirr hle, hlt, hholds⟩

/-- **One message** of a history. A further transaction of the latest block must not
have been cut off from it by a marker, and the actions of a new transaction decode. -/
theorem Tracks.step (h : Tracks account s r) (hordered : s.Ordered) (hstep : s.Step m s')
    (hlatesttrace : ∀ latest ∈ s.latest, latest.trace.isSome)
    (hunsplit : ∀ latest ∈ s.latest, latest.IsNew → m.IsNew → latest.block.id = m.block.id →
      ∀ x ∈ s.markers, Continues latest x)
    (hdecodes : m.undo = false → ∀ trace ∈ m.trace, ∀ action ∈ trace.toTransaction.actions,
      ∃ handler, handlerOf account action = .ok handler) (sha256 : Bytes → Checksum256) :
    ∃ r', r.pushTrx sha256 m = (.ok (), r') ∧ Tracks account s' r' := by
  cases hstep with
  | marker htrace => exact h.marker hordered htrace sha256
  | @opens trace htrace hundo hnum hid =>
    exact h.opens hordered htrace hundo hid (hdecodes hundo trace htrace) sha256
  | @continues trace latest branch transactions htrace hundo hlatest hnew hblock hbranch =>
    have hrun : ∀ x ∈ s.markers, Continues latest x :=
      hunsplit latest hlatest ⟨hlatesttrace latest hlatest, hnew⟩ ⟨by rw [htrace]; rfl, hundo⟩
        (by rw [hblock])
    exact h.continues htrace hundo hlatest hnew hblock hbranch hrun (hdecodes hundo trace htrace)
      sha256
  | undoes htrace hundo hbranch hreversible =>
    exact h.undoes hordered htrace hundo hbranch hreversible sha256
  | repeats htrace hundo hlatest hundone hblock =>
    exact h.repeats htrace hundo hlatest hundone hblock sha256

/-- **Every history** is followed. -/
theorem History.tracks {msgs : List JsonTrx} (h : History msgs s) (hunsplit : Unsplit msgs)
    (hdecodes : Decodable account msgs) (sha256 : Bytes → Checksum256) :
    ∃ r, (start account).pushTrxs sha256 msgs = (.ok (), r) ∧ Tracks account s r := by
  induction h with
  | nil =>
    exact ⟨_, rfl, .settled rfl (Storage.holds_instantiate account) nofun⟩
  | @snoc msgs s s' m h hstep ih =>
    obtain ⟨r, hrun, htracks⟩ := ih hunsplit.of_append hdecodes.of_append
    have hbetween : ∀ latest ∈ s.latest, latest.IsNew → m.IsNew → latest.block.id = m.block.id →
        ∀ x ∈ s.markers, Continues latest x := by
      -- the markers since the latest transaction stand between it and this one
      intro latest hlatest hnew hnew' hid
      obtain ⟨-, hmarkers, pre, rfl⟩ := h.latest hlatest
      exact hunsplit pre latest s.markers m [] (by simp) hnew hnew' hid hmarkers
    obtain ⟨r', hpush, htracks'⟩ := htracks.step h.ordered hstep
      (fun latest hlatest => (h.latest hlatest).1) hbetween (hdecodes m (by simp)) sha256
    refine ⟨r', ?_, htracks'⟩
    rw [pushTrxs_append hrun, pushTrxs, hpush]
    rfl

end Receiver

/-- **Chain histories are stored as announced**: after every history that no marker
splits and whose actions decode, and one message of another block, the log holds the
blocks that were announced and not undone, each with its transactions. -/
theorem pushTrxs_history (sha256 : Bytes → Checksum256) (account : Name) {msgs : List JsonTrx}
    {s : Announced} (h : History msgs s) (hunsplit : Unsplit msgs)
    (hdecodes : Decodable account msgs) (last : JsonTrx)
    (hlast : ∀ m ∈ msgs.getLast?, last.block.id ≠ m.block.id) :
    ∃ r b, (start account).pushTrxs sha256 (msgs ++ [last]) = (.ok (), r) ∧
      r.storage.blocksWasm = some b ∧ b.blockLog.blocks.map (·.eosioBlock) = s.branch := by
  obtain ⟨r, hrun, htracks⟩ := h.tracks hunsplit hdecodes sha256
  have hother : ∀ latest ∈ s.latest, (∀ x ∈ s.markers, Continues latest x) →
      ¬ Continues latest last := by
    rintro latest hlatest hall ⟨-, hid⟩
    obtain ⟨-, -, pre, rfl⟩ := h.latest hlatest
    -- the message before is the latest transaction, or a marker that goes with it
    rcases List.eq_nil_or_concat' s.markers with hnil | ⟨front, marker, hmarkers⟩
    · refine hlast latest ?_ hid
      rw [hnil]
      simp
    · refine hlast marker ?_ (hid.trans (hall marker ?_).2.symm)
      · rw [hmarkers, ← List.cons_append, ← List.append_assoc]
        exact List.getLast?_concat
      · rw [hmarkers]
        exact List.mem_append_right _ (List.mem_singleton_self marker)
  obtain ⟨storage, hsettle, hholds⟩ := htracks.settle h.ordered hother sha256
  obtain ⟨r', hpush, hstorage⟩ : ∃ r', r.pushTrx sha256 last = (.ok (), r') ∧
      r'.storage = storage := by
    cases htrace : last.trace with
    | none => exact ⟨_, pushTrx_marker hsettle htrace, rfl⟩
    | some trace => exact ⟨_, pushTrx_trace hsettle htrace, rfl⟩
  obtain ⟨b, t, hb, ht, htwin, hblocks, -⟩ := hholds
  refine ⟨r', b, ?_, hstorage ▸ hb, hblocks⟩
  rw [pushTrxs_append hrun, pushTrxs, hpush]
  rfl

/-! ## Examples -/

/-- An id that holds a number. -/
def exampleId (n : UInt64) : Checksum256 := ⟨#v[n, 0, 0, 0]⟩

/-- A hash that tells the blocks below apart. -/
def exampleHash (bytes : Bytes) : Checksum256 :=
  exampleId (bytes.foldl (fun h byte => 31 * h + byte.toUInt64) 0)

/-- The trace of a transaction of one action. -/
def exampleTrace (id : UInt64) (hexData : Bytes) : JsonTrace where
  id := exampleId id
  matchingActions := [{
    account := Name.ofString "starter"
    receiver := Name.ofString "starter"
    name := Name.ofString "hi"
    hexData := hexData }]

/-- The account `bob` says `A`. -/
def exampleData : Bytes := nameToBin (Name.ofString "bob") ++ [1, 65]

/-- A transaction of block `num`. -/
def exampleTrx (num : UInt32) (id : UInt64) (undo : Bool) : JsonTrx where
  undo := undo
  block := { num := num, id := exampleId num.toUInt64 }
  trace := some (exampleTrace id exampleData)

/-- A marker of block `num`. -/
def exampleMarker (num : UInt32) : JsonTrx where
  block := { num := num, id := exampleId num.toUInt64 }

/-- Two blocks, with a marker that goes with the second, which is then undone. -/
def exampleMessages : List JsonTrx :=
  [exampleTrx 5 1 false, exampleTrx 6 2 false, exampleMarker 6, exampleTrx 6 3 false,
    exampleTrx 6 3 true, exampleMarker 9, exampleTrx 6 2 true]

theorem history_exampleMessages : ∃ s, History exampleMessages s ∧
    s.branch = [(exampleTrx 5 1 false).block.withTransactions
      [(exampleTrace 1 exampleData).toTransaction]] := by
  have h₁ : History [exampleTrx 5 1 false] _ :=
    .snoc .nil (.opens rfl rfl (by decide) nofun)
  have h₂ : History [exampleTrx 5 1 false, exampleTrx 6 2 false] _ :=
    .snoc h₁ (.opens rfl rfl (by decide) (by decide))
  have h₃ : History [exampleTrx 5 1 false, exampleTrx 6 2 false, exampleMarker 6] _ :=
    .snoc h₂ (.marker rfl)
  have h₄ : History [exampleTrx 5 1 false, exampleTrx 6 2 false, exampleMarker 6,
      exampleTrx 6 3 false] _ :=
    .snoc h₃ (.continues rfl rfl rfl rfl rfl rfl)
  have h₅ : History [exampleTrx 5 1 false, exampleTrx 6 2 false, exampleMarker 6,
      exampleTrx 6 3 false, exampleTrx 6 3 true] _ :=
    .snoc h₄ (.undoes rfl rfl rfl (by decide))
  have h₆ : History [exampleTrx 5 1 false, exampleTrx 6 2 false, exampleMarker 6,
      exampleTrx 6 3 false, exampleTrx 6 3 true, exampleMarker 9] _ :=
    .snoc h₅ (.marker rfl)
  exact ⟨_, .snoc h₆ (.repeats rfl rfl rfl rfl rfl), rfl⟩

theorem pushTrxs_history_example :
    ∃ r b, (start (Name.ofString "starter")).pushTrxs exampleHash
        (exampleMessages ++ [exampleMarker 7]) = (.ok (), r) ∧
      r.storage.blocksWasm = some b ∧ b.blockLog.blocks.map (·.eosioBlock) =
        [(exampleTrx 5 1 false).block.withTransactions
          [(exampleTrace 1 exampleData).toTransaction]] := by
  obtain ⟨s, hhistory, hbranch⟩ := history_exampleMessages
  have hsome : ∀ m ∈ exampleMessages, ∀ trace ∈ m.trace, ∀ action ∈ trace.toTransaction.actions,
      (handlerOf (Name.ofString "starter") action).toOption.isSome := by decide +kernel
  have hdecodes : Decodable (Name.ofString "starter") exampleMessages := by
    intro m hm _ trace htrace action haction
    have := hsome m hm trace htrace action haction
    cases hhandler : handlerOf (Name.ofString "starter") action with
    | ok handler => exact ⟨handler, rfl⟩
    | error e =>
      rw [hhandler] at this
      cases this
  obtain ⟨r, b, hrun, hb, hblocks⟩ := pushTrxs_history exampleHash (Name.ofString "starter") hhistory
    (unsplit_of_get (by decide +kernel)) hdecodes (exampleMarker 7) (by decide +kernel)
  exact ⟨r, b, hrun, hb, hblocks.trans hbranch⟩

/-! ## Markers that split a block -/

/-- A marker of another block between the two transactions of block 5. -/
def splitMessages : List JsonTrx :=
  [exampleTrx 5 1 false, exampleMarker 4, exampleTrx 5 2 false]

/-- A transaction whose data does not decode. -/
def undecodableMessages : List JsonTrx :=
  [{ exampleTrx 5 1 false with trace := some (exampleTrace 1 []) }]

/-- The eosio blocks in the log once the history is over. -/
def storedBlocks (msgs : List JsonTrx) : Option (List EosioBlock) :=
  ((start (Name.ofString "starter")).pushTrxs exampleHash
    (msgs ++ [exampleMarker 7])).2.storage.blocksWasm.map (·.blockLog.blocks.map (·.eosioBlock))

/-- **A split block loses its first part**: the second part takes its place. And data
that does not decode stops the storage. -/
theorem split_loses_transaction :
    (∃ s, History splitMessages s ∧
      s.branch = [(exampleTrx 5 1 false).block.withTransactions
        [(exampleTrace 1 exampleData).toTransaction, (exampleTrace 2 exampleData).toTransaction]] ∧
      storedBlocks splitMessages = some [(exampleTrx 5 1 false).block.withTransactions
        [(exampleTrace 2 exampleData).toTransaction]]) ∧
    ∃ s, History undecodableMessages s ∧ s.branch.length = 1 ∧
      storedBlocks undecodableMessages = none := by
  constructor
  · have h₁ : History [exampleTrx 5 1 false] _ := .snoc .nil (.opens rfl rfl (by decide) nofun)
    have h₂ : History [exampleTrx 5 1 false, exampleMarker 4] _ := .snoc h₁ (.marker rfl)
    exact ⟨_, .snoc h₂ (.continues rfl rfl rfl rfl rfl rfl), rfl, by decide +kernel⟩
  · exact ⟨_, .snoc .nil (.opens rfl rfl (by decide) nofun), rfl, by decide +kernel⟩

end Microchain.Box
