import Microchain.Chainbase.Refinement
import Microchain.Starter.MicroChain

/-!
# The handlers on the greeting table

What `hi` and `clearall` do to a greeting table, seen as a map from ids to
greetings (`Snapshot Greeting`), and that the table of the code follows it through
a whole block. A handler never fails: replacing removes the row that could be in
the way first. So a block fails in `filter_block` exactly when one of its actions
does not decode (`Decodes`), whatever is in the table.

- `Refines.addOrReplace`, `Refines.clearTable`: one handler.
- `filterBlock_ok`, `filterBlock_error`: one block.
-/

namespace Microchain.Starter

open Eosio Subchain Chainbase Lib

/-- The greeting table of the code stands for a table with copies. -/
abbrev TableRefines (u : GreetingIndex) (t : SnapshotTable Greeting) : Prop :=
  Refines [orderedByPk] u t

/-! ## Handlers on a snapshot -/

/-- The row of an account. -/
def rowOf (s : Snapshot Greeting) (account : Name) : Option (Object Greeting) :=
  s.rows.find? (·.value.account = account)

/-- The message of an account. -/
def messageOf (s : Snapshot Greeting) (account : Name) : Option Bytes :=
  (rowOf s account).map (·.value.message)

/-- `hi` on a snapshot: the account's row is replaced by one with a new id. -/
def hiSnapshot (s : Snapshot Greeting) (value : Greeting) : Snapshot Greeting :=
  match rowOf s value.account with
  | some obj => (s.remove obj.id).emplace value
  | none => s.emplace value

/-- `clearall` on a snapshot. -/
def clearSnapshot (s : Snapshot Greeting) : Snapshot Greeting := { s with row := fun _ => none }

def Handler.onSnapshot (s : Snapshot Greeting) : Handler → Snapshot Greeting
  | hi account message => hiSnapshot s ⟨account, message⟩
  | clearall => clearSnapshot s
  | events _ => s
  | ignored => s

/-- The rows of a snapshot. -/
theorem Snapshot.mem_rows {s : Snapshot Greeting} {obj : Object Greeting} :
    obj ∈ s.rows ↔ obj.id < s.nextId ∧ s.row obj.id = some obj.value := by
  rw [Snapshot.rows, List.mem_filterMap]
  constructor
  · rintro ⟨id, hid, hobj⟩
    obtain ⟨v, hv, rfl⟩ := Option.map_eq_some_iff.mp hobj
    exact ⟨List.mem_range.mp hid, hv⟩
  · rintro ⟨hid, hrow⟩
    exact ⟨obj.id, List.mem_range.mpr hid, by rw [hrow]; rfl⟩

/-- Rows are equivalent when they have the same account. -/
theorem distinct_iff {s : Snapshot Greeting} : s.Distinct [orderedByPk] ↔
    ∀ p q v w, s.row p = some v → s.row q = some w → p ≠ q → v.account ≠ w.account := by
  constructor
  · intro hs p q v w hp hq hne haccount
    refine hs orderedByPk (by simp) p q v w hp hq hne ?_
    simp [Equivalent, orderedByPk, haccount]
  · intro hs comp hcomp p q v w hp hq hne heq
    obtain rfl := List.mem_singleton.mp hcomp
    refine hs p q v w hp hq hne ?_
    simp only [Equivalent, orderedByPk, decide_eq_true_eq, UInt64.lt_iff_toNat_lt] at heq
    have hval : v.account.value = w.account.value := UInt64.toNat_inj.mp (by omega)
    cases hv : v.account
    cases hw : w.account
    simp_all

/-- Accounts are unique in a table without equivalent rows. -/
theorem account_unique {s : Snapshot Greeting} (hs : s.Distinct [orderedByPk])
    {a b : Object Greeting} (ha : a ∈ s.rows) (hb : b ∈ s.rows)
    (hab : a.value.account = b.value.account) : a = b := by
  obtain ⟨-, hra⟩ := Snapshot.mem_rows.mp ha
  obtain ⟨-, hrb⟩ := Snapshot.mem_rows.mp hb
  by_cases hid : a.id = b.id
  · rw [hid, hrb] at hra
    cases a
    cases b
    simp_all
  · exact absurd hab (distinct_iff.mp hs a.id b.id a.value b.value hra hrb hid)

theorem find?_eq_of_perm {α : Type} {l l' : List α} {p : α → Bool} (hperm : l.Perm l')
    (huniq : ∀ a ∈ l, ∀ b ∈ l, p a → p b → a = b) : l.find? p = l'.find? p := by
  cases h : l.find? p with
  | none =>
    refine (List.find?_eq_none.mpr fun x hx => ?_).symm
    exact List.find?_eq_none.mp h x (hperm.mem_iff.mpr hx)
  | some a =>
    have ha := List.mem_of_find?_eq_some h
    have hpa := List.find?_some h
    cases h' : l'.find? p with
    | none => exact absurd hpa (List.find?_eq_none.mp h' a (hperm.mem_iff.mp ha))
    | some b =>
      have hb := hperm.mem_iff.mpr (List.mem_of_find?_eq_some h')
      rw [huniq a ha b hb hpa (List.find?_some h')]

/-! ## One handler on the table of the code -/

section Handlers

variable {u : GreetingIndex} {t : SnapshotTable Greeting}

theorem TableRefines.distinct (h : TableRefines u t) : t.current.Distinct [orderedByPk] :=
  h.current ▸ h.store.snapshot_distinct

/-- `find` in the index by primary key finds the account's row. -/
theorem TableRefines.findByPk (h : TableRefines u t) (account : Name) :
    findByPk u account = rowOf t.current account := by
  have hcomps := h.store.secondary_comps
  rw [Starter.findByPk, byPk, rowOf]
  match hsec : u.secondary with
  | [] => simp [hsec] at hcomps
  | set :: sets =>
    have hset : set ∈ u.secondary := by simp [hsec]
    simp only
    rw [h.store.contents_eq hset, h.current]
    refine find?_eq_of_perm (sortBy_perm _ _) fun a ha b hb hpa hpb => ?_
    refine account_unique h.distinct ((sortBy_perm _ _).mem_iff.mp ha)
      ((sortBy_perm _ _).mem_iff.mp hb) ?_
    rw [of_decide_eq_true hpa, of_decide_eq_true hpb]

theorem rowOf_mem {s : Snapshot Greeting} {account : Name} {obj : Object Greeting}
    (h : rowOf s account = some obj) : obj ∈ s.rows ∧ obj.value.account = account :=
  ⟨List.mem_of_find?_eq_some h, of_decide_eq_true (List.find?_some h :)⟩

theorem rowOf_eq_none {s : Snapshot Greeting} {account : Name} :
    rowOf s account = none ↔ ∀ obj ∈ s.rows, obj.value.account ≠ account := by
  simp [rowOf]

/-- The rows of a table have ids below the next one. -/
def Bounded (s : Snapshot Greeting) : Prop := ∀ id v, s.row id = some v → id < s.nextId

theorem TableRefines.bounded (h : TableRefines u t) : Bounded t.current := by
  intro id v hrow
  rw [← h.current] at hrow ⊢
  exact h.store.lt_next (.inl (h.store.mem_of_row hrow).1)

theorem emplace_row (s : Snapshot Greeting) (value : Greeting) (id : Nat) :
    (s.emplace value).row id = if id = s.nextId then some value else s.row id := rfl

theorem remove_row (s : Snapshot Greeting) (i id : Nat) :
    (s.remove i).row id = if id = i then none else s.row id := rfl

/-- A new row whose account has none is equivalent to no other row. -/
theorem emplace_distinct {s : Snapshot Greeting} {value : Greeting}
    (hs : s.Distinct [orderedByPk]) (hnone : ∀ id v, s.row id = some v → v.account ≠ value.account) :
    (s.emplace value).Distinct [orderedByPk] := by
  rw [distinct_iff] at hs ⊢
  intro p q v w hp hq hne
  rw [emplace_row] at hp hq
  split at hp
  · next hpn =>
    obtain rfl := Option.some.inj hp
    rw [if_neg fun h => hne (hpn.trans h.symm)] at hq
    exact (hnone q w hq).symm
  · split at hq
    · obtain rfl := Option.some.inj hq
      exact hnone p v hp
    · exact hs p q v w hp hq hne

theorem remove_distinct {s : Snapshot Greeting} (hs : s.Distinct [orderedByPk]) (id : Nat) :
    (s.remove id).Distinct [orderedByPk] := by
  rw [distinct_iff] at hs ⊢
  intro p q v w hp hq
  rw [remove_row] at hp hq
  split at hp
  · cases hp
  · split at hq
    · cases hq
    · exact hs p q v w hp hq

/-- **hi**: replacing never fails and is `hiSnapshot`. -/
theorem TableRefines.addOrReplace (h : TableRefines u t) (value : Greeting) :
    ∃ u', addOrReplace u value = (.ok (), u') ∧
      TableRefines u' { t with current := hiSnapshot t.current value } := by
  have hbounded := h.bounded
  have hmem : ∀ id v, t.current.row id = some v → (⟨id, v⟩ : Object Greeting) ∈ t.current.rows :=
    fun id v hv => Snapshot.mem_rows.mpr ⟨hbounded id v hv, hv⟩
  rw [Starter.addOrReplace, h.findByPk, hiSnapshot]
  cases hrow : rowOf t.current value.account with
  | none =>
    have hnone : ∀ id v, t.current.row id = some v → v.account ≠ value.account :=
      fun id v hv => rowOf_eq_none.mp hrow _ (hmem id v hv)
    obtain ⟨u', hu'⟩ := h.emplace_of_distinct (emplace_distinct h.distinct hnone)
    refine ⟨u', by simp [hu'], (h.emplace hu').1⟩
  | some obj =>
    obtain ⟨hobj, haccount⟩ := rowOf_mem hrow
    have hp : obj.id ∈ u.byId := by
      have hrow' := (Snapshot.mem_rows.mp hobj).2
      rw [← h.current] at hrow'
      exact (h.store.mem_of_row hrow').1
    have hremoved := h.remove hp
    -- with the old row gone no row has the account, so the index takes the new one
    have hnone : ∀ id v, (t.current.remove obj.id).row id = some v →
        v.account ≠ value.account := by
      intro id v hv heq
      rw [remove_row] at hv
      split at hv
      · cases hv
      · next hne =>
        have := account_unique h.distinct (hmem id v hv) hobj (heq.trans haccount.symm)
        exact hne (congrArg Object.id this)
    obtain ⟨u', hu'⟩ := hremoved.emplace_of_distinct
      (emplace_distinct (remove_distinct h.distinct obj.id) hnone)
    refine ⟨u', by simp [hu'], (hremoved.emplace hu').1⟩

theorem TableRefines.foldl_remove (ids : List Nat) (h : TableRefines u t) (hids : ids.Nodup)
    (hmem : ∀ id ∈ ids, id ∈ u.byId) :
    TableRefines (ids.foldl (fun table id => table.remove id) u)
      { t with current := ids.foldl (fun s id => s.remove id) t.current } := by
  induction ids generalizing u t with
  | nil => exact h
  | cons id ids ih =>
    obtain ⟨hid, hids⟩ := List.nodup_cons.mp hids
    obtain ⟨hmemid, hmem⟩ := List.forall_mem_cons.mp hmem
    refine ih (h.remove hmemid) hids fun i hi => ?_
    have hne : i ≠ id := fun heq => hid (heq ▸ hi)
    have hbyId : (u.remove id).byId = u.byId.erase id := by
      obtain ⟨node, hnode⟩ := h.store.isSome_of_mem hmemid
      by_cases hc : Created u id
      · rw [UndoIndex.remove_of_created hnode (h.store.node id node hnode).item_id hc]
      · rw [UndoIndex.remove_of_not_created hnode (h.store.node id node hnode).item_id hc]
    rw [hbyId]
    exact h.store.byId_nodup.mem_erase_iff.mpr ⟨hne, hmem i hi⟩

theorem foldl_remove_row (ids : List Nat) (s : Snapshot Greeting) (id : Nat) :
    (ids.foldl (fun s id => s.remove id) s).row id = if id ∈ ids then none else s.row id := by
  induction ids generalizing s with
  | nil => simp
  | cons i ids ih =>
    rw [List.foldl_cons, ih]
    by_cases hid : id = i <;> by_cases hmem : id ∈ ids <;>
      simp [Snapshot.remove, Snapshot.set, hid, hmem]

theorem foldl_remove_nextId (ids : List Nat) (s : Snapshot Greeting) :
    (ids.foldl (fun s id => s.remove id) s).nextId = s.nextId := by
  induction ids generalizing s with
  | nil => rfl
  | cons i ids ih => exact ih (s.remove i)

/-- **clearall** removes every row. -/
theorem TableRefines.clearTable (h : TableRefines u t) :
    TableRefines (clearTable u) { t with current := clearSnapshot t.current } := by
  have hfold := h.foldl_remove u.byId h.store.byId_nodup fun _ hid => hid
  have hclear : u.byId.foldl (fun s id => s.remove id) t.current = clearSnapshot t.current := by
    refine Snapshot.ext (fun id => ?_) (foldl_remove_nextId _ _)
    rw [foldl_remove_row]
    split
    · rfl
    · next hnot =>
      cases hrow : t.current.row id with
      | none => rfl
      | some v =>
        rw [← h.current] at hrow
        exact absurd (h.store.mem_of_row hrow).1 hnot
  rw [← hclear]
  exact hfold

/-- **A handler never fails** and follows its snapshot version. -/
theorem TableRefines.run (h : TableRefines u t) (handler : Handler) :
    ∃ u', handler.run u = (.ok (), u') ∧
      TableRefines u' { t with current := handler.onSnapshot t.current } := by
  cases handler with
  | hi account message => exact h.addOrReplace ⟨account, message⟩
  | clearall => exact ⟨_, rfl, h.clearTable⟩
  | events events => exact ⟨u, rfl, h⟩
  | ignored => exact ⟨u, rfl, h⟩

end Handlers

/-! ## One block -/

/-- The actions of a block, in order. -/
def blockActions (block : EosioBlock) : List Action := block.transactions.flatMap (·.actions)

/-- Every action of the block decodes. -/
def Decodes (starterAccount : Name) (block : EosioBlock) : Prop :=
  ∀ action ∈ blockActions block, ∃ handler, handlerOf starterAccount action = .ok handler

/-- One action on a snapshot. -/
def filterActionSnapshot (starterAccount : Name) (s : Snapshot Greeting) (action : Action) :
    Snapshot Greeting :=
  match handlerOf starterAccount action with
  | .ok handler => handler.onSnapshot s
  | .error _ => s

/-- A block on a snapshot. -/
def filterSnapshot (starterAccount : Name) (s : Snapshot Greeting) (block : EosioBlock) :
    Snapshot Greeting := (blockActions block).foldl (filterActionSnapshot starterAccount) s

variable {starterAccount : Name}

/-- Actions that all decode run to the end. -/
theorem filterActions_ok {u : GreetingIndex} {t : SnapshotTable Greeting} (h : TableRefines u t)
    {actions : List Action}
    (hdecode : ∀ action ∈ actions, ∃ handler, handlerOf starterAccount action = .ok handler) :
    ∃ u', filterActions starterAccount u actions = (.ok (), u') ∧
      TableRefines u'
        { t with current := actions.foldl (filterActionSnapshot starterAccount) t.current } := by
  induction actions generalizing u t with
  | nil => exact ⟨u, rfl, h⟩
  | cons action actions ih =>
    obtain ⟨⟨handler, hhandler⟩, hdecode⟩ := List.forall_mem_cons.mp hdecode
    obtain ⟨u₁, hrun, h₁⟩ := h.run handler
    obtain ⟨u₂, hrest, h₂⟩ := ih h₁ hdecode
    refine ⟨u₂, ?_, ?_⟩
    · rw [filterActions, filterAction, hhandler]
      simp only [hrun]
      exact hrest
    · rw [List.foldl_cons, filterActionSnapshot, hhandler]
      exact h₂

/-- An action that does not decode stops the actions, with the copies untouched. -/
theorem filterActions_error {u : GreetingIndex} {t : SnapshotTable Greeting} (h : TableRefines u t)
    {actions : List Action}
    (hdecode : ¬ ∀ action ∈ actions, ∃ handler, handlerOf starterAccount action = .ok handler) :
    ∃ e u' s', filterActions starterAccount u actions = (.error e, u') ∧
      TableRefines u' { t with current := s' } := by
  induction actions generalizing u t with
  | nil => exact absurd (by simp) hdecode
  | cons action actions ih =>
    cases hhandler : handlerOf starterAccount action with
    | error e =>
      refine ⟨e, u, t.current, ?_, h⟩
      rw [filterActions, filterAction, hhandler]
    | ok handler =>
      obtain ⟨u₁, hrun, h₁⟩ := h.run handler
      obtain ⟨e, u₂, s₂, hrest, h₂⟩ := ih h₁ fun hall =>
        hdecode (List.forall_mem_cons.mpr ⟨⟨handler, hhandler⟩, hall⟩)
      refine ⟨e, u₂, s₂, ?_, h₂⟩
      rw [filterActions, filterAction, hhandler]
      simp only [hrun]
      exact hrest

theorem filterTransactions_ok {u : GreetingIndex} {t : SnapshotTable Greeting}
    (h : TableRefines u t) {trxs : List Transaction}
    (hdecode : ∀ action ∈ trxs.flatMap (·.actions),
      ∃ handler, handlerOf starterAccount action = .ok handler) :
    ∃ u', filterTransactions starterAccount {} u trxs = (.ok (), u') ∧
      TableRefines u' { t with current :=
        (trxs.flatMap (·.actions)).foldl (filterActionSnapshot starterAccount) t.current } := by
  induction trxs generalizing u t with
  | nil => exact ⟨u, rfl, h⟩
  | cons trx trxs ih =>
    rw [List.flatMap_cons] at hdecode ⊢
    obtain ⟨hfirst, hrest⟩ := List.forall_mem_append.mp hdecode
    obtain ⟨u₁, hrun, h₁⟩ := filterActions_ok h hfirst
    obtain ⟨u₂, hrun₂, h₂⟩ := ih h₁ hrest
    refine ⟨u₂, ?_, ?_⟩
    · rw [filterTransactions, hrun]
      exact hrun₂
    · rw [List.foldl_append]
      exact h₂

theorem filterTransactions_error {u : GreetingIndex} {t : SnapshotTable Greeting}
    (h : TableRefines u t) {trxs : List Transaction}
    (hdecode : ¬ ∀ action ∈ trxs.flatMap (·.actions),
      ∃ handler, handlerOf starterAccount action = .ok handler) :
    ∃ e u' s', filterTransactions starterAccount {} u trxs = (.error e, u') ∧
      TableRefines u' { t with current := s' } := by
  induction trxs generalizing u t with
  | nil => exact absurd (by simp) hdecode
  | cons trx trxs ih =>
    rw [List.flatMap_cons, List.forall_mem_append, not_and_or] at hdecode
    by_cases hfirst : ∀ action ∈ trx.actions, ∃ handler, handlerOf starterAccount action = .ok handler
    · obtain ⟨u₁, hrun, h₁⟩ := filterActions_ok h hfirst
      obtain ⟨e, u₂, s₂, hrest, h₂⟩ := ih h₁ (hdecode.resolve_left (not_not.mpr hfirst))
      refine ⟨e, u₂, s₂, ?_, h₂⟩
      rw [filterTransactions, hrun]
      exact hrest
    · obtain ⟨e, u₁, s₁, hrun, h₁⟩ := filterActions_error h hfirst
      refine ⟨e, u₁, s₁, ?_, h₁⟩
      rw [filterTransactions, hrun]

/-- **A block whose actions decode** runs, and does to the table what
`filterSnapshot` says. -/
theorem filterBlock_ok {u : GreetingIndex} {t : SnapshotTable Greeting} (h : TableRefines u t)
    {block : EosioBlock} (hdecode : Decodes starterAccount block) :
    ∃ u', filterBlock starterAccount u block = (.ok (), u') ∧
      TableRefines u' { t with current := filterSnapshot starterAccount t.current block } :=
  filterTransactions_ok h hdecode

/-- **A block with an action that does not decode** fails, and the copies are
untouched. -/
theorem filterBlock_error {u : GreetingIndex} {t : SnapshotTable Greeting} (h : TableRefines u t)
    {block : EosioBlock} (hdecode : ¬ Decodes starterAccount block) :
    ∃ e u' s', filterBlock starterAccount u block = (.error e, u') ∧
      TableRefines u' { t with current := s' } :=
  filterTransactions_error h hdecode

end Microchain.Starter
