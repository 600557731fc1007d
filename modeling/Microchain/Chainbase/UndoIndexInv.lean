import Microchain.Chainbase.Indices
import Microchain.Chainbase.UndoHistory

/-!
# The invariant of an `undo_index`

`Refines comps u t`: the table `u` of the code, with the secondary indices `comps`,
stands for the table with copies `t`. Its parts are `Store` (the heap against the
two places a node can be in, and the indices in order) and `History` (the undo
lists hold exactly the copies). Each operation has one theorem that carries
`Refines` over, used by the run theorem in `Refinement` and by the micro chain.
-/

namespace Microchain.Chainbase

open Microchain.Lib

variable {V : Type} {comps : List (OrderedUnique V)}

theorem idLess_strictWeak : StrictWeak idLess :=
  ⟨fun a b => by simp only [idLess, decide_eq_true_eq]; omega,
    fun a b c => by simp only [idLess, decide_eq_true_eq]; omega⟩

/-- A table without its undo lists. -/
def UndoIndex.content (u : UndoIndex V) : Content V where
  vals p := (u.heap p).map fun node => (node.item.value, node.mtime)
  live p := u.byId.contains p
  nextId := u.nextId
  clock := u.monotonicRevision

theorem UndoIndex.content_vals (u : UndoIndex V) (p : Nat) :
    u.content.vals p = (u.heap p).map fun node => (node.item.value, node.mtime) := rfl

@[simp] theorem UndoIndex.content_live (u : UndoIndex V) (p : Nat) :
    u.content.live p = true ↔ p ∈ u.byId := by simp [content]

/-- A node knows its id and whether it is removed. -/
structure NodeOk (removedValues : List Nat) (clock nextId p : Nat) (node : Node V) : Prop where
  item_id : node.item.id = p
  erased : node.erased = true ↔ p ∈ removedValues
  mtime : node.mtime ≤ clock
  lt_next : p < nextId

/-- Every node is visible or removed, and the indices are in order. -/
structure Store (comps : List (OrderedUnique V)) (u : UndoIndex V) : Prop where
  dom : ∀ p, (u.heap p).isSome ↔ p ∈ u.byId ∨ p ∈ u.removedValues
  node : ∀ p node, u.heap p = some node →
    NodeOk u.removedValues u.monotonicRevision u.nextId p node
  byId_sorted : Sorted idLess u.byId
  disjoint : ∀ p ∈ u.byId, p ∉ u.removedValues
  removed_nodup : u.removedValues.Nodup
  addr_nodup : (u.oldValues.map OldNode.addr).Nodup
  addr_lt : ∀ old ∈ u.oldValues, old.addr < u.oldAlloc
  indices : Ordered comps u.heap u.byId u.secondary

/-- Copies carry the consecutive numbers of their sessions. -/
def Numbered : Int → List (Copy V) → Prop
  | _, [] => True
  | revision, copy :: copies => copy.revision = revision ∧ Numbered (revision - 1) copies

/-- **The refinement relation** between the code's table and a table with copies. -/
structure Refines (comps : List (OrderedUnique V)) (u : UndoIndex V) (t : SnapshotTable V) :
    Prop where
  store : Store comps u
  history : History comps u.undoStack u.oldValues u.removedValues u.content
    (t.copies.map Copy.table)
  current : u.content.snapshot = t.current
  revision : u.revision = t.revision
  numbered : Numbered t.revision t.copies

/-! ## Reading the table -/

namespace Store

variable {u : UndoIndex V}

theorem byId_nodup (h : Store comps u) : u.byId.Nodup := h.byId_sorted.nodup idLess_strictWeak

theorem nodes (h : Store comps u) : Nodes u.content u.removedValues := by
  refine ⟨fun p hp => ?_, fun p hp => h.disjoint p (u.content_live p |>.mp hp), h.removed_nodup⟩
  rw [u.content_live] at hp
  simpa [u.content_vals] using (h.dom p).mpr hp

theorem isSome_of_mem (h : Store comps u) {p : Nat} (hp : p ∈ u.byId) :
    ∃ node, u.heap p = some node := Option.isSome_iff_exists.mp ((h.dom p).mpr (.inl hp))

/-- The object at an address, from its value. -/
theorem item_eq (h : Store comps u) (p : Nat) :
    u.heap.item p = (u.content.vals p).map fun x => ⟨p, x.1⟩ := by
  rw [Heap.item, u.content_vals]
  cases hp : u.heap p with
  | none => rfl
  | some node =>
    obtain rfl := (h.node p node hp).item_id
    rfl

/-- The visible value of an id. -/
theorem row_eq (h : Store comps u) (p : Nat) :
    (u.content.snapshot.row p).map (Object.mk p) = if p ∈ u.byId then u.heap.item p else none := by
  by_cases hp : p ∈ u.byId
  · simp only [Content.snapshot, (u.content_live p).mpr hp, if_true, if_pos hp, h.item_eq,
      Option.map_map, Function.comp_def]
  · simp [Content.snapshot, hp]

/-- `find` sees the visible value. -/
theorem find_eq (h : Store comps u) (id : Nat) :
    u.find id = (u.content.snapshot.row id).map (Object.mk id) := by
  rw [h.row_eq, UndoIndex.find]

end Store

/-- The rows `ids` of a heap against a map of values. -/
def RowsOf (heap : Heap V) (ids : List Nat) (row : Nat → Option V) : Prop :=
  ∀ p ∈ ids, ∃ v, row p = some v ∧ heap.item p = some ⟨p, v⟩

theorem Heap.less_of_items {heap : Heap V} {comp : OrderedUnique V} {p q : Nat} {a b : Object V}
    (hp : heap.item p = some a) (hq : heap.item q = some b) :
    heap.less comp p q = comp.less a b := by rw [Heap.less, hp, hq]

theorem Heap.equivalent_iff {heap : Heap V} {comp : OrderedUnique V} {p q : Nat} {a b : Object V}
    (hp : heap.item p = some a) (hq : heap.item q = some b) :
    Equivalent (heap.less comp) p q ↔ Equivalent comp.less a b := by
  rw [Equivalent, Equivalent, Heap.less_of_items hp hq, Heap.less_of_items hq hp]

/-- Rows of a table without equivalent rows are not equivalent. -/
theorem RowsOf.distinct {heap : Heap V} {ids : List Nat} {s : Snapshot V}
    (h : RowsOf heap ids s.row) (hs : s.Distinct comps) :
    ∀ comp ∈ comps, heap.Distinct comp ids := by
  intro comp hcomp p hp q hq hne heq
  obtain ⟨v, hv, hpv⟩ := h p hp
  obtain ⟨w, hw, hqw⟩ := h q hq
  exact hs comp hcomp p q v w hv hw hne ((Heap.equivalent_iff hpv hqw).mp heq)

namespace Store

variable {u : UndoIndex V}

/-- The undo stack and the revision are not part of the store. -/
theorem setStack (h : Store comps u) (undoStack : List UndoState) (revision : Int) :
    Store comps { u with undoStack, revision } :=
  ⟨h.dom, h.node, h.byId_sorted, h.disjoint, h.removed_nodup, h.addr_nodup, h.addr_lt, h.indices⟩

theorem rowsOf (h : Store comps u) : RowsOf u.heap u.byId u.content.snapshot.row := by
  intro p hp
  obtain ⟨node, hnode⟩ := h.isSome_of_mem hp
  refine ⟨node.item.value, ?_, ?_⟩
  · simp [Content.snapshot, hp, u.content_vals, hnode]
  · rw [h.item_eq, u.content_vals, hnode]
    rfl

theorem mem_of_row (h : Store comps u) {p : Nat} {v : V}
    (hrow : u.content.snapshot.row p = some v) : p ∈ u.byId ∧ u.heap.item p = some ⟨p, v⟩ := by
  have hp : p ∈ u.byId := by
    by_contra hnot
    have hrow' := h.row_eq p
    rw [if_neg hnot, hrow] at hrow'
    cases hrow'
  refine ⟨hp, ?_⟩
  have hrow' := h.row_eq p
  rw [if_pos hp, hrow] at hrow'
  exact hrow'.symm

/-- The visible table has no equivalent rows. -/
theorem snapshot_distinct (h : Store comps u) : u.content.snapshot.Distinct comps := by
  intro comp hcomp p q v w hv hw hne heq
  obtain ⟨hp, hpv⟩ := h.mem_of_row hv
  obtain ⟨hq, hqw⟩ := h.mem_of_row hw
  exact h.indices.distinct comp hcomp p hp q hq hne ((Heap.equivalent_iff hpv hqw).mpr heq)

end Store

/-! ## Emplace -/

section Operations

variable {u : UndoIndex V} {t : SnapshotTable V}

theorem Store.lt_next (h : Store comps u) {p : Nat} (hp : p ∈ u.byId ∨ p ∈ u.removedValues) :
    p < u.nextId := by
  obtain ⟨node, hnode⟩ := Option.isSome_iff_exists.mp ((h.dom p).mpr hp)
  exact (h.node p node hnode).lt_next

/-- Values after writing one node. -/
theorem Heap.vals_set (heap : Heap V) (p : Nat) (node : Node V) (id : Nat) :
    ((heap.set p (some node)) id).map (fun n => (n.item.value, n.mtime)) =
      if id = p then some (node.item.value, node.mtime)
      else (heap id).map fun n => (n.item.value, n.mtime) := by
  by_cases h : id = p
  · simp [h]
  · simp [h, heap.set_other _ h]

theorem UndoIndex.content_write (u v : UndoIndex V) (p : Nat) (node : Node V)
    (hheap : v.heap = u.heap.set p (some node)) (hbyId : v.byId = u.byId)
    (hnext : v.nextId = u.nextId) (hclock : v.monotonicRevision = u.monotonicRevision) :
    v.content = u.content.write p (node.item.value, node.mtime) := by
  refine Content.ext (funext fun id => ?_) (funext fun id => ?_) hnext hclock
  · rw [v.content_vals, hheap, Heap.vals_set]
    rfl
  · simp [UndoIndex.content, Content.write, hbyId]

theorem Heap.set_isSome {heap : Heap V} {p q : Nat} {node : Node V} :
    (heap.set p (some node) q).isSome ↔ q = p ∨ (heap q).isSome := by
  by_cases h : q = p
  · simp [h]
  · simp [heap.set_other _ h, h]

/-- A property of all nodes after writing one. -/
theorem Heap.forall_set {heap : Heap V} {p : Nat} {node : Node V} {P : Nat → Node V → Prop}
    (hp : P p node) (hother : ∀ q n, q ≠ p → heap q = some n → P q n) :
    ∀ q n, heap.set p (some node) q = some n → P q n := by
  intro q n hq
  by_cases h : q = p
  · subst h
    rw [Heap.set_self] at hq
    exact Option.some.inj hq ▸ hp
  · rw [heap.set_other _ h] at hq
    exact hother q n h hq

theorem UndoIndex.content_emplace (u : UndoIndex V) (node : Node V)
    (secondary : List (SetImpl V)) :
    UndoIndex.content { u with
      heap := u.heap.set u.nextId (some node), secondary, byId := u.byId ++ [u.nextId]
      nextId := u.nextId + 1 } = u.content.create (node.item.value, node.mtime) := by
  refine Content.ext (funext fun id => ?_) (funext fun id => ?_) rfl rfl
  · exact u.heap.vals_set u.nextId node id
  · by_cases hid : id = u.nextId <;> simp [UndoIndex.content, Content.create, Content.write, hid]

/-- **Emplace** of a row that no index refuses. -/
theorem Refines.emplace (h : Refines comps u t) {value : V} {p : Nat} {u' : UndoIndex V}
    (hop : u.emplace value = (.ok p, u')) :
    Refines comps u' { t with current := t.current.emplace value } ∧ p = t.current.nextId := by
  have hs := h.store
  have hnot : u.nextId ∉ u.byId := fun hmem =>
    absurd (hs.lt_next (.inl hmem)) (Nat.lt_irrefl _)
  have hnotr : u.nextId ∉ u.removedValues := fun hmem =>
    absurd (hs.lt_next (.inr hmem)) (Nat.lt_irrefl _)
  simp only [UndoIndex.emplace] at hop
  generalize hmtime : (if u.undoStack.isEmpty = true then 0 else u.monotonicRevision) = mtime at hop
  have hle : mtime ≤ u.monotonicRevision := by
    rw [← hmtime]
    split <;> omega
  have hcongr : Ordered comps (u.heap.set u.nextId (some ⟨⟨u.nextId, value⟩, mtime, false⟩))
      u.byId u.secondary :=
    hs.indices.congr fun q hq => u.heap.item_set_other _ fun heq => hnot (heq ▸ hq)
  split at hop
  · cases hop
  · next secondary hins =>
    obtain ⟨hp, rfl⟩ := Prod.mk.inj hop
    refine ⟨⟨⟨fun q => ?_, ?_, ?_, fun q hq => ?_, hs.removed_nodup, hs.addr_nodup, hs.addr_lt, ?_⟩,
      ?_, ?_, h.revision, h.numbered⟩, ?_⟩
    · rw [Heap.set_isSome, hs.dom, List.mem_append, List.mem_singleton]
      tauto
    · refine Heap.forall_set ⟨rfl, iff_of_false (by simp) hnotr, hle, Nat.lt_succ_self _⟩ ?_
      intro q node _ hq
      obtain ⟨hid, herased, hm, hlt⟩ := hs.node q node hq
      exact ⟨hid, herased, hm, Nat.lt_succ_of_lt hlt⟩
    · refine List.pairwise_append.mpr ⟨hs.byId_sorted, List.pairwise_singleton _ _, ?_⟩
      intro a ha b hb
      obtain rfl := List.mem_singleton.mp hb
      exact decide_eq_true (hs.lt_next (.inl ha))
    · rcases List.mem_append.mp hq with hq | hq
      · exact hs.disjoint q hq
      · exact List.mem_singleton.mp hq ▸ hnotr
    · exact (insertImpl_ordered hcongr hins).of_perm (List.perm_append_singleton _ _).symm
    · -- for the newest session the row is new, as its id and its time say
      refine h.history.push [] [] fun s olds₁ removed₁ hstack session => ?_
      obtain rfl : u.monotonicRevision = mtime := by
        rw [← hmtime, if_neg]
        cases hst : u.undoStack <;> simp_all
      rw [u.content_emplace]
      exact session.emplace value
    · rw [u.content_emplace, Content.create_snapshot, ← h.current]
    · rw [← h.current]
      exact (Except.ok.inj hp).symm

/-- Emplace succeeds when the new row is equivalent to no other. -/
theorem Refines.emplace_of_distinct (h : Refines comps u t) {value : V}
    (hdistinct : (t.current.emplace value).Distinct comps) :
    ∃ u', u.emplace value = (.ok u.nextId, u') := by
  have hs := h.store
  have hne : ∀ q ∈ u.byId, q ≠ u.nextId := fun q hq heq =>
    absurd (hs.lt_next (.inl hq)) (heq ▸ Nat.lt_irrefl _)
  simp only [UndoIndex.emplace]
  generalize (if u.undoStack.isEmpty = true then 0 else u.monotonicRevision) = mtime
  have hcongr : Ordered comps (u.heap.set u.nextId (some ⟨⟨u.nextId, value⟩, mtime, false⟩))
      u.byId u.secondary :=
    hs.indices.congr fun q hq => u.heap.item_set_other _ (hne q hq)
  obtain ⟨secondary, hins⟩ := insertImpl_of_distinct u.nextId hcongr fun comp hcomp q hq heq => by
    obtain ⟨w, hw, hqw⟩ := hs.rowsOf q hq
    have hitem : (u.heap.set u.nextId (some ⟨⟨u.nextId, value⟩, mtime, false⟩)).item u.nextId =
        some ⟨u.nextId, value⟩ := by simp [Heap.item]
    rw [Heap.equivalent_iff hitem ((u.heap.item_set_other _ (hne q hq)).trans hqw)] at heq
    rw [← h.current] at hdistinct
    refine hdistinct comp hcomp u.nextId q value w ?_ ?_ (Ne.symm (hne q hq)) heq
    · exact if_pos rfl
    · exact (if_neg (hne q hq)).trans hw
  rw [hins]
  exact ⟨_, rfl⟩

/-! ## Modify -/

theorem Heap.set_set (heap : Heap V) (p : Nat) (a b : Option (Node V)) :
    (heap.set p a).set p b = heap.set p b := by
  funext q
  by_cases h : q = p <;> simp [Heap.set, h]

/-- The session at the top, if there is one, has already touched the row. -/
def Touched (u : UndoIndex V) (node : Node V) : Prop :=
  ∀ s, u.undoStack.head? = some s → s.ctime ≤ node.mtime

theorem UndoIndex.onModify_of_touched {p : Nat} {node : Node V} (hnode : u.heap p = some node)
    (h : Touched u node) : u.onModify p = (false, u) := by
  cases hstack : u.undoStack with
  | nil => simp [onModify, hstack]
  | cons s stack => simp [onModify, hstack, hnode, h s (by rw [hstack]; rfl)]

theorem UndoIndex.onModify_of_not_touched {p : Nat} {node : Node V} (hnode : u.heap p = some node)
    (h : ¬ Touched u node) :
    u.onModify p = (true, { u with
      heap := u.heap.set p (some { node with mtime := u.monotonicRevision })
      oldValues := ⟨u.oldAlloc, node.item, node.mtime, p⟩ :: u.oldValues
      oldAlloc := u.oldAlloc + 1 }) := by
  cases hstack : u.undoStack with
  | nil => exact absurd (fun s hs => by rw [hstack] at hs; cases hs) h
  | cons s stack =>
    have hs : ¬ s.ctime ≤ node.mtime := fun hle => h fun s' hs' => by
      rw [hstack] at hs'
      exact Option.some.inj hs' ▸ hle
    simp [onModify, hstack, hnode, hs]

/-- A modified table: the row has its new value, and a backup was made unless the
session had touched the row. -/
structure Modified (u : UndoIndex V) (p : Nat) (node : Node V) (m : V → V) (u' : UndoIndex V) :
    Prop where
  result : ∃ mtime olds alloc secondary,
    u' = { u with
      heap := u.heap.set p (some { node with item := ⟨node.item.id, m node.item.value⟩, mtime })
      oldValues := olds ++ u.oldValues
      oldAlloc := alloc
      secondary } ∧
    postModify true u'.heap p u.secondary = (true, secondary) ∧
    ((Touched u node ∧ mtime = node.mtime ∧ olds = [] ∧ alloc = u.oldAlloc) ∨
      (¬ Touched u node ∧ mtime = u.monotonicRevision ∧
        olds = [⟨u.oldAlloc, node.item, node.mtime, p⟩] ∧ alloc = u.oldAlloc + 1))

theorem UndoIndex.modify_ok {p : Nat} {node : Node V} {m : V → V} {u' : UndoIndex V}
    (hnode : u.heap p = some node) (hop : u.modify p m = (.ok (), u')) :
    Modified u p node m u' := by
  by_cases ht : Touched u node
  · simp only [modify, hnode, onModify_of_touched hnode ht, assign] at hop
    split at hop
    · next secondary hpost =>
      obtain rfl := (Prod.mk.inj hop).2
      exact ⟨node.mtime, [], u.oldAlloc, secondary, rfl, hpost, .inl ⟨ht, rfl, rfl, rfl⟩⟩
    · next secondary hpost => simp at hop
  · simp only [modify, hnode, onModify_of_not_touched hnode ht, assign, Heap.set_self,
      Heap.set_set] at hop
    split at hop
    · next secondary hpost =>
      obtain rfl := (Prod.mk.inj hop).2
      exact ⟨u.monotonicRevision, [⟨u.oldAlloc, node.item, node.mtime, p⟩], u.oldAlloc + 1,
        secondary, rfl, hpost, .inr ⟨ht, rfl, rfl, rfl⟩⟩
    · next secondary hpost => simp at hop

/-- **Modify** of a visible row to a value that no index refuses. -/
theorem Refines.modify (h : Refines comps u t) {p : Nat} {m : V → V} {u' : UndoIndex V}
    (hp : p ∈ u.byId) (hop : u.modify p m = (.ok (), u')) :
    Refines comps u' { t with current := t.current.modify p m } := by
  have hs := h.store
  obtain ⟨node, hnode⟩ := hs.isSome_of_mem hp
  obtain ⟨mtime, olds, alloc, secondary, hu', hpost, hcases⟩ := (UndoIndex.modify_ok hnode hop).result
  have hok := hs.node p node hnode
  have hlive : u.content.live p = true := (u.content_live p).mpr hp
  have hval : u.content.vals p = some (node.item.value, node.mtime) := by
    rw [u.content_vals, hnode]
    rfl
  have hle : mtime ≤ u.monotonicRevision := by
    rcases hcases with ⟨-, rfl, -, -⟩ | ⟨-, rfl, -, -⟩
    · exact hok.mtime
    · exact Nat.le_refl _
  have hcontent : u'.content = u.content.write p (m node.item.value, mtime) := by
    subst hu'
    exact u.content_write _ p { node with item := ⟨node.item.id, m node.item.value⟩, mtime }
      rfl rfl rfl rfl
  have hitem : ∀ q ∈ u.byId, q ≠ p → u'.heap.item q = u.heap.item q := by
    subst hu'
    exact fun q _ hne => u.heap.item_set_other _ hne
  have hord : Ordered comps u'.heap u.byId secondary :=
    postModify_ordered hs.byId_nodup hp hs.indices.comps
      (fun set hset => (hs.indices.each set hset).but hs.byId_nodup hitem) hpost
  subst hu'
  refine ⟨⟨fun q => ?_, ?_, hs.byId_sorted, hs.disjoint, hs.removed_nodup, ?_, ?_, hord⟩,
    ?_, ?_, h.revision, h.numbered⟩
  · rw [Heap.set_isSome, hs.dom]
    refine ⟨?_, .inr⟩
    rintro (rfl | hq)
    · exact .inl hp
    · exact hq
  · refine Heap.forall_set ⟨hok.item_id, hok.erased, hle, hok.lt_next⟩ fun q n _ hq => ?_
    exact hs.node q n hq
  · rcases hcases with ⟨-, -, rfl, rfl⟩ | ⟨-, -, rfl, rfl⟩
    · exact hs.addr_nodup
    · refine List.nodup_cons.mpr ⟨fun hmem => ?_, hs.addr_nodup⟩
      obtain ⟨old, hold, heq⟩ := List.mem_map.mp hmem
      exact absurd (hs.addr_lt old hold) (heq ▸ Nat.lt_irrefl _)
  · rcases hcases with ⟨-, -, rfl, rfl⟩ | ⟨-, -, rfl, rfl⟩
    · exact hs.addr_lt
    · exact List.forall_mem_cons.mpr ⟨Nat.lt_succ_self _,
        fun old hold => Nat.lt_succ_of_lt (hs.addr_lt old hold)⟩
  · rw [hcontent]
    refine h.history.push olds [] fun s olds₁ removed₁ hstack session => ?_
    -- touched: the backup is there already, or the row is new; else this one is the first
    rcases hcases with ⟨ht, rfl, rfl, -⟩ | ⟨ht, rfl, rfl, -⟩
    · exact session.modify _ hlive hval (ht s hstack)
    · have hs : ¬ s.ctime ≤ node.mtime := fun hle' => ht fun s' hs' => by
        rw [hstack] at hs'
        exact Option.some.inj hs' ▸ hle'
      obtain rfl := hok.item_id
      exact session.backup _ hlive hval hs
  · rw [hcontent, Content.write_snapshot hlive hval, h.current]

/-- Modify succeeds when the new value makes no two rows equivalent. -/
theorem Refines.modify_of_distinct (h : Refines comps u t) {p : Nat} {m : V → V}
    (hp : p ∈ u.byId) (hdistinct : (t.current.modify p m).Distinct comps) :
    ∃ u', u.modify p m = (.ok (), u') := by
  have hs := h.store
  obtain ⟨node, hnode⟩ := hs.isSome_of_mem hp
  have hok := hs.node p node hnode
  have hpost : ∀ mtime, (postModify true
      (u.heap.set p (some { node with item := ⟨node.item.id, m node.item.value⟩, mtime })) p
      u.secondary).1 = true := by
    intro mtime
    have hother : ∀ q ∈ u.byId, q ≠ p → (u.heap.set p (some { node with
        item := ⟨node.item.id, m node.item.value⟩, mtime })).item q = u.heap.item q :=
      fun q _ hne => u.heap.item_set_other _ hne
    refine postModify_of_distinct hs.byId_nodup hp hs.indices.comps
      (fun set hset => (hs.indices.each set hset).but hs.byId_nodup hother) ?_
    refine RowsOf.distinct (fun q hq => ?_) hdistinct
    rw [← h.current]
    obtain ⟨v, hv, hqv⟩ := hs.rowsOf q hq
    -- the rows are those of the modified table
    by_cases hqp : q = p
    · subst hqp
      refine ⟨m v, ?_, ?_⟩
      · simp [Snapshot.modify, Snapshot.set, hv]
      · have hv' : node.item = ⟨q, v⟩ := by simpa [Heap.item, hnode] using hqv
        simp [Heap.item, hv']
    · refine ⟨v, ?_, ?_⟩
      · simp [Snapshot.modify, Snapshot.set, hqp, hv]
      · rw [hother q hq hqp, hqv]
  by_cases ht : Touched u node
  · simp only [UndoIndex.modify, hnode, UndoIndex.onModify_of_touched hnode ht, UndoIndex.assign]
    split
    · exact ⟨_, rfl⟩
    · next heq => exact absurd (hpost node.mtime) (by simp [heq])
  · simp only [UndoIndex.modify, hnode, UndoIndex.onModify_of_not_touched hnode ht,
      UndoIndex.assign, Heap.set_self, Heap.set_set]
    split
    · exact ⟨_, rfl⟩
    · next heq => exact absurd (hpost u.monotonicRevision) (by simp [heq])

/-! ## Remove -/

/-- The session at the top, if there is one, has created the row. -/
def Created (u : UndoIndex V) (p : Nat) : Prop :=
  ∀ s, u.undoStack.head? = some s → s.oldNextId ≤ p

theorem Heap.set_none_isSome {heap : Heap V} {p q : Nat} :
    (heap.set p none q).isSome ↔ q ≠ p ∧ (heap q).isSome := by
  by_cases h : q = p
  · simp [h]
  · simp [heap.set_other _ h, h]

theorem Heap.set_none_some {heap : Heap V} {p q : Nat} {node : Node V}
    (h : heap.set p none q = some node) : q ≠ p ∧ heap q = some node := by
  by_cases hq : q = p
  · simp [hq] at h
  · exact ⟨hq, (heap.set_other none hq).symm.trans h⟩

theorem UndoIndex.remove_of_created {p : Nat} {node : Node V} (hnode : u.heap p = some node)
    (hid : node.item.id = p) (h : Created u p) :
    u.remove p = { u with
      heap := u.heap.set p none, byId := u.byId.erase p, secondary := eraseImpl p u.secondary } := by
  cases hstack : u.undoStack with
  | nil => simp [remove, onRemove, hstack, disposeNode]
  | cons s stack =>
    have hs : s.oldNextId ≤ p := h s (by rw [hstack]; rfl)
    simp [remove, onRemove, hstack, hnode, hid, hs, disposeNode]

theorem UndoIndex.remove_of_not_created {p : Nat} {node : Node V} (hnode : u.heap p = some node)
    (hid : node.item.id = p) (h : ¬ Created u p) :
    u.remove p = { u with
      heap := u.heap.set p (some { node with erased := true }), byId := u.byId.erase p
      secondary := eraseImpl p u.secondary, removedValues := p :: u.removedValues } := by
  cases hstack : u.undoStack with
  | nil => exact absurd (fun s hs => by rw [hstack] at hs; cases hs) h
  | cons s stack =>
    have hs : ¬ s.oldNextId ≤ p := fun hle => h fun s' hs' => by
      rw [hstack] at hs'
      exact Option.some.inj hs' ▸ hle
    simp [remove, onRemove, hstack, hnode, hid, hs]

/-- **Remove** of a visible row. -/
theorem Refines.remove (h : Refines comps u t) {p : Nat} (hp : p ∈ u.byId) :
    Refines comps (u.remove p) { t with current := t.current.remove p } := by
  have hs := h.store
  obtain ⟨node, hnode⟩ := hs.isSome_of_mem hp
  have hok := hs.node p node hnode
  have hmem : ∀ q, q ∈ u.byId.erase p ↔ q ≠ p ∧ q ∈ u.byId := fun q => hs.byId_nodup.mem_erase_iff
  have hpr := hs.disjoint p hp
  have hord : ∀ heap' : Heap V, (∀ q, q ≠ p → heap'.item q = u.heap.item q) →
      Ordered comps heap' (u.byId.erase p) (eraseImpl p u.secondary) := fun heap' heq =>
    (eraseImpl_ordered hs.indices p).congr fun q hq => heq q ((hmem q).mp hq).1
  -- a row of this session is destroyed, an older one is kept in the removed list
  by_cases hc : Created u p
  · rw [UndoIndex.remove_of_created hnode hok.item_id hc]
    have hcontent : UndoIndex.content { u with
        heap := u.heap.set p none, byId := u.byId.erase p, secondary := eraseImpl p u.secondary } =
          u.content.destroy p := by
      refine Content.ext (funext fun id => ?_) (funext fun id => ?_) rfl rfl
      · by_cases hid : id = p
        · simp [UndoIndex.content_vals, Content.destroy, hid]
        · simp [UndoIndex.content_vals, Content.destroy, hid, u.heap.set_other _ hid, Content.hide]
      · by_cases hid : id = p <;>
          simp [UndoIndex.content, Content.destroy, Content.hide, hmem, hid]
    refine ⟨⟨fun q => ?_, fun q n hq => ?_, hs.byId_sorted.sublist List.erase_sublist,
      fun q hq => hs.disjoint q ((hmem q).mp hq).2, hs.removed_nodup, hs.addr_nodup, hs.addr_lt,
      hord _ fun q hne => u.heap.item_set_other _ hne⟩, ?_, ?_, h.revision, h.numbered⟩
    · rw [Heap.set_none_isSome, hs.dom, hmem]
      constructor
      · rintro ⟨hne, hq | hq⟩
        · exact .inl ⟨hne, hq⟩
        · exact .inr hq
      · rintro (⟨hne, hq⟩ | hq)
        · exact ⟨hne, .inl hq⟩
        · exact ⟨fun heq => hpr (heq ▸ hq), .inr hq⟩
    · exact hs.node q n (Heap.set_none_some hq).2
    · rw [hcontent]
      exact h.history.push [] [] fun s _ _ hstack session => session.destroy (hc s hstack)
    · rw [hcontent, Content.destroy_snapshot, h.current]
  · rw [UndoIndex.remove_of_not_created hnode hok.item_id hc]
    have hitem : ∀ q, q ≠ p →
        (u.heap.set p (some { node with erased := true })).item q = u.heap.item q :=
      fun q hne => u.heap.item_set_other _ hne
    have hcontent : UndoIndex.content { u with
        heap := u.heap.set p (some { node with erased := true }), byId := u.byId.erase p
        secondary := eraseImpl p u.secondary, removedValues := p :: u.removedValues } =
          u.content.hide p := by
      refine Content.ext (funext fun id => ?_) (funext fun id => ?_) rfl rfl
      · rw [UndoIndex.content_vals, Heap.vals_set]
        by_cases hid : id = p
        · subst hid
          simp [Content.hide, u.content_vals, hnode]
        · simp [Content.hide, u.content_vals, hid]
      · by_cases hid : id = p <;> simp [UndoIndex.content, Content.hide, hmem, hid]
    refine ⟨⟨fun q => ?_, ?_, hs.byId_sorted.sublist List.erase_sublist, fun q hq => ?_,
      List.nodup_cons.mpr ⟨hpr, hs.removed_nodup⟩, hs.addr_nodup, hs.addr_lt, hord _ hitem⟩, ?_, ?_,
      h.revision, h.numbered⟩
    · rw [Heap.set_isSome, hs.dom, hmem, List.mem_cons]
      by_cases hqp : q = p <;> simp [hqp]
    · refine Heap.forall_set ⟨hok.item_id, iff_of_true rfl List.mem_cons_self, hok.mtime,
        hok.lt_next⟩ fun q n hne hq => ?_
      obtain ⟨hid, herased, hm, hlt⟩ := hs.node q n hq
      exact ⟨hid, herased.trans (by rw [List.mem_cons]; simp [hne]), hm, hlt⟩
    · obtain ⟨hne, hq⟩ := (hmem q).mp hq
      rw [List.mem_cons, not_or]
      exact ⟨hne, hs.disjoint q hq⟩
    · rw [hcontent]
      refine h.history.push [] [p] fun s _ _ hstack session => ?_
      have hlt : p < s.oldNextId := Nat.not_le.mp fun hle => hc fun s' hs' => by
        rw [hstack] at hs'
        exact Option.some.inj hs' ▸ hle
      exact session.remove hlt ((u.content_live p).mpr hp)
    · rw [hcontent, Content.hide_snapshot, h.current]

/-! ## Start, set_revision -/

/-- **Start** of a session. -/
theorem Refines.addSession (h : Refines comps u t) : Refines comps u.addSession t.startSession := by
  have hs := h.store
  refine ⟨⟨hs.dom, fun q n hq => ?_, hs.byId_sorted, hs.disjoint, hs.removed_nodup, hs.addr_nodup,
    hs.addr_lt, hs.indices⟩, ?_, h.current, congrArg (· + 1) h.revision, rfl, ?_⟩
  · obtain ⟨hid, herased, hm, hlt⟩ := hs.node q n hq
    exact ⟨hid, herased, Nat.le_succ_of_le hm, hlt⟩
  · have hvals : ∀ id, u.nextId ≤ id → u.heap id = none := by
      intro id hid
      cases hnode : u.heap id with
      | none => rfl
      | some node => exact absurd (hs.node id node hnode).lt_next (Nat.not_lt.mpr hid)
    let s : UndoState :=
      { oldValuesEnd := u.oldValues.head?.map OldNode.addr
        removedValuesEnd := u.removedValues.head?
        oldNextId := u.nextId
        ctime := u.monotonicRevision + 1 }
    have hrewind : u.addSession.content.rewind s [] [] =
        { u.content with clock := u.monotonicRevision + 1 } := by
      refine Content.rewind_start rfl (fun id hid => ?_) fun id hid => ?_
      · rw [UndoIndex.content_vals]
        exact congrArg _ (hvals id hid)
      · exact hs.lt_next (.inl ((u.addSession.content_live id).mp hid))
    have hsnap : t.current = (u.addSession.content.rewind s [] []).snapshot := by
      rw [hrewind, ← h.current]
      rfl
    show History comps (s :: u.undoStack) ([] ++ u.oldValues) ([] ++ u.removedValues)
      u.addSession.content (t.current :: t.copies.map Copy.table)
    rw [hsnap]
    -- the new session has touched nothing: every time is before it
    refine .cons (SessionOk.start rfl (Nat.le_refl _) fun id v m hlive hval => ?_) rfl rfl
      (fun id hid => hs.lt_next (.inr hid)) ?_ ?_
    · have hid := (u.addSession.content_live id).mp hlive
      refine ⟨hs.lt_next (.inl hid), ?_⟩
      obtain ⟨node, hnode⟩ := hs.isSome_of_mem hid
      have hm : some (node.item.value, node.mtime) = some (v, m) := by
        rw [← hval, UndoIndex.content_vals, show u.addSession.heap id = some node from hnode]
        rfl
      obtain rfl : node.mtime = m := (Prod.mk.inj (Option.some.inj hm)).2
      exact Nat.lt_succ_of_le (hs.node id node hnode).mtime
    · rw [← hsnap, ← h.current]
      exact hs.snapshot_distinct
    · rw [hrewind]
      exact h.history.tick (Nat.le_succ _)
  · rw [show t.startSession.revision - 1 = t.revision from Int.add_sub_cancel _ _]
    exact h.numbered

/-- **set_revision** without sessions. -/
theorem Refines.setRevision (h : Refines comps u t) {revision : Nat} {u' : UndoIndex V}
    (hop : u.setRevision revision = .ok u') :
    t.copies = [] ∧ Refines comps u' { t with revision } := by
  have hs := h.store
  simp only [UndoIndex.setRevision] at hop
  split at hop
  · cases hop
  · next hlen =>
    split at hop
    · cases hop
    · split at hop
      · cases hop
      · obtain rfl := Except.ok.inj hop
        have hstack : u.undoStack = [] := List.eq_nil_of_length_eq_zero (not_not.mp hlen)
        have hhist := h.history
        rw [hstack] at hhist
        have hcopies : t.copies = [] := by
          generalize hsnaps : t.copies.map Copy.table = snaps at hhist
          cases hhist
          exact List.map_eq_nil_iff.mp hsnaps
        refine ⟨hcopies, hs.setStack u.undoStack revision, h.history, h.current, rfl, ?_⟩
        show Numbered revision t.copies
        rw [hcopies]
        trivial

end Operations

end Microchain.Chainbase
