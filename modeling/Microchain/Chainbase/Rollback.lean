import Microchain.Chainbase.UndoIndexInv

/-!
# Undo, squash and commit of an `undo_index`

The operations that take the undo lists apart. Each is followed through its loops
over a session's part of the lists, and then shown to carry the refinement relation
of `UndoIndexInv` over:

- `Refines.undo`: the rows are those of the newest copy again.
- `Refines.squash`, `Refines.commit`: the rows stay and copies are dropped.
-/

namespace Microchain.Chainbase

open Microchain.Lib

variable {V : Type} {comps : List (OrderedUnique V)} {u : UndoIndex V} {t : SnapshotTable V}

/-! ## The session's part of the lists -/

/-- A list without repeated keys, cut at the key of the head of its second part. -/
theorem cut_append {α : Type} {key : α → Nat} {front : List α} {b : α} {back : List α}
    (hnodup : ((front ++ b :: back).map key).Nodup) :
    (front ++ b :: back).takeWhile (fun x => key x != key b) = front ∧
      (front ++ b :: back).dropWhile (fun x => key x != key b) = b :: back := by
  have hne : ∀ x ∈ front, (key x != key b) = true := by
    intro x hx
    rw [List.map_append] at hnodup
    simpa using (List.nodup_append.mp hnodup).2.2 (key x) (List.mem_map_of_mem hx) (key b)
      (List.mem_map_of_mem List.mem_cons_self)
  constructor
  · rw [List.takeWhile_append_of_pos hne]
    simp
  · rw [List.dropWhile_append_of_pos hne]
    simp

theorem UndoIndex.cutOldValues_eq {s : UndoState} {olds rest : List (OldNode V)}
    (hlist : u.oldValues = olds ++ rest) (hnodup : (u.oldValues.map OldNode.addr).Nodup)
    (hend : s.oldValuesEnd = rest.head?.map OldNode.addr) : u.cutOldValues s = (olds, rest) := by
  cases rest with
  | nil =>
    rw [cutOldValues, hend, hlist]
    exact Prod.ext (List.append_nil _) rfl
  | cons b back =>
    rw [hlist] at hnodup
    rw [cutOldValues, hend, hlist]
    exact Prod.ext (cut_append hnodup).1 (cut_append hnodup).2

theorem UndoIndex.cutRemovedValues_eq {s : UndoState} {removed rest : List Nat}
    (hlist : u.removedValues = removed ++ rest) (hnodup : u.removedValues.Nodup)
    (hend : s.removedValuesEnd = rest.head?) : u.cutRemovedValues s = (removed, rest) := by
  cases rest with
  | nil =>
    rw [cutRemovedValues, hend, hlist]
    exact Prod.ext (List.append_nil _) rfl
  | cons b back =>
    rw [hlist, ← List.map_id (removed ++ b :: back)] at hnodup
    rw [cutRemovedValues, hend, hlist]
    exact Prod.ext (cut_append hnodup).1 (cut_append hnodup).2

/-! ## Destroying nodes -/

/-- The heap without the nodes `ps`. -/
def Heap.without (heap : Heap V) (ps : List Nat) : Heap V :=
  fun q => if q ∈ ps then none else heap q

theorem foldl_disposeNode (ps : List Nat) (u : UndoIndex V) :
    ps.foldl UndoIndex.disposeNode u = { u with heap := u.heap.without ps } := by
  induction ps generalizing u with
  | nil =>
    have hwithout : u.heap.without [] = u.heap := funext fun q => by simp [Heap.without]
    rw [hwithout]
    rfl
  | cons p ps ih =>
    rw [List.foldl_cons, ih, UndoIndex.disposeNode]
    simp only [UndoIndex.mk.injEq, and_true]
    funext q
    by_cases hp : q = p <;> by_cases hps : q ∈ ps <;> simp [Heap.without, Heap.set, hp, hps]

theorem Heap.without_some {heap : Heap V} {ps : List Nat} {q : Nat} {node : Node V}
    (h : heap.without ps q = some node) : q ∉ ps ∧ heap q = some node := by
  by_cases hq : q ∈ ps
  · simp [without, hq] at h
  · exact ⟨hq, by simpa [without, hq] using h⟩

theorem Heap.without_of_not_mem {heap : Heap V} {ps : List Nat} {q : Nat} (h : q ∉ ps) :
    heap.without ps q = heap q := if_neg h

theorem Heap.item_without {heap : Heap V} {ps : List Nat} {q : Nat} (h : q ∉ ps) :
    (heap.without ps).item q = heap.item q := by
  rw [Heap.item, Heap.without_of_not_mem h, Heap.item]

/-- Destroying removed nodes and forgetting them keeps the table in order. -/
theorem Store.dispose (h : Store comps u) {olds : List (OldNode V)} {kept gone : List Nat}
    (holds : olds.Sublist u.oldValues) (hkept : kept.Sublist u.removedValues)
    (hgone : ∀ p, p ∈ gone ↔ p ∈ u.removedValues ∧ p ∉ kept) (revision : Int)
    (undoStack : List UndoState) :
    Store comps { u with
      heap := u.heap.without gone, oldValues := olds, removedValues := kept, revision, undoStack } := by
  refine ⟨fun q => ?_, fun q n hq => ?_, h.byId_sorted, fun q hq => ?_,
    h.removed_nodup.sublist hkept, h.addr_nodup.sublist (holds.map _),
    fun old hold => h.addr_lt old (holds.subset hold), h.indices.congr fun q hq => ?_⟩
  · show (u.heap.without gone q).isSome ↔ q ∈ u.byId ∨ q ∈ kept
    by_cases hq : q ∈ gone
    · obtain ⟨hr, hk⟩ := (hgone q).mp hq
      simp only [Heap.without, hq, if_true, hk, or_false]
      exact iff_of_false (by simp) fun hb => h.disjoint q hb hr
    · rw [Heap.without_of_not_mem hq, h.dom]
      refine or_congr_right ⟨fun hr => ?_, fun hk => hkept.subset hk⟩
      by_contra hk
      exact hq ((hgone q).mpr ⟨hr, hk⟩)
  · obtain ⟨hq', hq⟩ := Heap.without_some hq
    obtain ⟨hid, herased, hm, hlt⟩ := h.node q n hq
    refine ⟨hid, herased.trans ⟨fun hr => ?_, fun hk => hkept.subset hk⟩, hm, hlt⟩
    by_contra hk
    exact hq' ((hgone q).mpr ⟨hr, hk⟩)
  · exact fun hk => h.disjoint q hq (hkept.subset hk)
  · exact Heap.item_without fun hg => h.disjoint q hq ((hgone q).mp hg).1

theorem UndoIndex.content_without (u : UndoIndex V) (gone : List Nat)
    (olds : List (OldNode V)) (kept : List Nat) (revision : Int) (undoStack : List UndoState) :
    UndoIndex.content { u with
      heap := u.heap.without gone, oldValues := olds, removedValues := kept, revision, undoStack } =
        u.content.forget gone := by
  refine Content.ext (funext fun id => ?_) rfl rfl rfl
  simp only [content_vals, Content.forget, Heap.without]
  split <;> rfl

/-! ## Commit -/

theorem Numbered.filter {revision : Int} {copies : List (Copy V)} (h : Numbered revision copies)
    (r : Int) :
    copies.filter (fun copy => decide (r < copy.revision)) = copies.take (revision - r).toNat := by
  induction copies generalizing revision with
  | nil => simp
  | cons copy copies ih =>
    obtain ⟨hrev, hrest⟩ := h
    by_cases hr : r < revision
    · have hk : (revision - r).toNat = (revision - 1 - r).toNat + 1 := by omega
      rw [List.filter_cons_of_pos (by simpa [hrev] using hr), ih hrest, hk, List.take_succ_cons]
    · have hk : (revision - r).toNat = 0 := by omega
      have hk' : (revision - 1 - r).toNat = 0 := by omega
      rw [List.filter_cons_of_neg (by simpa [hrev] using hr), ih hrest, hk, hk', List.take_zero,
        List.take_zero]

theorem Numbered.take {revision : Int} {copies : List (Copy V)} (h : Numbered revision copies)
    (k : Nat) : Numbered revision (copies.take k) := by
  induction copies generalizing revision k with
  | nil => simpa using h
  | cons copy copies ih =>
    cases k with
    | zero => trivial
    | succ k => exact ⟨h.1, ih h.2 k⟩

theorem History.length_eq {stack : List UndoState} {olds : List (OldNode V)} {removed : List Nat}
    {c : Content V} {snaps : List (Snapshot V)} (h : History comps stack olds removed c snaps) :
    stack.length = snaps.length := by
  induction h with
  | nil => rfl
  | cons _ _ _ _ _ _ ih => simp [ih]

/-- The undo stack holds one session for each copy. -/
theorem Refines.length_eq (h : Refines comps u t) : u.undoStack.length = t.copies.length := by
  simpa using h.history.length_eq

theorem Refines.disposeUndo (h : Refines comps u t) (revision : Int) :
    Refines comps { u.disposeUndo with undoStack := [], revision }
      { t with copies := [], revision } := by
  have hs := h.store
  have hgone : ∀ p, p ∈ u.removedValues ↔ p ∈ u.removedValues ∧ p ∉ ([] : List Nat) := by simp
  simp only [UndoIndex.disposeUndo, foldl_disposeNode]
  refine ⟨hs.dispose (List.nil_sublist _) (List.nil_sublist _) hgone _ _, .nil _ _ _, ?_, rfl,
    trivial⟩
  rw [u.content_without, Content.forget_snapshot, h.current]
  exact fun id hid => Bool.eq_false_iff.mpr fun hl =>
    hs.disjoint id ((u.content_live id).mp hl) hid

/-- **Commit** drops the copies of the sessions up to the revision. -/
theorem Refines.commit (h : Refines comps u t) (r : Int) :
    Refines comps (u.commit r) (t.commit r) := by
  have hs := h.store
  rw [SnapshotTable.commit, h.numbered.filter r]
  simp only [UndoIndex.commit]
  split
  · next hr =>
    -- up to the current revision: no session is left, and no copy
    have hk : (t.revision - r).toNat = 0 := by
      rw [h.revision] at hr
      omega
    have hrev : u.disposeUndo.revision = u.revision := by
      rw [UndoIndex.disposeUndo, foldl_disposeNode]
    rw [hk, List.take_zero, hrev, h.revision]
    exact h.disposeUndo t.revision
  · next hr =>
    have hk : (u.revision - min r u.revision).toNat = (t.revision - r).toNat := by
      rw [h.revision] at hr ⊢
      omega
    rw [hk]
    have hpos : (t.revision - r).toNat = (t.revision - r).toNat - 1 + 1 := by
      rw [h.revision] at hr
      omega
    split
    · next hlen =>
      -- the oldest session that stays remembers where the lists are cut
      have hlt : (t.revision - r).toNat - 1 < u.undoStack.length := by omega
      rw [List.getElem?_eq_getElem hlt]
      obtain ⟨oldsA, oldsB, removedA, removedB, holds, hremoved, hold_end, hremoved_end, hhist⟩ :=
        h.history.truncate hs.nodes (List.getElem?_eq_getElem hlt)
      rw [← hpos] at hhist
      have hgone : ∀ p, p ∈ removedB.tail ↔
          p ∈ u.removedValues ∧ p ∉ removedA ++ removedB.take 1 := by
        have hnodup := hs.removed_nodup
        rw [hremoved] at hnodup ⊢
        intro p
        cases removedB with
        | nil => simp
        | cons b back =>
          obtain ⟨-, hb, hdisj⟩ := List.nodup_append.mp hnodup
          simp only [List.tail_cons, List.take_succ_cons, List.take_zero, List.mem_append,
            List.mem_cons, List.not_mem_nil, or_false]
          have hpb : p ∈ back → p ≠ b := fun hp heq => (List.nodup_cons.mp hb).1 (heq ▸ hp)
          have hpa : p ∈ back → p ∉ removedA := fun hp ha =>
            hdisj p ha p (List.mem_cons_of_mem _ hp) rfl
          tauto
      simp only [UndoIndex.dispose, UndoIndex.cutOldValues_eq holds hs.addr_nodup hold_end,
        UndoIndex.cutRemovedValues_eq hremoved hs.removed_nodup hremoved_end, foldl_disposeNode]
      refine ⟨hs.dispose ?_ ?_ hgone _ _, ?_, ?_, h.revision, h.numbered.take _⟩
      · rw [holds]
        exact (List.Sublist.refl oldsA).append (List.take_sublist 1 oldsB)
      · rw [hremoved]
        exact (List.Sublist.refl removedA).append (List.take_sublist 1 removedB)
      · rw [u.content_without, List.map_take]
        exact hhist
      · rw [u.content_without, Content.forget_snapshot, h.current]
        exact fun id hid => Bool.eq_false_iff.mpr fun hl =>
          hs.disjoint id ((u.content_live id).mp hl) ((hgone id).mp hid).1
    · next hlen =>
      -- an older revision than any session: nothing to drop
      rw [List.take_of_length_le (by rw [← h.length_eq]; omega)]
      exact h

/-! ## Squash -/

/-- The flag that marks a removed node. -/
def Heap.isErased (heap : Heap V) (p : Nat) : Bool := (heap p).any Node.erased

/-- The heap after the values of `olds` that satisfy `moved` were put into their
nodes. -/
def Heap.restore (heap : Heap V) (olds : List (OldNode V)) (moved : OldNode V → Bool) : Heap V :=
  fun p =>
    match Content.backup olds p with
    | some old =>
      if moved old then
        (heap p).map fun node => { node with item := old.item, mtime := old.mtime }
      else heap p
    | none => heap p

theorem Heap.restore_cons_of_moved {heap : Heap V} {old : OldNode V} {olds : List (OldNode V)}
    {moved : OldNode V → Bool} {node : Node V} (hnode : heap old.current = some node)
    (hmoved : moved old = true) (hnot : old.current ∉ olds.map OldNode.current) :
    heap.restore (old :: olds) moved =
      (heap.set old.current (some { node with item := old.item, mtime := old.mtime })).restore olds
        moved := by
  funext p
  rw [restore, restore, Content.backup_cons]
  by_cases hp : p = old.current
  · subst hp
    rw [if_pos rfl, Content.backup_eq_none.mpr hnot]
    simp only [hmoved, if_true, hnode, Option.map_some, Heap.set_self]
  · rw [if_neg hp, heap.set_other _ hp]

theorem Heap.restore_cons_of_not_moved {heap : Heap V} {old : OldNode V}
    {olds : List (OldNode V)} {moved : OldNode V → Bool} (hmoved : moved old = false)
    (hnot : old.current ∉ olds.map OldNode.current) :
    heap.restore (old :: olds) moved = heap.restore olds moved := by
  funext p
  rw [restore, restore, Content.backup_cons]
  by_cases hp : p = old.current
  · subst hp
    rw [if_pos rfl, Content.backup_eq_none.mpr hnot]
    simp [hmoved]
  · rw [if_neg hp]

/-- Moving values keeps the flags. -/
theorem Heap.isErased_set {heap : Heap V} {p : Nat} {node : Node V} (hnode : heap p = some node)
    (item : Object V) (mtime : Nat) :
    (heap.set p (some { node with item, mtime })).isErased = heap.isErased := by
  funext q
  by_cases hq : q = p
  · subst hq
    simp [isErased, hnode]
  · simp [isErased, heap.set_other _ hq]

/-- What `compress_impl` leaves of the old values of the last session. -/
theorem compressOld_eq (sessionStart : Nat) (heap : Heap V) (olds : List (OldNode V))
    (hnodup : (olds.map OldNode.current).Nodup)
    (hsome : ∀ old ∈ olds, (heap old.current).isSome) :
    UndoIndex.compressOld sessionStart heap olds =
      (heap.restore olds fun old => decide (old.mtime < sessionStart) && heap.isErased old.current,
        olds.filter fun old =>
          decide (old.mtime < sessionStart) && !heap.isErased old.current) := by
  -- no two backups are of one row, so what the first moves the others do not see
  induction olds generalizing heap with
  | nil => rfl
  | cons old olds ih =>
    obtain ⟨hnot, hnodup⟩ := List.nodup_cons.mp hnodup
    obtain ⟨hold, holds⟩ := List.forall_mem_cons.mp hsome
    obtain ⟨node, hnode⟩ := Option.isSome_iff_exists.mp hold
    have herased : heap.isErased old.current = node.erased := by simp [Heap.isErased, hnode]
    rw [UndoIndex.compressOld]
    split
    · next hm =>
      have hm' : decide (old.mtime < sessionStart) = false := decide_eq_false (by omega)
      rw [ih heap hnodup holds, Heap.restore_cons_of_not_moved (by simp [hm']) hnot,
        List.filter_cons_of_neg (by simp [hm'])]
    · next hm =>
      have hm' : decide (old.mtime < sessionStart) = true := decide_eq_true (by omega)
      simp only [hnode]
      cases hflag : node.erased with
      | true =>
        have hset := Heap.isErased_set hnode old.item old.mtime
        rw [if_pos rfl, ← hflag, ih _ hnodup fun o ho => Heap.set_isSome.mpr (.inr (holds o ho)),
          hset, Heap.restore_cons_of_moved hnode (by simp [hm', herased, hflag]) hnot,
          List.filter_cons_of_neg (by simp [hm', herased, hflag])]
      | false =>
        rw [if_neg (by simp), ih heap hnodup holds,
          Heap.restore_cons_of_not_moved (by simp [herased, hflag]) hnot,
          List.filter_cons_of_pos (by simp [hm', herased, hflag])]

theorem Heap.restore_isSome (heap : Heap V) (olds : List (OldNode V)) (moved : OldNode V → Bool)
    (p : Nat) : (heap.restore olds moved p).isSome = (heap p).isSome := by
  rw [restore]
  split
  · split <;> simp
  · rfl

/-- Moving values keeps ids and flags, and the times within bounds. -/
theorem NodeOk.restore {heap : Heap V} {removedValues : List Nat} {clock nextId : Nat}
    {olds : List (OldNode V)} (moved : OldNode V → Bool)
    (hnode : ∀ p n, heap p = some n → NodeOk removedValues clock nextId p n)
    (hid : ∀ old ∈ olds, old.item.id = old.current) (hmtime : ∀ old ∈ olds, old.mtime ≤ clock) :
    ∀ p n, heap.restore olds moved p = some n → NodeOk removedValues clock nextId p n := by
  intro p n hp
  rw [Heap.restore] at hp
  split at hp
  · next old hold =>
    obtain ⟨hmem, rfl⟩ := Content.backup_mem hold
    split at hp
    · obtain ⟨m, hm, rfl⟩ := Option.map_eq_some_iff.mp hp
      obtain ⟨-, herased, -, hlt⟩ := hnode _ m hm
      exact ⟨hid old hmem, herased, hmtime old hmem, hlt⟩
    · exact hnode _ n hp
  · exact hnode _ n hp

/-- A backup of a session is older than the table. -/
theorem SessionOk.old_mtime_le {s : UndoState} {olds : List (OldNode V)} {removed : List Nat}
    (h : SessionOk u.content s olds removed) :
    ∀ old ∈ olds, old.mtime ≤ u.monotonicRevision := fun old hold =>
  Nat.le_of_lt (Nat.lt_of_lt_of_le (h.old_mtime old hold) h.ctime_le)

/-- The nodes of the rows that a session backed up are there. -/
theorem Store.old_isSome (h : Store comps u) {s : UndoState} {olds : List (OldNode V)}
    {removed rest : List Nat} (hs : SessionOk u.content s olds removed)
    (hremoved : u.removedValues = removed ++ rest) :
    ∀ old ∈ olds, (u.heap old.current).isSome := by
  intro old hold
  refine (h.dom _).mpr ((hs.old_mem old hold).imp (u.content_live _).mp fun hr => ?_)
  rw [hremoved]
  exact List.mem_append_left _ hr

/-- A node that is there is visible or marked as removed. -/
theorem Store.isErased_iff (h : Store comps u) {p : Nat} (hp : (u.heap p).isSome) :
    u.heap.isErased p = !u.content.live p := by
  obtain ⟨node, hnode⟩ := Option.isSome_iff_exists.mp hp
  have herased := (h.node p node hnode).erased
  have hdom := (h.dom p).mp hp
  have hlive := u.content_live p
  have hdisj := h.disjoint p
  cases hl : u.content.live p <;> cases he : node.erased <;>
    simp_all [Heap.isErased]

/-- Moving values of removed rows keeps the table in order. -/
theorem Store.restore (h : Store comps u) {olds : List (OldNode V)} (moved : OldNode V → Bool)
    (hid : ∀ old ∈ olds, old.item.id = old.current)
    (hmtime : ∀ old ∈ olds, old.mtime ≤ u.monotonicRevision)
    (hmoved : ∀ old ∈ olds, old.current ∈ u.byId → moved old = false) :
    Store comps { u with heap := u.heap.restore olds moved } := by
  refine ⟨fun q => ?_, NodeOk.restore moved h.node hid hmtime, h.byId_sorted, h.disjoint, h.removed_nodup,
    h.addr_nodup, h.addr_lt, h.indices.congr fun q hq => ?_⟩
  · rw [Heap.restore_isSome]
    exact h.dom q
  · show (u.heap.restore olds moved q).map Node.item = (u.heap q).map Node.item
    rw [Heap.restore]
    split
    · next old hold =>
      obtain ⟨hmem, rfl⟩ := Content.backup_mem hold
      simp [hmoved old hmem hq]
    · rfl

/-- What `compress_impl` leaves of a table, for lists cut at the last session. -/
def UndoIndex.compressed (u : UndoIndex V) (session : UndoState) (olds oldRest : List (OldNode V))
    (removed removedRest : List Nat) : UndoIndex V :=
  { u with
    heap := (u.heap.restore olds fun old =>
      decide (old.mtime < session.ctime) && !u.content.live old.current).without
        (removed.filter (session.oldNextId ≤ ·))
    oldValues := u.content.keptOlds session olds ++ oldRest
    removedValues := removed.filter (· < session.oldNextId) ++ removedRest }

section Compress

variable {s₁ s₂ : UndoState} {olds oldRest : List (OldNode V)} {removed removedRest : List Nat}

theorem Store.compressImpl_eq (h : Store comps u)
    (holds : u.oldValues = olds ++ oldRest) (hremoved : u.removedValues = removed ++ removedRest)
    (hold_end : s₂.oldValuesEnd = oldRest.head?.map OldNode.addr)
    (hremoved_end : s₂.removedValuesEnd = removedRest.head?)
    (session : SessionOk u.content s₂ olds removed) :
    u.compressImpl s₁ s₂ = u.compressed s₁ olds oldRest removed removedRest := by
  have hsome := h.old_isSome session hremoved
  have hmoved : (u.heap.restore olds fun old =>
      decide (old.mtime < s₁.ctime) && u.heap.isErased old.current) =
      u.heap.restore olds fun old =>
        decide (old.mtime < s₁.ctime) && !u.content.live old.current := by
    funext p
    rw [Heap.restore, Heap.restore]
    split
    · next old hold =>
      rw [h.isErased_iff (hsome old (Content.backup_mem hold).1)]
    · rfl
  have hkept : (olds.filter fun old =>
      decide (old.mtime < s₁.ctime) && !u.heap.isErased old.current) =
      u.content.keptOlds s₁ olds :=
    List.filter_congr fun old hold => by rw [h.isErased_iff (hsome old hold), Bool.not_not]
  have hnew : ∀ v : UndoIndex V, v.heap = u.heap.restore olds (fun old =>
      decide (old.mtime < s₁.ctime) && !u.content.live old.current) → ∀ p ∈ removed,
      v.isNew s₁.oldNextId p = decide (s₁.oldNextId ≤ p) := by
    intro v hv p hp
    have hpr : p ∈ u.removedValues := hremoved ▸ List.mem_append_left _ hp
    have hp' : (v.heap p).isSome := by
      rw [hv, Heap.restore_isSome]
      exact (h.dom p).mpr (.inr hpr)
    obtain ⟨node, hnode⟩ := Option.isSome_iff_exists.mp hp'
    rw [hv] at hnode
    have hok := NodeOk.restore _ h.node session.old_id session.old_mtime_le p node hnode
    simp [UndoIndex.isNew, Heap.item, hv, hnode, hok.item_id]
  have hgone : ∀ v : UndoIndex V, v.heap = u.heap.restore olds (fun old =>
      decide (old.mtime < s₁.ctime) && !u.content.live old.current) →
      removed.filter (v.isNew s₁.oldNextId) = removed.filter (s₁.oldNextId ≤ ·) :=
    fun v hv => List.filter_congr (hnew v hv)
  have hrest : ∀ v : UndoIndex V, v.heap = u.heap.restore olds (fun old =>
      decide (old.mtime < s₁.ctime) && !u.content.live old.current) →
      removed.filter (fun p => !v.isNew s₁.oldNextId p) = removed.filter (· < s₁.oldNextId) := by
    refine fun v hv => List.filter_congr fun p hp => ?_
    rw [hnew v hv p hp, ← decide_not]
    exact decide_eq_decide.mpr Nat.not_le
  rw [UndoIndex.compressImpl, UndoIndex.cutOldValues_eq holds h.addr_nodup hold_end,
    UndoIndex.cutRemovedValues_eq hremoved h.removed_nodup hremoved_end]
  simp only [compressOld_eq s₁.ctime u.heap olds session.old_nodup hsome, hmoved, hkept,
    foldl_disposeNode]
  rw [hgone _ rfl, hrest _ rfl]
  rfl

theorem UndoIndex.content_compressed (u : UndoIndex V) :
    (u.compressed s₁ olds oldRest removed removedRest).content =
      u.content.compress s₁ olds removed := by
  refine Content.ext (funext fun id => ?_) rfl rfl rfl
  simp only [compressed, content_vals, Content.compress, Heap.without, List.mem_filter,
    decide_eq_true_eq]
  split
  · rfl
  · rw [Heap.restore]
    cases hold : Content.backup olds id with
    | none => rfl
    | some old =>
      obtain ⟨-, rfl⟩ := Content.backup_mem hold
      simp only [Bool.and_eq_true, decide_eq_true_eq, Bool.not_eq_eq_eq_not, Bool.not_true]
      split <;> simp [Function.comp_def]

theorem Store.compressed (h : Store comps u)
    (holds : u.oldValues = olds ++ oldRest) (hremoved : u.removedValues = removed ++ removedRest)
    (hrest : ∀ id ∈ removedRest, id < s₁.oldNextId)
    (session : SessionOk u.content s₂ olds removed) :
    Store comps (u.compressed s₁ olds oldRest removed removedRest) := by
  have hmoved := h.restore
    (fun old => decide (old.mtime < s₁.ctime) && !u.content.live old.current)
    session.old_id session.old_mtime_le fun old _ hmem => by
      simp [(u.content_live old.current).mpr hmem]
  refine hmoved.dispose ?_ ?_ (fun p => ?_) u.revision u.undoStack
  · show (u.content.keptOlds s₁ olds ++ oldRest).Sublist u.oldValues
    rw [holds]
    exact List.filter_sublist.append (List.Sublist.refl _)
  · show (removed.filter (· < s₁.oldNextId) ++ removedRest).Sublist u.removedValues
    rw [hremoved]
    exact List.filter_sublist.append (List.Sublist.refl _)
  · show p ∈ removed.filter (s₁.oldNextId ≤ ·) ↔
      p ∈ u.removedValues ∧ p ∉ removed.filter (· < s₁.oldNextId) ++ removedRest
    have hp := hrest p
    simp only [hremoved, List.mem_filter, List.mem_append, decide_eq_true_eq, ← Nat.not_le]
    rw [← Nat.not_le] at hp
    tauto

end Compress

/-- **Squash** drops the newest copy. -/
theorem Refines.squash (h : Refines comps u t) : Refines comps u.squash t.squash := by
  have hs := h.store
  have hhist := h.history
  have hlen := h.length_eq
  rw [UndoIndex.squash, SnapshotTable.squash]
  match hstack : u.undoStack, hcopies : t.copies with
  | [], [] =>
    rw [UndoIndex.squashFast, hstack]
    exact h
  -- without a session before it there is nothing to restore to
  | [s], [copy] =>
    have hrev : u.disposeUndo.revision = u.revision := by
      rw [UndoIndex.disposeUndo, foldl_disposeNode]
    simp only [UndoIndex.squashFast, hstack]
    rw [h.revision]
    exact h.disposeUndo _
  | s₂ :: s₁ :: stack, copy₂ :: copy₁ :: copies =>
    have hnum := h.numbered
    rw [hcopies] at hnum hhist
    rw [hstack] at hhist
    obtain ⟨olds, oldRest, removed, removedRest, holds, hremoved, session₂, hold_end, hremoved_end,
      hrest_lt, -, -, hbefore⟩ := hhist.uncons
    obtain ⟨olds₁, oldRest₁, removed₁, removedRest₁, rfl, rfl, session₁, hold_end₁, hremoved_end₁,
      hrest_lt₁, htable, hdistinct, hbefore₁⟩ := hbefore.uncons
    have hdisj : ∀ id, u.content.live id = true → id ∉ removed := fun id hl hr =>
      hs.disjoint id ((u.content_live id).mp hl) (hremoved ▸ List.mem_append_left _ hr)
    have hsome : ∀ old ∈ olds, (u.content.vals old.current).isSome := fun old hold => by
      simpa [u.content_vals] using hs.old_isSome session₂ hremoved old hold
    -- rewinding the merged session goes back over both
    obtain ⟨session, hrewind⟩ := session₂.squash session₁ hsome hdisj
    have hstore : Store comps (u.compressed s₁ olds (olds₁ ++ oldRest₁) removed
        (removed₁ ++ removedRest₁)) := by
      refine hs.compressed holds hremoved (fun id hid => ?_) session₂
      exact (List.mem_append.mp hid).elim (session₁.removed_lt id) (hrest_lt₁ id)
    have hlast : u.compressImpl s₁ s₂ = _ :=
      hs.compressImpl_eq holds hremoved hold_end hremoved_end session₂
    simp only [hlast, UndoIndex.squashFast, show (u.compressed s₁ olds (olds₁ ++ oldRest₁) removed
      (removed₁ ++ removedRest₁)).undoStack = s₂ :: s₁ :: stack from hstack]
    refine ⟨hstore.setStack _ _, ?_, ?_, by rw [← h.revision]; rfl, hnum.2⟩
    · show History comps (s₁ :: stack) (u.content.keptOlds s₁ olds ++ (olds₁ ++ oldRest₁))
        (removed.filter (· < s₁.oldNextId) ++ (removed₁ ++ removedRest₁))
        (u.compressed s₁ olds (olds₁ ++ oldRest₁) removed (removed₁ ++ removedRest₁)).content
        (copy₁.table :: copies.map Copy.table)
      rw [htable, ← hrewind] at hdistinct ⊢
      rw [← hrewind] at hbefore₁
      rw [u.content_compressed, ← List.append_assoc, ← List.append_assoc]
      exact .cons session hold_end₁ hremoved_end₁ hrest_lt₁ hdistinct hbefore₁
    · show (u.compressed s₁ olds (olds₁ ++ oldRest₁) removed
        (removed₁ ++ removedRest₁)).content.snapshot = t.current
      rw [u.content_compressed, Content.compress_snapshot hdisj, h.current]
  | [], _ :: _ => simp [hstack, hcopies] at hlen
  | [_], [] => simp [hstack, hcopies] at hlen
  | [_], _ :: _ :: _ => simp [hstack, hcopies] at hlen
  | _ :: _ :: _, [] => simp [hstack, hcopies] at hlen
  | _ :: _ :: _, [_] => simp [hstack, hcopies] at hlen

/-! ## Undo -/

/-- The rows the session created leave the indices. -/
theorem foldl_undoNew (ps : List Nat) (u : UndoIndex V) (hids : u.byId.Nodup)
    (hord : Ordered comps u.heap u.byId u.secondary) :
    ∃ secondary, ps.foldl UndoIndex.undoNew u = { u with
        heap := u.heap.without ps, byId := u.byId.filter (!ps.contains ·), secondary } ∧
      Ordered comps (u.heap.without ps) (u.byId.filter (!ps.contains ·)) secondary := by
  induction ps generalizing u with
  | nil =>
    have hwithout : u.heap.without [] = u.heap := funext fun q => by simp [Heap.without]
    have hfilter : u.byId.filter (fun p => !([] : List Nat).contains p) = u.byId :=
      List.filter_eq_self.mpr (by simp)
    rw [hwithout, hfilter]
    exact ⟨u.secondary, rfl, hord⟩
  | cons p ps ih =>
    have hord' : Ordered comps (u.heap.set p none) (u.byId.erase p) (eraseImpl p u.secondary) :=
      (eraseImpl_ordered hord p).congr fun q hq =>
        u.heap.item_set_other _ (hids.mem_erase_iff.mp hq).1
    obtain ⟨secondary, hfold, hrest⟩ := ih (u.undoNew p) (hids.erase p) hord'
    have hheap : (u.heap.set p none).without ps = u.heap.without (p :: ps) := by
      funext q
      by_cases hp : q = p <;> by_cases hps : q ∈ ps <;> simp [Heap.without, Heap.set, hp, hps]
    have hbyId : (u.byId.erase p).filter (!ps.contains ·) =
        u.byId.filter (!(p :: ps).contains ·) := by
      rw [hids.erase_eq_filter, List.filter_filter]
      refine List.filter_congr fun q _ => ?_
      by_cases hq : q = p <;> simp [hq]
    rw [List.foldl_cons, hfold]
    refine ⟨secondary, ?_, ?_⟩
    · simp only [UndoIndex.undoNew, UndoIndex.disposeNode, hheap, hbyId]
    · rw [← hheap, ← hbyId]
      exact hrest

/-- The values the session backed up come back. -/
theorem foldl_undoOld (olds : List (OldNode V)) (u : UndoIndex V) {ctime : Nat}
    (hmtime : ∀ old ∈ olds, old.mtime < ctime) (hnodup : (olds.map OldNode.current).Nodup)
    (hsome : ∀ old ∈ olds, (u.heap old.current).isSome) (hids : u.byId.Nodup)
    (hflags : ∀ p, (u.heap p).isSome → u.heap.isErased p = !u.byId.contains p)
    (hord : WeakOrdered comps u.heap u.byId u.secondary) :
    ∃ secondary, olds.foldl (UndoIndex.undoOld ctime) u = { u with
        heap := u.heap.restore olds fun _ => true, secondary } ∧
      WeakOrdered comps (u.heap.restore olds fun _ => true) u.byId secondary := by
  -- one backup at a time: the indices follow the heap, equivalent rows allowed in between
  induction olds generalizing u with
  | nil => exact ⟨u.secondary, rfl, hord⟩
  | cons old olds ih =>
    obtain ⟨hnot, hnodup⟩ := List.nodup_cons.mp hnodup
    obtain ⟨hold, holds⟩ := List.forall_mem_cons.mp hsome
    obtain ⟨hm, hmtime⟩ := List.forall_mem_cons.mp hmtime
    obtain ⟨node, hnode⟩ := Option.isSome_iff_exists.mp hold
    generalize hheap : u.heap.set old.current
      (some { node with item := old.item, mtime := old.mtime }) = heap'
    have hset : heap'.isErased = u.heap.isErased :=
      hheap ▸ Heap.isErased_set hnode old.item old.mtime
    have hsets : ∀ q, (heap' q).isSome ↔ (u.heap q).isSome := fun q => by
      rw [← hheap, Heap.set_isSome]
      exact or_iff_right_of_imp fun h => h ▸ hold
    have hother : ∀ q ∈ u.byId, q ≠ old.current → heap'.item q = u.heap.item q :=
      fun q _ hne => hheap ▸ u.heap.item_set_other _ hne
    have holds' : ∀ o ∈ olds, (heap' o.current).isSome := fun o ho => (hsets _).mpr (holds o ho)
    have hflags' : ∀ p, (heap' p).isSome → heap'.isErased p = !u.byId.contains p := fun p hp => by
      rw [hset]
      exact hflags p ((hsets p).mp hp)
    have hcur := hflags old.current hold
    rw [show u.heap.isErased old.current = node.erased by simp [Heap.isErased, hnode]] at hcur
    rw [List.foldl_cons, Heap.restore_cons_of_moved hnode rfl hnot]
    simp only [UndoIndex.undoOld, hm, if_true, hnode, hheap]
    cases hflag : node.erased with
    | true =>
      have hmem : old.current ∉ u.byId := by
        rw [hflag] at hcur
        simpa using hcur.symm
      exact ih { u with heap := heap' } hmtime hnodup holds' hids hflags'
        (hord.congr fun q hq => hother q hq fun heq => hmem (heq ▸ hq))
    | false =>
      have hmem : old.current ∈ u.byId := by
        rw [hflag] at hcur
        simpa using hcur.symm
      exact ih { u with
          heap := heap', secondary := (postModify false heap' old.current u.secondary).2 }
        hmtime hnodup holds' hids hflags' (postModify_weakOrdered hids hmem hother hord)

/-- The heap with the nodes `ps` visible again. -/
def Heap.revive (heap : Heap V) (ps : List Nat) : Heap V :=
  fun q => if q ∈ ps then (heap q).map fun node => { node with erased := false } else heap q

/-- The rows the session removed go back into the indices. -/
theorem foldl_undoRemoved (ps : List Nat) (u : UndoIndex V) {oldNextId : Nat} (hps : ps.Nodup)
    (hdisj : ∀ p ∈ ps, p ∉ u.byId)
    (hnode : ∀ p ∈ ps, ∃ node, u.heap p = some node ∧ node.item.id < oldNextId)
    (hsorted : Sorted idLess u.byId) (hord : Ordered comps u.heap u.byId u.secondary)
    (hdistinct : ∀ comp ∈ comps, u.heap.Distinct comp (ps ++ u.byId)) :
    ∃ byId secondary, ps.foldl (UndoIndex.undoRemoved oldNextId) u = { u with
        heap := u.heap.revive ps, byId, secondary } ∧
      byId.Perm (ps ++ u.byId) ∧ Sorted idLess byId ∧
      Ordered comps (u.heap.revive ps) byId secondary := by
  -- one row at a time: it is equivalent to no row that is back already
  induction ps generalizing u with
  | nil =>
    have hrevive : u.heap.revive [] = u.heap := funext fun q => by simp [Heap.revive]
    rw [hrevive]
    exact ⟨u.byId, u.secondary, rfl, List.Perm.refl _, hsorted, hord⟩
  | cons p ps ih =>
    obtain ⟨hp, hps⟩ := List.nodup_cons.mp hps
    obtain ⟨hpu, hdisj⟩ := List.forall_mem_cons.mp hdisj
    obtain ⟨⟨node, hnodep, hlt⟩, hnodes⟩ := List.forall_mem_cons.mp hnode
    have hitem : (u.heap.set p (some { node with erased := false })).item = u.heap.item :=
      Heap.item_set_of_item_eq hnodep rfl
    have hids : ∀ q ∈ u.byId, ¬ Equivalent idLess p q := by
      intro q hq heq
      have hne : p ≠ q := fun h => hpu (h ▸ hq)
      simp only [Equivalent, idLess, decide_eq_true_eq] at heq
      omega
    have hbyId := insertUnique_of_distinct idLess_strictWeak hsorted hids
    have hord' : Ordered comps (u.heap.set p (some { node with erased := false })) u.byId
        u.secondary := hord.congr fun q _ => congrFun hitem q
    obtain ⟨secondary, hins⟩ := insertImpl_of_distinct p hord' fun comp hcomp q hq => by
      have hd := (hdistinct comp hcomp).congr (fun r _ => congrFun hitem r) p
        (List.mem_append_left _ List.mem_cons_self) q (List.mem_append_right _ hq)
      exact hd fun h => hpu (h ▸ hq)
    have hperm : (insertLower idLess p u.byId).Perm (p :: u.byId) := insertLower_perm _ _ _
    have hheap : (u.heap.set p (some { node with erased := false })).revive ps =
        u.heap.revive (p :: ps) := by
      funext q
      by_cases hqp : q = p
      · subst hqp
        simp [Heap.revive, hp, hnodep]
      · simp [Heap.revive, hqp, u.heap.set_other _ hqp]
    rw [List.foldl_cons]
    simp only [UndoIndex.undoRemoved, hnodep, hlt, if_true, hbyId, hins]
    have hdisj' : ∀ q ∈ ps, q ∉ insertLower idLess p u.byId := by
      intro q hq hmem
      rcases List.mem_cons.mp (hperm.mem_iff.mp hmem) with rfl | hmem
      · exact hp hq
      · exact hdisj q hq hmem
    have hnodes' : ∀ q ∈ ps, ∃ n, u.heap.set p (some { node with erased := false }) q = some n ∧
        n.item.id < oldNextId := by
      intro q hq
      obtain ⟨n, hn, hnlt⟩ := hnodes q hq
      exact ⟨n, (u.heap.set_other _ fun h : q = p => hp (h ▸ hq)).trans hn, hnlt⟩
    have hdistinct' : ∀ comp ∈ comps, (u.heap.set p (some { node with erased := false })).Distinct
        comp (ps ++ insertLower idLess p u.byId) := by
      intro comp hcomp
      refine ((hdistinct comp hcomp).subset fun r hr => ?_).congr fun r _ => congrFun hitem r
      rcases List.mem_append.mp hr with hr | hr
      · exact List.mem_append_left _ (List.mem_cons_of_mem _ hr)
      · rcases List.mem_cons.mp (hperm.mem_iff.mp hr) with rfl | hr
        · exact List.mem_append_left _ List.mem_cons_self
        · exact List.mem_append_right _ hr
    obtain ⟨byId, secondary', hfold, hperm', hsorted', hord''⟩ := ih
      { u with
        heap := u.heap.set p (some { node with erased := false })
        byId := insertLower idLess p u.byId
        secondary } hps hdisj' hnodes' (hsorted.insertLower idLess_strictWeak hids)
      ((insertImpl_ordered hord' hins).of_perm hperm.symm) hdistinct'
    refine ⟨byId, secondary', ?_, ?_, hsorted', ?_⟩
    · rw [hfold]
      simp only [hheap]
    · exact hperm'.trans ((hperm.append_left ps).trans List.perm_middle)
    · rw [← hheap]
      exact hord''

theorem Heap.item_revive (heap : Heap V) (ps : List Nat) : (heap.revive ps).item = heap.item := by
  funext q
  rw [item, item, revive]
  split
  · cases heap q <;> rfl
  · rfl

/-- The heap after the loops of an undo. -/
def UndoIndex.undoneHeap (u : UndoIndex V) (s : UndoState) (olds : List (OldNode V))
    (removed : List Nat) : Heap V :=
  ((u.heap.without (u.byId.filter (s.oldNextId ≤ ·))).restore olds fun _ => true).revive removed

section Undone

variable {s : UndoState} {olds oldRest : List (OldNode V)} {removed removedRest : List Nat}

theorem Store.mem_news {p : Nat} :
    p ∈ u.byId.filter (s.oldNextId ≤ ·) ↔ p ∈ u.byId ∧ s.oldNextId ≤ p := by
  simp [List.mem_filter]

theorem UndoIndex.undoneHeap_vals (h : Store comps u)
    (hremoved : u.removedValues = removed ++ removedRest)
    (session : SessionOk u.content s olds removed)
    (hrest : ∀ id ∈ removedRest, id < s.oldNextId) (p : Nat) :
    (u.undoneHeap s olds removed p).map (fun n => (n.item.value, n.mtime)) =
      (u.content.rewind s olds removed).vals p := by
  have hrevive : ∀ (heap : Heap V), (heap.revive removed p).map (fun n => (n.item.value, n.mtime)) =
      (heap p).map fun n => (n.item.value, n.mtime) := by
    intro heap
    rw [Heap.revive]
    split
    · simp [Function.comp_def]
    · rfl
  have hrestore : ∀ (heap : Heap V),
      (heap.restore olds (fun _ => true) p).map (fun n => (n.item.value, n.mtime)) =
        Content.rewindVals (fun q => (heap q).map fun n => (n.item.value, n.mtime)) olds p := by
    intro heap
    rw [Heap.restore, Content.rewindVals]
    cases Content.backup olds p <;> simp [Function.comp_def]
  rw [undoneHeap, hrevive, hrestore]
  by_cases hlt : p < s.oldNextId
  · rw [Content.rewind_vals hlt]
    refine Content.rewindVals_congr ?_
    rw [Heap.without_of_not_mem fun hmem => Nat.not_le.mpr hlt (Store.mem_news.mp hmem).2]
    rfl
  · have hnone : u.heap.without (u.byId.filter (s.oldNextId ≤ ·)) p = none := by
      rw [Heap.without]
      split
      · rfl
      · next hnot =>
        cases hp : u.heap p with
        | none => rfl
        | some node =>
          rcases (h.dom p).mp (by rw [hp]; rfl) with hb | hr
          · exact absurd (Store.mem_news.mpr ⟨hb, Nat.not_lt.mp hlt⟩) hnot
          · rw [hremoved] at hr
            exact absurd ((List.mem_append.mp hr).elim (session.removed_lt p) (hrest p)) hlt
    rw [Content.rewindVals, hnone]
    simp only [Content.rewind, if_neg hlt, Option.map_none]
    split <;> rfl

/-- The nodes after the loops of an undo. -/
theorem UndoIndex.undoneHeap_node (h : Store comps u)
    (hremoved : u.removedValues = removed ++ removedRest)
    (session : SessionOk u.content s olds removed)
    (hrest : ∀ id ∈ removedRest, id < s.oldNextId) :
    ∀ p n, u.undoneHeap s olds removed p = some n →
      NodeOk removedRest u.monotonicRevision s.oldNextId p n := by
  have hnodup := h.removed_nodup
  rw [hremoved] at hnodup
  intro p n hp
  have hlt : p < s.oldNextId := by
    by_contra hlt
    have hvals := undoneHeap_vals h hremoved session hrest p
    rw [hp] at hvals
    simp [Content.rewind, hlt] at hvals
  have hbase : ∀ q m, u.heap.without (u.byId.filter (s.oldNextId ≤ ·)) q = some m →
      NodeOk u.removedValues u.monotonicRevision u.nextId q m :=
    fun q m hq => h.node q m (Heap.without_some hq).2
  have hok := NodeOk.restore (fun _ => true) hbase session.old_id session.old_mtime_le
  rw [undoneHeap, Heap.revive] at hp
  split at hp
  · next hmem =>
    obtain ⟨m, hm, rfl⟩ := Option.map_eq_some_iff.mp hp
    obtain ⟨hid, -, hmtime, -⟩ := hok p m hm
    refine ⟨hid, iff_of_false (by simp) fun hr => ?_, hmtime, hlt⟩
    exact (List.nodup_append.mp hnodup).2.2 p hmem p hr rfl
  · next hmem =>
    obtain ⟨hid, herased, hmtime, -⟩ := hok p n hp
    refine ⟨hid, herased.trans ?_, hmtime, hlt⟩
    rw [hremoved, List.mem_append]
    exact or_iff_right hmem

/-- The rows after the loops of an undo are those of the copy. -/
theorem UndoIndex.undoneHeap_rowsOf (h : Store comps u)
    (hremoved : u.removedValues = removed ++ removedRest)
    (session : SessionOk u.content s olds removed)
    (hrest : ∀ id ∈ removedRest, id < s.oldNextId) {ids : List Nat}
    (hids : ∀ p ∈ ids, (u.content.rewind s olds removed).live p = true) :
    RowsOf (u.undoneHeap s olds removed) ids (u.content.rewind s olds removed).snapshot.row := by
  intro p hp
  have hlive := hids p hp
  have hnodes : Nodes u.content (removed ++ removedRest) := hremoved ▸ h.nodes
  have hsome : ((u.content.rewind s olds removed).vals p).isSome :=
    (hnodes.rewind hrest).isSome p (.inl hlive)
  obtain ⟨⟨v, m⟩, hval⟩ := Option.isSome_iff_exists.mp hsome
  have hvals := undoneHeap_vals h hremoved session hrest p
  rw [hval] at hvals
  obtain ⟨n, hn, hnv⟩ := Option.map_eq_some_iff.mp hvals
  have hid := (undoneHeap_node h hremoved session hrest p n hn).item_id
  refine ⟨v, by simp [Content.snapshot, hlive, hval], ?_⟩
  rw [Heap.item, hn, Option.map_some, ← hid, ← (Prod.mk.inj hnv).1]

/-- **The loops of an undo**: the heap is the undone one, and the indices hold the
rows that stay and the rows that come back, in order. -/
theorem UndoIndex.undo_eq (h : Store comps u) {stack : List UndoState}
    (hstack : u.undoStack = s :: stack)
    (holds : u.oldValues = olds ++ oldRest) (hremoved : u.removedValues = removed ++ removedRest)
    (hold_end : s.oldValuesEnd = oldRest.head?.map OldNode.addr)
    (hremoved_end : s.removedValuesEnd = removedRest.head?)
    (session : SessionOk u.content s olds removed)
    (hrest : ∀ id ∈ removedRest, id < s.oldNextId)
    (hdistinct : (u.content.rewind s olds removed).snapshot.Distinct comps) :
    ∃ byId secondary, u.undo = { u with
        heap := u.undoneHeap s olds removed, byId, secondary, oldValues := oldRest
        removedValues := removedRest, nextId := s.oldNextId, undoStack := stack
        revision := u.revision - 1 } ∧
      (∀ p, p ∈ byId ↔ (u.content.rewind s olds removed).live p = true) ∧
      Sorted idLess byId ∧ Ordered comps (u.undoneHeap s olds removed) byId secondary := by
  have hnodup := h.removed_nodup
  rw [hremoved] at hnodup
  -- the rows the session created, and the rows that stay
  generalize hnews : u.byId.filter (s.oldNextId ≤ ·) = news
  generalize hstay : u.byId.filter (!news.contains ·) = stay
  have hnot_news : ∀ p, p < s.oldNextId → p ∉ news := by
    intro p hlt
    rw [← hnews, Store.mem_news]
    exact fun hp => absurd hp.2 (Nat.not_le.mpr hlt)
  have hmem_stay : ∀ p, p ∈ stay ↔ p ∈ u.byId ∧ p < s.oldNextId := by
    intro p
    simp only [← hstay, ← hnews, List.mem_filter, Bool.not_eq_eq_eq_not, Bool.not_true,
      List.contains_eq_mem, decide_eq_false_iff_not, decide_eq_true_eq, not_and, Nat.not_le]
    exact and_congr_right fun hb => ⟨fun hlt => hlt hb, fun hlt _ => hlt⟩
  have hstay_nodup : stay.Nodup := hstay ▸ h.byId_nodup.filter _
  have hheap : ((u.heap.without news).restore olds fun _ => true).revive removed =
      u.undoneHeap s olds removed := by rw [UndoIndex.undoneHeap, hnews]
  have hlive : ∀ p, p ∈ removed ++ stay ↔ (u.content.rewind s olds removed).live p = true := by
    intro p
    rw [Content.rewind_live, u.content_live, List.mem_append, hmem_stay]
    have := session.removed_lt p
    tauto
  have hrows : RowsOf ((u.heap.without news).restore olds fun _ => true) (removed ++ stay)
      (u.content.rewind s olds removed).snapshot.row := by
    intro p hp
    rw [← Heap.item_revive _ removed, hheap]
    exact undoneHeap_rowsOf h hremoved session hrest (fun q hq => (hlive q).mp hq) p hp
  have hdistinct' := hrows.distinct hdistinct
  have hsome : ∀ old ∈ olds, (u.heap.without news old.current).isSome := fun old ho => by
    rw [Heap.without_of_not_mem (hnot_news _ (session.old_lt old ho))]
    exact h.old_isSome session hremoved old ho
  have hflags : ∀ p, (u.heap.without news p).isSome →
      (u.heap.without news).isErased p = !stay.contains p := by
    intro p hp
    have hnot : p ∉ news := fun hmem => by simp [Heap.without, hmem] at hp
    rw [Heap.without_of_not_mem hnot] at hp
    rw [Heap.isErased, Heap.without_of_not_mem hnot, ← Heap.isErased, h.isErased_iff hp]
    have hnot' := hnot
    rw [← hnews, Store.mem_news] at hnot'
    have hiff : p ∈ stay ↔ p ∈ u.byId := by
      rw [hmem_stay]
      exact and_iff_left_of_imp fun hb => Nat.not_le.mp fun hle => hnot' ⟨hb, hle⟩
    simp [UndoIndex.content, hiff]
  -- the three loops
  obtain ⟨secondary₁, hnew, hord₁⟩ := foldl_undoNew news u h.byId_nodup h.indices
  rw [hstay] at hnew hord₁
  obtain ⟨secondary₂, hold, hord₂⟩ := foldl_undoOld olds
    { u with heap := u.heap.without news, byId := stay, secondary := secondary₁ }
    session.old_mtime session.old_nodup hsome hstay_nodup hflags hord₁.weak
  have hord₂' : Ordered comps ((u.heap.without news).restore olds fun _ => true) stay
      secondary₂ :=
    hord₂.ordered hstay_nodup fun comp hcomp =>
      (hdistinct' comp hcomp).subset (List.subset_append_right _ _)
  have hrnode : ∀ p ∈ removed, ∃ node,
      ((u.heap.without news).restore olds fun _ => true) p = some node ∧
        node.item.id < s.oldNextId := by
    intro p hp
    obtain ⟨v, -, hitem⟩ := hrows p (List.mem_append_left _ hp)
    obtain ⟨node, hnode, hid⟩ := Option.map_eq_some_iff.mp hitem
    exact ⟨node, hnode, by rw [hid]; exact session.removed_lt p hp⟩
  obtain ⟨byId, secondary₃, hremove, hperm, hsorted, hord₃⟩ := foldl_undoRemoved removed
    { u with
      heap := (u.heap.without news).restore olds fun _ => true
      byId := stay
      secondary := secondary₂ }
    (List.nodup_append.mp hnodup).1
    (fun p hp hmem => h.disjoint p ((hmem_stay p).mp hmem).1
      (hremoved ▸ List.mem_append_left _ hp))
    hrnode (h.byId_sorted.sublist (hstay ▸ List.filter_sublist)) hord₂' hdistinct'
  dsimp only at hold hremove
  refine ⟨byId, secondary₃, ?_, fun p => hperm.mem_iff.trans (hlive p), hsorted, hheap ▸ hord₃⟩
  rw [UndoIndex.undo, hstack]
  simp only [UndoIndex.cutOldValues_eq holds h.addr_nodup hold_end,
    UndoIndex.cutRemovedValues_eq hremoved h.removed_nodup hremoved_end, hnews, hnew, hold,
    hremove, hheap]

end Undone

/-- **Undo** restores and drops the newest copy. -/
theorem Refines.undo (h : Refines comps u t) : Refines comps u.undo t.undo := by
  have hs := h.store
  have hhist := h.history
  have hlen := h.length_eq
  rw [SnapshotTable.undo]
  match hstack : u.undoStack, hcopies : t.copies with
  | [], [] =>
    rw [UndoIndex.undo, hstack]
    exact h
  | s :: stack, copy :: copies =>
    have hnum := h.numbered
    rw [hcopies] at hnum hhist
    rw [hstack] at hhist
    obtain ⟨olds, oldRest, removed, removedRest, holds, hremoved, session, hold_end, hremoved_end,
      hrest, htable, hdistinct, hbefore⟩ := hhist.uncons
    obtain ⟨byId, secondary, hundo, hlive, hsorted, hord⟩ := UndoIndex.undo_eq hs hstack holds
      hremoved hold_end hremoved_end session hrest (htable ▸ hdistinct)
    have hnodes : Nodes (u.content.rewind s olds removed) removedRest :=
      Nodes.rewind (hremoved ▸ hs.nodes) hrest
    have hvals := UndoIndex.undoneHeap_vals hs hremoved session hrest
    have hnode := UndoIndex.undoneHeap_node hs hremoved session hrest
    -- only the clock is not rewound
    have hcontent : u.undo.content =
        { u.content.rewind s olds removed with clock := u.monotonicRevision } := by
      rw [hundo]
      refine Content.ext (funext fun p => hvals p) (funext fun p => ?_) rfl rfl
      exact Bool.eq_iff_iff.mpr (by simpa [UndoIndex.content] using hlive p)
    refine ⟨?_, ?_, ?_, ?_, hnum.2⟩
    · rw [hundo]
      refine ⟨fun p => ?_, hnode, hsorted, fun p hp => ?_, hnodes.nodup, ?_, fun old ho => ?_, hord⟩
      · have hsome : (u.undoneHeap s olds removed p).isSome =
            ((u.content.rewind s olds removed).vals p).isSome := by
          rw [← hvals p, Option.isSome_map]
        rw [hsome, hlive]
        refine ⟨fun hp => ?_, hnodes.isSome p⟩
        by_cases hlt : p < s.oldNextId
        · rw [Content.rewind_vals hlt, Content.rewindVals_isSome, u.content_vals,
            Option.isSome_map, hs.dom, hremoved, List.mem_append] at hp
          rw [Content.rewind_live, u.content_live]
          tauto
        · simp [Content.rewind, hlt] at hp
      · exact hnodes.disjoint p ((hlive p).mp hp)
      · exact hs.addr_nodup.sublist (by rw [holds]; exact (List.sublist_append_right _ _).map _)
      · exact hs.addr_lt old (holds ▸ List.mem_append_right _ ho)
    · rw [hcontent, hundo]
      exact hbefore.tick session.ctime_le
    · rw [hcontent]
      exact htable.symm
    · rw [hundo, h.revision]
  | [], _ :: _ => simp [hstack, hcopies] at hlen
  | _ :: _, [] => simp [hstack, hcopies] at hlen

end Microchain.Chainbase
