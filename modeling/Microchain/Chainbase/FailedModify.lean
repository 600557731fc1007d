import Microchain.Chainbase.Lags

/-!
# A modification that an index refuses

`modify` moves the node through the indices until one of them has an equivalent row. By
then the earlier indices hold the node in its new place and the refusing one holds it
next to that row. What happens next depends on the backup:

- `UndoIndex.modify_reverted`: this call made one. The object and every index are as
  they were, and the backup is gone, but the node keeps the time of the call.
- `Refines.erase`: this call made none. The row is gone, as after `remove`; if an
  earlier session knows it, its node keeps the value that was refused, under the
  backup of this session.
-/

namespace Microchain.Chainbase

open Microchain.Lib

variable {V : Type} {comps : List (OrderedUnique V)} {heap : Heap V} {ids : List Nat}
  {sets sets' : List (SetImpl V)}

/-- Writing what is there. -/
theorem Heap.set_eq_self (heap : Heap V) (p : Nat) : heap.set p (heap p) = heap := by
  funext q
  by_cases h : q = p
  · rw [h, Heap.set_self]
  · exact heap.set_other _ h

/-! ## Indices -/

/-- An index in which `p` alone may sit in another place. -/
structure SetImpl.Moved (p : Nat) (set' set : SetImpl V) : Prop where
  comp : set'.comp = set.comp
  perm : set'.nodes.Perm set.nodes
  erase : set'.nodes.erase p = set.nodes.erase p

theorem SetImpl.Moved.refl (p : Nat) (set : SetImpl V) : set.Moved p set :=
  ⟨rfl, List.Perm.refl _, rfl⟩

/-- Taking a node out and putting it anywhere moves only that node. -/
theorem SetImpl.moved_insertLower {p : Nat} {set : SetImpl V} (less : Nat → Nat → Bool)
    (hnodup : set.nodes.Nodup) (hp : p ∈ set.nodes) :
    SetImpl.Moved p { set with nodes := insertLower less p (set.nodes.erase p) } set :=
  ⟨rfl, (insertLower_perm _ _ _).trans (perm_cons_erase' hp),
    insertLower_erase less hnodup.not_mem_erase⟩

/-- Whether it succeeds or not, the unique repair moves only the modified node. -/
theorem postModify_moved {p : Nat} (h : ∀ set ∈ sets, set.nodes.Nodup ∧ p ∈ set.nodes) :
    List.Forall₂ (SetImpl.Moved p) (postModify true heap p sets).2 sets := by
  induction sets with
  | nil => exact .nil
  | cons set sets ih =>
    obtain ⟨⟨hnodup, hp⟩, hsets⟩ := List.forall_mem_cons.mp h
    simp only [postModify, ↓reduceIte]
    split
    · split
      · -- refused: the indices after this one are not looked at
        exact .cons (SetImpl.moved_insertLower _ hnodup hp)
          (List.forall₂_same.mpr fun set _ => SetImpl.Moved.refl p set)
      · next nodes hnodes =>
        rw [insertUnique_eq_some hnodes]
        exact .cons (SetImpl.moved_insertLower _ hnodup hp) (ih hsets)
    · exact .cons (SetImpl.Moved.refl p set) (ih hsets)

theorem eraseImpl_moved {p : Nat} (h : List.Forall₂ (SetImpl.Moved p) sets' sets) :
    eraseImpl p sets' = eraseImpl p sets := by
  induction h with
  | nil => rfl
  | @cons set' set _ _ hset _ ih =>
    obtain ⟨hcomp, -, herase⟩ := hset
    simp only [eraseImpl, List.map_cons, hcomp, herase] at ih ⊢
    rw [ih]

theorem comps_moved {p : Nat} (h : List.Forall₂ (SetImpl.Moved p) sets' sets) :
    sets'.map SetImpl.comp = sets.map SetImpl.comp := by
  induction h with
  | nil => rfl
  | cons hset _ ih => rw [List.map_cons, List.map_cons, hset.comp, ih]

/-- Indices that are in order but for the moved node. -/
theorem but_moved {p : Nat} (h : List.Forall₂ (SetImpl.Moved p) sets' sets)
    (hbut : ∀ set ∈ sets, OrderedBut p heap ids set) :
    ∀ set ∈ sets', OrderedBut p heap ids set := by
  induction h with
  | nil => simp
  | cons hset _ ih =>
    obtain ⟨hfirst, hrest⟩ := List.forall_mem_cons.mp hbut
    obtain ⟨hcomp, hperm, herase⟩ := hset
    refine List.forall_mem_cons.mpr ⟨⟨hperm.trans hfirst.perm, ?_⟩, ih hrest⟩
    rw [hcomp, herase]
    exact hfirst.sorted

/-- The rows of a table determine its ordered indices. -/
theorem Ordered.unique (h : Ordered comps heap ids sets) (h' : Ordered comps heap ids sets') :
    sets' = sets := by
  induction sets generalizing comps sets' with
  | nil =>
    have hcomps := h'.comps
    rw [← h.comps, List.map_nil, List.map_eq_nil_iff] at hcomps
    exact hcomps
  | cons set sets ih =>
    cases sets' with
    | nil =>
      have hcomps := h'.comps
      rw [← h.comps] at hcomps
      cases hcomps
    | cons set' sets' =>
      have hcomps := h'.comps
      rw [← h.comps, List.map_cons, List.map_cons] at hcomps
      obtain ⟨hcomp, hrest⟩ := List.cons.inj hcomps
      obtain ⟨hset, hsets⟩ := List.forall_mem_cons.mp h.each
      obtain ⟨hset', hsets'⟩ := List.forall_mem_cons.mp h'.each
      have hsorted := hset'.sorted
      rw [hcomp] at hsorted
      have hnodes : set'.nodes = set.nodes :=
        hsorted.eq_of_perm (heap.less_strictWeak set.comp) hset.sorted
          (hset'.perm.trans hset.perm.symm)
      have hfirst : set' = set := by
        cases set
        cases set'
        simp_all
      rw [hfirst, ih ⟨rfl, hsets⟩ ⟨hrest, hsets'⟩]

/-! ## Reverted -/

section Operations

variable {u : UndoIndex V} {t : SnapshotTable V} {p : Nat} {node : Node V}

theorem Store.moved (h : Store comps u) (hp : p ∈ u.byId) (heap : Heap V) :
    List.Forall₂ (SetImpl.Moved p) (postModify true heap p u.secondary).2 u.secondary :=
  postModify_moved fun set hset =>
    ⟨(h.indices.each set hset).perm.nodup_iff.mpr h.byId_nodup,
      (h.indices.each set hset).perm.symm.subset hp⟩

/-- Putting the object back puts every index back. -/
theorem Store.reverted (h : Store comps u) (hp : p ∈ u.byId) (hnode : u.heap p = some node)
    (mtime : Nat) (heap' : Heap V) :
    (postModify true (u.heap.set p (some { node with mtime })) p
      (postModify true heap' p u.secondary).2).2 = u.secondary := by
  have hitem : (u.heap.set p (some { node with mtime })).item = u.heap.item :=
    Heap.item_set_of_item_eq hnode rfl
  have hindices : Ordered comps (u.heap.set p (some { node with mtime })) u.byId u.secondary :=
    h.indices.congr fun q _ => congrFun hitem q
  have hmoved := h.moved hp heap'
  -- wherever the failed repair has left the node, only the node is out of place
  have hbut := but_moved hmoved fun set hset =>
    (hindices.each set hset).but h.byId_nodup fun _ _ _ => rfl
  have hcomps := (comps_moved hmoved).trans h.indices.comps
  have hsuccess := postModify_of_distinct h.byId_nodup hp hcomps hbut hindices.distinct
  have hordered := postModify_ordered h.byId_nodup hp hcomps hbut (Prod.ext hsuccess rfl)
  exact hindices.unique hordered

/-- **A refused modification that made a backup** leaves the rows, every index and the
undo lists as they were. The time of the node is that of the call. -/
theorem UndoIndex.modify_reverted (h : Store comps u) (hp : p ∈ u.byId)
    (hnode : u.heap p = some node) (ht : ¬ Touched u node) {m : V → V} {e : String}
    (hop : (u.modify p m).1 = .error e) :
    (u.modify p m).2 = { u with
      heap := u.heap.set p (some { node with mtime := u.monotonicRevision })
      oldAlloc := u.oldAlloc + 1 } := by
  have hreverted := h.reverted hp hnode u.monotonicRevision
  simp only [modify, hnode, onModify_of_not_touched hnode ht, assign, Heap.set_self,
    Heap.set_set] at hop ⊢
  split at hop
  · cases hop
  · next secondary hpost =>
    have hback := hreverted (u.heap.set p (some
      { node with item := { node.item with value := m node.item.value }
                  mtime := u.monotonicRevision }))
    rw [hpost] at hback
    simp only [↓reduceIte, hback, List.tail_cons]

/-! ## Erased -/

/-- A table whose row `p` has the value that was refused. -/
def UndoIndex.refused (u : UndoIndex V) (p : Nat) (node : Node V) (value : V)
    (secondary : List (SetImpl V)) : UndoIndex V :=
  { u with heap := u.heap.set p (some { node with item := { node.item with value } }), secondary }

theorem UndoIndex.modify_erased (hnode : u.heap p = some node) (ht : Touched u node) {m : V → V}
    {e : String} (hop : (u.modify p m).1 = .error e) :
    ∃ heap, (u.modify p m).2 = (u.refused p node (m node.item.value)
      (postModify true heap p u.secondary).2).remove p := by
  simp only [modify, hnode, onModify_of_touched hnode ht, assign] at hop ⊢
  split at hop
  · cases hop
  · next secondary hpost =>
    refine ⟨u.heap.set p (some
      { node with item := { node.item with value := m node.item.value } }), ?_⟩
    rw [hpost]
    simp only [Bool.false_eq_true, ↓reduceIte, UndoIndex.refused]

/-- The value of a removed node is not visible. -/
theorem Store.refused (h : Store comps u) (hp : p ∉ u.byId) (hnode : u.heap p = some node)
    (value : V) : Store comps (u.refused p node value u.secondary) := by
  have hok := h.node p node hnode
  refine ⟨fun q => ?_, ?_, h.byId_sorted, h.disjoint, h.removed_nodup, h.addr_nodup, h.addr_lt, ?_⟩
  · rw [UndoIndex.refused, Heap.set_isSome, h.dom]
    refine ⟨?_, .inr⟩
    rintro (rfl | hq)
    · exact (h.dom q).mp (by rw [hnode]; rfl)
    · exact hq
  · exact Heap.forall_set ⟨hok.item_id, hok.erased, hok.mtime, hok.lt_next⟩
      fun q n _ hq => h.node q n hq
  · exact h.indices.congr fun q hq => u.heap.item_set_other _ fun heq => hp (heq ▸ hq)

theorem UndoIndex.refused_created (hnode : u.heap p = some node) (hid : node.item.id = p)
    (hc : Created u p) {value : V} {secondary : List (SetImpl V)}
    (herase : eraseImpl p secondary = eraseImpl p u.secondary) :
    (u.refused p node value secondary).remove p = u.remove p := by
  have hset : (u.refused p node value secondary).heap p =
      some { node with item := { node.item with value } } := Heap.set_self _ _ _
  have hc' : Created (u.refused p node value secondary) p := hc
  rw [UndoIndex.remove_of_created hset hid hc', UndoIndex.remove_of_created hnode hid hc]
  simp only [UndoIndex.refused, Heap.set_set, herase]

theorem UndoIndex.refused_not_created (hnode : u.heap p = some node) (hid : node.item.id = p)
    (hc : ¬ Created u p) {value : V} {secondary : List (SetImpl V)}
    (herase : eraseImpl p secondary = eraseImpl p u.secondary) :
    (u.refused p node value secondary).remove p =
      (u.remove p).refused p { node with erased := true } value (u.remove p).secondary := by
  have hset : (u.refused p node value secondary).heap p =
      some { node with item := { node.item with value } } := Heap.set_self _ _ _
  have hc' : ¬ Created (u.refused p node value secondary) p := hc
  rw [UndoIndex.remove_of_not_created hset hid hc', UndoIndex.remove_of_not_created hnode hid hc]
  simp only [UndoIndex.refused, Heap.set_set, herase]

/-- **A refused modification that made no backup** takes the row away. The backup that
the session holds of a row of an earlier session still covers the refused value. -/
theorem Refines.erase (h : Refines comps u t) (hp : p ∈ u.byId) (hnode : u.heap p = some node)
    (ht : Touched u node) {m : V → V} {e : String} (hop : (u.modify p m).1 = .error e) :
    Refines comps (u.modify p m).2 { t with current := t.current.remove p } := by
  have hs := h.store
  have hid := (hs.node p node hnode).item_id
  have hremove := h.remove hp
  obtain ⟨heap, herased⟩ := UndoIndex.modify_erased hnode ht hop
  have herase := eraseImpl_moved (hs.moved hp heap)
  rw [herased]
  by_cases hc : Created u p
  · rw [UndoIndex.refused_created hnode hid hc herase]
    exact hremove
  · rw [UndoIndex.refused_not_created hnode hid hc herase]
    have hremoved := UndoIndex.remove_of_not_created hnode hid hc
    have hgone : p ∉ (u.remove p).byId := by
      rw [hremoved]
      exact fun hmem => (hs.byId_nodup.mem_erase_iff.mp hmem).1 rfl
    have hflag : (u.remove p).heap p = some { node with erased := true } := by
      rw [hremoved]
      exact Heap.set_self _ _ _
    have hlive : u.content.live p = true := (u.content_live p).mpr hp
    have hval : u.content.vals p = some (node.item.value, node.mtime) := by
      rw [u.content_vals, hnode]
      rfl
    have hcontent : ((u.remove p).refused p { node with erased := true } (m node.item.value)
        (u.remove p).secondary).content =
          (u.content.write p (m node.item.value, node.mtime)).hide p := by
      rw [hremoved]
      refine Content.ext (funext fun id => ?_) (funext fun id => ?_) rfl rfl
      · rw [UndoIndex.content_vals, UndoIndex.refused, Heap.set_set, Heap.vals_set]
        rfl
      · by_cases hq : id = p <;> simp [UndoIndex.content, UndoIndex.refused, Content.hide,
          Content.write, hs.byId_nodup.mem_erase_iff, hq]
    refine ⟨hremove.store.refused hgone hflag _, ?_, ?_, hremove.revision, hremove.numbered⟩
    · rw [hcontent, hremoved]
      refine h.history.push [] [p] fun s olds removed hstack session => ?_
      -- write the refused value under the session's backup, then hide the row
      obtain ⟨hwritten, hrewind⟩ := session.modify (m node.item.value) hlive hval (ht s hstack)
      have hlt : p < s.oldNextId := Nat.not_le.mp fun hle => hc fun s' hs' => by
        rw [hstack] at hs'
        exact Option.some.inj hs' ▸ hle
      obtain ⟨hhidden, hrewind'⟩ := hwritten.remove hlt hlive
      exact ⟨hhidden, hrewind'.trans hrewind⟩
    · rw [hcontent, Content.hide_snapshot, Content.write_snapshot hlive hval, h.current]
      refine Snapshot.ext (fun id => ?_) rfl
      by_cases hq : id = p <;> simp [Snapshot.remove, Snapshot.modify, Snapshot.set, hq]

/-- **Modify**, refused or not: the table stands for one with the same copies, but for
the time of the node. -/
theorem Refines.modify_attempt (h : Refines comps u t) (hp : p ∈ u.byId) (m : V → V) :
    ∃ g current, Refines comps g { t with current } ∧ Lags g (u.modify p m).2 := by
  obtain ⟨node, hnode⟩ := h.store.isSome_of_mem hp
  cases hop : (u.modify p m).1 with
  | ok _ => exact ⟨_, _, h.modify hp (Prod.ext hop rfl), Lags.refl _⟩
  | error e =>
    by_cases ht : Touched u node
    · exact ⟨_, _, h.erase hp hnode ht hop, Lags.refl _⟩
    · -- nothing has happened to the table that it stands for
      refine ⟨{ u with oldAlloc := u.oldAlloc + 1 }, t.current, ?_, ?_⟩
      · have hs := h.store
        exact ⟨⟨hs.dom, hs.node, hs.byId_sorted, hs.disjoint, hs.removed_nodup, hs.addr_nodup,
          fun old hold => Nat.lt_succ_of_lt (hs.addr_lt old hold), hs.indices⟩, h.history, h.current,
          h.revision, h.numbered⟩
      · rw [UndoIndex.modify_reverted h.store hp hnode ht hop]
        refine ⟨u.heap, u.oldValues, rfl, fun q => ?_, (Lags.refl u).olds⟩
        have hlate : (u.heap.set p (some node)).Lags
            (u.heap.set p (some { node with mtime := u.monotonicRevision })) :=
          (Heap.Lags.refl u.heap).set p ⟨rfl, rfl, (h.store.node p node hnode).mtime⟩
        rw [← hnode, Heap.set_eq_self] at hlate
        exact hlate q

end Operations

end Microchain.Chainbase
