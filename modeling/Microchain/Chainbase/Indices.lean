import Mathlib.Data.List.Pairwise
import Microchain.Chainbase.UndoIndex

/-!
# The secondary indices of an `undo_index`

What insertion, erasure and the repair after a modification do to the ordered
secondary indices. `Ordered heap ids set` says that an index holds exactly the
nodes `ids`, strictly in order; while an undo is under way two rows can be
equivalent for a moment and an index is only weakly ordered (`WeakOrdered`).

- `insertImpl_ordered`, `insertImpl_of_distinct`: insertion into all indices keeps
  them ordered, and it succeeds when no row is equivalent to the new one.
- `postModify_ordered`, `postModify_of_distinct`, `postModify_weakOrdered`: the
  same for moving a modified node to its place.
-/

namespace Microchain.Chainbase

open Microchain.Lib

variable {V : Type}

/-! ## The heap -/

@[simp] theorem Heap.set_self (heap : Heap V) (p : Nat) (node : Option (Node V)) :
    heap.set p node p = node := if_pos rfl

theorem Heap.set_other (heap : Heap V) {p q : Nat} (node : Option (Node V)) (h : q ≠ p) :
    heap.set p node q = heap q := if_neg h

theorem Heap.item_set_other (heap : Heap V) {p q : Nat} (node : Option (Node V)) (h : q ≠ p) :
    (heap.set p node).item q = heap.item q := by
  rw [Heap.item, heap.set_other node h, Heap.item]

/-- Writing only the bookkeeping of a node changes no object. -/
theorem Heap.item_set_of_item_eq {heap : Heap V} {p : Nat} {old new : Node V}
    (hold : heap p = some old) (hitem : new.item = old.item) :
    (heap.set p (some new)).item = heap.item := by
  funext q
  by_cases h : q = p
  · subst h
    simp [Heap.item, hold, hitem]
  · exact heap.item_set_other _ h

/-- Pointers compare through their objects as the comparison object compares
these. -/
theorem Heap.less_strictWeak (heap : Heap V) (comp : OrderedUnique V) :
    StrictWeak (heap.less comp) := by
  refine ⟨fun p q => ?_, fun p q r => ?_⟩
  · unfold Heap.less
    cases heap.item p <;> cases heap.item q <;> simp
    exact fun h => by simpa using comp.strictWeak.asymm _ _ h
  · unfold Heap.less
    cases heap.item p <;> cases heap.item q <;> cases heap.item r <;> simp
    exact comp.strictWeak.negTrans _ _ _

theorem Heap.less_congr {heap heap' : Heap V} (comp : OrderedUnique V) {p q : Nat}
    (hp : heap'.item p = heap.item p) (hq : heap'.item q = heap.item q) :
    heap'.less comp p q = heap.less comp p q := by
  rw [Heap.less, Heap.less, hp, hq]

/-- No two of the rows `ids` are equivalent under `comp`. -/
def Heap.Distinct (heap : Heap V) (comp : OrderedUnique V) (ids : List Nat) : Prop :=
  ∀ p ∈ ids, ∀ q ∈ ids, p ≠ q → ¬ Equivalent (heap.less comp) p q

theorem Heap.Distinct.subset {heap : Heap V} {comp : OrderedUnique V} {ids ids' : List Nat}
    (h : heap.Distinct comp ids) (hsub : ids' ⊆ ids) : heap.Distinct comp ids' :=
  fun p hp q hq => h p (hsub hp) q (hsub hq)

theorem Heap.Distinct.congr {heap heap' : Heap V} {comp : OrderedUnique V} {ids : List Nat}
    (h : heap.Distinct comp ids) (heq : ∀ p ∈ ids, heap'.item p = heap.item p) :
    heap'.Distinct comp ids := by
  intro p hp q hq hne
  rw [Equivalent, Heap.less_congr comp (heq p hp) (heq q hq),
    Heap.less_congr comp (heq q hq) (heq p hp)]
  exact h p hp q hq hne

/-! ## Ordered indices -/

namespace SetImpl

/-- The index holds exactly `ids`, strictly in order. -/
structure Ordered (heap : Heap V) (ids : List Nat) (set : SetImpl V) : Prop where
  perm : set.nodes.Perm ids
  sorted : Sorted (heap.less set.comp) set.nodes

/-- The index holds exactly `ids`, in order up to equivalent rows. -/
structure WeakOrdered (heap : Heap V) (ids : List Nat) (set : SetImpl V) : Prop where
  perm : set.nodes.Perm ids
  sorted : WeakSorted (heap.less set.comp) set.nodes

variable {heap heap' : Heap V} {ids : List Nat} {set : SetImpl V}

theorem Ordered.congr (h : set.Ordered heap ids)
    (heq : ∀ p ∈ ids, heap'.item p = heap.item p) : set.Ordered heap' ids :=
  ⟨h.perm, h.sorted.congr fun _ ha _ hb =>
    Heap.less_congr _ (heq _ (h.perm.subset ha)) (heq _ (h.perm.subset hb))⟩

theorem WeakOrdered.congr (h : set.WeakOrdered heap ids)
    (heq : ∀ p ∈ ids, heap'.item p = heap.item p) : set.WeakOrdered heap' ids :=
  ⟨h.perm, h.sorted.congr fun _ ha _ hb =>
    Heap.less_congr _ (heq _ (h.perm.subset ha)) (heq _ (h.perm.subset hb))⟩

theorem Ordered.weak (h : set.Ordered heap ids) : set.WeakOrdered heap ids :=
  ⟨h.perm, h.sorted.weak (heap.less_strictWeak _)⟩

theorem Ordered.of_perm (h : set.Ordered heap ids) {ids' : List Nat} (hperm : ids.Perm ids') :
    set.Ordered heap ids' := ⟨h.perm.trans hperm, h.sorted⟩

theorem Ordered.erase (h : set.Ordered heap ids) (p : Nat) :
    Ordered heap (ids.erase p) { set with nodes := set.nodes.erase p } :=
  ⟨h.perm.erase p, h.sorted.sublist List.erase_sublist⟩

theorem WeakOrdered.erase (h : set.WeakOrdered heap ids) (p : Nat) :
    WeakOrdered heap (ids.erase p) { set with nodes := set.nodes.erase p } :=
  ⟨h.perm.erase p, h.sorted.sublist List.erase_sublist⟩

/-- A strictly ordered index has no equivalent rows. -/
theorem Ordered.distinct (h : set.Ordered heap ids) : heap.Distinct set.comp ids := by
  have hne : set.nodes.Pairwise fun p q => ¬ Equivalent (heap.less set.comp) p q :=
    h.sorted.imp fun hlt heq => heq.1 hlt
  have : Std.Symm fun p q => ¬ Equivalent (heap.less set.comp) p q :=
    ⟨fun _ _ hpq hqp => hpq ⟨hqp.2, hqp.1⟩⟩
  intro p hp q hq
  exact hne.forall (h.perm.symm.subset hp) (h.perm.symm.subset hq)

/-- A weakly ordered index without equivalent rows is strictly ordered. -/
theorem WeakOrdered.ordered (h : set.WeakOrdered heap ids) (hids : ids.Nodup)
    (hdistinct : heap.Distinct set.comp ids) : set.Ordered heap ids := by
  refine ⟨h.perm, h.sorted.sorted ?_⟩
  have hnodup : set.nodes.Nodup := h.perm.nodup_iff.mpr hids
  exact hnodup.imp_of_mem fun ha hb hne =>
    hdistinct _ (h.perm.subset ha) _ (h.perm.subset hb) hne

end SetImpl

/-- Every index holds exactly `ids`, strictly in order, and the comparison objects
are `comps`. -/
structure Ordered (comps : List (OrderedUnique V)) (heap : Heap V) (ids : List Nat)
    (sets : List (SetImpl V)) : Prop where
  comps : sets.map SetImpl.comp = comps
  each : ∀ set ∈ sets, set.Ordered heap ids

/-- The same up to equivalent rows. -/
structure WeakOrdered (comps : List (OrderedUnique V)) (heap : Heap V) (ids : List Nat)
    (sets : List (SetImpl V)) : Prop where
  comps : sets.map SetImpl.comp = comps
  each : ∀ set ∈ sets, set.WeakOrdered heap ids

variable {comps : List (OrderedUnique V)} {heap heap' : Heap V} {ids : List Nat}
  {sets : List (SetImpl V)}

theorem Ordered.congr (h : Ordered comps heap ids sets)
    (heq : ∀ p ∈ ids, heap'.item p = heap.item p) : Ordered comps heap' ids sets :=
  ⟨h.comps, fun set hset => (h.each set hset).congr heq⟩

theorem WeakOrdered.congr (h : WeakOrdered comps heap ids sets)
    (heq : ∀ p ∈ ids, heap'.item p = heap.item p) : WeakOrdered comps heap' ids sets :=
  ⟨h.comps, fun set hset => (h.each set hset).congr heq⟩

theorem Ordered.weak (h : Ordered comps heap ids sets) : WeakOrdered comps heap ids sets :=
  ⟨h.comps, fun set hset => (h.each set hset).weak⟩

theorem Ordered.of_perm (h : Ordered comps heap ids sets) {ids' : List Nat}
    (hperm : ids.Perm ids') : Ordered comps heap ids' sets :=
  ⟨h.comps, fun set hset => (h.each set hset).of_perm hperm⟩

theorem Ordered.distinct (h : Ordered comps heap ids sets) :
    ∀ comp ∈ comps, heap.Distinct comp ids := by
  intro comp hcomp
  rw [← h.comps] at hcomp
  obtain ⟨set, hset, rfl⟩ := List.mem_map.mp hcomp
  exact (h.each set hset).distinct

theorem WeakOrdered.ordered (h : WeakOrdered comps heap ids sets) (hids : ids.Nodup)
    (hdistinct : ∀ comp ∈ comps, heap.Distinct comp ids) : Ordered comps heap ids sets :=
  ⟨h.comps, fun set hset => (h.each set hset).ordered hids
    (hdistinct _ (h.comps ▸ List.mem_map_of_mem hset))⟩

/-- Prepending an index to ordered indices. -/
theorem Ordered.cons (set : SetImpl V) (hset : set.Ordered heap ids)
    (h : Ordered comps heap ids sets) : Ordered (set.comp :: comps) heap ids (set :: sets) :=
  ⟨by rw [List.map_cons, h.comps], List.forall_mem_cons.mpr ⟨hset, h.each⟩⟩

theorem WeakOrdered.cons (set : SetImpl V) (hset : set.WeakOrdered heap ids)
    (h : WeakOrdered comps heap ids sets) :
    WeakOrdered (set.comp :: comps) heap ids (set :: sets) :=
  ⟨by rw [List.map_cons, h.comps], List.forall_mem_cons.mpr ⟨hset, h.each⟩⟩

/-! ## Erasing -/

theorem eraseImpl_comps (p : Nat) (sets : List (SetImpl V)) :
    (eraseImpl p sets).map SetImpl.comp = sets.map SetImpl.comp := by
  simp [eraseImpl, Function.comp_def]

theorem eraseImpl_ordered (h : Ordered comps heap ids sets) (p : Nat) :
    Ordered comps heap (ids.erase p) (eraseImpl p sets) := by
  refine ⟨by rw [eraseImpl_comps, h.comps], fun set hset => ?_⟩
  obtain ⟨set', hset', rfl⟩ := List.mem_map.mp hset
  exact (h.each set' hset').erase p

/-! ## Inserting -/

/-- Successful insertion into all indices keeps them ordered. -/
theorem insertImpl_ordered {p : Nat} {sets' : List (SetImpl V)}
    (h : Ordered comps heap ids sets) (hins : insertImpl heap p sets = some sets') :
    Ordered comps heap (p :: ids) sets' := by
  induction sets generalizing comps sets' with
  | nil =>
    obtain rfl : [] = sets' := Option.some.inj hins
    exact ⟨h.comps, by simp⟩
  | cons set sets ih =>
    obtain ⟨hset, hsets⟩ := List.forall_mem_cons.mp h.each
    have hlt := heap.less_strictWeak set.comp
    rw [insertImpl] at hins
    split at hins
    · cases hins
    · next nodes hnodes =>
      obtain ⟨sets₁, hsets₁, rfl⟩ := Option.map_eq_some_iff.mp hins
      rw [← h.comps, List.map_cons]
      refine Ordered.cons { set with nodes } ⟨?_, ?_⟩ (ih ⟨rfl, hsets⟩ hsets₁)
      · rw [insertUnique_eq_some hnodes]
        exact (insertLower_perm _ _ _).trans (hset.perm.cons p)
      · rw [insertUnique_eq_some hnodes]
        exact hset.sorted.insertLower hlt (distinct_of_insertUnique hlt hset.sorted hnodes)

/-- Insertion succeeds when no index has a row equivalent to the new one. -/
theorem insertImpl_of_distinct (p : Nat) (h : Ordered comps heap ids sets)
    (hdistinct : ∀ comp ∈ comps, ∀ q ∈ ids, ¬ Equivalent (heap.less comp) p q) :
    ∃ sets', insertImpl heap p sets = some sets' := by
  induction sets generalizing comps with
  | nil => exact ⟨[], rfl⟩
  | cons set sets ih =>
    obtain ⟨hset, hsets⟩ := List.forall_mem_cons.mp h.each
    rw [← h.comps, List.map_cons] at hdistinct
    obtain ⟨hd, hds⟩ := List.forall_mem_cons.mp hdistinct
    obtain ⟨sets₁, hsets₁⟩ := ih ⟨rfl, hsets⟩ hds
    rw [insertImpl, insertUnique_of_distinct (heap.less_strictWeak _) hset.sorted
      fun q hq => hd q (hset.perm.subset hq)]
    exact ⟨_, by rw [hsets₁]; rfl⟩

/-! ## Moving a modified node -/

/-- Every index holds `ids` and is strictly in order but for `p`. -/
structure OrderedBut (p : Nat) (heap : Heap V) (ids : List Nat) (set : SetImpl V) : Prop where
  perm : set.nodes.Perm ids
  sorted : Sorted (heap.less set.comp) (set.nodes.erase p)

theorem SetImpl.Ordered.but {set : SetImpl V} {p : Nat} (hids : ids.Nodup)
    (h : set.Ordered heap ids) (heq : ∀ q ∈ ids, q ≠ p → heap'.item q = heap.item q) :
    OrderedBut p heap' ids set := by
  refine ⟨h.perm, ?_⟩
  have hnodup := h.perm.nodup_iff.mpr hids
  refine Sorted.congr (fun a ha b hb => ?_) (h.erase p).sorted
  obtain ⟨hap, ha⟩ := hnodup.mem_erase_iff.mp ha
  obtain ⟨hbp, hb⟩ := hnodup.mem_erase_iff.mp hb
  exact Heap.less_congr _ (heq a (h.perm.subset ha) hap) (heq b (h.perm.subset hb) hbp)

/-- A successful unique repair orders every index again. -/
theorem postModify_ordered {p : Nat} {sets' : List (SetImpl V)} (hids : ids.Nodup)
    (hp : p ∈ ids) (hcomps : sets.map SetImpl.comp = comps)
    (h : ∀ set ∈ sets, OrderedBut p heap ids set)
    (hpost : postModify true heap p sets = (true, sets')) : Ordered comps heap ids sets' := by
  induction sets generalizing comps sets' with
  | nil =>
    obtain rfl : [] = sets' := congrArg Prod.snd hpost
    exact ⟨hcomps, by simp⟩
  | cons set sets ih =>
    obtain ⟨hset, hsets⟩ := List.forall_mem_cons.mp h
    have hlt := heap.less_strictWeak set.comp
    have hmem := hset.perm.symm.subset hp
    rw [← hcomps, List.map_cons]
    simp only [postModify, ↓reduceIte] at hpost
    split at hpost
    · split at hpost
      · cases hpost
      · next nodes hnodes =>
        obtain ⟨hok, rfl⟩ := Prod.mk.inj hpost
        refine Ordered.cons { set with nodes } ⟨?_, ?_⟩ (ih rfl hsets (Prod.ext hok rfl))
        · rw [insertUnique_eq_some hnodes]
          exact (insertLower_perm _ _ _).trans ((perm_cons_erase' hmem).trans hset.perm)
        · rw [insertUnique_eq_some hnodes]
          exact hset.sorted.insertLower hlt (distinct_of_insertUnique hlt hset.sorted hnodes)
    · next hfix =>
      obtain ⟨hok, rfl⟩ := Prod.mk.inj hpost
      refine Ordered.cons set ⟨hset.perm, ?_⟩ (ih rfl hsets (Prod.ext hok rfl))
      exact Sorted.of_not_needsFixup hlt (hset.perm.nodup_iff.mpr hids) hmem hfix hset.sorted

/-- The unique repair succeeds when no other row is equivalent to the modified one. -/
theorem postModify_of_distinct {p : Nat} (hids : ids.Nodup) (hp : p ∈ ids)
    (hcomps : sets.map SetImpl.comp = comps) (h : ∀ set ∈ sets, OrderedBut p heap ids set)
    (hdistinct : ∀ comp ∈ comps, heap.Distinct comp ids) :
    (postModify true heap p sets).1 = true := by
  induction sets generalizing comps with
  | nil => rfl
  | cons set sets ih =>
    obtain ⟨hset, hsets⟩ := List.forall_mem_cons.mp h
    rw [← hcomps, List.map_cons] at hdistinct
    obtain ⟨hd, hds⟩ := List.forall_mem_cons.mp hdistinct
    have hrest := ih rfl hsets hds
    have hne : ∀ q ∈ set.nodes.erase p, ¬ Equivalent (heap.less set.comp) p q := by
      intro q hq
      obtain ⟨hqp, hq⟩ := (hset.perm.nodup_iff.mpr hids).mem_erase_iff.mp hq
      exact hd p hp q (hset.perm.subset hq) (Ne.symm hqp)
    simp only [postModify, ↓reduceIte]
    split
    · rw [insertUnique_of_distinct (heap.less_strictWeak _) hset.sorted hne]
      exact hrest
    · exact hrest

/-- The repair of an undo accepts equivalent rows and leaves every index weakly
ordered. -/
theorem postModify_weakOrdered {p : Nat} (hids : ids.Nodup) (hp : p ∈ ids)
    (heq : ∀ q ∈ ids, q ≠ p → heap'.item q = heap.item q)
    (h : WeakOrdered comps heap ids sets) :
    WeakOrdered comps heap' ids (postModify false heap' p sets).2 := by
  induction sets generalizing comps with
  | nil => exact ⟨h.comps, by simp [postModify]⟩
  | cons set sets ih =>
    obtain ⟨hset, hsets⟩ := List.forall_mem_cons.mp h.each
    have hlt := heap'.less_strictWeak set.comp
    have hmem := hset.perm.symm.subset hp
    have hnodup := hset.perm.nodup_iff.mpr hids
    have hrest : WeakSorted (heap'.less set.comp) (set.nodes.erase p) := by
      refine WeakSorted.congr (fun a ha b hb => ?_) (hset.erase p).sorted
      obtain ⟨hap, ha⟩ := hnodup.mem_erase_iff.mp ha
      obtain ⟨hbp, hb⟩ := hnodup.mem_erase_iff.mp hb
      exact Heap.less_congr _ (heq a (hset.perm.subset ha) hap) (heq b (hset.perm.subset hb) hbp)
    rw [← h.comps, List.map_cons]
    simp only [postModify, Bool.false_eq_true, ↓reduceIte]
    split
    · refine WeakOrdered.cons
        { set with nodes := insertEqual (heap'.less set.comp) p (set.nodes.erase p) }
        ⟨?_, ?_⟩ (ih ⟨rfl, hsets⟩)
      · exact (insertEqual_perm _ _ _).trans ((perm_cons_erase' hmem).trans hset.perm)
      · exact hrest.insertEqual hlt
    · next hfix =>
      exact WeakOrdered.cons set ⟨hset.perm, WeakSorted.of_not_needsFixup hlt hnodup hmem hfix hrest⟩
        (ih ⟨rfl, hsets⟩)

end Microchain.Chainbase
