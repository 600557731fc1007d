import Microchain.Chainbase.Rollback

/-!
# An `undo_index` refines a table with copies

Every run of a client that raises no uniqueness error shows the rows, the next id
and the contents of every secondary index of the table with whole-table copies.

- `TableOp.apply_refines`: one operation, from the theorems of `UndoIndexInv` and
  `Rollback`.
- `TableOp.run_refines`: **the run theorem**.
-/

namespace Microchain.Chainbase

open Microchain.Lib

variable {V : Type} {comps : List (OrderedUnique V)}

/-! ## What a client sees -/

/-- The rows in id order are those of the copy's map. -/
theorem Store.rows_eq {u : UndoIndex V} (h : Store comps u) : u.rows = u.content.snapshot.rows := by
  have hbyId : u.byId = (List.range u.nextId).filter (u.byId.contains ·) := by
    have hsorted : Sorted idLess ((List.range u.nextId).filter (u.byId.contains ·)) :=
      (List.pairwise_lt_range.imp fun hab => decide_eq_true hab).sublist List.filter_sublist
    refine h.byId_sorted.eq_of_perm idLess_strictWeak hsorted ?_
    refine (List.perm_ext_iff_of_nodup h.byId_nodup (hsorted.nodup idLess_strictWeak)).mpr ?_
    intro p
    simp only [List.mem_filter, List.mem_range, List.contains_eq_mem, decide_eq_true_eq]
    exact ⟨fun hp => ⟨h.lt_next (.inl hp), hp⟩, fun hp => hp.2⟩
  rw [UndoIndex.rows, hbyId, List.filterMap_filter, Snapshot.rows]
  refine List.filterMap_congr fun p _ => ?_
  rw [h.row_eq]
  simp

/-- The rows of a secondary index are strictly increasing. -/
theorem Store.contents_sorted {u : UndoIndex V} (h : Store comps u) {set : SetImpl V}
    (hset : set ∈ u.secondary) : Sorted set.comp.less (u.contents set) := by
  have hord := h.indices.each set hset
  refine List.pairwise_filterMap.mpr (hord.sorted.imp fun {p q} hpq a hp b hq => ?_)
  rwa [← Heap.less_of_items hp hq]

/-- A secondary index holds the rows in its order. -/
theorem Store.contents_eq {u : UndoIndex V} (h : Store comps u) {set : SetImpl V}
    (hset : set ∈ u.secondary) : u.contents set = u.content.snapshot.index set.comp := by
  rw [Snapshot.index, ← h.rows_eq]
  exact (h.contents_sorted hset).eq_sortBy set.comp.strictWeak
    ((h.indices.each set hset).perm.filterMap _)

theorem Store.secondary_comps {u : UndoIndex V} (h : Store comps u) :
    u.secondary.map SetImpl.comp = comps := h.indices.comps

/-! ## Runs -/

theorem Refines.empty (comps : List (OrderedUnique V)) :
    Refines comps (UndoIndex.empty comps) .empty := by
  refine ⟨⟨by simp [UndoIndex.empty], by simp [UndoIndex.empty], List.Pairwise.nil,
    by simp [UndoIndex.empty], List.nodup_nil, List.nodup_nil, by simp [UndoIndex.empty], ?_, ?_⟩,
    .nil _ _ _, rfl, rfl, trivial⟩
  · simp [UndoIndex.empty, Function.comp_def]
  · intro set hset
    obtain ⟨comp, -, rfl⟩ := List.mem_map.mp hset
    exact ⟨List.Perm.refl _, List.Pairwise.nil⟩

/-- Changing an id that has no row changes nothing. -/
theorem Snapshot.set_none_of_none {s : Snapshot V} {id : Nat} (h : s.row id = none) :
    s.set id none = s := by
  refine Snapshot.ext (fun i => ?_) rfl
  by_cases hi : i = id
  · rw [hi, h]
    exact if_pos rfl
  · exact if_neg hi

/-- **One operation** carries the refinement over. -/
theorem TableOp.apply_refines {u u' : UndoIndex V} {t : SnapshotTable V} {op : TableOp V}
    (h : Refines comps u t) (hop : apply u op = some u') :
    Refines comps u' (applySnapshots t op) := by
  have hfind : ∀ id, u.find id = (t.current.row id).map (Object.mk id) := fun id => by
    rw [h.store.find_eq, h.current]
  have hmem : ∀ id obj, u.find id = some obj → obj.id = id ∧ id ∈ u.byId := by
    intro id obj hobj
    have hid := hobj
    rw [hfind] at hid
    obtain ⟨v, -, rfl⟩ := Option.map_eq_some_iff.mp hid
    rw [UndoIndex.find] at hobj
    split at hobj
    · next hb => exact ⟨rfl, hb⟩
    · cases hobj
  cases op with
  | emplace value =>
    simp only [apply] at hop
    split at hop
    · next p v hemplace =>
      obtain rfl := Option.some.inj hop
      exact (h.emplace hemplace).1
    · cases hop
  | modify id m =>
    simp only [apply] at hop
    split at hop
    · next hnone =>
      obtain rfl := Option.some.inj hop
      rw [hfind, Option.map_eq_none_iff] at hnone
      simp only [applySnapshots, Snapshot.modify, hnone, Option.map_none,
        Snapshot.set_none_of_none hnone]
      exact h
    · next obj hobj =>
      obtain ⟨rfl, hb⟩ := hmem id obj hobj
      split at hop
      · next v hmodify =>
        obtain rfl := Option.some.inj hop
        exact h.modify hb hmodify
      · cases hop
  | remove id =>
    simp only [apply] at hop
    split at hop
    · next hnone =>
      obtain rfl := Option.some.inj hop
      rw [hfind, Option.map_eq_none_iff] at hnone
      simp only [applySnapshots, Snapshot.remove, Snapshot.set_none_of_none hnone]
      exact h
    · next obj hobj =>
      obtain ⟨rfl, hb⟩ := hmem id obj hobj
      obtain rfl := Option.some.inj hop
      exact h.remove hb
  | startSession enabled =>
    obtain rfl := Option.some.inj hop
    cases enabled with
    | true => exact h.addSession
    | false => exact h
  | push session =>
    obtain rfl := Option.some.inj hop
    exact h
  | undo =>
    obtain rfl := Option.some.inj hop
    exact h.undo
  | squash =>
    obtain rfl := Option.some.inj hop
    exact h.squash
  | commit revision =>
    obtain rfl := Option.some.inj hop
    exact h.commit revision

theorem TableOp.run_refines_from {u u' : UndoIndex V} {t : SnapshotTable V} {ops : List (TableOp V)}
    (h : Refines comps u t) (hrun : run u ops = some u') :
    Refines comps u' (runSnapshots t ops) := by
  induction ops generalizing u t with
  | nil =>
    obtain rfl := Option.some.inj hrun
    exact h
  | cons op ops ih =>
    obtain ⟨v, hop, hrest⟩ := Option.bind_eq_some_iff.mp hrun
    exact ih (apply_refines h hop) hrest

/-- **The undo-able table refines a table with copies**: after every run without a
uniqueness error the visible rows, the next id and every secondary index are those
of the model that copies the whole table at each session start. -/
theorem TableOp.run_refines (comps : List (OrderedUnique V)) (ops : List (TableOp V))
    (u : UndoIndex V) (hrun : run (UndoIndex.empty comps) ops = some u) :
    let t := runSnapshots .empty ops
    u.rows = t.current.rows ∧ u.nextId = t.current.nextId ∧
      (∀ id, u.find id = (t.current.row id).map (Object.mk id)) ∧
      u.secondary.map SetImpl.comp = comps ∧
      ∀ set ∈ u.secondary, u.contents set = t.current.index set.comp := by
  intro t
  have h : Refines comps u t := run_refines_from (Refines.empty comps) hrun
  have hs := h.store
  rw [← h.current]
  exact ⟨hs.rows_eq, rfl, hs.find_eq, hs.secondary_comps, fun _ hset => hs.contents_eq hset⟩

/-- Values in their own order, as a comparison object. -/
def byValue : OrderedUnique Nat where
  less a b := decide (a.value < b.value)
  strictWeak := ⟨fun a b => by simp only [decide_eq_true_eq]; omega,
    fun a b c => by simp only [decide_eq_true_eq]; omega⟩

theorem TableOp.run_refines_example : ∃ u : UndoIndex Nat,
    run (UndoIndex.empty [byValue]) [.emplace 5, .emplace 3, .startSession true, .modify 0 (· - 3),
      .remove 1, .startSession true, .emplace 7, .squash, .undo] = some u ∧
    u.rows = [⟨0, 5⟩, ⟨1, 3⟩] ∧ u.nextId = 2 := by
  have hsome : (run (UndoIndex.empty [byValue]) [.emplace 5, .emplace 3, .startSession true,
      .modify 0 (· - 3), .remove 1, .startSession true, .emplace 7, .squash, .undo]).isSome := by
    decide
  obtain ⟨u, hu⟩ := Option.isSome_iff_exists.mp hsome
  obtain ⟨hrows, hnext, -⟩ := run_refines [byValue] _ u hu
  exact ⟨u, hu, hrows.trans (by decide), hnext.trans (by decide)⟩

end Microchain.Chainbase
