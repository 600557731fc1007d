import Microchain.Chainbase.SnapshotTable

/-!
# The undo history of an `undo_index`

The undo lists read backwards in time. `Content` is what a table consists of
apart from its undo lists: the values and times of all nodes and which of them are
visible. `Content.rewind` takes one session back: the ids the session created are
gone, the values it backed up and the rows it removed are there again.

`History` is the invariant of the undo stack, one layer for each session: the
session's part of the two lists (`SessionOk`), then the history of the content
before it. It says in particular that a row was touched by a session exactly when
its time is not older than the session, which is how the code decides about backups.
-/

namespace Microchain.Chainbase

open Microchain.Lib

variable {V : Type}

/-- Values and times by id, which ids are visible, and the two counters. -/
@[ext] structure Content (V : Type) where
  vals : Nat → Option (V × Nat)
  live : Nat → Bool
  nextId : Nat
  clock : Nat

namespace Content

/-- The visible table. -/
def snapshot (c : Content V) : Snapshot V where
  row id := if c.live id then (c.vals id).map Prod.fst else none
  nextId := c.nextId

/-- The backup of `id` in a part of the old values. -/
def backup (olds : List (OldNode V)) (id : Nat) : Option (OldNode V) :=
  olds.find? (·.current == id)

/-- The values before a session that kept the backups `olds`. -/
def rewindVals (vals : Nat → Option (V × Nat)) (olds : List (OldNode V)) (id : Nat) :
    Option (V × Nat) :=
  match backup olds id with
  | some old => (vals id).map fun _ => (old.item.value, old.mtime)
  | none => vals id

/-- The content before the session `s`. -/
def rewind (c : Content V) (s : UndoState) (olds : List (OldNode V)) (removed : List Nat) :
    Content V where
  vals id := if id < s.oldNextId then rewindVals c.vals olds id else none
  live id := decide (id < s.oldNextId) && (c.live id || removed.contains id)
  nextId := s.oldNextId
  clock := s.ctime

theorem backup_eq_none {olds : List (OldNode V)} {id : Nat} :
    backup olds id = none ↔ id ∉ olds.map OldNode.current := by
  simp [backup]

theorem backup_cons (old : OldNode V) (olds : List (OldNode V)) (id : Nat) :
    backup (old :: olds) id = if id = old.current then some old else backup olds id := by
  rw [backup, List.find?_cons]
  by_cases h : id = old.current
  · simp [h]
  · have hne : (old.current == id) = false := by simpa using Ne.symm h
    rw [hne, if_neg h]
    rfl

theorem backup_of_mem {olds : List (OldNode V)} (hnodup : (olds.map OldNode.current).Nodup)
    {old : OldNode V} (hold : old ∈ olds) : backup olds old.current = some old := by
  induction olds with
  | nil => cases hold
  | cons x xs ih =>
    obtain ⟨hx, hxs⟩ := List.nodup_cons.mp hnodup
    rw [backup_cons]
    rcases List.mem_cons.mp hold with rfl | hmem
    · exact if_pos rfl
    · rw [if_neg fun h : old.current = x.current => hx (h ▸ List.mem_map_of_mem hmem)]
      exact ih hxs hmem

theorem backup_mem {olds : List (OldNode V)} {id : Nat} {old : OldNode V}
    (h : backup olds id = some old) : old ∈ olds ∧ old.current = id := by
  refine ⟨List.mem_of_find?_eq_some h, ?_⟩
  simpa using List.find?_some h

theorem backup_append_of_not_mem {olds olds' : List (OldNode V)} {id : Nat}
    (h : id ∉ olds.map OldNode.current) : backup (olds ++ olds') id = backup olds' id := by
  rw [backup, List.find?_append, ← backup, backup_eq_none.mpr h, Option.none_or, backup]

theorem rewindVals_of_not_mem {vals : Nat → Option (V × Nat)} {olds : List (OldNode V)} {id : Nat}
    (h : id ∉ olds.map OldNode.current) : rewindVals vals olds id = vals id := by
  rw [rewindVals, backup_eq_none.mpr h]

theorem rewindVals_of_mem {vals : Nat → Option (V × Nat)} {olds : List (OldNode V)}
    (hnodup : (olds.map OldNode.current).Nodup) {old : OldNode V} (hold : old ∈ olds) :
    rewindVals vals olds old.current =
      (vals old.current).map fun _ => (old.item.value, old.mtime) := by
  rw [rewindVals, backup_of_mem hnodup hold]

theorem rewindVals_congr {vals vals' : Nat → Option (V × Nat)} {olds : List (OldNode V)} {id : Nat}
    (h : vals id = vals' id) : rewindVals vals olds id = rewindVals vals' olds id := by
  rw [rewindVals, rewindVals, h]

theorem rewindVals_isSome (vals : Nat → Option (V × Nat)) (olds : List (OldNode V)) (id : Nat) :
    (rewindVals vals olds id).isSome = (vals id).isSome := by
  rw [rewindVals]
  cases backup olds id <;> simp

@[simp] theorem rewind_nextId (c : Content V) (s : UndoState) (olds removed) :
    (c.rewind s olds removed).nextId = s.oldNextId := rfl

@[simp] theorem rewind_clock (c : Content V) (s : UndoState) (olds removed) :
    (c.rewind s olds removed).clock = s.ctime := rfl

theorem rewind_live {c : Content V} {s : UndoState} {olds : List (OldNode V)} {removed : List Nat}
    {id : Nat} : (c.rewind s olds removed).live id = true ↔
      id < s.oldNextId ∧ (c.live id = true ∨ id ∈ removed) := by
  simp [rewind]

theorem rewind_vals {c : Content V} {s : UndoState} {olds : List (OldNode V)} {removed : List Nat}
    {id : Nat} (h : id < s.oldNextId) :
    (c.rewind s olds removed).vals id = rewindVals c.vals olds id := if_pos h

/-- Give `p` a value and a time. -/
def write (c : Content V) (p : Nat) (x : V × Nat) : Content V :=
  { c with vals := fun id => if id = p then some x else c.vals id }

/-- A row with the next id. -/
def create (c : Content V) (x : V × Nat) : Content V :=
  { c.write c.nextId x with
    live := fun id => if id = c.nextId then true else c.live id
    nextId := c.nextId + 1 }

/-- Make a row invisible. -/
def hide (c : Content V) (p : Nat) : Content V :=
  { c with live := fun id => if id = p then false else c.live id }

/-- Make a row invisible and destroy its node. -/
def destroy (c : Content V) (p : Nat) : Content V :=
  { c.hide p with vals := fun id => if id = p then none else c.vals id }

theorem create_snapshot (c : Content V) (x : V × Nat) :
    (c.create x).snapshot = c.snapshot.emplace x.1 := by
  refine Snapshot.ext (fun id => ?_) rfl
  by_cases hid : id = c.nextId <;>
    simp [snapshot, create, write, Snapshot.emplace, Snapshot.set, hid]

theorem write_snapshot {c : Content V} {p m m' : Nat} {v : V} {f : V → V}
    (hp : c.live p = true) (hval : c.vals p = some (v, m)) :
    (c.write p (f v, m')).snapshot = c.snapshot.modify p f := by
  refine Snapshot.ext (fun id => ?_) rfl
  by_cases hid : id = p
  · subst hid
    simp [snapshot, write, Snapshot.modify, Snapshot.set, hp, hval]
  · simp [snapshot, write, Snapshot.modify, Snapshot.set, hid]

theorem hide_snapshot (c : Content V) (p : Nat) :
    (c.hide p).snapshot = c.snapshot.remove p := by
  refine Snapshot.ext (fun id => ?_) rfl
  by_cases hid : id = p <;> simp [snapshot, hide, Snapshot.remove, Snapshot.set, hid]

theorem destroy_snapshot (c : Content V) (p : Nat) :
    (c.destroy p).snapshot = c.snapshot.remove p := by
  refine Snapshot.ext (fun id => ?_) rfl
  by_cases hid : id = p <;> simp [snapshot, destroy, hide, Snapshot.remove, Snapshot.set, hid]

/-- Destroy the nodes in `ids`. -/
def forget (c : Content V) (ids : List Nat) : Content V :=
  { c with vals := fun id => if id ∈ ids then none else c.vals id }

theorem forget_rewind (c : Content V) (s : UndoState) (olds : List (OldNode V))
    (removed ids : List Nat) :
    (c.forget ids).rewind s olds removed = (c.rewind s olds removed).forget ids := by
  simp only [rewind, forget, mk.injEq, and_true]
  funext id
  by_cases h : id ∈ ids
  · simp only [rewindVals, h, if_true, Option.map_none]
    split <;> [cases backup olds id <;> rfl; rfl]
  · simp only [rewindVals, h, if_false]

/-- Destroying invisible nodes does not change the table. -/
theorem forget_snapshot {c : Content V} {ids : List Nat} (h : ∀ id ∈ ids, c.live id = false) :
    (c.forget ids).snapshot = c.snapshot := by
  refine Snapshot.ext (fun id => ?_) rfl
  by_cases hid : id ∈ ids
  · simp [snapshot, forget, h id hid]
  · simp [snapshot, forget, hid]

end Content

/-! ## The invariant of the undo stack -/

/-- One session's part of the undo lists against the content after it. -/
structure SessionOk (c : Content V) (s : UndoState) (olds : List (OldNode V))
    (removed : List Nat) : Prop where
  nextId_le : s.oldNextId ≤ c.nextId
  ctime_le : s.ctime ≤ c.clock
  old_id : ∀ old ∈ olds, old.item.id = old.current
  old_mtime : ∀ old ∈ olds, old.mtime < s.ctime
  old_lt : ∀ old ∈ olds, old.current < s.oldNextId
  old_mem : ∀ old ∈ olds, c.live old.current = true ∨ old.current ∈ removed
  old_nodup : (olds.map OldNode.current).Nodup
  removed_lt : ∀ id ∈ removed, id < s.oldNextId
  touched : ∀ id v m, c.live id = true → c.vals id = some (v, m) →
    (s.ctime ≤ m ↔ s.oldNextId ≤ id ∨ id ∈ olds.map OldNode.current)

/-- The undo stack and its lists hold the tables `snaps`, newest first, each
without equivalent rows. -/
inductive History (comps : List (OrderedUnique V)) :
    List UndoState → List (OldNode V) → List Nat → Content V → List (Snapshot V) → Prop where
  | nil (olds removed c) : History comps [] olds removed c []
  | cons {s stack olds oldRest removed removedRest c snaps}
    (session : SessionOk c s olds removed)
    (old_end : s.oldValuesEnd = oldRest.head?.map OldNode.addr)
    (removed_end : s.removedValuesEnd = removedRest.head?)
    (rest_lt : ∀ id ∈ removedRest, id < s.oldNextId)
    (distinct : (c.rewind s olds removed).snapshot.Distinct comps)
    (before : History comps stack oldRest removedRest (c.rewind s olds removed) snaps) :
    History comps (s :: stack) (olds ++ oldRest) (removed ++ removedRest) c
      ((c.rewind s olds removed).snapshot :: snaps)

/-- The nodes against the removed list: all there, and none both visible and
removed. -/
structure Nodes (c : Content V) (removed : List Nat) : Prop where
  isSome : ∀ id, c.live id = true ∨ id ∈ removed → (c.vals id).isSome
  disjoint : ∀ id, c.live id = true → id ∉ removed
  nodup : removed.Nodup

/-- The nodes before a session. -/
theorem Nodes.rewind {c : Content V} {s : UndoState} {olds : List (OldNode V)}
    {removed removedRest : List Nat} (h : Nodes c (removed ++ removedRest))
    (hrest : ∀ id ∈ removedRest, id < s.oldNextId) :
    Nodes (c.rewind s olds removed) removedRest := by
  obtain ⟨-, hnodup, hdisj⟩ := List.nodup_append.mp h.nodup
  refine ⟨fun id hid => ?_, fun id hid hmem => ?_, hnodup⟩
  · have hlt : id < s.oldNextId := hid.elim (fun hl => (Content.rewind_live.mp hl).1) (hrest id)
    rw [Content.rewind_vals hlt, Content.rewindVals_isSome]
    refine h.isSome id ?_
    rcases hid with hl | hr
    · exact (Content.rewind_live.mp hl).2.imp_right (List.mem_append_left _)
    · exact .inr (List.mem_append_right _ hr)
  · rcases (Content.rewind_live.mp hid).2 with hl | hr
    · exact h.disjoint id hl (List.mem_append_right _ hmem)
    · exact hdisj id hr id hmem rfl

/-! ## What the operations do to the history -/

variable {comps : List (OrderedUnique V)}

/-- The newest layer of a history. -/
theorem History.uncons {s : UndoState} {stack : List UndoState} {olds : List (OldNode V)}
    {removed : List Nat} {c : Content V} {snap : Snapshot V} {snaps : List (Snapshot V)}
    (h : History comps (s :: stack) olds removed c (snap :: snaps)) :
    ∃ oldsA oldsB removedA removedB, olds = oldsA ++ oldsB ∧ removed = removedA ++ removedB ∧
      SessionOk c s oldsA removedA ∧ s.oldValuesEnd = oldsB.head?.map OldNode.addr ∧
      s.removedValuesEnd = removedB.head? ∧ (∀ id ∈ removedB, id < s.oldNextId) ∧
      snap = (c.rewind s oldsA removedA).snapshot ∧ snap.Distinct comps ∧
      History comps stack oldsB removedB (c.rewind s oldsA removedA) snaps := by
  cases h with
  | cons session old_end removed_end rest_lt distinct before =>
    exact ⟨_, _, _, _, rfl, rfl, session, old_end, removed_end, rest_lt, rfl, distinct, before⟩

/-- Time passing outside a session does not matter. -/
theorem History.tick {stack : List UndoState} {olds : List (OldNode V)} {removed : List Nat}
    {c : Content V} {snaps : List (Snapshot V)} (h : History comps stack olds removed c snaps)
    {clock : Nat} (hclock : c.clock ≤ clock) :
    History comps stack olds removed { c with clock } snaps := by
  cases h with
  | nil => exact .nil _ _ _
  | cons session old_end removed_end rest_lt distinct before =>
    exact .cons ⟨session.nextId_le, Nat.le_trans session.ctime_le hclock, session.old_id,
      session.old_mtime, session.old_lt, session.old_mem, session.old_nodup, session.removed_lt,
      session.touched⟩ old_end removed_end rest_lt distinct before

/-- A step that prepends to the undo lists and changes the content, but not the
content before the newest session. -/
theorem History.push {stack : List UndoState} {olds : List (OldNode V)} {removed : List Nat}
    {c c' : Content V} {snaps : List (Snapshot V)} (h : History comps stack olds removed c snaps)
    (olds' : List (OldNode V)) (removed' : List Nat)
    (hstep : ∀ s olds₁ removed₁, stack.head? = some s → SessionOk c s olds₁ removed₁ →
      SessionOk c' s (olds' ++ olds₁) (removed' ++ removed₁) ∧
        c'.rewind s (olds' ++ olds₁) (removed' ++ removed₁) = c.rewind s olds₁ removed₁) :
    History comps stack (olds' ++ olds) (removed' ++ removed) c' snaps := by
  cases h with
  | nil => exact .nil _ _ _
  | cons session old_end removed_end rest_lt distinct before =>
    obtain ⟨hsession, hrewind⟩ := hstep _ _ _ rfl session
    rw [← hrewind] at distinct before ⊢
    rw [← List.append_assoc, ← List.append_assoc]
    exact .cons hsession old_end removed_end rest_lt distinct before

/-- **Create**: a row with the next id and a current time. -/
theorem SessionOk.emplace {c : Content V} {s : UndoState} {olds : List (OldNode V)}
    {removed : List Nat} (h : SessionOk c s olds removed) (value : V) :
    SessionOk (c.create (value, c.clock)) s olds removed ∧
      (c.create (value, c.clock)).rewind s olds removed = c.rewind s olds removed := by
  have hlt : ∀ id, id < s.oldNextId → id ≠ c.nextId := fun id hid heq =>
    absurd h.nextId_le (by omega)
  refine ⟨⟨Nat.le_trans h.nextId_le (Nat.le_succ _), h.ctime_le, h.old_id, h.old_mtime, h.old_lt,
    fun old hold => ?_, h.old_nodup, h.removed_lt, fun id v m hlive hval => ?_⟩, ?_⟩
  · refine (h.old_mem old hold).imp_left fun hl => ?_
    simpa only [Content.create, Content.write, if_neg (hlt _ (h.old_lt old hold))] using hl
  · by_cases hid : id = c.nextId
    · have hm : m = c.clock := by
        simp only [Content.create, Content.write, if_pos hid, Option.some.injEq, Prod.mk.injEq] at hval
        exact hval.2.symm
      exact iff_of_true (hm ▸ h.ctime_le) (.inl (hid ▸ h.nextId_le))
    · simp only [Content.create, Content.write, if_neg hid] at hlive hval
      exact h.touched id v m hlive hval
  · simp only [Content.rewind, Content.create, Content.write, Content.mk.injEq, and_true]
    refine ⟨funext fun id => ?_, funext fun id => ?_⟩
    · by_cases hid : id < s.oldNextId
      · simp only [if_pos hid, Content.rewindVals, if_neg (hlt id hid)]
      · simp only [if_neg hid]
    · by_cases hid : id < s.oldNextId
      · simp only [if_neg (hlt id hid)]
      · simp only [hid, decide_false, Bool.false_and]

/-- **Modify** a row this session created or backed up. -/
theorem SessionOk.modify {c : Content V} {s : UndoState} {olds : List (OldNode V)}
    {removed : List Nat} (h : SessionOk c s olds removed) {p m : Nat} {v : V} (value : V)
    (hp : c.live p = true) (hval : c.vals p = some (v, m)) (hm : s.ctime ≤ m) :
    SessionOk (c.write p (value, m)) s olds removed ∧
      (c.write p (value, m)).rewind s olds removed = c.rewind s olds removed := by
  have htouched := (h.touched p v m hp hval).mp hm
  refine ⟨⟨h.nextId_le, h.ctime_le, h.old_id, h.old_mtime, h.old_lt, h.old_mem, h.old_nodup,
    h.removed_lt, fun id w m' hlive hw => ?_⟩, ?_⟩
  · by_cases hid : id = p
    · subst hid
      have hm' : m = m' := by
        simp only [Content.write, if_true, Option.some.injEq, Prod.mk.injEq] at hw
        exact hw.2
      exact iff_of_true (hm' ▸ hm) htouched
    · simp only [Content.write, if_neg hid] at hw
      exact h.touched id w m' hlive hw
  · simp only [Content.rewind, Content.write, Content.mk.injEq, and_true]
    funext id
    by_cases hid : id = p
    · subst hid
      by_cases hlt : id < s.oldNextId
      · -- the backup of the session hides the new value
        have hmem := htouched.resolve_left (by omega)
        obtain ⟨old, hold, hcur⟩ := List.mem_map.mp hmem
        rw [if_pos hlt, if_pos hlt, ← hcur, Content.rewindVals_of_mem h.old_nodup hold,
          Content.rewindVals_of_mem h.old_nodup hold, hcur, if_pos rfl, hval]
        rfl
      · rw [if_neg hlt, if_neg hlt]
    · simp only [Content.rewindVals, if_neg hid]

/-- **Modify** a row for the first time in this session: back it up. -/
theorem SessionOk.backup {c : Content V} {s : UndoState} {olds : List (OldNode V)}
    {removed : List Nat} (h : SessionOk c s olds removed) {p m addr : Nat} {v : V} (value : V)
    (hp : c.live p = true) (hval : c.vals p = some (v, m)) (hm : ¬ s.ctime ≤ m) :
    SessionOk (c.write p (value, c.clock)) s (⟨addr, ⟨p, v⟩, m, p⟩ :: olds) removed ∧
      (c.write p (value, c.clock)).rewind s (⟨addr, ⟨p, v⟩, m, p⟩ :: olds) removed =
        c.rewind s olds removed := by
  have hnew := mt (h.touched p v m hp hval).mpr hm
  rw [not_or, Nat.not_le] at hnew
  obtain ⟨hlt, hnmem⟩ := hnew
  have hfind : ∀ id, Content.backup (⟨addr, ⟨p, v⟩, m, p⟩ :: olds) id =
      if id = p then some ⟨addr, ⟨p, v⟩, m, p⟩ else Content.backup olds id :=
    Content.backup_cons _ olds
  refine ⟨⟨h.nextId_le, h.ctime_le, List.forall_mem_cons.mpr ⟨rfl, h.old_id⟩,
    List.forall_mem_cons.mpr ⟨Nat.not_le.mp hm, h.old_mtime⟩,
    List.forall_mem_cons.mpr ⟨hlt, h.old_lt⟩, List.forall_mem_cons.mpr ⟨.inl hp, h.old_mem⟩,
    List.nodup_cons.mpr ⟨hnmem, h.old_nodup⟩, h.removed_lt, fun id w m' hlive hw => ?_⟩, ?_⟩
  · -- the row is touched now, every other one is as it was
    by_cases hid : id = p
    · subst hid
      have hm' : c.clock = m' := by
        simp only [Content.write, if_true, Option.some.injEq, Prod.mk.injEq] at hw
        exact hw.2
      exact iff_of_true (hm' ▸ h.ctime_le) (.inr List.mem_cons_self)
    · simp only [Content.write, if_neg hid] at hw
      rw [h.touched id w m' hlive hw, List.map_cons, List.mem_cons]
      simp only [hid, false_or]
  · simp only [Content.rewind, Content.write, Content.mk.injEq, and_true]
    funext id
    by_cases hid : id = p
    · subst hid
      rw [if_pos hlt, if_pos hlt, Content.rewindVals, hfind, if_pos rfl,
        Content.rewindVals_of_not_mem hnmem, hval]
      simp
    · simp only [Content.rewindVals, hfind, if_neg hid]

/-- **Remove** a row this session created: its node is destroyed. -/
theorem SessionOk.destroy {c : Content V} {s : UndoState} {olds : List (OldNode V)}
    {removed : List Nat} (h : SessionOk c s olds removed) {p : Nat} (hp : s.oldNextId ≤ p) :
    SessionOk (c.destroy p) s olds removed ∧
      (c.destroy p).rewind s olds removed = c.rewind s olds removed := by
  have hlt : ∀ id, id < s.oldNextId → id ≠ p := fun id hid heq => by omega
  refine ⟨⟨h.nextId_le, h.ctime_le, h.old_id, h.old_mtime, h.old_lt, fun old hold => ?_,
    h.old_nodup, h.removed_lt, fun id v m hlive hval => ?_⟩, ?_⟩
  · refine (h.old_mem old hold).imp_left fun hl => ?_
    simpa only [Content.destroy, Content.hide, if_neg (hlt _ (h.old_lt old hold))] using hl
  · by_cases hid : id = p
    · simp [Content.destroy, Content.hide, hid] at hlive
    · simp only [Content.destroy, Content.hide, if_neg hid] at hlive hval
      exact h.touched id v m hlive hval
  · simp only [Content.rewind, Content.destroy, Content.hide, Content.mk.injEq, and_true]
    refine ⟨funext fun id => ?_, funext fun id => ?_⟩
    · by_cases hid : id < s.oldNextId
      · simp only [if_pos hid, Content.rewindVals, if_neg (hlt id hid)]
      · simp only [if_neg hid]
    · by_cases hid : id < s.oldNextId
      · simp only [if_neg (hlt id hid)]
      · simp only [hid, decide_false, Bool.false_and]

/-- **Remove** a row that was there before the session: keep its node. -/
theorem SessionOk.remove {c : Content V} {s : UndoState} {olds : List (OldNode V)}
    {removed : List Nat} (h : SessionOk c s olds removed) {p : Nat} (hp : p < s.oldNextId)
    (hlive : c.live p = true) :
    SessionOk (c.hide p) s olds (p :: removed) ∧
      (c.hide p).rewind s olds (p :: removed) = c.rewind s olds removed := by
  refine ⟨⟨h.nextId_le, h.ctime_le, h.old_id, h.old_mtime, h.old_lt, fun old hold => ?_,
    h.old_nodup, List.forall_mem_cons.mpr ⟨hp, h.removed_lt⟩, fun id v m hl hval => ?_⟩, ?_⟩
  · by_cases hid : old.current = p
    · exact .inr (hid ▸ List.mem_cons_self)
    · refine (h.old_mem old hold).imp (fun hl => ?_) (List.mem_cons_of_mem _)
      simpa only [Content.hide, if_neg hid] using hl
  · by_cases hid : id = p
    · simp [Content.hide, hid] at hl
    · simp only [Content.hide, if_neg hid] at hl
      exact h.touched id v m hl hval
  · simp only [Content.rewind, Content.hide, Content.mk.injEq, and_true, true_and]
    funext id
    by_cases hid : id = p
    · subst hid
      simp [hlive]
    · simp [hid]

/-- **Start**: nothing is touched by a session that starts now. -/
theorem SessionOk.start {c : Content V} {s : UndoState} (hnext : s.oldNextId = c.nextId)
    (hclock : s.ctime ≤ c.clock)
    (hold : ∀ id v m, c.live id = true → c.vals id = some (v, m) → id < c.nextId ∧ m < s.ctime) :
    SessionOk c s [] [] := by
  refine ⟨Nat.le_of_eq hnext, hclock, by simp, by simp, by simp, by simp, List.nodup_nil, by simp,
    fun id v m hlive hval => ?_⟩
  obtain ⟨hid, hm⟩ := hold id v m hlive hval
  simp only [List.map_nil, List.not_mem_nil, or_false, hnext]
  omega

theorem Content.rewind_start {c : Content V} {s : UndoState} (hnext : s.oldNextId = c.nextId)
    (hvals : ∀ id, c.nextId ≤ id → c.vals id = none)
    (hlive : ∀ id, c.live id = true → id < c.nextId) :
    c.rewind s [] [] = { c with clock := s.ctime } := by
  simp only [Content.rewind, Content.mk.injEq, and_true, hnext]
  refine ⟨funext fun id => ?_, funext fun id => ?_⟩
  · split
    · rfl
    · next h => exact (hvals id (by omega)).symm
  · cases hl : c.live id with
    | false => simp
    | true => simp [hlive id hl]

/-! ## Squash -/

namespace Content

/-- The content after the redundant parts of a session's lists are gone: rows that
only later sessions created are destroyed, and a removed row gets the value it had
before them. -/
def compress (c : Content V) (session : UndoState) (olds : List (OldNode V))
    (removed : List Nat) : Content V :=
  { c with
    vals := fun id =>
      if id ∈ removed ∧ session.oldNextId ≤ id then none
      else
        match backup olds id with
        | some old =>
          if old.mtime < session.ctime ∧ c.live id = false then
            (c.vals id).map fun _ => (old.item.value, old.mtime)
          else c.vals id
        | none => c.vals id }

/-- The backups that are not redundant. -/
def keptOlds (c : Content V) (session : UndoState) (olds : List (OldNode V)) :
    List (OldNode V) :=
  olds.filter fun old => decide (old.mtime < session.ctime) && c.live old.current

theorem mem_keptOlds {c : Content V} {session : UndoState} {olds : List (OldNode V)}
    {old : OldNode V} : old ∈ c.keptOlds session olds ↔
      old ∈ olds ∧ old.mtime < session.ctime ∧ c.live old.current = true := by
  simp [keptOlds]

theorem compress_vals_live {c : Content V} {session : UndoState} {olds : List (OldNode V)}
    {removed : List Nat} {id : Nat} (hlive : c.live id = true) (hmem : id ∉ removed) :
    (c.compress session olds removed).vals id = c.vals id := by
  simp only [compress, hmem, false_and, if_false, hlive, Bool.true_eq_false, and_false]
  split <;> rfl

theorem compress_snapshot {c : Content V} {session : UndoState} {olds : List (OldNode V)}
    {removed : List Nat} (h : ∀ id, c.live id = true → id ∉ removed) :
    (c.compress session olds removed).snapshot = c.snapshot := by
  refine Snapshot.ext (fun id => ?_) rfl
  cases hlive : c.live id with
  | true =>
    show (if c.live id then ((c.compress session olds removed).vals id).map Prod.fst else none) =
      if c.live id then (c.vals id).map Prod.fst else none
    rw [compress_vals_live hlive (h id hlive)]
  | false => simp [snapshot, compress, hlive]

theorem compress_isSome {c : Content V} {session : UndoState} {olds : List (OldNode V)}
    {removed : List Nat} {id : Nat} (hlt : id < session.oldNextId) :
    ((c.compress session olds removed).vals id).isSome = (c.vals id).isSome := by
  simp only [compress, Nat.not_le.mpr hlt, and_false, if_false]
  split
  · split <;> simp
  · rfl

end Content

section Squash

variable {c : Content V} {s₁ s₂ : UndoState} {olds olds₁ : List (OldNode V)}
  {removed removed₁ : List Nat}

/-- A backup of the last session is as old as the session before it exactly when
that session had touched the row too. -/
theorem SessionOk.old_touched (h₂ : SessionOk c s₂ olds removed)
    (h₁ : SessionOk (c.rewind s₂ olds removed) s₁ olds₁ removed₁)
    (hsome : ∀ old ∈ olds, (c.vals old.current).isSome) {old : OldNode V} (hold : old ∈ olds) :
    s₁.ctime ≤ old.mtime ↔
      s₁.oldNextId ≤ old.current ∨ old.current ∈ olds₁.map OldNode.current := by
  have hlt := h₂.old_lt old hold
  refine h₁.touched old.current old.item.value old.mtime
    (Content.rewind_live.mpr ⟨hlt, h₂.old_mem old hold⟩) ?_
  obtain ⟨v, hv⟩ := Option.isSome_iff_exists.mp (hsome old hold)
  rw [Content.rewind_vals hlt, Content.rewindVals_of_mem h₂.old_nodup hold, hv, Option.map_some]

/-- The rows backed up by the session before are not among the backups kept. -/
theorem SessionOk.not_mem_kept (h₂ : SessionOk c s₂ olds removed)
    (h₁ : SessionOk (c.rewind s₂ olds removed) s₁ olds₁ removed₁)
    (hsome : ∀ old ∈ olds, (c.vals old.current).isSome) {id : Nat}
    (hid : id ∈ olds₁.map OldNode.current) :
    id ∉ (c.keptOlds s₁ olds).map OldNode.current := by
  intro hkept
  obtain ⟨old, hold, rfl⟩ := List.mem_map.mp hkept
  obtain ⟨hold, hm, -⟩ := Content.mem_keptOlds.mp hold
  exact absurd ((h₂.old_touched h₁ hsome hold).mpr (.inr hid)) (Nat.not_le.mpr hm)

/-- **Squash**, the values before both sessions. -/
theorem SessionOk.squash_vals (h₂ : SessionOk c s₂ olds removed)
    (h₁ : SessionOk (c.rewind s₂ olds removed) s₁ olds₁ removed₁)
    (hsome : ∀ old ∈ olds, (c.vals old.current).isSome)
    (hdisj : ∀ id, c.live id = true → id ∉ removed) {id : Nat} (hlt : id < s₁.oldNextId) :
    Content.rewindVals (c.compress s₁ olds removed).vals (c.keptOlds s₁ olds ++ olds₁) id =
      Content.rewindVals (Content.rewindVals c.vals olds) olds₁ id := by
  have hconst : ∀ {x y : Option (V × Nat)} (w : V × Nat), x.isSome = y.isSome →
      x.map (fun _ => w) = y.map fun _ => w := by
    intro x y w hxy
    cases x <;> cases y <;> simp_all
  by_cases h1 : id ∈ olds₁.map OldNode.current
  · -- the backup of the earlier session hides everything the later one did
    obtain ⟨old, hold, rfl⟩ := List.mem_map.mp h1
    rw [Content.rewindVals, Content.backup_append_of_not_mem (h₂.not_mem_kept h₁ hsome h1),
      Content.backup_of_mem h₁.old_nodup hold, Content.rewindVals_of_mem h₁.old_nodup hold]
    refine hconst _ ?_
    rw [Content.compress_isSome hlt, Content.rewindVals_isSome]
  · rw [Content.rewindVals_of_not_mem h1]
    by_cases h2 : id ∈ olds.map OldNode.current
    · obtain ⟨old, hold, rfl⟩ := List.mem_map.mp h2
      have hm : old.mtime < s₁.ctime := by
        by_contra hnot
        rcases (h₂.old_touched h₁ hsome hold).mp (Nat.not_lt.mp hnot) with hle | hmem
        · omega
        · exact h1 hmem
      rw [Content.rewindVals_of_mem h₂.old_nodup hold]
      cases hlive : c.live old.current with
      | true =>
        have hkept := Content.mem_keptOlds.mpr ⟨hold, hm, hlive⟩
        have hback : Content.backup (c.keptOlds s₁ olds ++ olds₁) old.current = some old := by
          have hnodup : ((c.keptOlds s₁ olds).map OldNode.current).Nodup :=
            h₂.old_nodup.sublist (List.filter_sublist.map _)
          rw [Content.backup, List.find?_append, ← Content.backup,
            Content.backup_of_mem hnodup hkept, Option.some_or]
        rw [Content.rewindVals, hback, Content.compress_vals_live hlive (hdisj _ hlive)]
      | false =>
        have hnot : old.current ∉ (c.keptOlds s₁ olds ++ olds₁).map OldNode.current := by
          rw [List.map_append, List.mem_append, not_or]
          refine ⟨fun hmem => ?_, h1⟩
          obtain ⟨old', hold', heq⟩ := List.mem_map.mp hmem
          rw [← heq, (Content.mem_keptOlds.mp hold').2.2] at hlive
          cases hlive
        rw [Content.rewindVals_of_not_mem hnot]
        simp only [Content.compress, Nat.not_le.mpr hlt, and_false, if_false,
          Content.backup_of_mem h₂.old_nodup hold, hm, hlive, and_self, if_true]
    · have hnot : id ∉ (c.keptOlds s₁ olds ++ olds₁).map OldNode.current := by
        rw [List.map_append, List.mem_append, not_or]
        exact ⟨fun hmem => h2 ((List.filter_sublist.map _).subset hmem), h1⟩
      rw [Content.rewindVals_of_not_mem hnot, Content.rewindVals_of_not_mem h2]
      simp only [Content.compress, Nat.not_le.mpr hlt, and_false, if_false,
        Content.backup_eq_none.mpr h2]

/-- **Squash**: without its redundant parts the last session's lists belong to the
session before it. -/
theorem SessionOk.squash (h₂ : SessionOk c s₂ olds removed)
    (h₁ : SessionOk (c.rewind s₂ olds removed) s₁ olds₁ removed₁)
    (hsome : ∀ old ∈ olds, (c.vals old.current).isSome)
    (hdisj : ∀ id, c.live id = true → id ∉ removed) :
    SessionOk (c.compress s₁ olds removed) s₁ (c.keptOlds s₁ olds ++ olds₁)
        (removed.filter (· < s₁.oldNextId) ++ removed₁) ∧
      (c.compress s₁ olds removed).rewind s₁ (c.keptOlds s₁ olds ++ olds₁)
          (removed.filter (· < s₁.oldNextId) ++ removed₁) =
        (c.rewind s₂ olds removed).rewind s₁ olds₁ removed₁ := by
  have hnext : s₁.oldNextId ≤ s₂.oldNextId := h₁.nextId_le
  have hctime : s₁.ctime ≤ s₂.ctime := h₁.ctime_le
  refine ⟨⟨Nat.le_trans hnext h₂.nextId_le, Nat.le_trans hctime h₂.ctime_le, ?_, ?_, ?_, ?_, ?_,
    ?_, ?_⟩, ?_⟩
  · refine List.forall_mem_append.mpr ⟨fun old hold => ?_, h₁.old_id⟩
    exact h₂.old_id old (Content.mem_keptOlds.mp hold).1
  · refine List.forall_mem_append.mpr ⟨fun old hold => ?_, h₁.old_mtime⟩
    exact (Content.mem_keptOlds.mp hold).2.1
  · refine List.forall_mem_append.mpr ⟨fun old hold => ?_, h₁.old_lt⟩
    obtain ⟨hold, hm, -⟩ := Content.mem_keptOlds.mp hold
    exact Nat.not_le.mp fun hle =>
      absurd ((h₂.old_touched h₁ hsome hold).mpr (.inl hle)) (Nat.not_le.mpr hm)
  · refine List.forall_mem_append.mpr ⟨fun old hold => ?_, fun old hold => ?_⟩
    · exact .inl (Content.mem_keptOlds.mp hold).2.2
    · rw [List.mem_append, List.mem_filter]
      rcases h₁.old_mem old hold with hl | hr
      · rcases (Content.rewind_live.mp hl).2 with hl | hr
        · exact .inl hl
        · exact .inr (.inl ⟨hr, decide_eq_true (h₁.old_lt old hold)⟩)
      · exact .inr (.inr hr)
  · rw [List.map_append]
    refine List.nodup_append.mpr ⟨h₂.old_nodup.sublist (List.filter_sublist.map _), h₁.old_nodup,
      ?_⟩
    rintro id hid _ hid' rfl
    exact h₂.not_mem_kept h₁ hsome hid' hid
  · refine List.forall_mem_append.mpr ⟨fun id hid => ?_, h₁.removed_lt⟩
    exact of_decide_eq_true (List.mem_filter.mp hid).2
  · intro id v m (hlive : c.live id = true) hval
    have hmem := hdisj id hlive
    rw [Content.compress_vals_live hlive hmem] at hval
    rw [List.map_append, List.mem_append]
    -- the last session touched the row, or the one before it decides
    by_cases hm : s₂.ctime ≤ m
    · refine iff_of_true (Nat.le_trans hctime hm) ?_
      rcases (h₂.touched id v m hlive hval).mp hm with hle | hold
      · exact .inl (Nat.le_trans hnext hle)
      · obtain ⟨old, hback, rfl⟩ := List.mem_map.mp hold
        by_cases hkept : old.mtime < s₁.ctime
        · exact .inr (.inl (List.mem_map_of_mem
            (Content.mem_keptOlds.mpr ⟨hback, hkept, hlive⟩)))
        · exact ((h₂.old_touched h₁ hsome hback).mp (Nat.not_lt.mp hkept)).imp_right .inr
    · -- not touched by the last session: the session before decides
      have hnew := mt (h₂.touched id v m hlive hval).mpr hm
      rw [not_or, Nat.not_le] at hnew
      have hold := h₁.touched id v m (Content.rewind_live.mpr ⟨hnew.1, .inl hlive⟩)
        (by rw [Content.rewind_vals hnew.1, Content.rewindVals_of_not_mem hnew.2, hval])
      have hkept : id ∉ (c.keptOlds s₁ olds).map OldNode.current :=
        fun hid => hnew.2 ((List.filter_sublist.map _).subset hid)
      simpa only [hkept, false_or] using hold
  · simp only [Content.rewind, Content.mk.injEq, and_true]
    refine ⟨funext fun id => ?_, funext fun id => ?_⟩
    · by_cases hlt : id < s₁.oldNextId
      · rw [if_pos hlt, if_pos hlt, h₂.squash_vals h₁ hsome hdisj hlt]
        refine Content.rewindVals_congr ?_
        rw [if_pos (Nat.lt_of_lt_of_le hlt hnext)]
      · rw [if_neg hlt, if_neg hlt]
    · by_cases hlt : id < s₁.oldNextId
      · have hlt₂ : id < s₂.oldNextId := Nat.lt_of_lt_of_le hlt hnext
        simp [Content.compress, hlt, hlt₂, Bool.or_assoc]
      · simp [hlt]

end Squash

/-! ## Commit -/

/-- Destroying nodes keeps a session's part of the lists right. -/
theorem SessionOk.forget {c : Content V} {s : UndoState} {olds : List (OldNode V)}
    {removed : List Nat} (h : SessionOk c s olds removed) (ids : List Nat) :
    SessionOk (c.forget ids) s olds removed := by
  refine ⟨h.nextId_le, h.ctime_le, h.old_id, h.old_mtime, h.old_lt, h.old_mem, h.old_nodup,
    h.removed_lt, fun id v m hlive hval => h.touched id v m hlive ?_⟩
  simp only [Content.forget] at hval
  split at hval
  · cases hval
  · exact hval

/-- **Commit** of everything before the session `s`: its heads are all that is left
behind of the lists after it. -/
theorem History.truncate {stack : List UndoState} {olds : List (OldNode V)} {removed : List Nat}
    {c : Content V} {snaps : List (Snapshot V)} (h : History comps stack olds removed c snaps)
    (hnodes : Nodes c removed) {k : Nat} {s : UndoState} (hs : stack[k]? = some s) :
    ∃ oldsA oldsB removedA removedB, olds = oldsA ++ oldsB ∧ removed = removedA ++ removedB ∧
      s.oldValuesEnd = oldsB.head?.map OldNode.addr ∧ s.removedValuesEnd = removedB.head? ∧
      History comps (stack.take (k + 1)) (oldsA ++ oldsB.take 1) (removedA ++ removedB.take 1)
        (c.forget removedB.tail) (snaps.take (k + 1)) := by
  induction h generalizing k with
  | nil => cases hs
  | @cons s' stack olds oldRest removed removedRest c snaps session old_end removed_end rest_lt
      distinct before ih =>
    have hbefore : Nodes (c.rewind s' olds removed) removedRest := hnodes.rewind rest_lt
    cases k with
    -- the oldest session that stays: the lists after its heads are given up
    | zero =>
      obtain rfl : s' = s := Option.some.inj hs
      have hdead : ∀ id ∈ removedRest.tail, (c.rewind s' olds removed).live id = false := by
        intro id hid
        refine Bool.eq_false_iff.mpr fun hlive => ?_
        exact hbefore.disjoint id hlive (List.mem_of_mem_tail hid)
      have hsnap : ((c.forget removedRest.tail).rewind s' olds removed).snapshot =
          (c.rewind s' olds removed).snapshot := by
        rw [Content.forget_rewind, Content.forget_snapshot hdead]
      refine ⟨olds, oldRest, removed, removedRest, rfl, rfl, old_end, removed_end, ?_⟩
      rw [List.take_succ_cons, List.take_zero, List.take_succ_cons, List.take_zero, ← hsnap]
      refine .cons (session.forget _) (by rw [old_end]; cases oldRest <;> rfl)
        (by rw [removed_end]; cases removedRest <;> rfl)
        (fun id hid => rest_lt id (List.mem_of_mem_take hid)) (hsnap ▸ distinct) (.nil _ _ _)
    -- a newer session keeps its part and goes on
    | succ k =>
      obtain ⟨oldsA, oldsB, removedA, removedB, rfl, rfl, hold, hremoved, htail⟩ := ih hbefore hs
      have hdead : ∀ id ∈ removedB.tail, (c.rewind s' olds removed).live id = false := by
        intro id hid
        refine Bool.eq_false_iff.mpr fun hlive => ?_
        exact hbefore.disjoint id hlive
          (List.mem_append_right _ (List.mem_of_mem_tail hid))
      have hsnap : ((c.forget removedB.tail).rewind s' olds removed).snapshot =
          (c.rewind s' olds removed).snapshot := by
        rw [Content.forget_rewind, Content.forget_snapshot hdead]
      refine ⟨olds ++ oldsA, oldsB, removed ++ removedA, removedB, by simp, by simp, hold, hremoved,
        ?_⟩
      rw [List.take_succ_cons, List.take_succ_cons, ← hsnap, List.append_assoc, List.append_assoc]
      refine .cons (session.forget _) ?_ ?_ (fun id hid => ?_) (hsnap ▸ distinct) ?_
      · rw [old_end]
        cases oldsA <;> cases oldsB <;> rfl
      · rw [removed_end]
        cases removedA <;> cases removedB <;> rfl
      · refine rest_lt id ?_
        rcases List.mem_append.mp hid with hid | hid
        · exact List.mem_append_left _ hid
        · exact List.mem_append_right _ (List.mem_of_mem_take hid)
      · rw [Content.forget_rewind]
        exact htail

end Microchain.Chainbase
