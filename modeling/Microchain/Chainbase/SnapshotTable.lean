import Microchain.Chainbase.UndoIndex

/-!
# Tables with whole-table copies

What an undo-able table is for, without its data structures: a map from ids to
values and the next id (`Snapshot`), copied as a whole whenever an undo session
starts (`SnapshotTable`). Undo restores and drops the newest copy, squash drops it
and keeps the rows, commit drops the copies of the sessions up to a revision.

`TableOp` lists the operations of a client of `undo_index`; `TableOp.run` runs
them on the table of the code, `TableOp.runSnapshots` on the copies.
-/

namespace Microchain.Chainbase

open Microchain.Lib

variable {V : Type}

/-- A whole table: the value of each id and the next id. -/
structure Snapshot (V : Type) where
  row : Nat → Option V
  nextId : Nat

namespace Snapshot

@[ext] theorem ext {s t : Snapshot V} (hrow : ∀ id, s.row id = t.row id)
    (hnext : s.nextId = t.nextId) : s = t := by
  cases s
  cases t
  simp only [mk.injEq]
  exact ⟨funext hrow, hnext⟩

def empty : Snapshot V := ⟨fun _ => none, 0⟩

/-- The rows in id order. -/
def rows (s : Snapshot V) : List (Object V) :=
  (List.range s.nextId).filterMap fun id => (s.row id).map (Object.mk id)

/-- The rows in the order of a secondary index. -/
def index (s : Snapshot V) (comp : OrderedUnique V) : List (Object V) :=
  sortBy comp.less s.rows

/-- Replace one row. -/
def set (s : Snapshot V) (id : Nat) (value : Option V) : Snapshot V :=
  { s with row := fun i => if i = id then value else s.row i }

def emplace (s : Snapshot V) (value : V) : Snapshot V :=
  { s.set s.nextId (some value) with nextId := s.nextId + 1 }

def modify (s : Snapshot V) (id : Nat) (m : V → V) : Snapshot V := s.set id ((s.row id).map m)

def remove (s : Snapshot V) (id : Nat) : Snapshot V := s.set id none

/-- No two rows are equivalent under one of the comparison objects. -/
def Distinct (comps : List (OrderedUnique V)) (s : Snapshot V) : Prop :=
  ∀ comp ∈ comps, ∀ p q v w, s.row p = some v → s.row q = some w → p ≠ q →
    ¬ Equivalent comp.less ⟨p, v⟩ ⟨q, w⟩

end Snapshot

/-- The copy taken when the session with number `revision` started. -/
structure Copy (V : Type) where
  revision : Int
  table : Snapshot V

/-- A table and its copies, newest first. -/
structure SnapshotTable (V : Type) where
  current : Snapshot V
  copies : List (Copy V)
  revision : Int

namespace SnapshotTable

def empty : SnapshotTable V := ⟨.empty, [], 0⟩

/-- Start a session: copy the whole table. -/
def startSession (t : SnapshotTable V) : SnapshotTable V :=
  { t with copies := ⟨t.revision + 1, t.current⟩ :: t.copies, revision := t.revision + 1 }

/-- Restore and drop the newest copy. -/
def undo (t : SnapshotTable V) : SnapshotTable V :=
  match t.copies with
  | [] => t
  | copy :: copies => ⟨copy.table, copies, t.revision - 1⟩

/-- Drop the newest copy. -/
def squash (t : SnapshotTable V) : SnapshotTable V :=
  match t.copies with
  | [] => t
  | _ :: copies => { t with copies, revision := t.revision - 1 }

/-- Drop the copies of all sessions up to `revision`. -/
def commit (t : SnapshotTable V) (revision : Int) : SnapshotTable V :=
  { t with copies := t.copies.filter (revision < ·.revision) }

end SnapshotTable

/-! ## Operations -/

/-- What a client does with a table. `modify` and `remove` act on the row that
`find` gives for the id, if there is one. -/
inductive TableOp (V : Type) where
  | emplace (value : V)
  | modify (id : Nat) (m : V → V)
  | remove (id : Nat)
  | startSession (enabled : Bool)
  | push (session : Session)
  | undo
  | squash
  | commit (revision : Int)

namespace TableOp

/-- An operation on the table of the code; `none` when it raises an error. -/
def apply (u : UndoIndex V) : TableOp V → Option (UndoIndex V)
  | emplace value =>
    match u.emplace value with
    | (.ok _, u) => some u
    | (.error _, _) => none
  | modify id m =>
    match u.find id with
    | none => some u
    | some obj =>
      match u.modify obj.id m with
      | (.ok _, u) => some u
      | (.error _, _) => none
  | remove id =>
    match u.find id with
    | none => some u
    | some obj => some (u.remove obj.id)
  | startSession enabled => some (Session.start u enabled).2
  | push session => some (session.push.destroy u)
  | undo => some u.undo
  | squash => some u.squash
  | commit revision => some (u.commit revision)

/-- The same operation on a table with copies. -/
def applySnapshots (t : SnapshotTable V) : TableOp V → SnapshotTable V
  | emplace value => { t with current := t.current.emplace value }
  | modify id m => { t with current := t.current.modify id m }
  | remove id => { t with current := t.current.remove id }
  | startSession enabled => if enabled then t.startSession else t
  | push _ => t
  | undo => t.undo
  | squash => t.squash
  | commit revision => t.commit revision

/-- A run on the table of the code that raises no error. -/
def run (u : UndoIndex V) : List (TableOp V) → Option (UndoIndex V)
  | [] => some u
  | op :: ops => (apply u op).bind (run · ops)

/-- The same run on copies. -/
def runSnapshots (t : SnapshotTable V) (ops : List (TableOp V)) : SnapshotTable V :=
  ops.foldl applySnapshots t

end TableOp

end Microchain.Chainbase
