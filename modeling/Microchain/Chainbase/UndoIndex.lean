import Microchain.Lib.OrderedList

/-!
# `chainbase::undo_index`

The table behind the micro chain's database, from
`libraries/clchain/include/chainbase/undo_index.hpp`: rows with a managed
primary key, any number of `ordered_unique` secondary indices, and undo sessions
kept as two shared lists (`oldValues`, `removedValues`) that the sessions cut up
by remembering their heads.

Pointers are modelled as follows. A `node` keeps its id for its whole life and
ids are not reused while a node lives, so the id of its object stands for the
address of a node (`heap`). An `old_node` gets the next number of `oldAlloc` as
its address. Index 0 orders its nodes by id (`byId`); a secondary index
(`SetImpl`) is the list of its nodes in tree order, next to its comparison object,
which reads the objects through the heap. The color field that marks a removed
node is the flag `erased`.

The counters `_next_id`, `_revision` and `_monotonic_revision` are unbounded
here.
-/

namespace Microchain.Chainbase

open Microchain.Lib

/-- A row: the managed primary key and the fields of the value type. -/
structure Object (V : Type) where
  id : Nat
  value : V
deriving DecidableEq, Repr

/-- The comparison object of an `ordered_unique` index. -/
structure OrderedUnique (V : Type) where
  less : Object V → Object V → Bool
  strictWeak : StrictWeak less

/-- `node`: an object with the time it was last modified or created. -/
structure Node (V : Type) where
  item : Object V
  mtime : Nat
  erased : Bool

/-- `old_node`: the backup of a node's object and time. -/
structure OldNode (V : Type) where
  addr : Nat
  item : Object V
  mtime : Nat
  current : Nat

/-- `undo_state`: the heads of the two lists when the session started. -/
structure UndoState where
  oldValuesEnd : Option Nat
  removedValuesEnd : Option Nat
  oldNextId : Nat
  ctime : Nat

/-- The nodes by address. -/
abbrev Heap (V : Type) := Nat → Option (Node V)

/-- A secondary index: its comparison object and its nodes in order. -/
structure SetImpl (V : Type) where
  comp : OrderedUnique V
  nodes : List Nat

/-- `undo_index`, the undo stack newest first. -/
structure UndoIndex (V : Type) where
  heap : Heap V
  byId : List Nat
  secondary : List (SetImpl V)
  undoStack : List UndoState
  oldValues : List (OldNode V)
  removedValues : List Nat
  oldAlloc : Nat
  nextId : Nat
  revision : Int
  monotonicRevision : Nat

variable {V : Type}

/-- The default-constructed table with the given secondary indices. -/
def UndoIndex.empty (comps : List (OrderedUnique V)) : UndoIndex V where
  heap _ := none
  byId := []
  secondary := comps.map fun comp => ⟨comp, []⟩
  undoStack := []
  oldValues := []
  removedValues := []
  oldAlloc := 0
  nextId := 0
  revision := 0
  monotonicRevision := 0

/-- The object at an address. -/
def Heap.item (heap : Heap V) (p : Nat) : Option (Object V) := (heap p).map Node.item

/-- Write one node. -/
def Heap.set (heap : Heap V) (p : Nat) (node : Option (Node V)) : Heap V :=
  fun q => if q = p then node else heap q

/-- Compare what two pointers refer to. -/
def Heap.less (heap : Heap V) (comp : OrderedUnique V) (p q : Nat) : Bool :=
  match heap.item p, heap.item q with
  | some a, some b => comp.less a b
  | none, some _ => true
  | _, none => false

/-- Index 0 compares ids. -/
def idLess (a b : Nat) : Bool := decide (a < b)

/-! ## The secondary indices -/

/-- `insert_impl<1>`: insert into one index after the other; an index that has an
equivalent row undoes the earlier ones. -/
def insertImpl (heap : Heap V) (p : Nat) : List (SetImpl V) → Option (List (SetImpl V))
  | [] => some []
  | set :: sets =>
    match insertUnique (heap.less set.comp) p set.nodes with
    | none => none
    | some nodes => (insertImpl heap p sets).map ({ set with nodes } :: ·)

/-- `erase_impl<1>`. -/
def eraseImpl (p : Nat) (sets : List (SetImpl V)) : List (SetImpl V) :=
  sets.map fun set => { set with nodes := set.nodes.erase p }

/-- `post_modify<unique, 1>`: move a modified node to its place in each index.
With `unique`, stop at the first index that has an equivalent row, after putting
the node back next to it. -/
def postModify (unique : Bool) (heap : Heap V) (p : Nat) :
    List (SetImpl V) → Bool × List (SetImpl V)
  | [] => (true, [])
  | set :: sets =>
    let less := heap.less set.comp
    if needsFixup less p set.nodes then
      let rest := set.nodes.erase p
      if unique then
        match insertUnique less p rest with
        | none => (false, { set with nodes := insertLower less p rest } :: sets)
        | some nodes =>
          let (success, sets) := postModify unique heap p sets
          (success, { set with nodes } :: sets)
      else
        let (success, sets) := postModify unique heap p sets
        (success, { set with nodes := insertEqual less p rest } :: sets)
    else
      let (success, sets) := postModify unique heap p sets
      (success, set :: sets)

/-! ## Rows -/

namespace UndoIndex

/-- `find` by id. -/
def find (u : UndoIndex V) (id : Nat) : Option (Object V) :=
  if id ∈ u.byId then u.heap.item id else none

/-- `begin()` to `end()`: the rows in id order. -/
def rows (u : UndoIndex V) : List (Object V) := u.byId.filterMap u.heap.item

/-- A secondary index from its `begin()` to its `end()`. -/
def contents (u : UndoIndex V) (set : SetImpl V) : List (Object V) :=
  set.nodes.filterMap u.heap.item

def insertError : String :=
  "could not insert object, most likely a uniqueness constraint was violated"

def modifyError : String :=
  "could not modify object, most likely a uniqueness constraint was violated"

/-- `dispose_node`. -/
def disposeNode (u : UndoIndex V) (p : Nat) : UndoIndex V :=
  { u with heap := u.heap.set p none }

/-- `emplace`. -/
def emplace (u : UndoIndex V) (value : V) : Except String Nat × UndoIndex V :=
  let p := u.nextId
  -- on_create: the time is only set while there are sessions
  let mtime := if u.undoStack.isEmpty then 0 else u.monotonicRevision
  let heap := u.heap.set p (some { item := ⟨p, value⟩, mtime, erased := false })
  match insertImpl heap p u.secondary with
  | none => (.error insertError, u)
  | some secondary =>
    (.ok p, { u with heap, secondary, byId := u.byId ++ [p], nextId := u.nextId + 1 })

/-- `on_modify`: back up the object unless this session already did. The flag says
whether a backup was made. -/
def onModify (u : UndoIndex V) (p : Nat) : Bool × UndoIndex V :=
  match u.undoStack, u.heap p with
  | undoInfo :: _, some node =>
    if undoInfo.ctime ≤ node.mtime then (false, u)
    else
      (true,
        { u with
          heap := u.heap.set p (some { node with mtime := u.monotonicRevision })
          oldValues := ⟨u.oldAlloc, node.item, node.mtime, p⟩ :: u.oldValues
          oldAlloc := u.oldAlloc + 1 })
  | _, _ => (false, u)

/-- `on_remove`: the flag says whether the node should be destroyed. -/
def onRemove (u : UndoIndex V) (p : Nat) : Bool × UndoIndex V :=
  match u.undoStack, u.heap p with
  | undoInfo :: _, some node =>
    if undoInfo.oldNextId ≤ node.item.id then (true, u)
    else
      (false,
        { u with
          heap := u.heap.set p (some { node with erased := true })
          removedValues := p :: u.removedValues })
  | _, _ => (true, u)

/-- `remove`. -/
def remove (u : UndoIndex V) (p : Nat) : UndoIndex V :=
  let u := { u with byId := u.byId.erase p, secondary := eraseImpl p u.secondary }
  match u.onRemove p with
  | (true, u) => u.disposeNode p
  | (false, u) => u

/-- Overwrite the object of a node. -/
def assign (u : UndoIndex V) (p : Nat) (value : V) : UndoIndex V :=
  match u.heap p with
  | none => u
  | some node =>
    { u with heap := u.heap.set p (some { node with item := { node.item with value } }) }

/-- `modify`. When an index has an equivalent row the object is restored from the
backup, or removed if this session made none. -/
def modify (u : UndoIndex V) (p : Nat) (m : V → V) : Except String Unit × UndoIndex V :=
  match u.heap p with
  | none => (.ok (), u)
  | some node =>
    let (backup, u) := u.onModify p
    let u := u.assign p (m node.item.value)
    match postModify true u.heap p u.secondary with
    | (true, secondary) => (.ok (), { u with secondary })
    | (false, secondary) =>
      let u := { u with secondary }
      if backup then
        let u := u.assign p node.item.value
        let (_, secondary) := postModify true u.heap p u.secondary
        (.error modifyError, { u with secondary, oldValues := u.oldValues.tail })
      else
        (.error modifyError, u.remove p)

/-! ## Sessions -/

/-- `add_session`. -/
def addSession (u : UndoIndex V) : UndoIndex V :=
  { u with
    undoStack :=
      { oldValuesEnd := u.oldValues.head?.map OldNode.addr
        removedValuesEnd := u.removedValues.head?
        oldNextId := u.nextId
        ctime := u.monotonicRevision + 1 } :: u.undoStack
    monotonicRevision := u.monotonicRevision + 1
    revision := u.revision + 1 }

/-- The old values before the remembered head, and those from it on. -/
def cutOldValues (u : UndoIndex V) (undoInfo : UndoState) : List (OldNode V) × List (OldNode V) :=
  match undoInfo.oldValuesEnd with
  | none => (u.oldValues, [])
  | some addr => (u.oldValues.takeWhile (·.addr != addr), u.oldValues.dropWhile (·.addr != addr))

/-- The removed nodes before the remembered head, and those from it on. -/
def cutRemovedValues (u : UndoIndex V) (undoInfo : UndoState) : List Nat × List Nat :=
  match undoInfo.removedValuesEnd with
  | none => (u.removedValues, [])
  | some p => (u.removedValues.takeWhile (· != p), u.removedValues.dropWhile (· != p))

/-- `undo`, a row created in the session. -/
def undoNew (u : UndoIndex V) (p : Nat) : UndoIndex V :=
  { u.disposeNode p with
    byId := u.byId.erase p
    secondary := eraseImpl p u.secondary }

/-- `undo`, one element of `_old_values`. Values that overwrite an earlier modify
of the same session are skipped. -/
def undoOld (ctime : Nat) (u : UndoIndex V) (old : OldNode V) : UndoIndex V :=
  if old.mtime < ctime then
    match u.heap old.current with
    | none => u
    | some node =>
      let heap := u.heap.set old.current (some { node with item := old.item, mtime := old.mtime })
      if node.erased then { u with heap }
      else { u with heap, secondary := (postModify false heap old.current u.secondary).2 }
  else u

/-- `undo`, one element of `_removed_values`: put it back, or destroy it if the
session created it. -/
def undoRemoved (oldNextId : Nat) (u : UndoIndex V) (p : Nat) : UndoIndex V :=
  match u.heap p with
  | none => u
  | some node =>
    if node.item.id < oldNextId then
      let u := { u with heap := u.heap.set p (some { node with erased := false }) }
      -- insert_impl<0>: index 0 first, undone if another index refuses
      match insertUnique idLess p u.byId, insertImpl u.heap p u.secondary with
      | some byId, some secondary => { u with byId, secondary }
      | _, _ => u
    else u.disposeNode p

/-- `undo`. -/
def undo (u : UndoIndex V) : UndoIndex V :=
  match u.undoStack with
  | [] => u
  | undoInfo :: stack =>
    let (olds, oldRest) := u.cutOldValues undoInfo
    let (removed, removedRest) := u.cutRemovedValues undoInfo
    let u := (u.byId.filter (undoInfo.oldNextId ≤ ·)).foldl undoNew u
    let u := olds.foldl (undoOld undoInfo.ctime) u
    let u := removed.foldl (undoRemoved undoInfo.oldNextId) u
    { u with
      oldValues := oldRest
      removedValues := removedRest
      nextId := undoInfo.oldNextId
      undoStack := stack
      revision := u.revision - 1 }

/-- `dispose_undo`. -/
def disposeUndo (u : UndoIndex V) : UndoIndex V :=
  { u.removedValues.foldl disposeNode u with oldValues := [], removedValues := [] }

/-- `squash_fast`. -/
def squashFast (u : UndoIndex V) : UndoIndex V :=
  match u.undoStack with
  | [] => u
  | [_] => { u.disposeUndo with undoStack := [], revision := u.revision - 1 }
  | _ :: stack => { u with undoStack := stack, revision := u.revision - 1 }

/-- `compress_impl`, the old values of the last session: drop those that are
redundant since `sessionStart`, moving the value of a removed row into its node.
Returns the heap and the values kept. -/
def compressOld (sessionStart : Nat) (heap : Heap V) :
    List (OldNode V) → Heap V × List (OldNode V)
  | [] => (heap, [])
  | old :: olds =>
    if sessionStart ≤ old.mtime then compressOld sessionStart heap olds
    else
      match heap old.current with
      | some node =>
        if node.erased then
          let node := { node with item := old.item, mtime := old.mtime }
          compressOld sessionStart (heap.set old.current (some node)) olds
        else
          let (heap, kept) := compressOld sessionStart heap olds
          (heap, old :: kept)
      | none =>
        let (heap, kept) := compressOld sessionStart heap olds
        (heap, old :: kept)

/-- Whether the object at `p` got its id in a session that started at `oldNextId`. -/
def isNew (u : UndoIndex V) (oldNextId : Nat) (p : Nat) : Bool :=
  (u.heap.item p).any (oldNextId ≤ ·.id)

/-- `compress_impl`, for the session before the last one. -/
def compressImpl (u : UndoIndex V) (session last : UndoState) : UndoIndex V :=
  let (olds, oldRest) := u.cutOldValues last
  let (removed, removedRest) := u.cutRemovedValues last
  let (heap, kept) := compressOld session.ctime u.heap olds
  let u := { u with heap, oldValues := kept ++ oldRest }
  let dropped := removed.filter (u.isNew session.oldNextId)
  let removedKept := removed.filter (!u.isNew session.oldNextId ·)
  { dropped.foldl disposeNode u with removedValues := removedKept ++ removedRest }

/-- `squash`, which is `squash_and_compress`. -/
def squash (u : UndoIndex V) : UndoIndex V :=
  match u.undoStack with
  | last :: session :: _ => (u.compressImpl session last).squashFast
  | _ => u.squashFast

/-- `dispose`: forget the undo lists after the heads that a session remembers. The
heads themselves stay around. -/
def dispose (u : UndoIndex V) (undoInfo : UndoState) : UndoIndex V :=
  let (olds, oldRest) := u.cutOldValues undoInfo
  let (removed, removedRest) := u.cutRemovedValues undoInfo
  { removedRest.tail.foldl disposeNode u with
    oldValues := olds ++ oldRest.take 1
    removedValues := removed ++ removedRest.take 1 }

/-- `commit`. -/
def commit (u : UndoIndex V) (revision : Int) : UndoIndex V :=
  let revision := min revision u.revision
  if revision = u.revision then { u.disposeUndo with undoStack := [] }
  else
    let kept := (u.revision - revision).toNat
    if kept < u.undoStack.length then
      match u.undoStack[kept - 1]? with
      | some oldest => { u.dispose oldest with undoStack := u.undoStack.take kept }
      | none => u
    else u

/-- `std::numeric_limits<int64_t>::max()` -/
def int64Max : Nat := 9223372036854775807

/-- `set_revision`. -/
def setRevision (u : UndoIndex V) (revision : Nat) : Except String (UndoIndex V) :=
  if u.undoStack.length ≠ 0 then
    .error "cannot set revision while there is an existing undo stack"
  else if int64Max < revision then
    .error "revision to set is too high"
  else if (revision : Int) < u.revision then
    .error "revision cannot decrease"
  else
    .ok { u with revision }

end UndoIndex

/-! ## Session objects -/

/-- `undo_index::session`: whether it still has to be undone when it ends. -/
structure Session where
  apply : Bool

namespace Session

/-- `start_undo_session`. -/
def start (u : UndoIndex V) (enabled : Bool) : Session × UndoIndex V :=
  (⟨enabled⟩, if enabled then u.addSession else u)

/-- `push`: keep the session on the undo stack. -/
def push (_ : Session) : Session := ⟨false⟩

def squash (s : Session) (u : UndoIndex V) : Session × UndoIndex V :=
  (⟨false⟩, if s.apply then u.squash else u)

def undo (s : Session) (u : UndoIndex V) : Session × UndoIndex V :=
  (⟨false⟩, if s.apply then u.undo else u)

/-- `~session`. -/
def destroy (s : Session) (u : UndoIndex V) : UndoIndex V := if s.apply then u.undo else u

end Session

end Microchain.Chainbase
