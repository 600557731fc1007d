import Microchain.Eosio.Hex
import Microchain.Lib.OrderedList

/-!
# Connections (`graphql_connection.hpp`)

`make_connection` over any container: clamp the filters to a range of positions,
clamp the cursors into the range, then run one of two loops. An iterator is an
offset into the container, its length being `end()`.

A `Schema` holds what the source passes as template parameters and function
objects: the key type with its order and binary format, `to_key` and `to_node`. A
`Container` holds the elements with their two bound searches.

What the two loops return is worked out in `Graphql/Selection.lean`.
-/

namespace Microchain.Graphql

open Eosio Lib

/-- `Key`: `operator<` and the binary format. -/
structure Key (κ : Type) where
  less : κ → κ → Bool
  toBin : κ → Bytes
  fromBin : FromBin κ
  strictWeak : StrictWeak less
  toBin_ne_nil : ∀ k, toBin k ≠ []
  fromBin_toBin : ∀ k s, fromBin (toBin k ++ s) = .ok (k, s)

theorem uint32Less_strictWeak : StrictWeak fun a b : UInt32 => decide (a < b) where
  asymm a b := by
    simp only [decide_eq_true_eq, UInt32.lt_iff_toNat_lt]
    omega
  negTrans a b c := by
    simp only [decide_eq_true_eq, UInt32.lt_iff_toNat_lt]
    omega

/-- `uint32_t` -/
def uint32Key : Key UInt32 where
  less a b := decide (a < b)
  toBin := uint32ToBin
  fromBin := uint32FromBin
  strictWeak := uint32Less_strictWeak
  toBin_ne_nil _ := List.cons_ne_nil _ _
  fromBin_toBin := uint32FromBin_toBin

theorem nameLess_strictWeak : StrictWeak fun a b : Name => decide (a.value < b.value) where
  asymm a b := by
    simp only [decide_eq_true_eq, UInt64.lt_iff_toNat_lt]
    omega
  negTrans a b c := by
    simp only [decide_eq_true_eq, UInt64.lt_iff_toNat_lt]
    omega

/-- `eosio::name` -/
def nameKey : Key Name where
  less a b := decide (a.value < b.value)
  toBin := nameToBin
  fromBin := nameFromBin
  strictWeak := nameLess_strictWeak
  toBin_ne_nil _ := List.cons_ne_nil _ _
  fromBin_toBin := nameFromBin_toBin

/-- The key type, `to_key` and `to_node`; a node shows its key. -/
structure Schema (κ α ν : Type) where
  key : Key κ
  toKey : α → κ
  toNode : α → ν
  nodeKey : ν → κ
  nodeKey_toNode : ∀ x, nodeKey (toNode x) = toKey x

/-- `container`, `lower_bound` and `upper_bound`. -/
structure Container (κ α : Type) where
  elems : List α
  lowerBound : κ → Nat
  upperBound : κ → Nat

/-- `PageInfo` -/
structure PageInfo where
  hasPreviousPage : Bool := false
  hasNextPage : Bool := false
  startCursor : Bytes := []
  endCursor : Bytes := []
deriving DecidableEq, Repr

/-- `Edge` -/
structure Edge (ν : Type) where
  node : ν
  cursor : Bytes
deriving DecidableEq, Repr

/-- `Connection` -/
structure Connection (ν : Type) where
  edges : List (Edge ν) := []
  pageInfo : PageInfo := {}
deriving DecidableEq, Repr

/-- The filters of a connection. -/
structure RangeArgs (κ : Type) where
  gt : Option κ := none
  ge : Option κ := none
  lt : Option κ := none
  le : Option κ := none

/-- The paging arguments of a connection. -/
structure PageArgs where
  first : Option UInt32 := none
  last : Option UInt32 := none
  before : Option Bytes := none
  after : Option Bytes := none
deriving DecidableEq, Repr

/-- `key_from_hex`. A string that is not hex gives no key; one that does not decode
aborts in `from_bin`. -/
def keyFromHex {κ : Type} (key : Key κ) : Option Bytes → Except String (Option κ)
  | none => .ok none
  | some s =>
    -- an empty cursor counts as none
    if s = [] then .ok none
    else
      match unhex s with
      | none => .ok none
      | some bytes => (key.fromBin bytes).map fun r => some r.1

/-- The cursor of a key. -/
def cursor {κ : Type} (key : Key κ) (k : κ) : Bytes := hex (key.toBin k)

/-! ## Iterators -/

/-- `std::max` -/
def maxIt (compareIt : Nat → Nat → Bool) (a b : Nat) : Nat := if compareIt a b then b else a

/-- `std::min` -/
def minIt (compareIt : Nat → Nat → Bool) (a b : Nat) : Nat := if compareIt b a then b else a

/-- The maximum with an iterator, when there is one. -/
def raiseIt (compareIt : Nat → Nat → Bool) (it : Nat) : Option Nat → Nat
  | some bound => maxIt compareIt it bound
  | none => it

/-- The minimum with an iterator, when there is one. -/
def cutIt (compareIt : Nat → Nat → Bool) (it : Nat) : Option Nat → Nat
  | some bound => minIt compareIt it bound
  | none => it

/-- `std::clamp` -/
def clampIt (compareIt : Nat → Nat → Bool) (v lo hi : Nat) : Nat :=
  if compareIt v lo then lo else if compareIt hi v then hi else v

variable {κ α ν : Type}

namespace Container

/-- `compare_it` -/
def compareIt (c : Container κ α) (S : Schema κ α ν) (a b : Nat) : Bool :=
  match c.elems[a]?, c.elems[b]? with
  | none, _ => false
  | some _, none => true
  | some x, some y => S.key.less (S.toKey x) (S.toKey y)

/-- `if (ge) rangeBegin = std::max(rangeBegin, lower_bound(container, *ge), compare_it);`
and the like for `gt`. -/
def rangeBegin (c : Container κ α) (S : Schema κ α ν) (range : RangeArgs κ) : Nat :=
  raiseIt (c.compareIt S) (raiseIt (c.compareIt S) 0 (range.ge.map c.lowerBound))
    (range.gt.map c.upperBound)

/-- `rangeEnd`, after `le`, `lt` and the maximum with `rangeBegin`. -/
def rangeEnd (c : Container κ α) (S : Schema κ α ν) (range : RangeArgs κ) : Nat :=
  maxIt (c.compareIt S) (c.rangeBegin S range)
    (cutIt (c.compareIt S) (cutIt (c.compareIt S) c.elems.length (range.le.map c.upperBound))
      (range.lt.map c.lowerBound))

/-- `it` before the loops. -/
def start (c : Container κ α) (S : Schema κ α ν) (range : RangeArgs κ) (after : Option κ) : Nat :=
  match after with
  | some k =>
    clampIt (c.compareIt S) (c.upperBound k) (c.rangeBegin S range) (c.rangeEnd S range)
  | none => c.rangeBegin S range

/-- `end` before the loops. -/
def stop (c : Container κ α) (S : Schema κ α ν) (range : RangeArgs κ) (after before : Option κ) :
    Nat :=
  let stop :=
    match before with
    | some k =>
      clampIt (c.compareIt S) (c.lowerBound k) (c.rangeBegin S range) (c.rangeEnd S range)
    | none => c.rangeEnd S range
  maxIt (c.compareIt S) (c.start S range after) stop

end Container

/-! ## The loops -/

/-- `add_edge`: the edge it pushes. -/
def edgeOf (S : Schema κ α ν) (x : α) : Edge ν := ⟨S.toNode x, cursor S.key (S.toKey x)⟩

/-- `add_edge` at an iterator. -/
def addEdge (c : Container κ α) (S : Schema κ α ν) (it : Nat) : List (Edge ν) :=
  ((c.elems[it]?).map (edgeOf S)).toList

/-- `for (; it != end && (!first || (*first)-- > 0); ++it) add_edge(it)`: the edges
and `it` after. `fuel` bounds the steps (the length of the container is enough). -/
def forwardLoop (c : Container κ α) (S : Schema κ α ν) (stop : Nat) :
    Nat → Nat → Option UInt32 → List (Edge ν) × Nat
  | 0, it, _ => ([], it)
  | fuel + 1, it, first =>
    if it ≠ stop ∧ first.all (0 < ·) then
      let (edges, it') := forwardLoop c S stop fuel (it + 1) (first.map (· - 1))
      (addEdge c S it ++ edges, it')
    else ([], it)

/-- `for (; it != end && (*last)-- > 0; --end) add_edge(std::prev(end))`: the edges
and `end` after. -/
def backwardLoop (c : Container κ α) (S : Schema κ α ν) (it : Nat) :
    Nat → Nat → UInt32 → List (Edge ν) × Nat
  | 0, stop, _ => ([], stop)
  | fuel + 1, stop, last =>
    if it ≠ stop ∧ 0 < last then
      let (edges, stop') := backwardLoop c S it fuel (stop - 1) (last - 1)
      (addEdge c S (stop - 1) ++ edges, stop')
    else ([], stop)

/-- The two cursors of the page, when it is not empty. -/
def withCursors (edges : List (Edge ν)) (pageInfo : PageInfo) : Connection ν :=
  match edges.head?, edges.getLast? with
  | some front, some back =>
    { edges, pageInfo := { pageInfo with startCursor := front.cursor, endCursor := back.cursor } }
  | _, _ => { edges, pageInfo }

/-- The branch for `last` without `first`. -/
def lastPage (c : Container κ α) (S : Schema κ α ν) (range : RangeArgs κ)
    (after before : Option κ) (last : UInt32) : Connection ν :=
  let it := c.start S range after
  let stop := c.stop S range after before
  let hasNextPage := decide (stop ≠ c.rangeEnd S range)
  let (edges, stop) := backwardLoop c S it c.elems.length stop last
  let hasPreviousPage := decide (stop ≠ c.rangeBegin S range)
  withCursors edges.reverse { hasPreviousPage, hasNextPage }

/-- The other branch. -/
def firstPage (c : Container κ α) (S : Schema κ α ν) (range : RangeArgs κ)
    (after before : Option κ) (first last : Option UInt32) : Connection ν :=
  let it := c.start S range after
  let stop := c.stop S range after before
  let hasPreviousPage := decide (it ≠ c.rangeBegin S range)
  let (edges, it) := forwardLoop c S stop c.elems.length it first
  let hasNextPage := decide (it ≠ c.rangeEnd S range)
  match last with
  | some last =>
    -- both were given: the last ones of the first ones
    if last.toNat < edges.length then
      withCursors (edges.drop (edges.length - last.toNat)) { hasPreviousPage := true, hasNextPage }
    else withCursors edges { hasPreviousPage, hasNextPage }
  | none => withCursors edges { hasPreviousPage, hasNextPage }

/-- `make_connection` -/
def makeConnection (c : Container κ α) (S : Schema κ α ν) (range : RangeArgs κ)
    (args : PageArgs) : Except String (Connection ν) := do
  let after ← keyFromHex S.key args.after
  let before ← keyFromHex S.key args.before
  match args.last, args.first with
  | some last, none => .ok (lastPage c S range after before last)
  | _, _ => .ok (firstPage c S range after before args.first args.last)

end Microchain.Graphql
