import Microchain.Graphql.Paging

/-!
# The Relay rules

What a connection is meant to return (`relaySelection`): the elements that the filters
and the cursors select, cut to the first `first` of them and then to the last `last` of
what is left; and for a page that is not empty, whether the filters admit an element
before its first edge, or behind its last one.

A page is a slice of the container between two positions, and its flags compare these
with the ends of the range (`Container.Ordered.makeConnection_slice`), whichever of the
two loops has made it. The flags then need one look at a slice (`smaller_iff`,
`larger_iff`), not one for each loop.

- `makeConnection_relay`: **`make_connection` follows the Relay rules**.
-/

namespace Microchain.Graphql

open Eosio Lib

variable {κ α ν : Type}

/-! ## The rules -/

/-- The elements that a connection is to return, by the Relay rules. -/
def relaySelection (S : Schema κ α ν) (range : RangeArgs κ) (after before : Option κ)
    (first last : Option UInt32) (elems : List α) : List α :=
  let selected := elems.filter fun x => range.selects S.key after before (S.toKey x)
  let cut := first.elim selected fun n => selected.take n.toNat
  last.elim cut fun n => cut.drop (cut.length - n.toNat)

/-- The filters admit an element with a smaller key. -/
def Container.Smaller (c : Container κ α) (S : Schema κ α ν) (range : RangeArgs κ) (k : κ) : Prop :=
  ∃ x ∈ c.elems, range.contains S.key (S.toKey x) ∧ S.key.less (S.toKey x) k

/-- The filters admit an element with a larger key. -/
def Container.Larger (c : Container κ α) (S : Schema κ α ν) (range : RangeArgs κ) (k : κ) : Prop :=
  ∃ x ∈ c.elems, range.contains S.key (S.toKey x) ∧ S.key.less k (S.toKey x)

namespace Container

variable {c : Container κ α} {S : Schema κ α ν}

/-! ## Slices of the range -/

/-- The filters admit the elements between `rangeBegin` and `rangeEnd`. -/
theorem Ordered.contains_iff (h : c.Ordered S) (range : RangeArgs κ) {i : Nat}
    (hi : i < c.elems.length) : range.contains S.key (S.toKey c.elems[i]) ↔
      c.rangeBegin S range ≤ i ∧ i < c.rangeEnd S range := by
  obtain ⟨-, hbegin⟩ := h.rangeBegin_spec range
  obtain ⟨-, -, hrange⟩ := h.rangeEnd_spec range
  rw [RangeArgs.contains, Bool.and_eq_true, Bool.and_eq_true, Bool.and_eq_true, and_assoc,
    ← hbegin i hi]
  exact and_congr_right fun hge => (hrange i hi hge).symm

/-- Before the position `b` of the range the filters admit an element unless the range
begins there. -/
theorem Ordered.smaller_iff (h : c.Ordered S) (range : RangeArgs κ) {b : Nat}
    (hb : b < c.elems.length) (hbegin : c.rangeBegin S range ≤ b)
    (hend : b < c.rangeEnd S range) :
    c.Smaller S range (S.toKey c.elems[b]) ↔ b ≠ c.rangeBegin S range := by
  constructor
  · rintro ⟨x, hx, hcontains, hless⟩
    obtain ⟨i, hi, rfl⟩ := List.mem_iff_getElem.mp hx
    have hib := (h.less_iff hi hb).mp hless
    have hge := ((h.contains_iff range hi).mp hcontains).1
    omega
  · intro hne
    have hlt : c.rangeBegin S range < c.elems.length := by omega
    refine ⟨c.elems[c.rangeBegin S range], List.getElem_mem hlt, ?_, ?_⟩
    · exact (h.contains_iff range hlt).mpr ⟨Nat.le_refl _, by omega⟩
    · exact (h.less_iff hlt hb).mpr (by omega)

/-- Behind the position `e` of the range the filters admit an element unless the range
ends there. -/
theorem Ordered.larger_iff (h : c.Ordered S) (range : RangeArgs κ) {e : Nat}
    (he : e < c.elems.length) (hbegin : c.rangeBegin S range ≤ e)
    (hend : e < c.rangeEnd S range) :
    c.Larger S range (S.toKey c.elems[e]) ↔ e + 1 ≠ c.rangeEnd S range := by
  obtain ⟨-, hle, -⟩ := h.rangeEnd_spec range
  constructor
  · rintro ⟨x, hx, hcontains, hless⟩
    obtain ⟨i, hi, rfl⟩ := List.mem_iff_getElem.mp hx
    have hei := (h.less_iff he hi).mp hless
    have hlt := ((h.contains_iff range hi).mp hcontains).2
    omega
  · intro hne
    have hlt : e + 1 < c.elems.length := by omega
    refine ⟨c.elems[e + 1], List.getElem_mem hlt, ?_, ?_⟩
    · exact (h.contains_iff range hlt).mpr ⟨by omega, by omega⟩
    · exact (h.less_iff he hlt).mpr (Nat.lt_succ_self e)

/-! ## Pages are slices -/

/-- A page: the elements from `b` to `e`, and the flags that compare `b` and `e` with the
ends of the range. -/
def slicePage (c : Container κ α) (S : Schema κ α ν) (range : RangeArgs κ) (b e : Nat) :
    Connection ν :=
  withCursors (((c.elems.take e).drop b).map (edgeOf S))
    { hasPreviousPage := decide (b ≠ c.rangeBegin S range)
      hasNextPage := decide (e ≠ c.rangeEnd S range) }

/-- What the filters and the cursors select is the window. -/
theorem Ordered.selected_eq (h : c.Ordered S) (range : RangeArgs κ) (after before : Option κ) :
    (c.elems.filter fun x => range.selects S.key after before (S.toKey x)) =
      c.window S range after before :=
  (h.window_eq range after before).symm

/-- The last `n` of a slice are those from `n` before its end. -/
theorem drop_slice {l : List α} {b e : Nat} (he : e ≤ l.length) (n : Nat) :
    ((l.take e).drop b).drop (((l.take e).drop b).length - n) =
      (l.take e).drop (max b (e - n)) := by
  rw [List.drop_drop, List.length_drop, List.length_take, Nat.min_eq_left he]
  congr 1
  omega

/-- The page of `last` alone is a slice. -/
theorem Ordered.lastPage_slice (h : c.Ordered S) (range : RangeArgs κ) (after before : Option κ)
    (last : UInt32) :
    lastPage c S range after before last =
        c.slicePage S range (max (c.start S range after)
          (c.stop S range after before - last.toNat)) (c.stop S range after before) ∧
      relaySelection S range after before none (some last) c.elems =
        (c.elems.take (c.stop S range after before)).drop (max (c.start S range after)
          (c.stop S range after before - last.toNat)) := by
  obtain ⟨-, hend, -⟩ := h.rangeEnd_spec range
  obtain ⟨hss, hsr, -⟩ := h.stop_spec range after before
  have hstop := Nat.le_trans hsr hend
  have hslice := drop_slice (b := c.start S range after) hstop last.toNat
  constructor
  · rw [h.lastPage_eq, slicePage, ← hslice, window, List.take_reverse, List.reverse_reverse]
  · rw [relaySelection, h.selected_eq]
    exact hslice

/-- The other pages are slices, too. -/
theorem Ordered.firstPage_slice (h : c.Ordered S) (range : RangeArgs κ)
    (after before : Option κ) (first last : Option UInt32) :
    ∃ b e, c.start S range after ≤ b ∧ b ≤ e ∧ e ≤ c.stop S range after before ∧
      firstPage c S range after before first last = c.slicePage S range b e ∧
      relaySelection S range after before first last c.elems = (c.elems.take e).drop b := by
  obtain ⟨-, hend, -⟩ := h.rangeEnd_spec range
  obtain ⟨hbs, -, -⟩ := h.start_spec range after
  obtain ⟨hss, hsr, -⟩ := h.stop_spec range after before
  have hlen := h.window_length range after before
  have hloop := forwardLoop_spec (S := S) (Nat.le_trans hsr hend) c.elems.length _ first hss (by omega)
  -- the slice of the loop, which goes up to `e`
  obtain ⟨e, he⟩ : ∃ e, min (c.stop S range after before) (c.start S range after +
      first.elim (c.stop S range after before - c.start S range after) UInt32.toNat) = e := ⟨_, rfl⟩
  have hes : e ≤ c.stop S range after before := he ▸ Nat.min_le_left _ _
  have hse : c.start S range after ≤ e := by
    rw [← he]
    exact Nat.le_min.mpr ⟨hss, Nat.le_add_right _ _⟩
  have hel : e ≤ c.elems.length := by omega
  have hcut : ((c.elems.take (c.stop S range after before)).drop (c.start S range after)).take
      (first.elim (c.stop S range after before - c.start S range after) UInt32.toNat) =
        (c.elems.take e).drop (c.start S range after) := by
    rw [List.take_drop, List.take_take, Nat.min_comm, he]
  have hselected : (first.elim (c.window S range after before) fun n =>
      (c.window S range after before).take n.toNat) =
        (c.elems.take e).drop (c.start S range after) := by
    rw [← hcut]
    cases first with
    | none =>
      show c.window S range after before = (c.window S range after before).take _
      exact (List.take_of_length_le (Nat.le_of_eq hlen)).symm
    | some n => rfl
  have hcount : ((c.elems.take e).drop (c.start S range after)).length =
      e - c.start S range after := by
    rw [List.length_drop, List.length_take, Nat.min_eq_left hel]
  rw [hcut, he] at hloop
  rw [relaySelection, h.selected_eq, hselected, firstPage, hloop]
  dsimp only
  cases last with
  | none => exact ⟨_, e, Nat.le_refl _, hse, hes, rfl, rfl⟩
  | some last =>
    dsimp only [Option.elim_some]
    rw [List.length_map, ← List.map_drop, drop_slice hel, hcount]
    refine ⟨_, e, Nat.le_max_left _ (e - last.toNat), by omega, hes, ?_, rfl⟩
    split
    · -- edges are erased, so that the page does not start at the range's beginning
      have htrim : decide (max (c.start S range after) (e - last.toNat) ≠ c.rangeBegin S range) =
          true := decide_eq_true (by omega)
      rw [slicePage, htrim]
    · have hwhole : max (c.start S range after) (e - last.toNat) = c.start S range after := by
        omega
      rw [slicePage, hwhole]

/-- **Every page is a slice of the range**, and so is what the Relay rules select. -/
theorem Ordered.makeConnection_slice (h : c.Ordered S) (range : RangeArgs κ)
    (first last : Option UInt32) {after before : Option κ} {afterCursor beforeCursor : Option Bytes}
    (hafter : keyFromHex S.key afterCursor = .ok after)
    (hbefore : keyFromHex S.key beforeCursor = .ok before) :
    ∃ b e, c.rangeBegin S range ≤ b ∧ b ≤ e ∧ e ≤ c.rangeEnd S range ∧
      makeConnection c S range { first, last, before := beforeCursor, after := afterCursor } =
        .ok (c.slicePage S range b e) ∧
      relaySelection S range after before first last c.elems = (c.elems.take e).drop b := by
  obtain ⟨hbs, -, -⟩ := h.start_spec range after
  obtain ⟨hss, hsr, -⟩ := h.stop_spec range after before
  obtain ⟨b, e, hsb, hbe, hes, hpage, hselection⟩ := h.firstPage_slice range after before first last
  rw [makeConnection, hafter, hbefore]
  dsimp only [bind, Except.bind]
  split
  · next last =>
    obtain ⟨hpage, hselection⟩ := h.lastPage_slice range after before last
    exact ⟨_, _, by omega, by omega, hsr, congrArg Except.ok hpage, hselection⟩
  · exact ⟨b, e, by omega, hbe, by omega, congrArg Except.ok hpage, hselection⟩

end Container

/-- A cursor that is the hex form of a key stands for that key. -/
theorem keyFromHex_map (key : Key κ) (k : Option κ) :
    keyFromHex key (k.map (cursor key)) = .ok k := by
  cases k with
  | none => rfl
  | some k => exact keyFromHex_cursor key k

/-- **`make_connection` follows the Relay rules.** On every container with strictly
increasing keys, and for every combination of filters, counts and cursors, the edges are
those of the elements that the rules select; and the flags of a page that is not empty
tell whether the filters admit an element before its first edge or behind its last one. -/
theorem makeConnection_relay {c : Container κ α} {S : Schema κ α ν} (h : c.Ordered S)
    (range : RangeArgs κ) (first last : Option UInt32) (after before : Option κ) :
    ∃ conn, makeConnection c S range
        { first, last
          before := before.map (cursor S.key)
          after := after.map (cursor S.key) } = .ok conn ∧
      conn.edges = (relaySelection S range after before first last c.elems).map (edgeOf S) ∧
      (∀ edge ∈ conn.edges.head?,
        conn.pageInfo.hasPreviousPage ↔ c.Smaller S range (S.nodeKey edge.node)) ∧
      ∀ edge ∈ conn.edges.getLast?,
        conn.pageInfo.hasNextPage ↔ c.Larger S range (S.nodeKey edge.node) := by
  obtain ⟨b, e, hbegin, hbe, hend, hconn, hselection⟩ := h.makeConnection_slice range first last
    (keyFromHex_map S.key after) (keyFromHex_map S.key before)
  obtain ⟨-, hle, -⟩ := h.rangeEnd_spec range
  have hlen : ((c.elems.take e).drop b).length = e - b := by
    rw [List.length_drop, List.length_take, Nat.min_eq_left (Nat.le_trans hend hle)]
  refine ⟨_, hconn, ?_, fun edge hedge => ?_, fun edge hedge => ?_⟩
  · rw [Container.slicePage, withCursors_edges, hselection]
  · rw [Container.slicePage, withCursors_edges, List.head?_map, List.head?_drop] at hedge
    obtain ⟨x, hx, rfl⟩ := Option.map_eq_some_iff.mp hedge
    obtain ⟨hb, rfl⟩ := List.getElem?_eq_some_iff.mp hx
    rw [List.length_take] at hb
    have hkey : S.nodeKey (edgeOf S ((c.elems.take e)[b])).node = S.toKey c.elems[b] := by
      rw [List.getElem_take]
      exact S.nodeKey_toNode _
    rw [hkey, h.smaller_iff range (by omega) hbegin (by omega), Container.slicePage,
      withCursors_hasPreviousPage, decide_eq_true_eq]
  · rw [Container.slicePage, withCursors_edges, List.getLast?_map,
      List.getLast?_eq_getElem?] at hedge
    obtain ⟨x, hx, rfl⟩ := Option.map_eq_some_iff.mp hedge
    obtain ⟨hlast, rfl⟩ := List.getElem?_eq_some_iff.mp hx
    have he : b + (((c.elems.take e).drop b).length - 1) = e - 1 := by omega
    have hkey : S.nodeKey (edgeOf S
        ((c.elems.take e).drop b)[((c.elems.take e).drop b).length - 1]).node =
          S.toKey c.elems[e - 1] := by
      simp only [List.getElem_drop, List.getElem_take, he]
      exact S.nodeKey_toNode _
    rw [hkey, h.larger_iff range (by omega) (by omega) (by omega), Container.slicePage,
      withCursors_hasNextPage, decide_eq_true_eq]
    have hsucc : e - 1 + 1 = e := by omega
    rw [hsucc]

/-- The last of the first two numbers behind the cursor of 3, which is not there itself. -/
theorem makeConnection_relay_example :
    ∃ conn, makeConnection (.orderedSet numberSchema [2, 5, 7, 8]) numberSchema { ge := some 1 }
        { first := some 2, last := some 1, after := some (cursor uint32Key 3) } = .ok conn ∧
      conn.edges = [edgeOf numberSchema 7] := by
  have hordered : (Container.orderedSet numberSchema [2, 5, 7, 8]).Ordered numberSchema :=
    Container.orderedSet_ordered (by decide)
  obtain ⟨conn, hconn, hedges, -, -⟩ := makeConnection_relay hordered { ge := some 1 } (some 2)
    (some 1) (some 3) none
  exact ⟨conn, hconn, hedges⟩

end Microchain.Graphql
