import Mathlib.Data.Option.Basic
import Microchain.Graphql.Connection
import Microchain.Lib.Except
import Microchain.Lib.Keyset

/-!
# What a connection selects

On a container with strictly increasing keys (`Container.Ordered`) positions and
keys are compared alike, so the clamps of `make_connection` are `max` and `min`,
and the positions between `start` and `stop` are those of the elements that the
filters and the cursors select (`Container.window_eq`). Each loop then returns one
end of that selection.

- `makeConnection_first`: `first:n` behind a cursor is a page of keyset pagination;
- `makeConnection_last`: `last:n` before a cursor is one of the opposite order.
-/

namespace Microchain.Graphql

open Eosio Lib

variable {κ α ν : Type}

/-- The filters admit a key. -/
def RangeArgs.contains (range : RangeArgs κ) (key : Key κ) (k : κ) : Bool :=
  range.ge.all (!key.less k ·) && range.gt.all (key.less · k) &&
    range.le.all (!key.less · k) && range.lt.all (key.less k ·)

/-- The filters and the cursors select a key. -/
def RangeArgs.selects (range : RangeArgs κ) (key : Key κ) (after before : Option κ) (k : κ) : Bool :=
  range.contains key k && after.all (key.less · k) && before.all (key.less k ·)

/-- The counts of a page leave room for an edge. -/
def PageArgs.HasRoom (args : PageArgs) : Prop := args.first ≠ some 0 ∧ args.last ≠ some 0

/-- The keys of a page. -/
def Connection.keys (conn : Connection ν) (S : Schema κ α ν) : List κ :=
  conn.edges.map (S.nodeKey ·.node)

namespace Container

/-- The keys of the container, in its order. -/
def keys (c : Container κ α) (S : Schema κ α ν) : List κ := c.elems.map S.toKey

/-- The keys in range. -/
def keysIn (c : Container κ α) (S : Schema κ α ν) (range : RangeArgs κ) : List κ :=
  (c.keys S).filter (range.contains S.key)

/-- "To enable cursors to function correctly, container must not have duplicate keys":
the keys increase strictly, and the two searches find the bounds. -/
structure Ordered (c : Container κ α) (S : Schema κ α ν) : Prop where
  sorted : Sorted S.key.less (c.keys S)
  lower_le : ∀ k, c.lowerBound k ≤ c.elems.length
  lower : ∀ k i (h : i < c.elems.length), i < c.lowerBound k ↔ S.key.less (S.toKey c.elems[i]) k
  upper_le : ∀ k, c.upperBound k ≤ c.elems.length
  upper : ∀ k i (h : i < c.elems.length), i < c.upperBound k ↔ ¬ S.key.less k (S.toKey c.elems[i])

/-- A search tree: the searches find the first element that is not less than the key,
and the first one that is greater. -/
def orderedSet (S : Schema κ α ν) (elems : List α) : Container κ α where
  elems
  lowerBound k := elems.findIdx fun x => !S.key.less (S.toKey x) k
  upperBound k := elems.findIdx fun x => S.key.less k (S.toKey x)

/-- The search for a predicate that stays true once it is. -/
theorem lt_findIdx_iff {p : α → Bool} {l : List α} (hmono : l.Pairwise fun a b => p a → p b)
    (i : Nat) (hi : i < l.length) : i < l.findIdx p ↔ ¬ p l[i] := by
  constructor
  · intro hlt
    exact Bool.eq_false_iff.mp (List.not_of_lt_findIdx hlt)
  · intro hnot
    by_contra hge
    have hlt : l.findIdx p < l.length := by omega
    have hp : p (l[l.findIdx p]) := List.findIdx_getElem
    rcases Nat.eq_or_lt_of_le (Nat.le_of_not_lt hge) with heq | hlt'
    · exact hnot (by simpa [heq] using hp)
    · exact hnot (List.pairwise_iff_getElem.mp hmono _ i hlt hi hlt' hp)

/-- A search tree with strictly increasing keys is ordered. -/
theorem orderedSet_ordered {S : Schema κ α ν} {elems : List α}
    (h : elems.Pairwise fun a b => S.key.less (S.toKey a) (S.toKey b)) :
    (orderedSet S elems).Ordered S where
  sorted := List.pairwise_map.mpr h
  lower_le k := List.findIdx_le_length
  lower k i hi := by
    refine (lt_findIdx_iff (h.imp fun {a b} hab hnot => ?_) i hi).trans ?_
    · have hba := S.key.strictWeak.asymm _ _ hab
      simpa using S.key.strictWeak.not_lt_trans hba (by simpa using hnot)
    · rw [Bool.not_eq_true, Bool.not_eq_false']
      rfl
  upper_le k := List.findIdx_le_length
  upper k i hi := lt_findIdx_iff (h.imp fun {_ _} hab hless => S.key.strictWeak.trans hless hab) i hi

/-! ## Iterators of an ordered container -/

variable {c : Container κ α} {S : Schema κ α ν}

theorem Ordered.less_iff (h : c.Ordered S) {a b : Nat} (ha : a < c.elems.length)
    (hb : b < c.elems.length) :
    S.key.less (S.toKey c.elems[a]) (S.toKey c.elems[b]) ↔ a < b := by
  have hmono : ∀ i j (hi : i < c.elems.length) (hj : j < c.elems.length), i < j →
      S.key.less (S.toKey c.elems[i]) (S.toKey c.elems[j]) := by
    intro i j hi hj hij
    have hkeys := List.pairwise_iff_getElem.mp h.sorted i j
      (by simpa [keys] using hi) (by simpa [keys] using hj) hij
    simpa [keys] using hkeys
  constructor
  · intro hless
    rcases Nat.lt_trichotomy a b with hab | rfl | hba
    · exact hab
    · exact absurd hless (S.key.strictWeak.irrefl _)
    · exact absurd hless (S.key.strictWeak.asymm _ _ (hmono b a hb ha hba))
  · exact hmono a b ha hb

/-- Comparing elements is comparing positions. -/
theorem Ordered.compareIt_iff (h : c.Ordered S) {a b : Nat} (ha : a ≤ c.elems.length)
    (hb : b ≤ c.elems.length) : c.compareIt S a b ↔ a < b := by
  unfold compareIt
  rcases Nat.lt_or_eq_of_le ha with ha | rfl
  · rw [List.getElem?_eq_getElem ha]
    rcases Nat.lt_or_eq_of_le hb with hb | rfl
    · rw [List.getElem?_eq_getElem hb]
      exact h.less_iff ha hb
    · rw [List.getElem?_eq_none (Nat.le_refl _)]
      simpa using ha
  · rw [List.getElem?_eq_none (Nat.le_refl _)]
    simpa using hb

theorem Ordered.maxIt_eq (h : c.Ordered S) {a b : Nat} (ha : a ≤ c.elems.length)
    (hb : b ≤ c.elems.length) : maxIt (c.compareIt S) a b = max a b := by
  unfold maxIt
  split
  · next hlt =>
    have := (h.compareIt_iff ha hb).mp hlt
    omega
  · next hlt =>
    have := mt (h.compareIt_iff ha hb).mpr hlt
    omega

theorem Ordered.minIt_eq (h : c.Ordered S) {a b : Nat} (ha : a ≤ c.elems.length)
    (hb : b ≤ c.elems.length) : minIt (c.compareIt S) a b = min a b := by
  unfold minIt
  split
  · next hlt =>
    have := (h.compareIt_iff hb ha).mp hlt
    omega
  · next hlt =>
    have := mt (h.compareIt_iff hb ha).mpr hlt
    omega

theorem Ordered.clampIt_eq (h : c.Ordered S) {v lo hi : Nat} (hv : v ≤ c.elems.length)
    (hlo : lo ≤ hi) (hhi : hi ≤ c.elems.length) :
    clampIt (c.compareIt S) v lo hi = max lo (min v hi) := by
  unfold clampIt
  split
  · next hlt =>
    have := (h.compareIt_iff hv (Nat.le_trans hlo hhi)).mp hlt
    omega
  · next hlt =>
    have hge := mt (h.compareIt_iff hv (Nat.le_trans hlo hhi)).mpr hlt
    split
    · next hgt =>
      have := (h.compareIt_iff hhi hv).mp hgt
      omega
    · next hgt =>
      have := mt (h.compareIt_iff hhi hv).mpr hgt
      omega

/-! ## The positions of the selection -/

/-- An optional bound is one more condition on the positions from the iterator on. -/
theorem Ordered.raiseIt_spec (h : c.Ordered S) {it : Nat} {bound : Option Nat}
    (hit : it ≤ c.elems.length) (hbound : ∀ b ∈ bound, b ≤ c.elems.length) :
    raiseIt (c.compareIt S) it bound ≤ c.elems.length ∧
      ∀ i, raiseIt (c.compareIt S) it bound ≤ i ↔ it ≤ i ∧ bound.all (decide <| · ≤ i) := by
  cases bound with
  | none => exact ⟨hit, fun i => by simp [raiseIt]⟩
  | some b =>
    have hb := hbound b rfl
    rw [raiseIt, h.maxIt_eq hit hb]
    exact ⟨Nat.max_le.mpr ⟨hit, hb⟩, fun i => by rw [Nat.max_le, Option.all_some, decide_eq_true_eq]⟩

/-- An optional bound is one more condition on the positions before the iterator. -/
theorem Ordered.cutIt_spec (h : c.Ordered S) {it : Nat} {bound : Option Nat}
    (hit : it ≤ c.elems.length) (hbound : ∀ b ∈ bound, b ≤ c.elems.length) :
    cutIt (c.compareIt S) it bound ≤ c.elems.length ∧
      ∀ i, i < cutIt (c.compareIt S) it bound ↔ i < it ∧ bound.all (decide <| i < ·) := by
  cases bound with
  | none => exact ⟨hit, fun i => by simp [cutIt]⟩
  | some b =>
    rw [cutIt, h.minIt_eq hit (hbound b rfl)]
    exact ⟨Nat.le_trans (Nat.min_le_left _ _) hit,
      fun i => by rw [Nat.lt_min, Option.all_some, decide_eq_true_eq]⟩

theorem Ordered.lower_map_le (h : c.Ordered S) (k : Option κ) :
    ∀ b ∈ k.map c.lowerBound, b ≤ c.elems.length := by
  intro b hb
  obtain ⟨k, -, rfl⟩ := Option.mem_map.mp hb
  exact h.lower_le k

theorem Ordered.upper_map_le (h : c.Ordered S) (k : Option κ) :
    ∀ b ∈ k.map c.upperBound, b ≤ c.elems.length := by
  intro b hb
  obtain ⟨k, -, rfl⟩ := Option.mem_map.mp hb
  exact h.upper_le k

/-- From `rangeBegin` on the elements pass `ge` and `gt`, and none before does. -/
theorem Ordered.rangeBegin_spec (h : c.Ordered S) (range : RangeArgs κ) :
    c.rangeBegin S range ≤ c.elems.length ∧
      ∀ i (hi : i < c.elems.length), c.rangeBegin S range ≤ i ↔
        range.ge.all (!S.key.less (S.toKey c.elems[i]) ·) ∧
          range.gt.all (S.key.less · (S.toKey c.elems[i])) := by
  obtain ⟨hge, hgei⟩ := h.raiseIt_spec (Nat.zero_le _) (h.lower_map_le range.ge)
  obtain ⟨hgt, hgti⟩ := h.raiseIt_spec hge (h.upper_map_le range.gt)
  refine ⟨hgt, fun i hi => ?_⟩
  have hlower : ∀ k, c.lowerBound k ≤ i ↔ ¬ S.key.less (S.toKey c.elems[i]) k := fun k => by
    rw [← h.lower k i hi, Nat.not_lt]
  have hupper : ∀ k, c.upperBound k ≤ i ↔ S.key.less k (S.toKey c.elems[i]) := fun k => by
    rw [← Nat.not_lt, h.upper k i hi, not_not]
  rw [rangeBegin, hgti, hgei]
  simp [Option.all_map, hlower, hupper]

/-- `rangeEnd` is behind `rangeBegin`, and among the elements from there on those
before it are the ones that pass `le` and `lt`. -/
theorem Ordered.rangeEnd_spec (h : c.Ordered S) (range : RangeArgs κ) :
    c.rangeBegin S range ≤ c.rangeEnd S range ∧ c.rangeEnd S range ≤ c.elems.length ∧
      ∀ i (hi : i < c.elems.length), c.rangeBegin S range ≤ i → (i < c.rangeEnd S range ↔
        range.le.all (!S.key.less · (S.toKey c.elems[i])) ∧
          range.lt.all (S.key.less (S.toKey c.elems[i]) ·)) := by
  obtain ⟨hbegin, -⟩ := h.rangeBegin_spec range
  obtain ⟨hle, hlei⟩ := h.cutIt_spec (Nat.le_refl _) (h.upper_map_le range.le)
  obtain ⟨hlt, hlti⟩ := h.cutIt_spec hle (h.lower_map_le range.lt)
  rw [rangeEnd, h.maxIt_eq hbegin hlt]
  refine ⟨Nat.le_max_left _ _, Nat.max_le.mpr ⟨hbegin, hlt⟩, fun i hi hge => ?_⟩
  have hcut := hlti i
  rw [hlei] at hcut
  have hmax : i < max (c.rangeBegin S range) (cutIt (c.compareIt S)
      (cutIt (c.compareIt S) c.elems.length (range.le.map c.upperBound))
      (range.lt.map c.lowerBound)) ↔ i < cutIt (c.compareIt S)
      (cutIt (c.compareIt S) c.elems.length (range.le.map c.upperBound))
      (range.lt.map c.lowerBound) := by
    omega
  rw [hmax, hcut]
  simp [Option.all_map, h.lower, h.upper, hi]

/-- Inside the range the elements from `start` on are behind the `after` cursor. -/
theorem Ordered.start_spec (h : c.Ordered S) (range : RangeArgs κ) (after : Option κ) :
    c.rangeBegin S range ≤ c.start S range after ∧ c.start S range after ≤ c.rangeEnd S range ∧
      ∀ i (hi : i < c.elems.length), c.rangeBegin S range ≤ i → i < c.rangeEnd S range →
        (c.start S range after ≤ i ↔ after.all (S.key.less · (S.toKey c.elems[i]))) := by
  obtain ⟨hbe, hend, -⟩ := h.rangeEnd_spec range
  unfold start
  cases after with
  | none => exact ⟨Nat.le_refl _, hbe, fun i hi hge _ => by simpa using hge⟩
  | some k =>
    dsimp only
    rw [h.clampIt_eq (h.upper_le k) hbe hend]
    refine ⟨Nat.le_max_left _ _, Nat.max_le.mpr ⟨hbe, Nat.min_le_right _ _⟩,
      fun i hi hge hlt => ?_⟩
    have hupper : c.upperBound k ≤ i ↔ S.key.less k (S.toKey c.elems[i]) := by
      simpa using not_congr (h.upper k i hi)
    rw [Option.all_some, ← hupper]
    omega

/-- Inside the range and behind `start` the elements up to `stop` are those before the
`before` cursor. -/
theorem Ordered.stop_spec (h : c.Ordered S) (range : RangeArgs κ) (after before : Option κ) :
    c.start S range after ≤ c.stop S range after before ∧
      c.stop S range after before ≤ c.rangeEnd S range ∧
      ∀ i (hi : i < c.elems.length), c.start S range after ≤ i → i < c.rangeEnd S range →
        (i < c.stop S range after before ↔ before.all (S.key.less (S.toKey c.elems[i]) ·)) := by
  obtain ⟨hbe, hend, -⟩ := h.rangeEnd_spec range
  obtain ⟨hbs, hse, -⟩ := h.start_spec range after
  unfold stop
  cases before with
  | none =>
    dsimp only
    rw [h.maxIt_eq (Nat.le_trans hse hend) hend]
    exact ⟨Nat.le_max_left _ _, Nat.max_le.mpr ⟨hse, Nat.le_refl _⟩,
      fun i hi hge hlt => by simp only [Option.all_none, iff_true]; omega⟩
  | some k =>
    dsimp only
    rw [h.clampIt_eq (h.lower_le k) hbe hend,
      h.maxIt_eq (Nat.le_trans hse hend) (Nat.max_le.mpr ⟨by omega, by omega⟩)]
    refine ⟨Nat.le_max_left _ _, by omega, fun i hi hge hlt => ?_⟩
    rw [Option.all_some, ← h.lower k i hi]
    omega

end Container

/-- A filter that keeps the positions from `b` to `e` keeps a slice. -/
theorem filter_eq_slice {l : List α} {p : α → Bool} {b e : Nat} (hbe : b ≤ e)
    (he : e ≤ l.length) (h : ∀ i (hi : i < l.length), p l[i] ↔ b ≤ i ∧ i < e) :
    l.filter p = (l.take e).drop b := by
  have hsplit : l = l.take b ++ ((l.take e).drop b ++ l.drop e) := by
    conv_lhs => rw [← List.take_append_drop e l, ← List.take_append_drop b (l.take e)]
    rw [List.take_take, Nat.min_eq_left hbe, List.append_assoc]
  have hfront : (l.take b).filter p = [] := by
    rw [List.filter_eq_nil_iff]
    intro x hx
    obtain ⟨i, hi, rfl⟩ := List.mem_iff_getElem.mp hx
    rw [List.length_take] at hi
    rw [List.getElem_take, h i (by omega)]
    omega
  have hback : (l.drop e).filter p = [] := by
    rw [List.filter_eq_nil_iff]
    intro x hx
    obtain ⟨i, hi, rfl⟩ := List.mem_iff_getElem.mp hx
    rw [List.length_drop] at hi
    rw [List.getElem_drop, h (e + i) (by omega)]
    omega
  have hmid : ((l.take e).drop b).filter p = (l.take e).drop b := by
    rw [List.filter_eq_self]
    intro x hx
    obtain ⟨i, hi, rfl⟩ := List.mem_iff_getElem.mp hx
    rw [List.length_drop, List.length_take] at hi
    rw [List.getElem_drop, List.getElem_take, h (b + i) (by omega)]
    omega
  conv_lhs => rw [hsplit]
  rw [List.filter_append, List.filter_append, hfront, hback, hmid, List.nil_append,
    List.append_nil]

namespace Container

variable {c : Container κ α} {S : Schema κ α ν}

/-- The elements between `start` and `stop`. -/
def window (c : Container κ α) (S : Schema κ α ν) (range : RangeArgs κ)
    (after before : Option κ) : List α :=
  (c.elems.take (c.stop S range after before)).drop (c.start S range after)

/-- **The window holds what the filters and the cursors select.** -/
theorem Ordered.window_eq (h : c.Ordered S) (range : RangeArgs κ) (after before : Option κ) :
    c.window S range after before = c.elems.filter fun x =>
      range.contains S.key (S.toKey x) && after.all (S.key.less · (S.toKey x)) &&
        before.all (S.key.less (S.toKey x) ·) := by
  obtain ⟨-, hbegin⟩ := h.rangeBegin_spec range
  obtain ⟨-, hend, hrange⟩ := h.rangeEnd_spec range
  obtain ⟨hbs, hse, hafter⟩ := h.start_spec range after
  obtain ⟨hss, hsr, hbefore⟩ := h.stop_spec range after before
  refine (filter_eq_slice hss (Nat.le_trans hsr hend) fun i hi => ?_).symm
  have hcontains : range.contains S.key (S.toKey c.elems[i]) ↔
      c.rangeBegin S range ≤ i ∧ i < c.rangeEnd S range := by
    rw [RangeArgs.contains, Bool.and_eq_true, Bool.and_eq_true, Bool.and_eq_true, and_assoc,
      ← hbegin i hi]
    exact and_congr_right fun hge => (hrange i hi hge).symm
  rw [Bool.and_eq_true, Bool.and_eq_true, hcontains]
  constructor
  · rintro ⟨⟨⟨hge, hlt⟩, ha⟩, hb⟩
    have hstart := (hafter i hi hge hlt).mpr ha
    exact ⟨hstart, (hbefore i hi hstart hlt).mpr hb⟩
  · rintro ⟨hge, hlt⟩
    have hge' : c.rangeBegin S range ≤ i := by omega
    have hlt' : i < c.rangeEnd S range := by omega
    exact ⟨⟨⟨hge', hlt'⟩, (hafter i hi hge' hlt').mp hge⟩, (hbefore i hi hge hlt').mp hlt⟩

theorem Ordered.window_length (h : c.Ordered S) (range : RangeArgs κ) (after before : Option κ) :
    (c.window S range after before).length =
      c.stop S range after before - c.start S range after := by
  obtain ⟨-, hend, -⟩ := h.rangeEnd_spec range
  obtain ⟨-, hsr, -⟩ := h.stop_spec range after before
  rw [window, List.length_drop, List.length_take, Nat.min_eq_left (Nat.le_trans hsr hend)]

end Container

/-! ## The loops -/

section Loops

variable {c : Container κ α} {S : Schema κ α ν}

theorem toNat_of_pos {n : UInt32} (hn : 0 < n) : n.toNat = (n - 1).toNat + 1 := by
  have hle : (1 : UInt32) ≤ n := UInt32.le_iff_toNat_le.mpr (UInt32.lt_iff_toNat_lt.mp hn)
  have hpos : 0 < n.toNat := UInt32.lt_iff_toNat_lt.mp hn
  rw [UInt32.toNat_sub_of_le _ _ hle]
  show n.toNat = n.toNat - 1 + 1
  omega

theorem toNat_of_not_pos {n : UInt32} (hn : ¬ 0 < n) : n.toNat = 0 := by
  by_contra h0
  exact hn (UInt32.lt_iff_toNat_lt.mpr (Nat.pos_of_ne_zero h0))

theorem drop_take_self (l : List α) (i : Nat) : (l.take i).drop i = [] :=
  List.drop_eq_nil_of_le (List.length_take_le _ _)

/-- The forward loop takes `count` elements, or all up to `stop` without a count. -/
theorem forwardLoop_spec {stop : Nat} (hstop : stop ≤ c.elems.length) :
    ∀ (fuel it : Nat) (first : Option UInt32), it ≤ stop → stop - it ≤ fuel →
      forwardLoop c S stop fuel it first =
        ((((c.elems.take stop).drop it).take (first.elim (stop - it) UInt32.toNat)).map (edgeOf S),
          min stop (it + first.elim (stop - it) UInt32.toNat)) := by
  intro fuel
  induction fuel with
  | zero =>
    intro it first hit hfuel
    obtain rfl : it = stop := by omega
    rw [forwardLoop, drop_take_self, Nat.min_eq_left (Nat.le_add_right _ _), List.take_nil]
    rfl
  | succ fuel ih =>
    intro it first hit hfuel
    rw [forwardLoop]
    by_cases hcond : it ≠ stop ∧ first.all (0 < ·)
    · rw [if_pos hcond]
      obtain ⟨hne, hpos⟩ := hcond
      have hlt : it < stop := by omega
      have hadd : addEdge c S it = [edgeOf S c.elems[it]] := by
        rw [addEdge, List.getElem?_eq_getElem (by omega)]
        rfl
      -- the count left for the next round, with and without `first`
      have hcount : first.elim (stop - it) UInt32.toNat =
          (first.map (· - 1)).elim (stop - (it + 1)) UInt32.toNat + 1 := by
        cases first with
        | none =>
          show stop - it = stop - (it + 1) + 1
          omega
        | some n =>
          exact toNat_of_pos (by simpa using hpos)
      have hslice : (c.elems.take stop).drop it =
          c.elems[it] :: (c.elems.take stop).drop (it + 1) := by
        rw [List.drop_eq_getElem_cons (by rw [List.length_take]; omega), List.getElem_take]
      rw [ih (it + 1) (first.map (· - 1)) hlt (by omega), hadd, hcount, hslice,
        List.take_succ_cons, List.map_cons]
      dsimp only
      rw [List.singleton_append, Nat.add_right_comm it 1, Nat.add_assoc it]
    · rw [if_neg hcond]
      rcases Classical.em (it = stop) with rfl | hne
      · rw [drop_take_self, Nat.min_eq_left (Nat.le_add_right _ _), List.take_nil]
        rfl
      · -- the count is used up
        cases first with
        | none => exact absurd ⟨hne, rfl⟩ hcond
        | some n =>
          have hn : n.toNat = 0 := toNat_of_not_pos fun hpos => hcond ⟨hne, by simpa using hpos⟩
          show _ = ((((c.elems.take stop).drop it).take n.toNat).map (edgeOf S),
            min stop (it + n.toNat))
          rw [hn, Nat.add_zero, Nat.min_eq_right hit]
          rfl

/-- The backward loop takes the last `last` elements, the last one first. -/
theorem backwardLoop_spec {it : Nat} :
    ∀ (fuel stop : Nat) (last : UInt32), it ≤ stop → stop ≤ c.elems.length → stop - it ≤ fuel →
      backwardLoop c S it fuel stop last =
        (((((c.elems.take stop).drop it).reverse.take last.toNat)).map (edgeOf S),
          max it (stop - last.toNat)) := by
  intro fuel
  induction fuel with
  | zero =>
    intro stop last hit hstop hfuel
    obtain rfl : it = stop := by omega
    rw [backwardLoop, drop_take_self, Nat.max_eq_left (Nat.sub_le _ _), List.reverse_nil,
      List.take_nil]
    rfl
  | succ fuel ih =>
    intro stop last hit hstop hfuel
    rw [backwardLoop]
    by_cases hcond : it ≠ stop ∧ 0 < last
    · rw [if_pos hcond]
      obtain ⟨hne, hpos⟩ := hcond
      obtain ⟨stop, rfl⟩ : ∃ s, stop = s + 1 := ⟨stop - 1, by omega⟩
      have hlt : stop < c.elems.length := by omega
      have hadd : addEdge c S stop = [edgeOf S c.elems[stop]] := by
        rw [addEdge, List.getElem?_eq_getElem hlt]
        rfl
      have hslice : (c.elems.take (stop + 1)).drop it =
          (c.elems.take stop).drop it ++ [c.elems[stop]] := by
        rw [List.take_succ_eq_append_getElem hlt, List.drop_append_of_le_length]
        rw [List.length_take]
        omega
      rw [Nat.add_sub_cancel, ih stop (last - 1) (by omega) (by omega) (by omega), hadd,
        toNat_of_pos hpos, hslice, List.reverse_append, List.reverse_singleton,
        List.singleton_append, List.take_succ_cons, List.map_cons, Nat.add_sub_add_right]
      rfl
    · rw [if_neg hcond]
      rcases Classical.em (it = stop) with rfl | hne
      · rw [drop_take_self, Nat.max_eq_left (Nat.sub_le _ _), List.reverse_nil, List.take_nil]
        rfl
      · rw [toNat_of_not_pos fun hpos => hcond ⟨hne, hpos⟩, Nat.sub_zero, Nat.max_eq_right hit, List.take_zero]
        rfl

end Loops

/-! ## Pages -/

@[simp] theorem withCursors_edges (edges : List (Edge ν)) (pageInfo : PageInfo) :
    (withCursors edges pageInfo).edges = edges := by
  unfold withCursors
  split <;> rfl

@[simp] theorem withCursors_hasNextPage (edges : List (Edge ν)) (pageInfo : PageInfo) :
    (withCursors edges pageInfo).pageInfo.hasNextPage = pageInfo.hasNextPage := by
  unfold withCursors
  split <;> rfl

@[simp] theorem withCursors_hasPreviousPage (edges : List (Edge ν)) (pageInfo : PageInfo) :
    (withCursors edges pageInfo).pageInfo.hasPreviousPage = pageInfo.hasPreviousPage := by
  unfold withCursors
  split <;> rfl

/-- A page that is not empty carries the cursors of its first and its last edge. -/
theorem withCursors_cursors {edges : List (Edge ν)} {front back : Edge ν}
    (hfront : edges.head? = some front) (hback : edges.getLast? = some back)
    (pageInfo : PageInfo) :
    (withCursors edges pageInfo).pageInfo.startCursor = front.cursor ∧
      (withCursors edges pageInfo).pageInfo.endCursor = back.cursor := by
  rw [withCursors, hfront, hback]
  exact ⟨rfl, rfl⟩

/-- A cursor decodes to the key it was made from. -/
theorem keyFromHex_cursor (key : Key κ) (k : κ) :
    keyFromHex key (some (cursor key k)) = .ok (some k) := by
  have hne : cursor key k ≠ [] := fun h => key.toBin_ne_nil k (hex_eq_nil.mp h)
  have hbin : key.fromBin (key.toBin k) = .ok (k, []) := by
    simpa using key.fromBin_toBin k []
  rw [keyFromHex, if_neg hne, cursor, unhex_hex]
  show (key.fromBin (key.toBin k)).map _ = _
  rw [hbin]
  rfl

section Pages

variable {c : Container κ α} {S : Schema κ α ν}

/-- The page of some elements: its keys, and the cursors of the first and last of them. -/
theorem withCursors_map (S : Schema κ α ν) (xs : List α) (pageInfo : PageInfo) :
    (withCursors (xs.map (edgeOf S)) pageInfo).keys S = xs.map S.toKey ∧
      (∀ k, (xs.map S.toKey).head? = some k →
        (withCursors (xs.map (edgeOf S)) pageInfo).pageInfo.startCursor = cursor S.key k) ∧
      ∀ k, (xs.map S.toKey).getLast? = some k →
        (withCursors (xs.map (edgeOf S)) pageInfo).pageInfo.endCursor = cursor S.key k := by
  constructor
  · rw [Connection.keys, withCursors_edges, List.map_map]
    exact List.map_congr_left fun x _ => S.nodeKey_toNode x
  · rcases Classical.em (xs = []) with rfl | hne
    · constructor <;> intro k hk <;> cases hk
    · have hfront : (xs.map (edgeOf S)).head? = some (edgeOf S (xs.head hne)) := by
        rw [List.head?_map, List.head?_eq_some_head hne]
        rfl
      have hback : (xs.map (edgeOf S)).getLast? = some (edgeOf S (xs.getLast hne)) := by
        rw [List.getLast?_map, List.getLast?_eq_some_getLast hne]
        rfl
      have hcursors := withCursors_cursors hfront hback pageInfo
      rw [List.head?_map, List.head?_eq_some_head hne, List.getLast?_map,
        List.getLast?_eq_some_getLast hne]
      constructor
      · rintro k hk
        obtain rfl := Option.some.inj hk
        exact hcursors.1
      · rintro k hk
        obtain rfl := Option.some.inj hk
        exact hcursors.2

/-- The window of an `after` cursor holds the keys behind it. -/
theorem Container.Ordered.window_after (h : c.Ordered S) (range : RangeArgs κ)
    (after : Option κ) :
    (c.window S range after none).map S.toKey =
      Keyset.rest S.key.less after (c.keysIn S range) := by
  rw [h.window_eq, Keyset.rest, Container.keysIn, Container.keys, List.filter_filter,
    List.filter_map]
  congr 2
  funext x
  rw [Option.all_none, Bool.and_true, Function.comp_apply, Bool.and_comm]

/-- The window of a `before` cursor holds the keys behind it in the opposite order. -/
theorem Container.Ordered.window_before (h : c.Ordered S) (range : RangeArgs κ)
    (before : Option κ) :
    (c.window S range none before).reverse.map S.toKey =
      Keyset.rest (fun a b => S.key.less b a) before (c.keysIn S range).reverse := by
  rw [h.window_eq, Keyset.rest, Container.keysIn, Container.keys, ← List.filter_reverse,
    ← List.filter_reverse, List.filter_filter, ← List.map_reverse, List.filter_map]
  congr 2
  funext x
  rw [Option.all_none, Bool.and_true, Function.comp_apply, Bool.and_comm]

/-- The page of the forward loop with a count. -/
theorem Container.Ordered.firstPage_eq (h : c.Ordered S) (range : RangeArgs κ)
    (after before : Option κ) (n : UInt32) :
    firstPage c S range after before (some n) none =
      withCursors (((c.window S range after before).take n.toNat).map (edgeOf S))
        { hasPreviousPage := decide (c.start S range after ≠ c.rangeBegin S range)
          hasNextPage := decide (min (c.stop S range after before)
            (c.start S range after + n.toNat) ≠ c.rangeEnd S range) } := by
  obtain ⟨-, hend, -⟩ := h.rangeEnd_spec range
  obtain ⟨hss, hsr, -⟩ := h.stop_spec range after before
  rw [firstPage, forwardLoop_spec (Nat.le_trans hsr hend) _ _ _ hss (by omega)]
  rfl

/-- The page of the backward loop. -/
theorem Container.Ordered.lastPage_eq (h : c.Ordered S) (range : RangeArgs κ)
    (after before : Option κ) (n : UInt32) :
    lastPage c S range after before n =
      withCursors (((c.window S range after before).reverse.take n.toNat).reverse.map (edgeOf S))
        { hasPreviousPage := decide (max (c.start S range after)
            (c.stop S range after before - n.toNat) ≠ c.rangeBegin S range)
          hasNextPage := decide (c.stop S range after before ≠ c.rangeEnd S range) } := by
  obtain ⟨-, hend, -⟩ := h.rangeEnd_spec range
  obtain ⟨hss, hsr, -⟩ := h.stop_spec range after before
  rw [lastPage, backwardLoop_spec _ _ _ hss (Nat.le_trans hsr hend) (by omega), List.map_reverse]
  rfl

/-- **`first:n` behind a cursor is a page of keyset pagination.** -/
theorem makeConnection_first (h : c.Ordered S) (range : RangeArgs κ) (n : UInt32)
    {after : Option κ} {afterCursor : Option Bytes}
    (hafter : keyFromHex S.key afterCursor = .ok after) :
    ∃ conn, makeConnection c S range { first := some n, after := afterCursor } = .ok conn ∧
      conn.keys S = Keyset.page S.key.less n.toNat after (c.keysIn S range) ∧
      conn.pageInfo.hasNextPage = Keyset.more S.key.less n.toNat after (c.keysIn S range) ∧
      ∀ k, (conn.keys S).getLast? = some k → conn.pageInfo.endCursor = cursor S.key k := by
  obtain ⟨-, hend, -⟩ := h.rangeEnd_spec range
  obtain ⟨-, hse, -⟩ := h.start_spec range after
  have hlen := h.window_length range after none
  -- without a `before` cursor the loop runs to the end of the range
  have hstop : c.stop S range after none = c.rangeEnd S range := by
    show maxIt (c.compareIt S) _ (c.rangeEnd S range) = _
    rw [h.maxIt_eq (Nat.le_trans hse hend) hend, Nat.max_eq_right hse]
  refine ⟨firstPage c S range after none (some n) none, ?_, ?_⟩
  · unfold makeConnection
    rw [hafter]
    rfl
  · rw [h.firstPage_eq, hstop]
    obtain ⟨hkeys, -, hcursor⟩ := withCursors_map S
      ((c.window S range after none).take n.toNat)
      { hasPreviousPage := decide (c.start S range after ≠ c.rangeBegin S range)
        hasNextPage := decide (min (c.rangeEnd S range) (c.start S range after + n.toNat) ≠
          c.rangeEnd S range) }
    rw [withCursors_hasNextPage]
    refine ⟨?_, ?_, ?_⟩
    · rw [hkeys, List.map_take, h.window_after, Keyset.page]
    · rw [Keyset.more, ← h.window_after, List.length_map, hlen, hstop]
      exact decide_eq_decide.mpr (by omega)
    · rw [hkeys]
      exact hcursor

/-- **`last:n` before a cursor is a page of keyset pagination in the opposite order.** -/
theorem makeConnection_last (h : c.Ordered S) (range : RangeArgs κ) (n : UInt32)
    {before : Option κ} {beforeCursor : Option Bytes}
    (hbefore : keyFromHex S.key beforeCursor = .ok before) :
    ∃ conn, makeConnection c S range { last := some n, before := beforeCursor } = .ok conn ∧
      (conn.keys S).reverse =
        Keyset.page (fun a b => S.key.less b a) n.toNat before (c.keysIn S range).reverse ∧
      conn.pageInfo.hasPreviousPage =
        Keyset.more (fun a b => S.key.less b a) n.toNat before (c.keysIn S range).reverse ∧
      ∀ k, (conn.keys S).reverse.getLast? = some k → conn.pageInfo.startCursor = cursor S.key k := by
  have hlen := h.window_length range none before
  obtain ⟨hss, -, -⟩ := h.stop_spec range none before
  refine ⟨lastPage c S range none before n, ?_, ?_⟩
  · unfold makeConnection
    rw [hbefore]
    rfl
  · rw [h.lastPage_eq]
    obtain ⟨hkeys, hcursor, -⟩ := withCursors_map S
      ((c.window S range none before).reverse.take n.toNat).reverse
      { hasPreviousPage := decide (max (c.start S range none)
          (c.stop S range none before - n.toNat) ≠ c.rangeBegin S range)
        hasNextPage := decide (c.stop S range none before ≠ c.rangeEnd S range) }
    rw [withCursors_hasPreviousPage]
    refine ⟨?_, ?_, ?_⟩
    · rw [hkeys, List.map_reverse, List.reverse_reverse, List.map_take, h.window_before, Keyset.page]
    · rw [Keyset.more, ← h.window_before, List.length_map, List.length_reverse, hlen]
      have hbegin : c.start S range none = c.rangeBegin S range := rfl
      exact decide_eq_decide.mpr (by omega)
    · rw [hkeys, List.getLast?_reverse]
      exact hcursor

/-- **Without paging arguments** a connection has all that passes the filters. -/
theorem makeConnection_all (h : c.Ordered S) (range : RangeArgs κ) :
    ∃ conn, makeConnection c S range {} = .ok conn ∧
      conn.edges = (c.elems.filter fun x => range.contains S.key (S.toKey x)).map (edgeOf S) := by
  obtain ⟨-, hend, -⟩ := h.rangeEnd_spec range
  obtain ⟨hss, hsr, -⟩ := h.stop_spec range none none
  refine ⟨firstPage c S range none none none none, rfl, ?_⟩
  have hwindow := h.window_eq range none none
  simp only [Option.all_none, Bool.and_true] at hwindow
  rw [firstPage, forwardLoop_spec (Nat.le_trans hsr hend) _ _ _ hss (by omega)]
  dsimp only
  rw [withCursors_edges, ← hwindow]
  show (List.take (c.stop S range none none - c.start S range none)
    (c.window S range none none)).map (edgeOf S) = _
  rw [← h.window_length range none none, List.take_length]

/-! ### Pages that are not empty -/

theorem Container.Ordered.window_ne_nil_iff (h : c.Ordered S) (range : RangeArgs κ)
    (after before : Option κ) : c.window S range after before ≠ [] ↔
      ∃ k ∈ c.keys S, range.selects S.key after before k := by
  rw [h.window_eq, Ne, List.filter_eq_nil_iff]
  push Not
  constructor
  · rintro ⟨x, hx, hselects⟩
    exact ⟨S.toKey x, List.mem_map_of_mem hx, hselects⟩
  · rintro ⟨k, hk, hselects⟩
    obtain ⟨x, hx, rfl⟩ := List.mem_map.mp hk
    exact ⟨x, hx, hselects⟩

theorem toNat_eq_zero_iff {n : UInt32} : n.toNat = 0 ↔ n = 0 := by
  rw [← UInt32.toNat_inj]
  rfl

theorem take_ne_nil_iff {l : List α} {n : Nat} : l.take n ≠ [] ↔ l ≠ [] ∧ n ≠ 0 := by
  rw [Ne, List.take_eq_nil_iff]
  tauto

theorem Container.Ordered.lastPage_ne_nil_iff (h : c.Ordered S) (range : RangeArgs κ)
    (after before : Option κ) (last : UInt32) :
    (lastPage c S range after before last).edges ≠ [] ↔
      c.window S range after before ≠ [] ∧ last ≠ 0 := by
  rw [h.lastPage_eq, withCursors_edges, Ne, List.map_eq_nil_iff, List.reverse_eq_nil_iff]
  rw [← Ne, take_ne_nil_iff, Ne, List.reverse_eq_nil_iff, Ne, Ne, toNat_eq_zero_iff]

theorem Container.Ordered.firstPage_ne_nil_iff (h : c.Ordered S) (range : RangeArgs κ)
    (after before : Option κ) (first last : Option UInt32) :
    (firstPage c S range after before first last).edges ≠ [] ↔
      c.window S range after before ≠ [] ∧ first ≠ some 0 ∧ last ≠ some 0 := by
  obtain ⟨-, hend, -⟩ := h.rangeEnd_spec range
  obtain ⟨hss, hsr, -⟩ := h.stop_spec range after before
  have hlen := h.window_length range after before
  have hloop := forwardLoop_spec (S := S) (Nat.le_trans hsr hend) c.elems.length _ first hss (by omega)
  -- the edges of the loop
  have hedges : ((c.window S range after before).take
      (first.elim (c.stop S range after before - c.start S range after) UInt32.toNat)).map
        (edgeOf S) ≠ [] ↔ c.window S range after before ≠ [] ∧ first ≠ some 0 := by
    rw [Ne, List.map_eq_nil_iff, ← Ne, take_ne_nil_iff]
    refine and_congr_right fun hne => ?_
    cases first with
    | none =>
      refine iff_of_true ?_ (by simp)
      show c.stop S range after before - c.start S range after ≠ 0
      rw [← hlen]
      exact fun h0 => hne (List.length_eq_zero_iff.mp h0)
    | some n =>
      show n.toNat ≠ 0 ↔ _
      rw [Ne, toNat_eq_zero_iff, Ne, Option.some.injEq]
  rw [firstPage, hloop]
  dsimp only
  rw [← and_assoc, ← hedges, Container.window]
  generalize List.map (edgeOf S) _ = edges
  cases last with
  | none =>
    rw [withCursors_edges]
    exact (and_iff_left (by simp)).symm
  | some last =>
    have hlast : some last ≠ some 0 ↔ last.toNat ≠ 0 := by
      rw [Ne, Ne, Option.some.injEq, toNat_eq_zero_iff]
    rw [hlast]
    dsimp only
    split
    · next hlt =>
      rw [withCursors_edges, Ne, List.drop_eq_nil_iff]
      have hpos : edges ≠ [] := fun h0 => by
        rw [h0] at hlt
        exact Nat.not_lt_zero _ hlt
      rw [and_iff_right hpos]
      omega
    · next hge =>
      rw [withCursors_edges]
      refine (and_iff_left_of_imp fun hne => ?_).symm
      have := List.length_pos_iff.mpr hne
      omega

/-- **When a page is not empty**: its counts leave room, and its filters select a key of the
container. -/
theorem makeConnection_ne_nil_iff (h : c.Ordered S) {range : RangeArgs κ} {args : PageArgs}
    {after before : Option κ} (hafter : keyFromHex S.key args.after = .ok after)
    (hbefore : keyFromHex S.key args.before = .ok before) {conn : Connection ν}
    (hconn : makeConnection c S range args = .ok conn) :
    conn.edges ≠ [] ↔ args.HasRoom ∧ ∃ k ∈ c.keys S, range.selects S.key after before k := by
  rw [makeConnection, hafter, hbefore] at hconn
  dsimp only [bind, Except.bind] at hconn
  rw [← h.window_ne_nil_iff, and_comm, PageArgs.HasRoom]
  split at hconn
  · next last hlast hfirst =>
    cases hconn
    rw [h.lastPage_ne_nil_iff, hlast, hfirst]
    simp
  · cases hconn
    exact h.firstPage_ne_nil_iff range after before args.first args.last

/-- The edges of a list are made of elements of the container. -/
def FromElems (c : Container κ α) (S : Schema κ α ν) (edges : List (Edge ν)) : Prop :=
  ∀ edge ∈ edges, ∃ x ∈ c.elems, edge = edgeOf S x

theorem addEdge_fromElems (c : Container κ α) (S : Schema κ α ν) (it : Nat) :
    FromElems c S (addEdge c S it) := by
  intro edge hedge
  obtain ⟨x, hx, rfl⟩ := Option.map_eq_some_iff.mp (Option.mem_toList.mp hedge)
  exact ⟨x, List.mem_of_getElem? hx, rfl⟩

theorem FromElems.append {edges edges' : List (Edge ν)} (h : FromElems c S edges)
    (h' : FromElems c S edges') : FromElems c S (edges ++ edges') := by
  intro edge hedge
  rcases List.mem_append.mp hedge with hedge | hedge
  · exact h edge hedge
  · exact h' edge hedge

theorem forwardLoop_fromElems (c : Container κ α) (S : Schema κ α ν) (stop fuel it : Nat)
    (first : Option UInt32) : FromElems c S (forwardLoop c S stop fuel it first).1 := by
  induction fuel generalizing it first with
  | zero => exact fun _ hedge => absurd hedge List.not_mem_nil
  | succ fuel ih =>
    rw [forwardLoop]
    split
    · exact (addEdge_fromElems c S it).append (ih _ _)
    · exact fun _ hedge => absurd hedge List.not_mem_nil

theorem backwardLoop_fromElems (c : Container κ α) (S : Schema κ α ν) (it fuel stop : Nat)
    (last : UInt32) : FromElems c S (backwardLoop c S it fuel stop last).1 := by
  induction fuel generalizing stop last with
  | zero => exact fun _ hedge => absurd hedge List.not_mem_nil
  | succ fuel ih =>
    rw [backwardLoop]
    split
    · exact (addEdge_fromElems c S (stop - 1)).append (ih _ _)
    · exact fun _ hedge => absurd hedge List.not_mem_nil

/-- A page shows nothing but elements of the container. -/
theorem makeConnection_fromElems {range : RangeArgs κ} {args : PageArgs} {conn : Connection ν}
    (h : makeConnection c S range args = .ok conn) : FromElems c S conn.edges := by
  rw [makeConnection] at h
  obtain ⟨after, -, h⟩ := ok_of_bind h
  obtain ⟨before, -, h⟩ := ok_of_bind h
  split at h
  · cases h
    rw [lastPage]
    dsimp only
    rw [withCursors_edges]
    exact fun edge hedge => backwardLoop_fromElems _ _ _ _ _ _ edge (List.mem_reverse.mp hedge)
  · cases h
    have hloop := forwardLoop_fromElems c S (c.stop S range after before) c.elems.length
      (c.start S range after) args.first
    rw [firstPage]
    dsimp only
    -- the count from the end takes its edges from those of the loop
    split
    · split
      · rw [withCursors_edges]
        exact fun edge hedge => hloop edge (List.mem_of_mem_drop hedge)
      · rw [withCursors_edges]
        exact hloop
    · rw [withCursors_edges]
      exact hloop

end Pages

end Microchain.Graphql
