import Mathlib.Data.List.TakeWhile

/-!
# `std::lower_bound`

The halving search of the C++ standard library over a random access range,
as its loop computes it: `first` moves past the middle element when the
predicate holds there, otherwise the length shrinks to the lower half.

- `lowerBound_le`: on *any* list the result is a position of the list or its
  end, so `it[-1]` is an element whenever the result is not the beginning;
- `lowerBound_eq_of_partitioned`: on a list partitioned by the predicate the
  result is the length of the prefix that satisfies it.

- `lowerBound_prev`, `lowerBound_gt`: on any list, the element in front of the result
  satisfies the predicate, and a prefix that satisfies it is passed;
- `lowerBound_eq_iff`: on any list, which elements decide where the search ends.

The block log relies on the facts about any list: nothing in `add_block` keeps
arbitrary binary blocks sorted by eosio number.
-/

namespace Microchain.Lib

universe u

variable {α : Type u}

/-- The loop of `std::lower_bound`: `len` elements from `first` on are left.
`fuel` bounds the number of halvings (the length of the range is enough). -/
def lowerBoundLoop (p : α → Bool) (l : List α) : Nat → Nat → Nat → Nat
  | 0, first, _ => first
  | fuel + 1, first, len =>
    if len = 0 then first
    else if (l[first + len / 2]?).any p then
      lowerBoundLoop p l fuel (first + len / 2 + 1) (len - len / 2 - 1)
    else
      lowerBoundLoop p l fuel first (len / 2)

/-- `std::lower_bound(begin, end, value, comp)` with `p e = comp(e, value)`, as
the offset of the returned iterator. -/
def lowerBound (p : α → Bool) (l : List α) : Nat :=
  lowerBoundLoop p l l.length 0 l.length

theorem lowerBoundLoop_bounds (p : α → Bool) (l : List α) :
    ∀ (fuel first len : Nat),
      first ≤ lowerBoundLoop p l fuel first len ∧
        lowerBoundLoop p l fuel first len ≤ first + len := by
  intro fuel
  induction fuel with
  | zero =>
    intro first len
    exact ⟨Nat.le_refl _, Nat.le_add_right _ _⟩
  | succ fuel ih =>
    intro first len
    rw [lowerBoundLoop]
    split
    · omega
    · split
      · have := ih (first + len / 2 + 1) (len - len / 2 - 1)
        omega
      · have := ih first (len / 2)
        omega

/-- The result is a position in the range or its end, sorted or not. -/
theorem lowerBound_le (p : α → Bool) (l : List α) : lowerBound p l ≤ l.length := by
  have := (lowerBoundLoop_bounds p l l.length 0 l.length).2
  rw [lowerBound]
  omega

/-- The element in front of the result satisfies the predicate, sorted or not: the loop
moves behind an element only after it has looked at it. -/
theorem lowerBoundLoop_prev {p : α → Bool} {l : List α} :
    ∀ (fuel first len : Nat), (∀ i, first = i + 1 → (l[i]?).any p) →
      ∀ i, lowerBoundLoop p l fuel first len = i + 1 → (l[i]?).any p := by
  intro fuel
  induction fuel with
  | zero =>
    intro first len hfirst
    exact hfirst
  | succ fuel ih =>
    intro first len hfirst
    rw [lowerBoundLoop]
    split
    · exact hfirst
    · split
      · next hcmp =>
        refine ih _ _ fun i hi => ?_
        obtain rfl : first + len / 2 = i := Nat.succ.inj hi
        exact hcmp
      · exact ih _ _ hfirst

theorem lowerBound_prev {p : α → Bool} {l : List α} {i : Nat} (h : lowerBound p l = i + 1) :
    (l[i]?).any p :=
  lowerBoundLoop_prev l.length 0 l.length (fun _ h0 => absurd h0 (Nat.succ_ne_zero _).symm) i h

/-- An element that satisfies the predicate like all in front of it is passed, sorted or
not. -/
theorem lowerBoundLoop_gt {p : α → Bool} {l : List α} {k : Nat}
    (hp : ∀ i ≤ k, (l[i]?).any p) :
    ∀ (fuel first len : Nat), len ≤ fuel → k < first + len →
      k < lowerBoundLoop p l fuel first len := by
  intro fuel
  induction fuel with
  | zero =>
    intro first len hfuel hk
    rw [lowerBoundLoop]
    omega
  | succ fuel ih =>
    intro first len hfuel hk
    rw [lowerBoundLoop]
    split
    · omega
    · split
      · exact ih _ _ (by omega) (by omega)
      · next hcmp =>
        -- the middle element is not among the first `k + 1`
        refine ih _ _ (by omega) (Nat.lt_of_not_le fun hle => hcmp (hp _ hle))

theorem lowerBound_gt {p : α → Bool} {l : List α} {k : Nat} (hk : k < l.length)
    (hp : ∀ i ≤ k, (l[i]?).any p) : k < lowerBound p l :=
  lowerBoundLoop_gt hp l.length 0 l.length (Nat.le_refl _) (by omega)

/-- `l` is partitioned by `p`: once `p` fails it fails for the rest. -/
def Partitioned (p : α → Bool) (l : List α) : Prop :=
  l.Pairwise fun a b => p b → p a

/-- The loop invariant: everything before `first` satisfies `p`, everything
from `first + len` on does not; then so it is around the result. -/
theorem lowerBoundLoop_spec {p : α → Bool} {l : List α} (hp : Partitioned p l) :
    ∀ (fuel first len : Nat), len ≤ fuel → first + len ≤ l.length →
      (∀ i (h : i < l.length), i < first → p l[i]) →
      (∀ i (h : i < l.length), first + len ≤ i → ¬ p l[i]) →
      (∀ i (h : i < l.length), i < lowerBoundLoop p l fuel first len → p l[i]) ∧
      (∀ i (h : i < l.length), lowerBoundLoop p l fuel first len ≤ i → ¬ p l[i]) := by
  have hmono : ∀ i j (hi : i < l.length) (hj : j < l.length), i ≤ j → p l[j] → p l[i] := by
    intro i j hi hj hij hpj
    rcases Nat.eq_or_lt_of_le hij with rfl | hlt
    · exact hpj
    · exact List.pairwise_iff_getElem.mp hp i j hi hj hlt hpj
  intro fuel
  induction fuel with
  | zero =>
    intro first len hfuel _ hlow hhigh
    obtain rfl : len = 0 := by omega
    exact ⟨hlow, hhigh⟩
  | succ fuel ih =>
    intro first len hfuel hlen hlow hhigh
    rw [lowerBoundLoop]
    split
    · next h0 =>
      subst h0
      exact ⟨hlow, hhigh⟩
    · next h0 =>
      have hmid : first + len / 2 < l.length := by omega
      rw [List.getElem?_eq_getElem hmid, Option.any_some]
      split
      · next hcmp =>
        -- the upper half: everything up to the middle satisfies `p` with it
        refine ih _ _ (by omega) (by omega) (fun i hi hlt => ?_) (fun i hi hle => ?_)
        · exact hmono i _ hi hmid (by omega) hcmp
        · exact hhigh i hi (by omega)
      · next hcmp =>
        -- the lower half: nothing from the middle on can satisfy `p`
        refine ih _ _ (by omega) (by omega) hlow (fun i hi hle hpi => hcmp ?_)
        exact hmono _ i hmid hi hle hpi

/-- On a partitioned range the search separates the elements that satisfy the
predicate from those that do not. -/
theorem lowerBound_spec {p : α → Bool} {l : List α} (hp : Partitioned p l) :
    (∀ i (h : i < l.length), i < lowerBound p l → p l[i]) ∧
      (∀ i (h : i < l.length), lowerBound p l ≤ i → ¬ p l[i]) :=
  lowerBoundLoop_spec hp l.length 0 l.length (Nat.le_refl _) (by omega)
    (fun _ _ h => absurd h (Nat.not_lt_zero _)) (fun i hi hle => by omega)

/-- On a partitioned range the search returns the length of the satisfying
prefix. -/
theorem lowerBound_eq_of_partitioned {p : α → Bool} {l : List α}
    (hp : Partitioned p l) {k : Nat} (hk : k ≤ l.length)
    (hlow : ∀ i (h : i < l.length), i < k → p l[i])
    (hhigh : ∀ i (h : i < l.length), k ≤ i → ¬ p l[i]) : lowerBound p l = k := by
  obtain ⟨hlow', hhigh'⟩ := lowerBound_spec hp
  have hle := lowerBound_le p l
  rcases Nat.lt_trichotomy (lowerBound p l) k with h | h | h
  · exact absurd (hlow _ (by omega) h) (hhigh' _ (by omega) (Nat.le_refl _))
  · exact h
  · exact absurd (hlow' k (by omega) h) (hhigh k (by omega) (Nat.le_refl _))

/-- With a range in front of it, a search that moves moves as far behind the range,
and one that does not ends inside the range or right behind it. -/
theorem lowerBound_append {p : α → Bool} {pre l : List α} (hp : Partitioned p (pre ++ l)) :
    (0 < lowerBound p l → lowerBound p (pre ++ l) = pre.length + lowerBound p l) ∧
      (lowerBound p l = 0 → lowerBound p (pre ++ l) ≤ pre.length) := by
  obtain ⟨-, hl, hcross⟩ := List.pairwise_append.mp hp
  obtain ⟨hlow, hhigh⟩ := lowerBound_spec hl
  have hle := lowerBound_le p l
  constructor
  · intro hpos
    refine lowerBound_eq_of_partitioned hp (by simpa using hle) (fun i hi hlt => ?_)
      fun i hi hge => ?_
    · by_cases hpre : i < pre.length
      · rw [List.getElem_append_left hpre]
        have h0 : 0 < l.length := by omega
        exact hcross _ (List.getElem_mem hpre) _ (List.getElem_mem h0) (hlow 0 h0 hpos)
      · rw [List.getElem_append_right (by omega)]
        exact hlow _ _ (by omega)
    · rw [List.getElem_append_right (by omega)]
      exact hhigh _ _ (by omega)
  · intro h0
    by_contra hgt
    rw [Nat.not_le] at hgt
    have hle' := lowerBound_le p (pre ++ l)
    have hlen : pre.length < (pre ++ l).length := by omega
    have hin := (lowerBound_spec hp).1 pre.length hlen hgt
    rw [List.getElem_append_right (Nat.le_refl _)] at hin
    exact hhigh _ _ (by omega) hin

/-! ## The elements looked at -/

/-- The positions that a search ending at `i` looks at. -/
def probesLoop (i : Nat) : Nat → Nat → Nat → List Nat
  | 0, _, _ => []
  | fuel + 1, first, len =>
    if len = 0 then []
    else
      (first + len / 2) ::
        if first + len / 2 < i then probesLoop i fuel (first + len / 2 + 1) (len - len / 2 - 1)
        else probesLoop i fuel first (len / 2)

/-- The positions that the search in a range of `len` elements looks at where it ends at `i`. -/
def probes (len i : Nat) : List Nat := probesLoop i len 0 len

/-- The search ends at `i` exactly if the elements it looks at on the way there are on the
right side of `i`. -/
theorem lowerBoundLoop_eq_iff {p : α → Bool} {l : List α} {i : Nat} :
    ∀ (fuel first len : Nat), len ≤ fuel → first ≤ i → i ≤ first + len →
      (lowerBoundLoop p l fuel first len = i ↔
        ∀ m ∈ probesLoop i fuel first len, ((l[m]?).any p ↔ m < i)) := by
  intro fuel
  induction fuel with
  | zero =>
    intro first len hfuel hfirst hi
    rw [lowerBoundLoop, probesLoop]
    exact ⟨fun _ m hm => (nomatch hm), fun _ => by omega⟩
  | succ fuel ih =>
    intro first len hfuel hfirst hi
    rw [lowerBoundLoop, probesLoop]
    by_cases h0 : len = 0
    · rw [if_pos h0, if_pos h0]
      exact ⟨fun _ m hm => (nomatch hm), fun _ => by omega⟩
    · rw [if_neg h0, if_neg h0, List.forall_mem_cons]
      by_cases hp : (l[first + len / 2]?).any p <;> by_cases hm : first + len / 2 < i
      · rw [if_pos hp, if_pos hm, ih _ _ (by omega) (by omega) (by omega)]
        exact ⟨fun h => ⟨iff_of_true hp hm, h⟩, And.right⟩
      · -- the search has moved behind `i`
        have hgt := (lowerBoundLoop_bounds p l fuel (first + len / 2 + 1) (len - len / 2 - 1)).1
        rw [if_pos hp]
        exact ⟨fun h => by omega, fun h => absurd (h.1.mp hp) hm⟩
      · -- the search stays in front of `i`
        have hlt := (lowerBoundLoop_bounds p l fuel first (len / 2)).2
        rw [if_neg hp]
        exact ⟨fun h => by omega, fun h => absurd (h.1.mpr hm) hp⟩
      · rw [if_neg hp, if_neg hm, ih _ _ (by omega) hfirst (by omega)]
        exact ⟨fun h => ⟨iff_of_false hp hm, h⟩, And.right⟩

theorem lowerBound_eq_iff {p : α → Bool} {l : List α} {i : Nat} (hi : i ≤ l.length) :
    lowerBound p l = i ↔ ∀ m ∈ probes l.length i, ((l[m]?).any p ↔ m < i) :=
  lowerBoundLoop_eq_iff l.length 0 l.length (Nat.le_refl _) (Nat.zero_le i) (by omega)

/-! ## Positions that split a list -/

/-- The elements in front of `it` satisfy `p`, and no others. -/
structure Splits (p : α → Bool) (l : List α) (it : Nat) : Prop where
  le : it ≤ l.length
  low : ∀ i (h : i < l.length), i < it → p l[i]
  high : ∀ i (h : i < l.length), it ≤ i → ¬ p l[i]

namespace Splits

variable {p : α → Bool} {l : List α} {it : Nat}

theorem of_partitioned (hp : Partitioned p l) : Splits p l (lowerBound p l) :=
  ⟨lowerBound_le p l, (lowerBound_spec hp).1, (lowerBound_spec hp).2⟩

/-- It is where a linear search for the first other element stops. -/
theorem findIdx_eq (h : Splits p l it) : (l.findIdx fun a => !p a) = it := by
  rcases Nat.eq_or_lt_of_le h.le with rfl | hlt
  · refine List.findIdx_eq_length_of_false fun x hx => ?_
    obtain ⟨i, hi, rfl⟩ := List.mem_iff_getElem.mp hx
    simpa using h.low i hi hi
  · rw [List.findIdx_eq hlt]
    exact ⟨by simpa using h.high it hlt (Nat.le_refl _), fun j hj => by simpa using h.low j _ hj⟩

theorem filter_eq (h : Splits p l it) : l.filter p = l.take it := by
  have hcut : l.filter p = (l.take it ++ l.drop it).filter p := by rw [List.take_append_drop]
  rw [hcut, List.filter_append, List.filter_eq_self.mpr, List.filter_eq_nil_iff.mpr,
    List.append_nil]
  · intro a ha
    obtain ⟨i, hi, rfl⟩ := List.mem_iff_getElem.mp ha
    rw [List.length_drop] at hi
    rw [List.getElem_drop]
    exact h.high (it + i) (by omega) (Nat.le_add_right it i)
  · intro a ha
    obtain ⟨i, hi, rfl⟩ := List.mem_iff_getElem.mp ha
    rw [List.length_take] at hi
    rw [List.getElem_take]
    exact h.low i (by omega) (by omega)

end Splits

end Microchain.Lib
