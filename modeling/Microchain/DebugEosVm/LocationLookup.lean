import Mathlib.Data.List.Pairwise
import Mathlib.Data.Set.Lattice
import Mathlib.Order.CompletePartialOrder
import Microchain.DebugEosVm.WasmInfo

/-!
# Looking up a source line

`get_location` takes the last location that begins at or below the address. Locations
whose ranges do not overlap can still stand between the address and the one that
contains it: an empty location, where the line changes and the address does not. It can
begin inside another, or where another begins, and then the sort may put it behind
(`findsLocation_iff`).
-/

namespace Microchain.DebugEosVm

open Lib

/-- The addresses of a location. -/
def Location.range (l : Location) : Set UInt32 :=
  {address | l.beginAddress ≤ address ∧ address < l.endAddress}

/-- The info of collected locations, after the sort. -/
def sortedInfo (S : StdSort Location.less) (collected : Info) : WasmInfo where
  toInfo := { collected with locations := S.sort collected.locations }

/-- The lookup returns a location that contains the address if one of the collected
does, and null otherwise. -/
structure FindsLocation (S : StdSort Location.less) (collected : Info) (address : UInt32) : Prop where
  found : ∀ l ∈ collected.locations, address ∈ l.range →
    ∃ r ∈ collected.locations,
      (sortedInfo S collected).getLocation address = some r ∧ address ∈ r.range
  missing : (∀ l ∈ collected.locations, address ∉ l.range) →
    (sortedInfo S collected).getLocation address = none

/-- No empty location begins in one around the address, at or below the address. -/
def NoneEmptyBelow (locations : List Location) (address : UInt32) : Prop :=
  ∀ l ∈ locations, address ∈ l.range → ∀ m ∈ locations, m.beginAddress = m.endAddress →
    l.beginAddress ≤ m.beginAddress → address < m.beginAddress

section Sorted

variable {S : StdSort Location.less} {collected : Info} {address : UInt32}

theorem mem_sort (l : Location) : l ∈ S.sort collected.locations ↔ l ∈ collected.locations :=
  (S.perm collected.locations).mem_iff

theorem sort_begins (S : StdSort Location.less) (locations : List Location) :
    (S.sort locations).Pairwise fun x y => x.beginAddress ≤ y.beginAddress := by
  refine (S.inOrder locations).imp fun {x y} hxy => ?_
  rw [Location.less, decide_eq_true_eq, UInt32.not_lt] at hxy
  exact hxy

theorem getLocation_eq_some_iff {l : Location} :
    (sortedInfo S collected).getLocation address = some l ↔
      ∃ i : Nat, (S.sort collected.locations)[i]? = some l ∧ address ∈ l.range ∧
        ∀ (j : Nat) m, i < j → (S.sort collected.locations)[j]? = some m →
          address < m.beginAddress := by
  rw [WasmInfo.getLocation, sortedInfo, lastBefore_eq_some_iff (sort_begins S _)]
  simp only [Location.range, Set.mem_ofPred_eq, and_assoc]

/-- Where the ranges do not overlap, two locations around an address are one. -/
theorem eq_of_mem_range {locations : List Location}
    (hapart : locations.Pairwise fun x y => Disjoint x.range y.range) {x y : Location}
    (hx : x ∈ locations) (hy : y ∈ locations) (hx' : address ∈ x.range) (hy' : address ∈ y.range) :
    x = y := by
  have hsymm : Std.Symm fun x y : Location => Disjoint x.range y.range := ⟨fun _ _ h => h.symm⟩
  by_contra hne
  exact Set.disjoint_left.mp (hapart.forall hx hy hne) hx' hy'

theorem findsLocation_of_noneEmptyBelow
    (hle : ∀ l ∈ collected.locations, l.beginAddress ≤ l.endAddress)
    (hapart : collected.locations.Pairwise fun x y => Disjoint x.range y.range)
    (h : NoneEmptyBelow collected.locations address) : FindsLocation S collected address := by
  constructor
  · intro l hl hin
    refine ⟨l, hl, getLocation_eq_some_iff.mpr ?_, hin⟩
    obtain ⟨i, hi⟩ := List.mem_iff_getElem?.mp ((mem_sort (S := S) l).mpr hl)
    refine ⟨i, hi, hin, fun j m hij hj => ?_⟩
    obtain ⟨hilt, rfl⟩ := List.getElem?_eq_some_iff.mp hi
    obtain ⟨hjlt, rfl⟩ := List.getElem?_eq_some_iff.mp hj
    have hm := (mem_sort (S := S) _).mp (List.getElem_mem hjlt)
    have hbegins := List.pairwise_iff_getElem.mp (sort_begins S _) i j hilt hjlt hij
    rcases UInt32.lt_or_eq_of_le (hle _ hm) with hlt | heq
    · -- a location that is not empty begins behind the end of the one around the address
      have hapart' := (S.perm collected.locations).symm.pairwise hapart fun h => h.symm
      have hdisjoint := List.pairwise_iff_getElem.mp hapart' i j hilt hjlt hij
      by_contra hge
      refine Set.disjoint_left.mp hdisjoint ⟨hbegins, ?_⟩ ⟨UInt32.le_refl _, hlt⟩
      exact UInt32.lt_of_le_of_lt (UInt32.not_lt.mp hge) hin.2
    · exact h _ hl hin _ hm heq hbegins
  · intro hno
    refine Option.eq_none_iff_forall_not_mem.mpr fun r hr => ?_
    obtain ⟨i, hi, hin, _⟩ := getLocation_eq_some_iff.mp hr
    exact hno r ((mem_sort r).mp (List.mem_of_getElem? hi)) hin

/-- An order in which `m` stands behind all that begin with it. -/
theorem exists_sort_last {locations : List Location} {m : Location} (hm : m ∈ locations) :
    ∃ S : StdSort Location.less, ∃ pre post, S.sort locations = pre ++ m :: post ∧
      ∀ x ∈ post, m.beginAddress < x.beginAddress := by
  let stable : StdSort Location.less := .stable location_strictWeak
  let rest := stable.sort (locations.erase m)
  have hsorted : WeakSorted Location.less (insertEqual Location.less m rest) :=
    (stable.inOrder _).insertEqual location_strictWeak
  have hperm : (insertEqual Location.less m rest).Perm locations :=
    ((insertEqual_perm _ m rest).trans ((stable.perm _).cons m)).trans
      (List.perm_cons_erase hm).symm
  refine ⟨stable.choosing hperm hsorted, ?_⟩
  rw [StdSort.choosing_sort]
  obtain ⟨pre, post, heq, hpost⟩ := insertEqual_eq_append location_strictWeak m (stable.inOrder _)
  exact ⟨pre, post, heq, fun x hx => by simpa [Location.less] using hpost x hx⟩

/-- **The lookup is right whatever the sort does with equal beginnings exactly if no empty
location begins in the one around the address, at or below the address.** -/
theorem findsLocation_iff (hle : ∀ l ∈ collected.locations, l.beginAddress ≤ l.endAddress)
    (hapart : collected.locations.Pairwise fun x y => Disjoint x.range y.range) :
    (∀ S, FindsLocation S collected address) ↔ NoneEmptyBelow collected.locations address := by
  constructor
  · intro h l hl hin m hm hempty hbegins
    by_contra hge
    rw [UInt32.not_lt] at hge
    obtain ⟨S, pre, post, hsort, hpost⟩ := exists_sort_last hm
    obtain ⟨r, hr, hget, hrin⟩ := (h S).found l hl hin
    obtain ⟨i, hi, _, hlast⟩ := getLocation_eq_some_iff.mp hget
    -- the location found is not empty, so it stands behind `m`
    have hbehind : pre.length < i := by
      rcases Nat.lt_trichotomy i pre.length with hlt | rfl | hgt
      · have hmid : (S.sort collected.locations)[pre.length]? = some m := by rw [hsort]; simp
        exact absurd hge (UInt32.not_le.mpr (hlast _ _ hlt hmid))
      · have hmid : (S.sort collected.locations)[pre.length]? = some m := by rw [hsort]; simp
        obtain rfl := Option.some_inj.mp (hi.symm.trans hmid)
        exact absurd (UInt32.lt_of_le_of_lt hrin.1 hrin.2) (by rw [hempty]; exact UInt32.lt_irrefl _)
      · exact hgt
    have hlater : m.beginAddress < r.beginAddress := by
      rw [hsort, List.getElem?_append_right hbehind.le] at hi
      obtain ⟨k, hk⟩ : ∃ k, i - pre.length = k + 1 := ⟨i - pre.length - 1, by omega⟩
      rw [hk, List.getElem?_cons_succ] at hi
      exact hpost r (List.mem_of_getElem? hi)
    -- but it is the only one around the address, which begins no later
    obtain rfl := eq_of_mem_range hapart hr hl hrin hin
    exact UInt32.not_le.mpr hlater hbegins
  · intro h S
    exact findsLocation_of_noneEmptyBelow hle hapart h

end Sorted

end Microchain.DebugEosVm
