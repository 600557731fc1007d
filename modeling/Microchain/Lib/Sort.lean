import Microchain.Lib.OrderedList

/-!
# `std::sort`

A sort is known by what the C++ standard says of it: it puts the elements in order, and
equivalent ones in any order. `StdSort` is any function that does. What holds for all
of them holds whatever the library does with equivalent elements; `StdSort.choosing`
gives one that does what one likes with one list.
-/

namespace Microchain.Lib

universe u

variable {α : Type u}

/-- `std::sort` with the comparison `lt`. -/
structure StdSort (lt : α → α → Bool) where
  sort : List α → List α
  perm : ∀ l, (sort l).Perm l
  inOrder : ∀ l, WeakSorted lt (sort l)

/-- The order of `f a`. -/
theorem StrictWeak.comap {β : Type u} {lt : β → β → Bool} (h : StrictWeak lt) (f : α → β) :
    StrictWeak fun a b => lt (f a) (f b) :=
  ⟨fun a b => h.asymm (f a) (f b), fun a b c => h.negTrans (f a) (f b) (f c)⟩

theorem WeakSorted.insertLower {lt : α → α → Bool} (hlt : StrictWeak lt) {p : α} {l : List α}
    (hl : WeakSorted lt l) : WeakSorted lt (insertLower lt p l) := by
  induction l with
  | nil => exact List.pairwise_singleton _ _
  | cons x xs ih =>
    obtain ⟨hx, hxs⟩ := List.pairwise_cons.mp hl
    rw [Lib.insertLower]
    split
    · next hxp =>
      refine List.pairwise_cons.mpr ⟨fun y hy => ?_, ih hxs⟩
      rcases List.mem_cons.mp ((insertLower_perm lt p xs).mem_iff.mp hy) with rfl | hy
      · exact hlt.asymm _ _ hxp
      · exact hx y hy
    · next hxp =>
      refine List.pairwise_cons.mpr ⟨fun y hy => ?_, hl⟩
      rcases List.mem_cons.mp hy with rfl | hy
      · exact hxp
      · exact hlt.not_lt_trans (hx y hy) hxp

namespace StdSort

variable {lt : α → α → Bool}

/-- A sort that keeps the order of equivalent elements. -/
def stable (hlt : StrictWeak lt) : StdSort lt where
  sort := sortBy lt
  perm := sortBy_perm lt
  inOrder l := by
    induction l with
    | nil => exact List.Pairwise.nil
    | cons x xs ih => exact ih.insertLower hlt

variable [DecidableEq α]

/-- A sort that arranges `l` as `l'`. -/
def choosing (S : StdSort lt) {l l' : List α} (hperm : l'.Perm l) (hl' : WeakSorted lt l') :
    StdSort lt where
  sort m := if m = l then l' else S.sort m
  perm m := by
    split
    · next h =>
      subst h
      exact hperm
    · exact S.perm m
  inOrder m := by
    split
    · exact hl'
    · exact S.inOrder m

theorem choosing_sort (S : StdSort lt) {l l' : List α} (hperm : l'.Perm l)
    (hl' : WeakSorted lt l') : (S.choosing hperm hl').sort l = l' := if_pos rfl

end StdSort

end Microchain.Lib
