import Mathlib.Data.List.Basic
import Mathlib.Data.List.Nodup
import Mathlib.Data.List.Perm.Basic

/-!
# Ordered containers of pointers, as lists

The contents of a search tree in order, with the operations of an intrusive
ordered container: insertion that refuses an equivalent element
(`insertUnique`), insertion after the equivalent elements (`insertEqual`),
insertion at the lower bound whatever is there (`insertLower`), and the repair of
the order after an element was changed in place (`needsFixup`).

`lt` compares elements by what they currently refer to, so the order of a list
that was sorted can be broken by a change to one element. Everything here is
stated for a strict weak order: elements with neither `lt a b` nor `lt b a` are
equivalent without being equal, and during an undo several equivalent elements
can sit in the container (`WeakSorted`) before it is strictly ordered again
(`Sorted`).
-/

namespace Microchain.Lib

universe u

variable {α : Type u}

/-- A strict weak order, as C++ comparison objects must be. -/
structure StrictWeak (lt : α → α → Bool) : Prop where
  asymm : ∀ a b, lt a b → ¬ lt b a
  negTrans : ∀ a b c, lt a c → lt a b ∨ lt b c

namespace StrictWeak

variable {lt : α → α → Bool}

theorem irrefl (h : StrictWeak lt) (a : α) : ¬ lt a a := fun haa => h.asymm a a haa haa

theorem trans (h : StrictWeak lt) {a b c : α} (hab : lt a b) (hbc : lt b c) : lt a c := by
  rcases h.negTrans a c b hab with hac | hcb
  · exact hac
  · exact absurd hcb (h.asymm b c hbc)

theorem not_lt_trans (h : StrictWeak lt) {a b c : α} (hab : ¬ lt a b) (hbc : ¬ lt b c) :
    ¬ lt a c := fun hac => (h.negTrans a b c hac).elim hab hbc

/-- The opposite order. -/
theorem flip (h : StrictWeak lt) : StrictWeak fun a b => lt b a :=
  ⟨fun a b => h.asymm b a, fun a b c hca => (h.negTrans c b a hca).symm⟩

end StrictWeak

/-- Strictly increasing: no two equivalent elements. -/
def Sorted (lt : α → α → Bool) (l : List α) : Prop := l.Pairwise fun a b => lt a b

/-- In order, equivalent elements allowed. -/
def WeakSorted (lt : α → α → Bool) (l : List α) : Prop := l.Pairwise fun a b => ¬ lt b a

/-- Neither element is before the other. -/
def Equivalent (lt : α → α → Bool) (a b : α) : Prop := ¬ lt a b ∧ ¬ lt b a

theorem Sorted.weak {lt : α → α → Bool} (hlt : StrictWeak lt) {l : List α} (h : Sorted lt l) :
    WeakSorted lt l := h.imp fun hab => hlt.asymm _ _ hab

/-- A weakly sorted list without equivalent elements is strictly sorted. -/
theorem WeakSorted.sorted {lt : α → α → Bool} {l : List α} (h : WeakSorted lt l)
    (hdistinct : l.Pairwise fun a b => ¬ Equivalent lt a b) : Sorted lt l := by
  refine (h.and hdistinct).imp fun {a b} hab => ?_
  by_contra hnot
  exact hab.2 ⟨hnot, hab.1⟩

/-- The order only depends on how the elements of the list compare. -/
theorem Sorted.congr {lt lt' : α → α → Bool} {l : List α}
    (hcongr : ∀ a ∈ l, ∀ b ∈ l, lt' a b = lt a b) (h : Sorted lt l) : Sorted lt' l :=
  h.imp_of_mem fun ha hb hab => by rw [hcongr _ ha _ hb]; exact hab

theorem WeakSorted.congr {lt lt' : α → α → Bool} {l : List α}
    (hcongr : ∀ a ∈ l, ∀ b ∈ l, lt' a b = lt a b) (h : WeakSorted lt l) : WeakSorted lt' l :=
  h.imp_of_mem fun ha hb hab => by rw [hcongr _ hb _ ha]; exact hab

theorem Sorted.nodup {lt : α → α → Bool} (hlt : StrictWeak lt) {l : List α}
    (h : Sorted lt l) : l.Nodup := by
  refine h.imp ?_
  rintro a _ hab rfl
  exact hlt.irrefl a hab

/-- Two strictly sorted lists with the same elements are equal. -/
theorem Sorted.eq_of_perm {lt : α → α → Bool} (hlt : StrictWeak lt) {l₁ l₂ : List α}
    (h₁ : Sorted lt l₁) (h₂ : Sorted lt l₂) (hperm : l₁.Perm l₂) : l₁ = l₂ :=
  hperm.eq_of_pairwise (fun a b _ _ hab hba => absurd hba (hlt.asymm a b hab)) h₁ h₂

/-! ## Insertion -/

/-- Insert `p` before the first element that is not less than it. -/
def insertLower (lt : α → α → Bool) (p : α) : List α → List α
  | [] => [p]
  | x :: xs => if lt x p then x :: insertLower lt p xs else p :: x :: xs

/-- `insert_unique`: fails when an equivalent element is there. -/
def insertUnique (lt : α → α → Bool) (p : α) : List α → Option (List α)
  | [] => some [p]
  | x :: xs =>
    if lt x p then (insertUnique lt p xs).map (x :: ·)
    else if lt p x then some (p :: x :: xs)
    else none

/-- `insert_equal`: insert `p` after the elements equivalent to it. -/
def insertEqual (lt : α → α → Bool) (p : α) : List α → List α
  | [] => [p]
  | x :: xs => if lt p x then p :: x :: xs else x :: insertEqual lt p xs

theorem insertLower_perm (lt : α → α → Bool) (p : α) (l : List α) :
    (insertLower lt p l).Perm (p :: l) := by
  induction l with
  | nil => exact List.Perm.refl _
  | cons x xs ih =>
    rw [insertLower]
    split
    · exact (ih.cons x).trans (List.Perm.swap p x xs)
    · exact List.Perm.refl _

/-- Taking out the element at its lower bound leaves the list as it was. -/
theorem insertLower_eraseIdx (lt : α → α → Bool) (p : α) (l : List α) :
    (insertLower lt p l).eraseIdx (l.takeWhile (lt · p)).length = l := by
  induction l with
  | nil => rfl
  | cons x xs ih =>
    rw [insertLower, List.takeWhile_cons]
    split
    · rw [List.length_cons, List.eraseIdx_cons_succ, ih]
    · rw [List.length_nil, List.eraseIdx_cons_zero]

theorem insertEqual_perm (lt : α → α → Bool) (p : α) (l : List α) :
    (insertEqual lt p l).Perm (p :: l) := by
  induction l with
  | nil => exact List.Perm.refl _
  | cons x xs ih =>
    rw [insertEqual]
    split
    · exact List.Perm.refl _
    · exact (ih.cons x).trans (List.Perm.swap p x xs)

/-- A successful insertion is the insertion at the lower bound. -/
theorem insertUnique_eq_some {lt : α → α → Bool} {p : α} {l l' : List α}
    (h : insertUnique lt p l = some l') : l' = insertLower lt p l := by
  induction l generalizing l' with
  | nil =>
    rw [insertUnique] at h
    exact (Option.some.inj h).symm
  | cons x xs ih =>
    rw [insertUnique] at h
    rw [insertLower]
    split at h
    · next hlt =>
      obtain ⟨l₁, hl₁, rfl⟩ := Option.map_eq_some_iff.mp h
      rw [if_pos hlt, ih hl₁]
    · next hlt =>
      split at h
      · rw [if_neg hlt]
        exact (Option.some.inj h).symm
      · exact absurd h (by simp)

/-- In a strictly sorted list the insertion fails exactly on an equivalent
element. -/
theorem insertUnique_eq_none_iff {lt : α → α → Bool} (hlt : StrictWeak lt) {p : α} {l : List α}
    (hl : Sorted lt l) : insertUnique lt p l = none ↔ ∃ x ∈ l, Equivalent lt p x := by
  induction l with
  | nil => simp [insertUnique]
  | cons x xs ih =>
    obtain ⟨hx, hxs⟩ := List.pairwise_cons.mp hl
    rw [insertUnique]
    split
    · next h1 =>
      have hne : ¬ Equivalent lt p x := fun h => h.2 h1
      simp only [Option.map_eq_none_iff, ih hxs, List.mem_cons, exists_eq_or_imp, hne, false_or]
    · next h1 =>
      split
      · next h2 =>
        simp only [reduceCtorEq, List.mem_cons, exists_eq_or_imp, false_iff, not_or, not_exists,
          not_and]
        refine ⟨fun h => h.1 h2, fun y hy h => h.1 (hlt.trans h2 (hx y hy))⟩
      · next h2 => simp [Equivalent, h1, h2]

theorem Sorted.insertLower {lt : α → α → Bool} (hlt : StrictWeak lt) {p : α} {l : List α}
    (hl : Sorted lt l) (hne : ∀ x ∈ l, ¬ Equivalent lt p x) :
    Sorted lt (insertLower lt p l) := by
  induction l with
  | nil => exact List.pairwise_singleton _ _
  | cons x xs ih =>
    obtain ⟨hx, hxs⟩ := List.pairwise_cons.mp hl
    rw [Lib.insertLower]
    split
    · next h1 =>
      refine List.pairwise_cons.mpr ⟨fun y hy => ?_, ih hxs fun y hy => hne y (.tail _ hy)⟩
      rcases List.mem_cons.mp ((insertLower_perm lt p xs).mem_iff.mp hy) with rfl | hy
      · exact h1
      · exact hx y hy
    · next h1 =>
      have hpx : lt p x := by
        by_contra h2
        exact hne x (.head _) ⟨h2, h1⟩
      refine List.pairwise_cons.mpr ⟨fun y hy => ?_, hl⟩
      rcases List.mem_cons.mp hy with rfl | hy
      · exact hpx
      · exact hlt.trans hpx (hx y hy)

/-- Inserting an element with no equivalent one succeeds and keeps the order. -/
theorem insertUnique_of_distinct {lt : α → α → Bool} (hlt : StrictWeak lt) {p : α} {l : List α}
    (hl : Sorted lt l) (hne : ∀ x ∈ l, ¬ Equivalent lt p x) :
    insertUnique lt p l = some (insertLower lt p l) := by
  cases h : insertUnique lt p l with
  | none =>
    obtain ⟨x, hx, heq⟩ := (insertUnique_eq_none_iff hlt hl).mp h
    exact absurd heq (hne x hx)
  | some l' => rw [insertUnique_eq_some h]

theorem distinct_of_insertUnique {lt : α → α → Bool} (hlt : StrictWeak lt) {p : α} {l l' : List α}
    (hl : Sorted lt l) (h : insertUnique lt p l = some l') :
    ∀ x ∈ l, ¬ Equivalent lt p x := fun x hx heq => by
  rw [(insertUnique_eq_none_iff hlt hl).mpr ⟨x, hx, heq⟩] at h
  exact absurd h (by simp)

theorem WeakSorted.insertEqual {lt : α → α → Bool} (hlt : StrictWeak lt) {p : α} {l : List α}
    (hl : WeakSorted lt l) : WeakSorted lt (insertEqual lt p l) := by
  induction l with
  | nil => exact List.pairwise_singleton _ _
  | cons x xs ih =>
    obtain ⟨hx, hxs⟩ := List.pairwise_cons.mp hl
    rw [Lib.insertEqual]
    split
    · next h1 =>
      refine List.pairwise_cons.mpr ⟨fun y hy => ?_, hl⟩
      rcases List.mem_cons.mp hy with rfl | hy
      · exact hlt.asymm _ _ h1
      · exact fun hyp => hx y hy (hlt.trans hyp h1)
    · next h1 =>
      refine List.pairwise_cons.mpr ⟨fun y hy => ?_, ih hxs⟩
      rcases List.mem_cons.mp ((insertEqual_perm lt p xs).mem_iff.mp hy) with rfl | hy
      · exact h1
      · exact hx y hy

/-- What is behind the element inserted is behind it in the order. -/
theorem insertEqual_eq_append {lt : α → α → Bool} (hlt : StrictWeak lt) (p : α) {l : List α}
    (hl : WeakSorted lt l) :
    ∃ pre post, insertEqual lt p l = pre ++ p :: post ∧ ∀ x ∈ post, lt p x := by
  induction l with
  | nil => exact ⟨[], [], rfl, nofun⟩
  | cons x xs ih =>
    obtain ⟨hx, hxs⟩ := List.pairwise_cons.mp hl
    rw [Lib.insertEqual]
    split
    · next h1 =>
      refine ⟨[], x :: xs, rfl, fun y hy => ?_⟩
      rcases List.mem_cons.mp hy with rfl | hy
      · exact h1
      · exact (hlt.negTrans p y x h1).resolve_right (hx y hy)
    · obtain ⟨pre, post, heq, hpost⟩ := ih hxs
      exact ⟨x :: pre, post, by rw [heq, List.cons_append], hpost⟩

/-! ## Sorting -/

/-- The elements of a list in order. -/
def sortBy (lt : α → α → Bool) (l : List α) : List α := l.foldr (insertLower lt) []

theorem sortBy_perm (lt : α → α → Bool) (l : List α) : (sortBy lt l).Perm l := by
  induction l with
  | nil => exact List.Perm.refl _
  | cons x xs ih => exact (insertLower_perm lt x _).trans (ih.cons x)

theorem sortBy_sorted {lt : α → α → Bool} (hlt : StrictWeak lt) {l : List α}
    (hne : l.Pairwise fun a b => ¬ Equivalent lt a b) : Sorted lt (sortBy lt l) := by
  induction l with
  | nil => exact List.Pairwise.nil
  | cons x xs ih =>
    obtain ⟨hx, hxs⟩ := List.pairwise_cons.mp hne
    exact (ih hxs).insertLower hlt fun y hy => hx y ((sortBy_perm lt xs).mem_iff.mp hy)

/-- A strictly sorted list is what sorting any arrangement of it gives. -/
theorem Sorted.eq_sortBy {lt : α → α → Bool} (hlt : StrictWeak lt) {l l' : List α}
    (hl : Sorted lt l) (hperm : l.Perm l') : l = sortBy lt l' := by
  have hne : l.Pairwise fun a b => ¬ Equivalent lt a b := hl.imp fun hab heq => heq.1 hab
  have hne' := hperm.pairwise hne fun {a b} hab hba => hab ⟨hba.2, hba.1⟩
  exact hl.eq_of_perm hlt (sortBy_sorted hlt hne') (hperm.trans (sortBy_perm lt l').symm)

/-! ## Repairing the order around one element -/

/-- Under a transitive relation, an element in order with its two neighbours is
in order with everything beyond them. -/
theorem pairwise_put_between {r : α → α → Prop} (htrans : ∀ x y z, r x y → r y z → r x z) {p : α}
    {a b : List α} (hrest : (a ++ b).Pairwise r) (hpred : ∀ z ∈ a.getLast?, r z p)
    (hsucc : ∀ z ∈ b.head?, r p z) : (a ++ p :: b).Pairwise r := by
  obtain ⟨ha, hb, hab⟩ := List.pairwise_append.mp hrest
  have hap : ∀ x ∈ a, r x p := by
    intro x hx
    obtain ⟨a', z, rfl⟩ := List.eq_nil_or_concat a |>.resolve_left (List.ne_nil_of_mem hx)
    have hz : r z p := hpred z (by simp)
    rw [List.concat_eq_append] at hx ha
    rcases List.mem_append.mp hx with hx | hx
    · -- `x` is before the neighbour `z`
      exact htrans x z p ((List.pairwise_append.mp ha).2.2 x hx z (by simp)) hz
    · obtain rfl : x = z := by simpa using hx
      exact hz
  have hpb : ∀ y ∈ b, r p y := by
    intro y hy
    cases b with
    | nil => cases hy
    | cons z b' =>
      have hz : r p z := hsucc z (by simp)
      rcases List.mem_cons.mp hy with rfl | hy
      · exact hz
      · exact htrans p z y hz ((List.pairwise_cons.mp hb).1 y hy)
  refine List.pairwise_append.mpr ⟨ha, List.pairwise_cons.mpr ⟨hpb, hb⟩, fun x hx y hy => ?_⟩
  rcases List.mem_cons.mp hy with rfl | hy
  · exact hap x hx
  · exact hab x hx y hy

variable [DecidableEq α]

/-- The element before `p`. -/
def predecessor (p : α) (l : List α) : Option α := (l.takeWhile (· ≠ p)).getLast?

/-- The element after `p`. -/
def successor (p : α) (l : List α) : Option α := (l.dropWhile (· ≠ p)).tail.head?

/-- `p` is not strictly between its neighbours. -/
def needsFixup (lt : α → α → Bool) (p : α) (l : List α) : Bool :=
  (predecessor p l).any (fun x => !lt x p) || (successor p l).any (fun x => !lt p x)

/-- A list without repetitions, cut at one of its elements. -/
theorem exists_cut {p : α} {l : List α} (hl : l.Nodup) (hp : p ∈ l) :
    ∃ a b, l = a ++ p :: b ∧ p ∉ a ∧ l.erase p = a ++ b ∧
      predecessor p l = a.getLast? ∧ successor p l = b.head? := by
  obtain ⟨a, b, rfl⟩ := List.append_of_mem hp
  have hpa : p ∉ a := fun hmem =>
    (List.nodup_append.mp hl).2.2 p hmem p List.mem_cons_self rfl
  have hne : ∀ x ∈ a, decide (x ≠ p) = true := fun x hx => by
    simpa using fun h : x = p => hpa (h ▸ hx)
  refine ⟨a, b, rfl, hpa, ?_, ?_, ?_⟩
  · rw [List.erase_append_right _ hpa, List.erase_cons_head]
  · rw [predecessor, List.takeWhile_append_of_pos hne, List.takeWhile_cons_of_neg (by simp),
      List.append_nil]
  · rw [successor, List.dropWhile_append_of_pos hne, List.dropWhile_cons_of_neg (by simp),
      List.tail_cons]

theorem perm_cons_erase' {p : α} {l : List α} (hp : p ∈ l) : (p :: l.erase p).Perm l :=
  (List.perm_cons_erase hp).symm

/-- Taking out what was inserted leaves the list as it was. -/
theorem insertLower_erase (lt : α → α → Bool) {p : α} {l : List α} (hp : p ∉ l) :
    (insertLower lt p l).erase p = l := by
  induction l with
  | nil => simp [insertLower]
  | cons x xs ih =>
    rw [List.mem_cons, not_or] at hp
    obtain ⟨hx, hxs⟩ := hp
    rw [insertLower]
    split
    · rw [List.erase_cons_tail (by simpa using Ne.symm hx), ih hxs]
    · exact List.erase_cons_head p (x :: xs)

/-- What the repair checks: `p` is strictly between its neighbours. -/
theorem exists_cut_of_not_needsFixup {lt : α → α → Bool} {p : α} {l : List α} (hl : l.Nodup)
    (hp : p ∈ l) (hfix : ¬ needsFixup lt p l) :
    ∃ a b, l = a ++ p :: b ∧ l.erase p = a ++ b ∧
      (∀ z ∈ a.getLast?, lt z p) ∧ ∀ z ∈ b.head?, lt p z := by
  obtain ⟨a, b, hcut, -, herase, hpred, hsucc⟩ := exists_cut hl hp
  rw [needsFixup, hpred, hsucc] at hfix
  simp only [Bool.or_eq_true, not_or, Bool.not_eq_true, Option.any_eq_false,
    Bool.not_eq_eq_eq_not, Bool.not_false] at hfix
  exact ⟨a, b, hcut, herase, hfix.1, hfix.2⟩

/-- When no repair is needed, putting `p` back between its neighbours keeps a
sorted rest sorted. -/
theorem Sorted.of_not_needsFixup {lt : α → α → Bool} (hlt : StrictWeak lt) {p : α} {l : List α}
    (hl : l.Nodup) (hp : p ∈ l) (hfix : ¬ needsFixup lt p l) (hrest : Sorted lt (l.erase p)) :
    Sorted lt l := by
  obtain ⟨a, b, rfl, herase, hpred, hsucc⟩ := exists_cut_of_not_needsFixup hl hp hfix
  rw [herase] at hrest
  have htrans : ∀ x y z, lt x y → lt y z → lt x z := fun _ _ _ hxy hyz => hlt.trans hxy hyz
  exact pairwise_put_between htrans hrest hpred hsucc

/-- The same for weakly sorted lists: strictly between its neighbours, `p` is in
order with everything beyond them. -/
theorem WeakSorted.of_not_needsFixup {lt : α → α → Bool} (hlt : StrictWeak lt) {p : α}
    {l : List α} (hl : l.Nodup) (hp : p ∈ l) (hfix : ¬ needsFixup lt p l)
    (hrest : WeakSorted lt (l.erase p)) : WeakSorted lt l := by
  obtain ⟨a, b, rfl, herase, hpred, hsucc⟩ := exists_cut_of_not_needsFixup hl hp hfix
  rw [herase] at hrest
  have htrans : ∀ x y z, ¬ lt y x → ¬ lt z y → ¬ lt z x :=
    fun _ _ _ hyx hzy => hlt.not_lt_trans hzy hyx
  exact pairwise_put_between htrans hrest (fun z hz => hlt.asymm _ _ (hpred z hz))
    fun z hz => hlt.asymm _ _ (hsucc z hz)

end Microchain.Lib
