import Mathlib.Data.List.Range
import Mathlib.Data.Set.Image
import Mathlib.Order.Interval.Set.Basic

/-!
# Nested ranges

Ranges `[b k, e k)`, in the order of a depth-first walk if they nest: by their
beginnings, and of those that begin together the longest first. The parent of a range is
then the last one in front of it that is still open where it begins (`lastOpen`).

- `exists_not_fits_iff_partlyOverlap`: some range does not fit in its parent exactly if
  two of the ranges overlap partly.
- `exists_child_of_mem`: if all fit, a point of a range that lies in a later one too lies
  in a child.
-/

namespace Microchain.Lib

universe u v

section Sets

variable {α : Type u} {β : Type v}

/-- They share a point, and each contains one that the other lacks. -/
def PartlyOverlap (s t : Set α) : Prop := (s ∩ t).Nonempty ∧ ¬ s ⊆ t ∧ ¬ t ⊆ s

theorem PartlyOverlap.symm {s t : Set α} (h : PartlyOverlap s t) : PartlyOverlap t s := by
  obtain ⟨hshare, hst, hts⟩ := h
  exact ⟨by rwa [Set.inter_comm], hts, hst⟩

theorem PartlyOverlap.irrefl (s : Set α) : ¬ PartlyOverlap s s := fun h => h.2.1 (Set.Subset.refl s)

theorem partlyOverlap_image_iff {f : α → β} (hf : Function.Injective f) {s t : Set α} :
    PartlyOverlap (f '' s) (f '' t) ↔ PartlyOverlap s t := by
  rw [PartlyOverlap, ← Set.image_inter hf, Set.image_nonempty, Set.image_subset_image_iff hf,
    Set.image_subset_image_iff hf, PartlyOverlap]

end Sets

variable {α : Type u} [LinearOrder α]

/-- For ranges of which the first does not begin later. -/
theorem partlyOverlap_iff {b e b' e' : α} (hb : b ≤ b') :
    PartlyOverlap (Set.Ico b e) (Set.Ico b' e') ↔ b < b' ∧ b' < e ∧ e < e' := by
  constructor
  · rintro ⟨⟨x, ⟨_, hxe⟩, hbx', _⟩, hst, hts⟩
    have hopen : b' < e := lt_of_le_of_lt hbx' hxe
    -- the later range has its own point behind the end of the other
    have hends : e < e' := by
      obtain ⟨y, ⟨hby', hye'⟩, hy⟩ := Set.not_subset.mp hts
      exact lt_of_le_of_lt (not_lt.mp fun hye => hy ⟨hb.trans hby', hye⟩) hye'
    have hbegins : b < b' := by
      obtain ⟨y, ⟨hby, hye⟩, hy⟩ := Set.not_subset.mp hst
      exact lt_of_le_of_lt hby (not_le.mp fun hby' => hy ⟨hby', hye.trans hends⟩)
    exact ⟨hbegins, hopen, hends⟩
  · rintro ⟨hbegins, hopen, hends⟩
    refine ⟨⟨b', ⟨hb, hopen⟩, le_refl b', hopen.trans hends⟩, fun hst => ?_, fun hts => ?_⟩
    · exact not_le.mpr hbegins (hst ⟨le_refl b, hbegins.trans hopen⟩).1
    · exact lt_irrefl e (hts ⟨hopen.le, hends⟩).2

/-- The last number below `k` with `p`. -/
theorem getLast?_filter_range {p : ℕ → Bool} {k j : ℕ} :
    ((List.range k).filter p).getLast? = some j ↔ j < k ∧ p j ∧ ∀ i, j < i → i < k → ¬ p i := by
  induction k with
  | zero => simp
  | succ k ih =>
    rw [List.range_succ, List.filter_append]
    by_cases hk : p k
    · rw [List.filter_singleton, hk, cond_true, List.getLast?_concat, Option.some_inj]
      constructor
      · rintro rfl
        exact ⟨Nat.lt_succ_self k, hk, fun i hki hik => absurd hik (by omega)⟩
      · rintro ⟨hj, _, hlast⟩
        by_contra hne
        exact hlast k (by omega) (Nat.lt_succ_self k) hk
    · rw [List.filter_singleton, Bool.eq_false_iff.mpr hk, cond_false, List.append_nil, ih]
      constructor
      · rintro ⟨hj, hpj, hlast⟩
        refine ⟨Nat.lt_succ_of_lt hj, hpj, fun i hji hik => ?_⟩
        rcases Nat.lt_succ_iff_lt_or_eq.mp hik with hik | rfl
        · exact hlast i hji hik
        · exact hk
      · rintro ⟨hj, hpj, hlast⟩
        have hne : j ≠ k := fun h => hk (h ▸ hpj)
        exact ⟨by omega, hpj, fun i hji hik => hlast i hji (Nat.lt_succ_of_lt hik)⟩

variable (b e : ℕ → α)

/-- The last range in front of `k` that ends above the beginning of `k`. -/
def lastOpen (k : ℕ) : Option ℕ := ((List.range k).filter fun j => b k < e j).getLast?

/-- The range `k` ends in its parent. -/
def Fits (k : ℕ) : Prop := ∀ j, lastOpen b e k = some j → e k ≤ e j

/-- The first `n` ranges are in the order of a walk. -/
structure WalkOrder (n : ℕ) : Prop where
  begins : ∀ {j k : ℕ}, j ≤ k → k < n → b j ≤ b k
  ends : ∀ {j k : ℕ}, j < k → k < n → b j = b k → e k ≤ e j

variable {b e}

theorem lastOpen_eq_some_iff {k j : ℕ} :
    lastOpen b e k = some j ↔ j < k ∧ b k < e j ∧ ∀ i, j < i → i < k → e i ≤ b k := by
  rw [lastOpen, getLast?_filter_range]
  simp

theorem lastOpen_eq_none_iff {k : ℕ} : lastOpen b e k = none ↔ ∀ j < k, e j ≤ b k := by
  rw [lastOpen, List.getLast?_eq_none_iff, List.filter_eq_nil_iff]
  simp

/-- The parent comes no earlier than a range that is open. -/
theorem exists_lastOpen {i k : ℕ} (hik : i < k) (hopen : b k < e i) :
    ∃ j, lastOpen b e k = some j ∧ i ≤ j := by
  match hj : lastOpen b e k with
  | none => exact absurd hopen (not_lt.mpr (lastOpen_eq_none_iff.mp hj i hik))
  | some j =>
    refine ⟨j, rfl, Nat.le_of_not_lt fun hji => ?_⟩
    exact not_lt.mpr ((lastOpen_eq_some_iff.mp hj).2.2 i hji hik) hopen

namespace WalkOrder

variable {n : ℕ}

/-- Going from the later of two ranges that overlap partly from parent to parent, one
comes to a range that does not fit. -/
theorem exists_not_fits (h : WalkOrder b e n) {i : ℕ} :
    ∀ {j : ℕ}, j < n → i < j → b i < b j → b j < e i → e i < e j → ∃ k < n, ¬ Fits b e k := by
  intro j
  induction j using Nat.strong_induction_on with
  | _ j ih =>
    intro hj hij hbegins hopen hends
    obtain ⟨m, hm, him⟩ := exists_lastOpen hij hopen
    obtain ⟨hmj, _, _⟩ := lastOpen_eq_some_iff.mp hm
    by_cases hfits : e j ≤ e m
    · have him : i < m := by
        refine lt_of_le_of_ne him fun heq => ?_
        subst heq
        exact not_lt.mpr hfits hends
      -- the parent overlaps partly with the earlier range, too
      have hends' : e i < e m := lt_of_lt_of_le hends hfits
      have hbegins' : b i < b m := by
        refine lt_of_le_of_ne (h.begins him.le (hmj.trans hj)) fun heq => ?_
        exact not_lt.mpr (h.ends him (hmj.trans hj) heq) hends'
      have hopen' : b m < e i := lt_of_le_of_lt (h.begins hmj.le hj) hopen
      exact ih m hmj (hmj.trans hj) him hbegins' hopen' hends'
    · exact ⟨j, hj, fun hall => hfits (hall m hm)⟩

/-- Some range does not fit exactly if two of them overlap partly. -/
theorem exists_not_fits_iff_partlyOverlap (h : WalkOrder b e n) :
    (∃ k < n, ¬ Fits b e k) ↔
      ∃ i < n, ∃ j < n, PartlyOverlap (Set.Ico (b i) (e i)) (Set.Ico (b j) (e j)) := by
  constructor
  · rintro ⟨k, hk, hfits⟩
    obtain ⟨j, hj, hends⟩ : ∃ j, lastOpen b e k = some j ∧ e j < e k := by
      simpa [Fits] using hfits
    obtain ⟨hjk, hopen, _⟩ := lastOpen_eq_some_iff.mp hj
    have hbegins : b j < b k := by
      refine lt_of_le_of_ne (h.begins hjk.le hk) fun heq => ?_
      exact not_lt.mpr (h.ends hjk hk heq) hends
    exact ⟨j, hjk.trans hk, k, hk, (partlyOverlap_iff hbegins.le).mpr ⟨hbegins, hopen, hends⟩⟩
  · -- the order of the two does not matter
    have hlt {i j : ℕ} (hij : i < j) (hj : j < n)
        (ho : PartlyOverlap (Set.Ico (b i) (e i)) (Set.Ico (b j) (e j))) :
        ∃ k < n, ¬ Fits b e k := by
      obtain ⟨hbegins, hopen, hends⟩ := (partlyOverlap_iff (h.begins hij.le hj)).mp ho
      exact h.exists_not_fits hj hij hbegins hopen hends
    rintro ⟨i, hi, j, hj, ho⟩
    rcases Nat.lt_trichotomy i j with hij | rfl | hji
    · exact hlt hij hj ho
    · exact absurd ho (PartlyOverlap.irrefl _)
    · exact hlt hji hi ho.symm

/-- If all fit, a point of `i` that lies in a later range lies in a child of `i`. -/
theorem exists_child_of_mem (h : WalkOrder b e n) (hfits : ∀ k < n, Fits b e k) {i : ℕ} {x : α}
    (hi : x < e i) : ∀ {k : ℕ}, k < n → i < k → x ∈ Set.Ico (b k) (e k) →
      ∃ c < n, lastOpen b e c = some i ∧ x ∈ Set.Ico (b c) (e c) := by
  intro k
  induction k using Nat.strong_induction_on with
  | _ k ih =>
    rintro hk hik ⟨hbx, hxe⟩
    obtain ⟨m, hm, him⟩ := exists_lastOpen hik (lt_of_le_of_lt hbx hi)
    obtain ⟨hmk, _, _⟩ := lastOpen_eq_some_iff.mp hm
    rcases Nat.eq_or_lt_of_le him with rfl | him
    · exact ⟨k, hk, hm, hbx, hxe⟩
    · refine ih m hmk (hmk.trans hk) him ⟨?_, ?_⟩
      · exact (h.begins hmk.le hk).trans hbx
      · exact lt_of_lt_of_le hxe (hfits k hk m hm)

end WalkOrder

end Microchain.Lib
