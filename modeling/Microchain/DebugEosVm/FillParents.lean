import Microchain.DebugEosVm.DebugInfo
import Microchain.Lib.Nesting

/-!
# The forest of subprograms

`fill_parents` goes down and up in one scan over the sorted subprograms. Where it comes
to a position, every subprogram in front of that position that is not around it is
closed, so the one it is called for is the last open one: the scan links each subprogram
to its parent by the ranges (`fillParents_scans`), and it gives up exactly if two ranges
overlap partly (`fillAllParents_sort`).
-/

namespace Microchain.DebugEosVm

open Lib

/-- The addresses of a subprogram. -/
def Subprogram.range (p : Subprogram) : Set UInt32 :=
  {address | p.beginAddress ≤ address ∧ address < p.endAddress}

theorem Subprogram.image_range (p : Subprogram) :
    UInt32.toNat '' p.range = Set.Ico p.beginAddress.toNat p.endAddress.toNat := by
  ext n
  constructor
  · rintro ⟨address, ⟨hbegin, hend⟩, rfl⟩
    exact ⟨hbegin, hend⟩
  · rintro ⟨hbegin, hend⟩
    have hn : (UInt32.ofNat n).toNat = n :=
      UInt32.toNat_ofNat_of_lt' (hend.trans p.endAddress.toNat_lt)
    refine ⟨UInt32.ofNat n, ⟨?_, ?_⟩, hn⟩
    · rwa [UInt32.le_iff_toNat_le, hn]
    · rwa [UInt32.lt_iff_toNat_lt, hn]

/-! ## Parents by the ranges -/

def beginAt (v : List Subprogram) (k : Nat) : Nat :=
  ((v[k]?).map fun p => p.beginAddress.toNat).getD 0

def endAt (v : List Subprogram) (k : Nat) : Nat :=
  ((v[k]?).map fun p => p.endAddress.toNat).getD 0

/-- The last earlier subprogram whose end is above the beginning of the one at `k`. -/
def parentOf (v : List Subprogram) (k : Nat) : Option Nat := lastOpen (beginAt v) (endAt v) k

/-- The subprograms in front of `pos` whose parent is at `k`, in order. -/
def childrenBelow (v : List Subprogram) (pos k : Nat) : List Nat :=
  (List.range pos).filter fun c => parentOf v c = some k

/-- What the scan has made of the subprogram at `k` when it comes to `pos`. -/
def linkedAt (v : List Subprogram) (pos k : Nat) (p : Subprogram) : Subprogram :=
  { p with
    parent := if k < pos then ((parentOf v k).map UInt32.ofNat).or p.parent else p.parent
    children := p.children ++ (childrenBelow v pos k).map UInt32.ofNat }

def linkedUpto (v : List Subprogram) (pos : Nat) : List Subprogram := v.mapIdx (linkedAt v pos)

/-- The subprograms with their parents and children added to those they had. The numbers
are 32 bits wide. -/
def linked (v : List Subprogram) : List Subprogram :=
  v.mapIdx fun k p =>
    { p with
      parent := ((parentOf v k).map UInt32.ofNat).or p.parent
      children := p.children ++ (childrenBelow v v.length k).map UInt32.ofNat }

section Positions

variable {v : List Subprogram} {k pos : Nat}

theorem beginAt_eq {p : Subprogram} (h : v[k]? = some p) : beginAt v k = p.beginAddress.toNat := by
  rw [beginAt, h]
  rfl

theorem endAt_eq {p : Subprogram} (h : v[k]? = some p) : endAt v k = p.endAddress.toNat := by
  rw [endAt, h]
  rfl

theorem getElem?_linkedUpto (v : List Subprogram) (pos k : Nat) :
    (linkedUpto v pos)[k]? = (v[k]?).map (linkedAt v pos k) := List.getElem?_mapIdx

theorem linkedUpto_zero (v : List Subprogram) : linkedUpto v 0 = v := by
  refine List.ext_getElem? fun k => ?_
  rw [getElem?_linkedUpto]
  cases v[k]? with
  | none => rfl
  | some p => simp [linkedAt, childrenBelow]

theorem linkedUpto_length (v : List Subprogram) : linkedUpto v v.length = linked v := by
  refine List.ext_getElem? fun k => ?_
  rw [getElem?_linkedUpto, linked, List.getElem?_mapIdx]
  match hp : v[k]? with
  | none => rfl
  | some p =>
    obtain ⟨hk, _⟩ := List.getElem?_eq_some_iff.mp hp
    simp [linkedAt, hk]

theorem childrenBelow_succ (v : List Subprogram) (pos k : Nat) :
    childrenBelow v (pos + 1) k =
      childrenBelow v pos k ++ if parentOf v pos = some k then [pos] else [] := by
  rw [childrenBelow, List.range_succ, List.filter_append, List.filter_singleton, childrenBelow]
  by_cases h : parentOf v pos = some k
  · rw [if_pos h, decide_eq_true h, cond_true]
  · rw [if_neg h, decide_eq_false h, cond_false]

/-- The scan passes over a subprogram that is in no other. -/
theorem linkedUpto_root (h : parentOf v pos = none) : linkedUpto v (pos + 1) = linkedUpto v pos := by
  refine List.ext_getElem? fun k => ?_
  rw [getElem?_linkedUpto, getElem?_linkedUpto]
  congr 1
  funext p
  have hnone : (if parentOf v pos = some k then [pos] else []) = [] := by rw [h, if_neg nofun]
  rw [linkedAt, linkedAt, childrenBelow_succ, hnone, List.append_nil]
  by_cases hk : k = pos
  · subst hk
    simp [h]
  · have hiff : k < pos + 1 ↔ k < pos := by omega
    simp only [hiff]

theorem getElem?_adopt (l : List Subprogram) (parent pos k : Nat) :
    (adopt l parent pos)[k]? = (l[k]?).map fun p =>
      { p with
        parent := if k = pos then some (UInt32.ofNat parent) else p.parent
        children := if k = parent then p.children ++ [UInt32.ofNat pos] else p.children } := by
  rw [adopt, List.getElem?_modify, List.getElem?_modify]
  cases l[k]? with
  | none => split <;> split <;> rfl
  | some p =>
    by_cases hpos : pos = k <;> by_cases hparent : parent = k <;>
      simp [hpos, hparent, eq_comm (a := k)]

/-- The scan links a subprogram to the one it is called for. -/
theorem adopt_linkedUpto {parent : Nat} (h : parentOf v pos = some parent) :
    adopt (linkedUpto v pos) parent pos = linkedUpto v (pos + 1) := by
  refine List.ext_getElem? fun k => ?_
  rw [getElem?_adopt, getElem?_linkedUpto, getElem?_linkedUpto, Option.map_map]
  congr 1
  funext p
  have hchild : parentOf v pos = some k ↔ k = parent := by rw [h, Option.some_inj, eq_comm]
  have hchildren : childrenBelow v (pos + 1) k =
      if k = parent then childrenBelow v pos k ++ [pos] else childrenBelow v pos k := by
    rw [childrenBelow_succ]
    by_cases hk : k = parent
    · rw [if_pos (hchild.mpr hk), if_pos hk]
    · rw [if_neg (mt hchild.mp hk), if_neg hk, List.append_nil]
  have hparent : (if k < pos + 1 then ((parentOf v k).map UInt32.ofNat).or p.parent else p.parent) =
      if k = pos then some (UInt32.ofNat parent)
      else if k < pos then ((parentOf v k).map UInt32.ofNat).or p.parent else p.parent := by
    by_cases hk : k = pos
    · rw [hk, if_pos (Nat.lt_succ_self pos), if_pos rfl, h]
      rfl
    · have hiff : k < pos + 1 ↔ k < pos := by omega
      simp only [hiff, if_neg hk]
  simp only [Function.comp_apply, linkedAt, hchildren, hparent]
  by_cases hk : k = parent
  · simp only [if_pos hk, List.map_append, List.map_cons, List.map_nil, List.append_assoc]
  · simp only [if_neg hk]

end Positions

/-! ## The scan -/

/-- The order of `std::sort` is that of a walk: where `~end_address` is smaller,
`end_address` is larger. -/
theorem walkOrder_of_sorted {v : List Subprogram} (h : WeakSorted Subprogram.less v) :
    WalkOrder (beginAt v) (endAt v) v.length := by
  have hkey {j k : Nat} (hjk : j < k) (hk : k < v.length) :
      beginAt v j ≤ beginAt v k ∧ (beginAt v j = beginAt v k → endAt v k ≤ endAt v j) := by
    have hj : j < v.length := hjk.trans hk
    have hless : ¬ Subprogram.less v[k] v[j] := List.pairwise_iff_getElem.mp h j k hj hk hjk
    rw [Subprogram.less, pairLess_iff, not_or, not_and] at hless
    obtain ⟨hbegins, hends⟩ := hless
    rw [beginAt_eq (List.getElem?_eq_getElem hj), beginAt_eq (List.getElem?_eq_getElem hk),
      endAt_eq (List.getElem?_eq_getElem hj), endAt_eq (List.getElem?_eq_getElem hk)]
    refine ⟨UInt32.le_iff_toNat_le.mp (UInt32.not_lt.mp hbegins), fun heq => ?_⟩
    have hends' : ~~~v[j].endAddress ≤ ~~~v[k].endAddress :=
      UInt32.not_lt.mp (hends (UInt32.toNat_inj.mp heq.symm))
    rw [UInt32.le_iff_toNat_le, UInt32.toNat_not, UInt32.toNat_not] at hends'
    have hlt := v[k].endAddress.toNat_lt
    have hlt' := v[j].endAddress.toNat_lt
    have hsize : UInt32.size = 2 ^ 32 := rfl
    omega
  constructor
  · intro j k hjk hk
    rcases Nat.eq_or_lt_of_le hjk with rfl | hlt
    · exact Nat.le_refl _
    · exact (hkey hlt hk).1
  · intro j k hjk hk
    exact (hkey hjk hk).2

/-- What a call for `parent` at `pos` comes to. -/
inductive Scanned (v : List Subprogram) (parent pos : Nat) :
    Run Fault (List Subprogram × Nat) → Prop where
  /-- All up to `pos'` are linked, fit and are closed there, like the one at `parent`. -/
  | returns (pos' : Nat) (hle : pos ≤ pos') (hlen : pos' ≤ v.length)
      (hfits : ∀ k, pos ≤ k → k < pos' → Fits (beginAt v) (endAt v) k)
      (hclosed : pos' < v.length → ∀ j, parent ≤ j → j < pos' → endAt v j ≤ beginAt v pos') :
      Scanned v parent pos (.returns (linkedUpto v pos', pos'))
  | fails (k : Nat) (hk : k < v.length) (hfits : ¬ Fits (beginAt v) (endAt v) k) :
      Scanned v parent pos (.fails (.reported "partial overlap in subprograms"))

/-! One call, by where the subprogram at `pos` lies. -/

section Call

variable {l : List Subprogram} {parent pos : Nat} {par subp : Subprogram}

theorem fillParents_end (fuel : Nat) (hpar : l[parent]? = some par) (hpos : l[pos]? = none) :
    fillParents (fuel + 1) l parent pos = .returns (l, pos) := by
  simp only [fillParents, indexAt, hpar, hpos, Run.returns_bind]

theorem fillParents_behind (fuel : Nat) (hpar : l[parent]? = some par) (hpos : l[pos]? = some subp)
    (h : par.endAddress ≤ subp.beginAddress) :
    fillParents (fuel + 1) l parent pos = .returns (l, pos) := by
  simp only [fillParents, indexAt, hpar, hpos, Run.returns_bind, if_pos h, ge_iff_le]

theorem fillParents_overlap (fuel : Nat) (hpar : l[parent]? = some par) (hpos : l[pos]? = some subp)
    (h : ¬ par.endAddress ≤ subp.beginAddress) (hends : ¬ subp.endAddress ≤ par.endAddress) :
    fillParents (fuel + 1) l parent pos = .fails (.reported "partial overlap in subprograms") := by
  simp only [fillParents, indexAt, hpar, hpos, Run.returns_bind, if_neg h, ge_iff_le, check,
    if_neg hends, Run.fails_bind]

theorem fillParents_inside (fuel : Nat) (hpar : l[parent]? = some par) (hpos : l[pos]? = some subp)
    (h : ¬ par.endAddress ≤ subp.beginAddress) (hends : subp.endAddress ≤ par.endAddress) :
    fillParents (fuel + 1) l parent pos =
      fillParents fuel (adopt l parent pos) pos (pos + 1) >>= fun r =>
        fillParents fuel r.1 parent r.2 := by
  simp only [fillParents, indexAt, hpar, hpos, Run.returns_bind, if_neg h, ge_iff_le, check,
    if_pos hends]

end Call

theorem fillParents_scans {v : List Subprogram}
    (hv : WalkOrder (beginAt v) (endAt v) v.length) :
    ∀ (fuel pos parent : Nat), parent < pos → pos ≤ v.length → v.length < pos + fuel →
      (pos < v.length → ∀ j, parent < j → j < pos → endAt v j ≤ beginAt v pos) →
      Scanned v parent pos (fillParents fuel (linkedUpto v pos) parent pos) := by
  intro fuel
  induction fuel with
  | zero =>
    intro pos parent _ hpos hfuel
    omega
  | succ fuel ih =>
    intro pos parent hparent hpos hfuel hclosed
    have hlt : parent < v.length := by omega
    have hpar : (linkedUpto v pos)[parent]? = some (linkedAt v pos parent v[parent]) := by
      rw [getElem?_linkedUpto, List.getElem?_eq_getElem hlt, Option.map_some]
    rcases Nat.eq_or_lt_of_le hpos with hend | hpos'
    · have hnone : (linkedUpto v pos)[pos]? = none := by
        rw [getElem?_linkedUpto, List.getElem?_eq_none (by omega), Option.map_none]
      rw [fillParents_end fuel hpar hnone]
      exact .returns pos (Nat.le_refl pos) hpos (fun k hk hk' => by omega) (fun h => by omega)
    · have hsubp : (linkedUpto v pos)[pos]? = some (linkedAt v pos pos v[pos]) := by
        rw [getElem?_linkedUpto, List.getElem?_eq_getElem hpos', Option.map_some]
      have hopen : v[parent].endAddress ≤ v[pos].beginAddress ↔ endAt v parent ≤ beginAt v pos := by
        rw [UInt32.le_iff_toNat_le, beginAt_eq (List.getElem?_eq_getElem hpos'),
          endAt_eq (List.getElem?_eq_getElem hlt)]
      by_cases hbehind : v[parent].endAddress ≤ v[pos].beginAddress
      · rw [fillParents_behind fuel hpar hsubp hbehind]
        refine .returns pos (Nat.le_refl pos) hpos (fun k hk hk' => by omega) fun _ j hj hjpos => ?_
        rcases Nat.eq_or_lt_of_le hj with rfl | hj
        · exact hopen.mp hbehind
        · exact hclosed hpos' j hj hjpos
      · have hlast : parentOf v pos = some parent :=
          lastOpen_eq_some_iff.mpr ⟨hparent, Nat.lt_of_not_le (mt hopen.mpr hbehind), hclosed hpos'⟩
        have hfits : Fits (beginAt v) (endAt v) pos ↔ v[pos].endAddress ≤ v[parent].endAddress := by
          rw [UInt32.le_iff_toNat_le, ← endAt_eq (List.getElem?_eq_getElem hpos'),
            ← endAt_eq (List.getElem?_eq_getElem hlt)]
          exact ⟨fun h => h parent hlast, fun h j hj => by cases hlast.symm.trans hj; exact h⟩
        by_cases hends : v[pos].endAddress ≤ v[parent].endAddress
        · rw [fillParents_inside fuel hpar hsubp hbehind hends, adopt_linkedUpto hlast]
          -- first the descendants of the subprogram at `pos`
          have hbelow := ih (pos + 1) pos (Nat.lt_succ_self pos) hpos' (by omega)
            (fun _ j hj hj' => by omega)
          generalize fillParents fuel (linkedUpto v (pos + 1)) pos (pos + 1) = below at hbelow ⊢
          obtain ⟨pos₁, hle₁, hlen₁, hfits₁, hclosed₁⟩ | ⟨k, hk, hk'⟩ := hbelow
          · rw [Run.returns_bind]
            -- then its siblings: where they begin it is closed, and so is all before it
            have hclosed₂ : pos₁ < v.length →
                ∀ j, parent < j → j < pos₁ → endAt v j ≤ beginAt v pos₁ := by
              intro hpos₁ j hj hj₁
              rcases Nat.lt_or_ge j pos with hjpos | hjpos
              · exact (hclosed hpos' j hj hjpos).trans (hv.begins (by omega) hpos₁)
              · exact hclosed₁ hpos₁ j hjpos hj₁
            have hbehind := ih pos₁ parent (by omega) hlen₁ (by omega) hclosed₂
            dsimp only
            generalize fillParents fuel (linkedUpto v pos₁) parent pos₁ = behind at hbehind ⊢
            obtain ⟨pos₂, hle₂, hlen₂, hfits₂, hclosed₃⟩ | ⟨k, hk, hk'⟩ := hbehind
            · refine .returns pos₂ (by omega) hlen₂ (fun k hk hk₂ => ?_) hclosed₃
              rcases Nat.lt_or_ge k pos₁ with hk₁ | hk₁
              · rcases Nat.eq_or_lt_of_le hk with rfl | hk
                · exact hfits.mpr hends
                · exact hfits₁ k hk hk₁
              · exact hfits₂ k hk₁ hk₂
            · exact .fails k hk hk'
          · exact .fails k hk hk'
        · rw [fillParents_overlap fuel hpar hsubp hbehind hends]
          exact .fails pos hpos' (mt hfits.mp hends)

/-- The loop over the subprograms that are in no other. -/
theorem rootLoop_scans {v : List Subprogram} (hv : WalkOrder (beginAt v) (endAt v) v.length) :
    ∀ (fuel pos : Nat), pos ≤ v.length → v.length < pos + fuel →
      (∀ k < pos, Fits (beginAt v) (endAt v) k) →
      (pos < v.length → ∀ j < pos, endAt v j ≤ beginAt v pos) →
      (loop rootTurn fuel (linkedUpto v pos, pos) = .returns (linked v) ∧
          ∀ k < v.length, Fits (beginAt v) (endAt v) k) ∨
        (loop rootTurn fuel (linkedUpto v pos, pos) =
            .fails (.reported "partial overlap in subprograms") ∧
          ∃ k < v.length, ¬ Fits (beginAt v) (endAt v) k) := by
  intro fuel
  induction fuel with
  | zero =>
    intro pos hpos hfuel
    omega
  | succ fuel ih =>
    intro pos hpos hfuel hfits hclosed
    have hlen : (linkedUpto v pos).length = v.length := List.length_mapIdx
    rcases Nat.eq_or_lt_of_le hpos with rfl | hlt
    · have hdone : rootTurn (linkedUpto v v.length, v.length) = .returns (.done (linked v)) := by
        rw [rootTurn, hlen, if_neg (Nat.lt_irrefl _), linkedUpto_length]
      exact .inl ⟨loop_done hdone fuel, hfits⟩
    · have hroot : parentOf v pos = none := lastOpen_eq_none_iff.mpr (hclosed hlt)
      have hturn : rootTurn (linkedUpto v pos, pos) =
          fillParents (v.length + 1) (linkedUpto v (pos + 1)) pos (pos + 1) >>= fun next =>
            .returns (.again next) := by
        rw [rootTurn, hlen, if_pos hlt, linkedUpto_root hroot]
      have hscan := fillParents_scans hv (v.length + 1) (pos + 1) pos (Nat.lt_succ_self pos) hlt
        (by omega) (fun _ j hj hj' => by omega)
      generalize fillParents (v.length + 1) (linkedUpto v (pos + 1)) pos (pos + 1) = scan at *
      obtain ⟨pos', hle, hlen', hfits', hclosed'⟩ | ⟨k, hk, hk'⟩ := hscan
      · rw [loop_again hturn]
        refine ih pos' hlen' (by omega) (fun k hk => ?_) fun hpos' j hj => ?_
        · rcases Nat.lt_trichotomy k pos with hk' | rfl | hk'
          · exact hfits k hk'
          · exact fun j hj => by cases hroot.symm.trans hj
          · exact hfits' k hk' hk
        · rcases Nat.lt_or_ge j pos with hjpos | hjpos
          · exact (hclosed hlt j hjpos).trans (hv.begins (by omega) hpos')
          · exact hclosed' hpos' j hjpos hj
      · exact .inr ⟨loop_fails hturn fuel, k, hk, hk'⟩

theorem fillAllParents_scans {v : List Subprogram}
    (hv : WalkOrder (beginAt v) (endAt v) v.length) :
    (fillAllParents v = .returns (linked v) ∧ ∀ k < v.length, Fits (beginAt v) (endAt v) k) ∨
      (fillAllParents v = .fails (.reported "partial overlap in subprograms") ∧
        ∃ k < v.length, ¬ Fits (beginAt v) (endAt v) k) := by
  have h := rootLoop_scans hv (v.length + 1) 0 (Nat.zero_le _) (by omega)
    (fun k hk => absurd hk (Nat.not_lt_zero k)) (fun _ j hj => absurd hj (Nat.not_lt_zero j))
  rwa [linkedUpto_zero] at h

/-! ## Which lists have a forest -/

theorem exists_partlyOverlap_iff (v : List Subprogram) :
    (∃ p ∈ v, ∃ q ∈ v, PartlyOverlap p.range q.range) ↔
      ∃ i < v.length, ∃ j < v.length,
        PartlyOverlap (Set.Ico (beginAt v i) (endAt v i)) (Set.Ico (beginAt v j) (endAt v j)) := by
  have hrange {i : Nat} (hi : i < v.length) :
      Set.Ico (beginAt v i) (endAt v i) = UInt32.toNat '' v[i].range := by
    rw [Subprogram.image_range, beginAt_eq (List.getElem?_eq_getElem hi),
      endAt_eq (List.getElem?_eq_getElem hi)]
  have hinj : Function.Injective UInt32.toNat := fun _ _ => UInt32.toNat_inj.mp
  constructor
  · rintro ⟨p, hp, q, hq, ho⟩
    obtain ⟨i, hi, rfl⟩ := List.mem_iff_getElem.mp hp
    obtain ⟨j, hj, rfl⟩ := List.mem_iff_getElem.mp hq
    refine ⟨i, hi, j, hj, ?_⟩
    rwa [hrange hi, hrange hj, partlyOverlap_image_iff hinj]
  · rintro ⟨i, hi, j, hj, ho⟩
    refine ⟨v[i], List.getElem_mem hi, v[j], List.getElem_mem hj, ?_⟩
    rwa [hrange hi, hrange hj, partlyOverlap_image_iff hinj] at ho

/-- **The loop fails exactly if two ranges overlap partly.** Otherwise it gives each
subprogram the last earlier one that is open where it begins as its parent, and lists it
once, in order, in that parent's children. -/
theorem fillAllParents_sort (S : StdSort Subprogram.less) (subprograms : List Subprogram) :
    (fillAllParents (S.sort subprograms) = .fails (.reported "partial overlap in subprograms") ↔
        ∃ p ∈ subprograms, ∃ q ∈ subprograms, PartlyOverlap p.range q.range) ∧
      ((¬ ∃ p ∈ subprograms, ∃ q ∈ subprograms, PartlyOverlap p.range q.range) →
        fillAllParents (S.sort subprograms) = .returns (linked (S.sort subprograms))) := by
  have hv := walkOrder_of_sorted (S.inOrder subprograms)
  have hmem (p : Subprogram) : p ∈ S.sort subprograms ↔ p ∈ subprograms := (S.perm subprograms).mem_iff
  have hoverlap : (∃ k < (S.sort subprograms).length,
      ¬ Fits (beginAt (S.sort subprograms)) (endAt (S.sort subprograms)) k) ↔
        ∃ p ∈ subprograms, ∃ q ∈ subprograms, PartlyOverlap p.range q.range := by
    rw [hv.exists_not_fits_iff_partlyOverlap, ← exists_partlyOverlap_iff]
    simp only [hmem]
  rw [← hoverlap]
  rcases fillAllParents_scans hv with ⟨hrun, hfits⟩ | ⟨hrun, hfits⟩
  · have hno : ¬ ∃ k < (S.sort subprograms).length,
        ¬ Fits (beginAt (S.sort subprograms)) (endAt (S.sort subprograms)) k := by
      rintro ⟨k, hk, hk'⟩
      exact hk' (hfits k hk)
    refine ⟨⟨fun h => ?_, fun h => absurd h hno⟩, fun _ => hrun⟩
    cases hrun.symm.trans h
  · exact ⟨⟨fun _ => hfits, fun _ => hrun⟩, fun h => absurd hfits h⟩

end Microchain.DebugEosVm
