import Microchain.DebugEosVm.FillParents
import Microchain.DebugEosVm.WasmInfo

/-!
# Looking up a subprogram

`get_subprogram` takes the last subprogram that begins at or below the address. That is
the innermost one around the address only as long as nothing nested in it ends before
the address: behind a child, the lookup finds that child and not its parent
(`getSubprogram_finds_iff`).
-/

namespace Microchain.DebugEosVm

open Lib
open Lib.Run (All)

/-- The order that a binary search on the beginnings needs. -/
def InOrder (v : List Subprogram) : Prop := v.Pairwise fun p q => p.beginAddress ≤ q.beginAddress

theorem linked_inOrder {v : List Subprogram} (h : WeakSorted Subprogram.less v) :
    InOrder (linked v) := by
  refine List.pairwise_iff_getElem.mpr fun i j hi hj hij => ?_
  have hlen : (linked v).length = v.length := List.length_mapIdx
  have hbegins := (walkOrder_of_sorted h).begins hij.le (hlen ▸ hj)
  rw [beginAt_eq (List.getElem?_eq_getElem (hlen ▸ hi)),
    beginAt_eq (List.getElem?_eq_getElem (hlen ▸ hj))] at hbegins
  simp only [linked, List.getElem_mapIdx]
  exact UInt32.le_iff_toNat_le.mpr hbegins

theorem parseDebugInfo_inOrder (P : Platform) (depth : Nat) (result : WasmInfo) (s : Eosio.Bytes) :
    (parseDebugInfo P depth result s).All fun info => InOrder info.subprograms := by
  refine All.any_bind fun subprograms => ?_
  refine All.bind (P := InOrder) ?_ fun v hv => All.returns hv
  have hsorted := P.sortSubprograms.inOrder subprograms
  rcases fillAllParents_scans (walkOrder_of_sorted hsorted) with ⟨hrun, _⟩ | ⟨hrun, _⟩
  · rw [hrun]
    exact All.returns (linked_inOrder hsorted)
  · rw [hrun]
    exact All.fails

/-- Before `.debug_info` is read there are no subprograms. -/
theorem tablesFromWasm_subprograms (T : Toolchain) (file : Eosio.Bytes) :
    (tablesFromWasm T file).All fun r => r.1.subprograms = [] := by
  refine All.any_bind fun stream => ?_
  refine All.bind (P := fun result : WasmInfo => result.subprograms = []) ?_ fun result hresult => ?_
  · refine scan_all (fun sec result hresult => ?_) file.length stream rfl
    rw [codePass]
    split
    · exact All.any_bind fun _ => All.returns hresult
    · exact All.returns hresult
  · refine All.bind (P := fun r : Collected => r.1.subprograms = []) ?_ fun r hr => All.returns hr
    refine scanCustom_all (fun name data r hr => ?_) T.constants file.length stream hresult
    obtain ⟨result, files⟩ := r
    rw [tablesPass]
    split
    · exact All.any_bind fun _ => All.returns hr
    · split
      · refine All.bind (P := fun result : WasmInfo => result.subprograms = []) ?_
          fun _ h => All.returns h
        exact All.any_bind fun _ => All.returns hr
      · split
        · refine All.bind (P := fun result : WasmInfo => result.subprograms = []) ?_
            fun _ h => All.returns h
          exact All.any_bind fun _ => All.returns hr
        · exact All.returns hr

theorem getInfoFromWasm_inOrder (T : Toolchain) (depth : Nat) (file : Eosio.Bytes) :
    (getInfoFromWasm T depth file).All fun info => InOrder info.subprograms := by
  refine All.bind (tablesFromWasm_subprograms T file) fun r hr => ?_
  refine All.bind (P := fun info : WasmInfo => InOrder info.subprograms) ?_ fun _ h => All.returns h
  refine scanCustom_all (fun name data result hresult => ?_) T.constants file.length r.2 ?_
  · rw [infoPass]
    split
    · exact parseDebugInfo_inOrder _ _ _ _
    · exact All.returns hresult
  · rw [hr]
    exact List.Pairwise.nil

namespace WasmInfo

variable (info : WasmInfo) (address : UInt32)

/-- It contains the address, and none of its children does. -/
def Innermost (p : Subprogram) : Prop :=
  address ∈ p.range ∧
    ∀ c ∈ p.children, ∀ q, info.subprograms[c.toNat]? = some q → address ∉ q.range

/-- The lookup returns an innermost subprogram around the address, and null exactly if
no subprogram contains it. -/
structure FindsInnermost : Prop where
  innermost : ∀ p, info.getSubprogram address = some p → info.Innermost address p
  none_iff : info.getSubprogram address = none ↔ ∀ p ∈ info.subprograms, address ∉ p.range

variable {info address}

/-- Some innermost subprogram is the last to begin at or below the address. -/
def LastToBegin (info : WasmInfo) (address : UInt32) : Prop :=
  ∃ (i : Nat) (p : Subprogram), info.subprograms[i]? = some p ∧ info.Innermost address p ∧
    ∀ (j : Nat) q, i < j → info.subprograms[j]? = some q → address < q.beginAddress

theorem findsInnermost_iff (h : InOrder info.subprograms) :
    info.FindsInnermost address ↔
      (∀ p ∈ info.subprograms, address ∉ p.range) ∨ info.LastToBegin address := by
  constructor
  · rintro ⟨hinnermost, hnone⟩
    match hp : info.getSubprogram address with
    | none => exact .inl (hnone.mp hp)
    | some p =>
      obtain ⟨i, hi, _, _, hlast⟩ := (lastBefore_eq_some_iff h).mp hp
      exact .inr ⟨i, p, hi, hinnermost p hp, hlast⟩
  · rintro (hno | ⟨i, p, hi, hp, hlast⟩)
    · have hnone : info.getSubprogram address = none := by
        refine Option.eq_none_iff_forall_not_mem.mpr fun p hp => ?_
        obtain ⟨i, hi, hbegin, hend, _⟩ := (lastBefore_eq_some_iff h).mp hp
        exact hno p (List.mem_of_getElem? hi) ⟨hbegin, hend⟩
      exact ⟨fun p hp => (nomatch hnone.symm.trans hp), fun _ => hno, fun _ => hnone⟩
    · have hsome : info.getSubprogram address = some p :=
        (lastBefore_eq_some_iff h).mpr ⟨i, hi, hp.1.1, hp.1.2, hlast⟩
      refine ⟨fun p' hp' => ?_, fun hnone => (nomatch hsome.symm.trans hnone), fun hno => ?_⟩
      · obtain rfl : p = p' := Option.some_inj.mp (hsome.symm.trans hp')
        exact hp
      · exact absurd hp.1 (hno p (List.mem_of_getElem? hi))

/-! ### In the forest of one section -/

section Forest

variable {v : List Subprogram}

theorem getElem?_linked {k : Nat} (hk : k < v.length) :
    (linked v)[k]? = some (linkedAt v v.length k v[k]) := by
  rw [← linkedUpto_length, getElem?_linkedUpto, List.getElem?_eq_getElem hk, Option.map_some]

theorem lt_length_of_linked {k : Nat} {p : Subprogram} (hp : (linked v)[k]? = some p) :
    k < v.length := by
  obtain ⟨hk, _⟩ := List.getElem?_eq_some_iff.mp hp
  rwa [linked, List.length_mapIdx] at hk

theorem mem_range_linked {k : Nat} {p : Subprogram} (hp : (linked v)[k]? = some p) :
    address ∈ p.range ↔ address.toNat ∈ Set.Ico (beginAt v k) (endAt v k) := by
  have hk := lt_length_of_linked hp
  obtain rfl := Option.some_inj.mp ((getElem?_linked hk).symm.trans hp)
  rw [beginAt_eq (List.getElem?_eq_getElem hk), endAt_eq (List.getElem?_eq_getElem hk)]
  rfl

theorem lt_beginAddress_linked {k : Nat} {p : Subprogram} (hp : (linked v)[k]? = some p) :
    address < p.beginAddress ↔ address.toNat < beginAt v k := by
  have hk := lt_length_of_linked hp
  obtain rfl := Option.some_inj.mp ((getElem?_linked hk).symm.trans hp)
  rw [beginAt_eq (List.getElem?_eq_getElem hk)]
  exact UInt32.lt_iff_toNat_lt

/-- The children listed are the subprograms whose last open one it is. -/
theorem mem_children_linked (hfresh : ∀ p ∈ v, p.children = []) (hlen : v.length ≤ 2 ^ 32) {k : Nat}
    {p : Subprogram} (hp : (linked v)[k]? = some p) (c : UInt32) :
    c ∈ p.children ↔ c.toNat < v.length ∧ parentOf v c.toNat = some k := by
  have hk := lt_length_of_linked hp
  obtain rfl := Option.some_inj.mp ((getElem?_linked hk).symm.trans hp)
  simp only [linkedAt, hfresh _ (List.getElem_mem hk), List.nil_append, childrenBelow,
    List.mem_map, List.mem_filter, List.mem_range, decide_eq_true_eq]
  constructor
  · rintro ⟨n, ⟨hn, hparent⟩, rfl⟩
    rw [UInt32.toNat_ofNat_of_lt' (Nat.lt_of_lt_of_le hn hlen)]
    exact ⟨hn, hparent⟩
  · rintro ⟨hc, hparent⟩
    exact ⟨c.toNat, ⟨hc, hparent⟩, UInt32.ofNat_toNat⟩

/-- There the lookup is right exactly if every child of an innermost subprogram around
the address begins above it. -/
theorem findsInnermost_iff_children (hv : WeakSorted Subprogram.less v)
    (hfits : ∀ k < v.length, Fits (beginAt v) (endAt v) k) (hfresh : ∀ p ∈ v, p.children = [])
    (hlen : v.length ≤ 2 ^ 32) (hinfo : info.subprograms = linked v) :
    info.FindsInnermost address ↔
      ∀ p ∈ info.subprograms, info.Innermost address p →
        ∀ c ∈ p.children, ∀ q, info.subprograms[c.toNat]? = some q → address < q.beginAddress := by
  have hwalk := walkOrder_of_sorted hv
  rw [findsInnermost_iff (hinfo ▸ linked_inOrder hv)]
  constructor
  · rintro (hno | ⟨i, p, hi, hp, hlast⟩) p' hp' hinnermost c hc q hq
    · exact absurd hinnermost.1 (hno p' hp')
    · rw [hinfo] at hi hq hp'
      obtain ⟨i', hi'⟩ := List.mem_iff_getElem?.mp hp'
      obtain ⟨hclen, hparent⟩ := (mem_children_linked hfresh hlen hi' c).mp hc
      obtain ⟨hi'c, _, _⟩ := lastOpen_eq_some_iff.mp hparent
      by_contra hge
      -- the child is passed over, so the subprogram found is a later one around the address
      have hci : c.toNat ≤ i := Nat.le_of_not_lt fun hlt => hge (hlast c.toNat q hlt (hinfo ▸ hq))
      have hend := ((mem_range_linked hi').mp hinnermost.1).2
      obtain ⟨d, hd, hdparent, hdin⟩ := hwalk.exists_child_of_mem hfits hend
        (lt_length_of_linked hi) (Nat.lt_of_lt_of_le hi'c hci) ((mem_range_linked hi).mp hp.1)
      have hdlt : (UInt32.ofNat d).toNat = d :=
        UInt32.toNat_ofNat_of_lt' (Nat.lt_of_lt_of_le hd hlen)
      have hdchild : UInt32.ofNat d ∈ p'.children :=
        (mem_children_linked hfresh hlen hi' _).mpr ⟨by rwa [hdlt], by rwa [hdlt]⟩
      have hdget := getElem?_linked hd
      refine hinnermost.2 _ hdchild _ ?_ ((mem_range_linked hdget).mpr hdin)
      rw [hinfo, hdlt]
      exact hdget
  · intro hchildren
    by_cases hno : ∀ p ∈ info.subprograms, address ∉ p.range
    · exact .inl hno
    · right
      -- the last of the subprograms that contain the address
      match hlast : ((List.range v.length).filter fun k =>
          decide (address.toNat ∈ Set.Ico (beginAt v k) (endAt v k))).getLast? with
      | none =>
        refine absurd (fun p hp hin => ?_) hno
        rw [hinfo] at hp
        obtain ⟨k, hk⟩ := List.mem_iff_getElem?.mp hp
        rw [List.getLast?_eq_none_iff, List.filter_eq_nil_iff] at hlast
        refine hlast k (List.mem_range.mpr (lt_length_of_linked hk)) (decide_eq_true ?_)
        exact (mem_range_linked hk).mp hin
      | some i =>
        obtain ⟨hi, hin, hlater⟩ := getLast?_filter_range.mp hlast
        have hin := of_decide_eq_true hin
        have hget := getElem?_linked hi
        have hinnermost : info.Innermost address (linkedAt v v.length i v[i]) := by
          refine ⟨(mem_range_linked hget).mpr hin, fun c hc q hq hq' => ?_⟩
          obtain ⟨hclen, hparent⟩ := (mem_children_linked hfresh hlen hget c).mp hc
          obtain ⟨hic, _, _⟩ := lastOpen_eq_some_iff.mp hparent
          rw [hinfo] at hq
          exact hlater c.toNat hic hclen (decide_eq_true ((mem_range_linked hq).mp hq'))
        refine ⟨i, _, hinfo ▸ hget, hinnermost, fun j q hij hq => ?_⟩
        rw [hinfo] at hq
        have hj := lt_length_of_linked hq
        by_contra hge
        rw [lt_beginAddress_linked hq, Nat.not_lt] at hge
        -- the next subprogram is a child, and begins no later
        have hnext : i + 1 < v.length := by omega
        have hbegin : beginAt v (i + 1) ≤ address.toNat := (hwalk.begins hij hj).trans hge
        have hparent : parentOf v (i + 1) = some i :=
          lastOpen_eq_some_iff.mpr
            ⟨Nat.lt_succ_self i, Nat.lt_of_le_of_lt hbegin hin.2, fun k hk hk' => by omega⟩
        have hsucc : (UInt32.ofNat (i + 1)).toNat = i + 1 :=
          UInt32.toNat_ofNat_of_lt' (Nat.lt_of_lt_of_le hnext hlen)
        have hchild := (mem_children_linked hfresh hlen hget (UInt32.ofNat (i + 1))).mpr
          ⟨by rwa [hsucc], by rwa [hsucc]⟩
        have hnextget := getElem?_linked hnext
        have hbelow := hchildren _ (hinfo ▸ List.mem_of_getElem? hget) hinnermost _ hchild _
          (by rw [hinfo, hsucc]; exact hnextget)
        rw [lt_beginAddress_linked hnextget] at hbelow
        omega

end Forest

end WasmInfo

/-- **The lookup finds the innermost subprogram exactly where that one is the last to
begin**, or where there is none. -/
theorem getSubprogram_finds_iff (T : Toolchain) (depth : Nat) (file : Eosio.Bytes) (info : WasmInfo)
    (hinfo : getInfoFromWasm T depth file = .returns info) (address : UInt32) :
    info.FindsInnermost address ↔
      (∀ p ∈ info.subprograms, address ∉ p.range) ∨ info.LastToBegin address :=
  WasmInfo.findsInnermost_iff (getInfoFromWasm_inOrder T depth file info hinfo)

/-- A wasm file with a subprogram at `[16, 100)` and one in it at `[20, 30)`. -/
def nestedFile : Eosio.Bytes :=
  [0, 97, 115, 109, 1, 0, 0, 0,
   0, 31, 13, 46, 100, 101, 98, 117, 103, 95, 97, 98, 98, 114, 101, 118,
   1, 17, 1, 0, 0, 2, 46, 1, 17, 1, 18, 11, 3, 8, 0, 0, 0,
   0, 43, 11, 46, 100, 101, 98, 117, 103, 95, 105, 110, 102, 111,
   27, 0, 0, 0, 4, 0, 0, 0, 0, 0, 4,
   1, 2, 16, 0, 0, 0, 84, 102, 0, 2, 20, 0, 0, 0, 10, 103, 0, 0, 0, 0]

/-- What is read from it. -/
def nestedInfo : WasmInfo where
  abbrevDecls :=
    [{ code := 1, tag := dwTagCompileUnit, hasChildren := true },
     { code := 2, tag := dwTagSubprogram, hasChildren := true
       attrs := [⟨dwAtLowPc, dwFormAddr⟩, ⟨dwAtHighPc, dwFormData1⟩, ⟨dwAtName, dwFormString⟩] }]
  subprograms :=
    [{ beginAddress := 16, endAddress := 100, name := some [102], demangledName := [102]
       children := [1] },
     { beginAddress := 20, endAddress := 30, name := some [103], demangledName := [103]
       parent := some 0 }]

theorem getSubprogram_finds_iff_nested :
    nestedInfo.FindsInnermost 50 ↔
      (∀ p ∈ nestedInfo.subprograms, (50 : UInt32) ∉ p.range) ∨ nestedInfo.LastToBegin 50 :=
  getSubprogram_finds_iff plainToolchain 0 nestedFile nestedInfo (by decide +kernel) 50

/-- Behind the child nothing is found. -/
theorem getSubprogram_behind_child :
    ¬ ∀ (T : Toolchain) (depth : Nat) (file : Eosio.Bytes) (info : WasmInfo),
      getInfoFromWasm T depth file = .returns info → ∀ address, info.FindsInnermost address := by
  intro h
  have hfinds := h plainToolchain 0 nestedFile nestedInfo (by decide +kernel) 50
  have hnone : nestedInfo.getSubprogram 50 = none := by decide +kernel
  have hin : (50 : UInt32) ∈ (nestedInfo.subprograms[0]).range := by
    constructor <;> decide
  exact hfinds.none_iff.mp hnone _ (List.getElem_mem _) hin

end Microchain.DebugEosVm
