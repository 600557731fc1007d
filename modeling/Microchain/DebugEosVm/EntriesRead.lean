import Microchain.DebugEosVm.AbbrevLookup
import Microchain.DebugEosVm.Entries
import Microchain.Eosio.Codec
import Microchain.Eosio.Hex

/-!
# What a debugger reads of `.debug_info` and `.debug_abbrev`

The entries are those of the 64-bit format, which the parser of this library does not read;
the abbreviations are the same in both. So a debugger is modelled here by the library's own
`parse_debug_abbrev` and `get_abbrev_decl` and by a reader of entries (`unit64FromBin`).

- `parseDebugAbbrev_written`: the abbreviations are read back, once they are ended.
- `parseDebugAbbrev_unended`: they are not ended.
- `unit64FromBin_toBin`: the entries are read back.
-/

namespace Microchain.DebugEosVm

open Eosio Lib

/-! ## The reader -/

/-- An entry. -/
structure Entry where
  tag : UInt32
  hasChildren : Bool
  attrs : List (UInt32 × FormValue)
deriving DecidableEq, Repr

/-- A value in the 64-bit format, with addresses of eight bytes. -/
def formValue64FromBin (form : UInt32) : Parser FormValue := fun s =>
  if form = dwFormAddr ∨ form = dwFormData8 ∨ form = dwFormSecOffset then do
    let (v, s) ← reads uint64FromBin s
    .returns (.word v, s)
  else if form = dwFormString then do
    let (v, s) ← getString s
    .returns (.string v, s)
  else if form = dwFormData1 then do
    let (v, s) ← reads uint8FromBin s
    .returns (.byte v, s)
  else .fails (.reported "unknown form in dwarf entry")

/-- The attributes of an entry. -/
def attrs64FromBin : List AbbrevAttr → Parser (List (UInt32 × FormValue))
  | [], s => .returns ([], s)
  | attr :: attrs, s => do
    let (value, s) ← formValue64FromBin attr.form s
    let (rest, s) ← attrs64FromBin attrs s
    .returns ((attr.name, value) :: rest, s)

/-- An entry, or the end of a list of children. -/
def entry64FromBin (decls : List AbbrevDecl) (tableOffset : UInt32) : Parser (Option Entry) :=
  fun s => do
    let (code, s) ← reads varuint32FromBin s
    if code = 0 then .returns (none, s)
    else
      match getAbbrevDecl decls tableOffset code with
      | none => .fails (.reported "Bad abbrev in .debug_info")
      | some decl => do
        let (attrs, s) ← attrs64FromBin decl.attrs s
        .returns (some { tag := decl.tag, hasChildren := decl.hasChildren, attrs }, s)

/-- The entries of a unit, in order. -/
def entries64FromBin (decls : List AbbrevDecl) (tableOffset : UInt32) :
    Nat → Bytes → Run Fault (List (Option Entry))
  | _, [] => .returns []
  | 0, _ :: _ => .running
  | fuel + 1, b :: s => do
    let (entry, s) ← entry64FromBin decls tableOffset (b :: s)
    let rest ← entries64FromBin decls tableOffset fuel s
    .returns (entry :: rest)

/-- A section with one unit of the 64-bit format. -/
def unit64FromBin (decls : List AbbrevDecl) (s : Bytes) : Run Fault (List (Option Entry)) := do
  let (format, s) ← reads uint32FromBin s
  check (format = 0xffffffff) "not the 64-bit format"
  let (length, s) ← reads uint64FromBin s
  check (length.toNat = s.length) "bad unit_length in .debug_info"
  let (version, s) ← reads uint16FromBin s
  check (version = compileUnitVersion) ".debug_info isn't from DWARF version 4"
  let (abbrevOffset, s) ← reads uint64FromBin s
  let (addressSize, s) ← reads uint8FromBin s
  check (addressSize = 8) "mismatched address_size in .debug_info"
  entries64FromBin decls abbrevOffset.toUInt32 s.length s

/-! ## Values -/

theorem reads_ok {α : Type} {fromBin : FromBin α} {s : Bytes} {r : α × Bytes}
    (h : fromBin s = .ok r) : reads fromBin s = .returns r := by
  rw [reads, h]

theorem check_true {cond : Prop} [Decidable cond] (h : cond) {text : String} :
    check cond text = .returns () := if_pos h

theorem reads_varuint32 (n : UInt32) (s : Bytes) :
    reads varuint32FromBin (varuint32ToBin n ++ s) = .returns (n, s) :=
  reads_ok (varuint32FromBin_toBin n s)

theorem getString_append {v : Bytes} (h : 0 ∉ v) (s : Bytes) :
    getString (v ++ [0] ++ s) = .returns (v, s) := by
  induction v with
  | nil => rfl
  | cons ch v ih =>
    obtain ⟨hch, hv⟩ := not_or.mp (List.mem_cons.not.mp h)
    rw [List.cons_append, List.cons_append, getString, if_neg (Ne.symm hch), ih hv]
    rfl

/-- A value that is written as its form says. -/
def AttrFormValue.Sound (a : AttrFormValue) : Prop :=
  match a.value with
  | .word _ => a.form = dwFormAddr ∨ a.form = dwFormData8 ∨ a.form = dwFormSecOffset
  | .string v => a.form = dwFormString ∧ 0 ∉ v
  | .byte _ => a.form = dwFormData1

theorem formValue64FromBin_toBin {a : AttrFormValue} (h : a.Sound) (s : Bytes) :
    formValue64FromBin a.form (a.value.toBin ++ s) = .returns (a.value, s) := by
  obtain ⟨attr, form, value⟩ := a
  cases value with
  | word v =>
    have hform : form = dwFormAddr ∨ form = dwFormData8 ∨ form = dwFormSecOffset := h
    show formValue64FromBin form (uint64ToBin v ++ s) = _
    rw [formValue64FromBin, if_pos hform, reads_ok (uint64FromBin_toBin v s)]
    rfl
  | string v =>
    obtain ⟨hform, hv⟩ : form = dwFormString ∧ 0 ∉ v := h
    subst hform
    show formValue64FromBin dwFormString (v ++ [0] ++ s) = _
    rw [formValue64FromBin, if_neg (by decide), if_pos rfl, getString_append hv]
    rfl
  | byte v =>
    obtain rfl : form = dwFormData1 := h
    rfl

theorem attrs64FromBin_toBin {attrs : List AttrFormValue} (h : ∀ a ∈ attrs, a.Sound) (s : Bytes) :
    attrs64FromBin (attrs.map fun a => { name := a.attr, form := a.form })
        (attrs.flatMap (fun a => a.value.toBin) ++ s) =
      .returns (attrs.map fun a => (a.attr, a.value), s) := by
  induction attrs with
  | nil => rfl
  | cons a attrs ih =>
    obtain ⟨ha, hattrs⟩ := List.forall_mem_cons.mp h
    rw [List.map_cons, List.flatMap_cons, List.append_assoc, attrs64FromBin]
    show (formValue64FromBin a.form _ >>= _) = _
    rw [formValue64FromBin_toBin ha]
    show (attrs64FromBin _ _ >>= _) = _
    rw [ih hattrs]
    rfl

/-! ## Abbreviations -/

/-- The declaration of a pattern. -/
def PatternKey.decl (key : PatternKey) (code : UInt32) : AbbrevDecl where
  tableOffset := 0
  code := code
  tag := key.tag
  hasChildren := key.hasChildren
  attrs := key.attrs.map fun a => { name := a.1, form := a.2 }

/-- The patterns with their codes, in the order in which they came. -/
def numbered (keys : List PatternKey) : List (PatternKey × UInt32) :=
  keys.mapIdx fun i key => (key, UInt32.ofNat (i + 1))

/-- The code of a pattern. -/
def codeOf (keys : List PatternKey) (key : PatternKey) : UInt32 := UInt32.ofNat (keys.idxOf key + 1)

def declsOf (keys : List PatternKey) : List AbbrevDecl :=
  (numbered keys).map fun c => c.1.decl c.2

def abbrevBytes (keys : List PatternKey) : Bytes := (numbered keys).flatMap fun c => c.1.toBin c.2

section Abbreviations

variable {keys : List PatternKey} {key : PatternKey}

theorem numbered_concat (keys : List PatternKey) (key : PatternKey) :
    numbered (keys ++ [key]) = numbered keys ++ [(key, UInt32.ofNat (keys.length + 1))] :=
  List.mapIdx_concat

theorem find?_numbered (keys : List PatternKey) (key : PatternKey) :
    (numbered keys).find? (·.1 = key) =
      if key ∈ keys then some (key, codeOf keys key) else none := by
  induction keys using List.reverseRecOn with
  | nil => rfl
  | append_singleton keys last ih =>
    rw [numbered_concat, List.find?_append, ih]
    by_cases hmem : key ∈ keys
    · rw [if_pos hmem, if_pos (List.mem_append_left _ hmem), codeOf, codeOf,
        List.idxOf_append_of_mem hmem]
      rfl
    · rw [if_neg hmem]
      by_cases hlast : last = key
      · subst hlast
        rw [if_pos (List.mem_append_right keys (List.mem_singleton_self last)), codeOf,
          List.idxOf_append_of_notMem hmem]
        simp
      · rw [if_neg fun h => ?_]
        · simp [hlast]
        · rcases List.mem_append.mp h with h | h
          · exact hmem h
          · exact hlast (List.mem_singleton.mp h).symm

theorem codeOf_append (h : key ∈ keys) (more : List PatternKey) :
    codeOf (keys ++ more) key = codeOf keys key := by
  rw [codeOf, codeOf, List.idxOf_append_of_mem h]

theorem declsOf_eq (keys : List PatternKey) :
    declsOf keys = keys.mapIdx fun i key => key.decl (UInt32.ofNat (i + 1)) :=
  List.ext_getElem (by simp [declsOf, numbered]) fun i _ _ => by simp [declsOf, numbered]

theorem ofNat_lt {i j : Nat} (hij : i < j) (hj : j < 2 ^ 32) : UInt32.ofNat i < UInt32.ofNat j := by
  rw [UInt32.lt_iff_toNat_lt, UInt32.toNat_ofNat_of_lt' hj,
    UInt32.toNat_ofNat_of_lt' (Nat.lt_trans hij hj)]
  exact hij

theorem ofNat_succ_ne_zero {i : Nat} (hi : i + 1 < 2 ^ 32) : UInt32.ofNat (i + 1) ≠ 0 :=
  fun h => UInt32.not_lt.mpr (UInt32.le_of_eq h) (ofNat_lt (Nat.succ_pos i) hi)

theorem codeOf_ne_zero (hkeys : keys.length < 2 ^ 32 - 1) (h : key ∈ keys) : codeOf keys key ≠ 0 :=
  ofNat_succ_ne_zero (by have := List.idxOf_lt_length_iff.mpr h; omega)

/-- **A lookup** finds the abbreviation that an entry is written with. -/
theorem getAbbrevDecl_declsOf (hkeys : keys.length < 2 ^ 32 - 1) (h : key ∈ keys) :
    getAbbrevDecl (declsOf keys) 0 (codeOf keys key) = some (key.decl (codeOf keys key)) := by
  have hsorted : (declsOf keys).Pairwise fun a b => AbbrevDecl.less a b := by
    rw [declsOf_eq]
    refine List.pairwise_iff_getElem.mpr fun i j hi hj hij => ?_
    rw [List.length_mapIdx] at hi hj
    rw [List.getElem_mapIdx, List.getElem_mapIdx]
    exact pairLess_iff.mpr (.inr ⟨rfl, ofNat_lt (Nat.succ_lt_succ hij) (by omega)⟩)
  have hidx := List.idxOf_lt_length_iff.mpr h
  refine (finds_of_sorted hsorted _).mpr ⟨?_, rfl⟩
  rw [declsOf_eq]
  refine List.mem_iff_getElem.mpr ⟨keys.idxOf key, by rwa [List.length_mapIdx], ?_⟩
  rw [List.getElem_mapIdx, List.getElem_idxOf hidx]
  rfl

/-- The attributes end at a name that is zero, so no other is. -/
def PatternKey.Ended (key : PatternKey) : Prop := ∀ a ∈ key.attrs, a.1 ≠ 0

/-- The bytes of the attributes of an abbreviation. -/
def attrsToBin (attrs : List (UInt32 × UInt32)) : Bytes :=
  attrs.flatMap fun a => varuint32ToBin a.1 ++ varuint32ToBin a.2

theorem varuint32ToBin_pos (n : UInt32) : 0 < (varuint32ToBin n).length := by
  rw [varuint32ToBin, varuint32ToBinLoop]
  split <;> exact Nat.succ_pos _

/-- The attributes of an abbreviation. -/
theorem loop_abbrevAttrs {attrs : List (UInt32 × UInt32)} (h : ∀ a ∈ attrs, a.1 ≠ 0)
    (read : List AbbrevAttr) (s : Bytes) {fuel : Nat} (hfuel : attrs.length < fuel) :
    loop abbrevAttrsTurn fuel
        (read, attrsToBin attrs ++ (varuint32ToBin 0 ++ (varuint32ToBin 0 ++ s))) =
      .returns (read ++ attrs.map fun a => { name := a.1, form := a.2 }, s) := by
  induction attrs generalizing read fuel with
  | nil =>
    obtain ⟨fuel, rfl⟩ := Nat.exists_eq_succ_of_ne_zero (Nat.ne_zero_of_lt hfuel)
    rw [List.map_nil, List.append_nil]
    refine loop_done ?_ fuel
    show abbrevAttrsTurn (read, varuint32ToBin 0 ++ (varuint32ToBin 0 ++ s)) = _
    rw [abbrevAttrsTurn, reads_varuint32, Run.returns_bind]
    dsimp only
    rw [reads_varuint32]
    rfl
  | cons a attrs ih =>
    obtain ⟨ha, hattrs⟩ := List.forall_mem_cons.mp h
    obtain ⟨fuel, rfl⟩ := Nat.exists_eq_succ_of_ne_zero (Nat.ne_zero_of_lt hfuel)
    have hagain : Again abbrevAttrsTurn
        (read, attrsToBin (a :: attrs) ++ (varuint32ToBin 0 ++ (varuint32ToBin 0 ++ s)))
        (read ++ [{ name := a.1, form := a.2 }],
          attrsToBin attrs ++ (varuint32ToBin 0 ++ (varuint32ToBin 0 ++ s))) := by
      rw [Again, attrsToBin, List.flatMap_cons, List.append_assoc, List.append_assoc,
        abbrevAttrsTurn, reads_varuint32, Run.returns_bind]
      dsimp only
      rw [reads_varuint32]
      show (if a.1 = 0 then _ else _) = _
      rw [if_neg ha]
      rfl
    rw [loop_again hagain, ih hattrs _ (Nat.lt_of_succ_lt_succ hfuel), List.append_assoc]
    rfl

theorem attrsToBin_length (attrs : List (UInt32 × UInt32)) :
    attrs.length ≤ (attrsToBin attrs).length := by
  induction attrs with
  | nil => exact Nat.le_refl 0
  | cons a attrs ih =>
    have hpos := varuint32ToBin_pos a.1
    rw [attrsToBin, List.flatMap_cons, List.length_append, List.length_append, List.length_cons]
    rw [attrsToBin] at ih
    omega

/-- **A declaration.** -/
theorem abbrevTableTurn_toBin (hkey : key.Ended) {code : UInt32} (hcode : code ≠ 0)
    (decls : List AbbrevDecl) (s : Bytes) :
    Again (abbrevTableTurn 0) (decls, key.toBin code ++ s) (decls ++ [key.decl code], s) := by
  have hbytes : key.toBin code ++ s = varuint32ToBin code ++ (varuint32ToBin key.tag ++
      ((if key.hasChildren then 1 else 0) :: (attrsToBin key.attrs ++
        (varuint32ToBin 0 ++ (varuint32ToBin 0 ++ s))))) := by
    simp only [PatternKey.toBin, attrsToBin, List.append_assoc, List.cons_append, List.nil_append]
  rw [Again, hbytes, abbrevTableTurn, reads_varuint32]
  show (if code = 0 then _ else _) = _
  rw [if_neg hcode, reads_varuint32]
  show (loop abbrevAttrsTurn _ ([], attrsToBin key.attrs ++ _) >>= _) = _
  rw [loop_abbrevAttrs hkey [] s (by
    have := attrsToBin_length key.attrs
    rw [List.length_append]
    omega)]
  have hchildren : decide ((if key.hasChildren then (1 : UInt8) else 0) ≠ 0) = key.hasChildren := by
    cases key.hasChildren <;> rfl
  rw [Run.returns_bind]
  dsimp only
  rw [hchildren]
  rfl

/-- The bytes of a declaration are not none. -/
theorem toBin_pos (key : PatternKey) (code : UInt32) : 0 < (key.toBin code).length := by
  have hpos := varuint32ToBin_pos code
  simp only [PatternKey.toBin, List.length_append]
  omega

/-- **Declarations** one behind another. -/
theorem loop_abbrevTable {cs : List (PatternKey × UInt32)}
    (h : ∀ c ∈ cs, c.1.Ended ∧ c.2 ≠ 0) (decls : List AbbrevDecl) (s : Bytes) (fuel : Nat) :
    loop (abbrevTableTurn 0) (cs.length + fuel) (decls, cs.flatMap (fun c => c.1.toBin c.2) ++ s) =
      loop (abbrevTableTurn 0) fuel (decls ++ cs.map fun c => c.1.decl c.2, s) := by
  induction cs generalizing decls with
  | nil =>
    rw [List.length_nil, Nat.zero_add, List.map_nil, List.append_nil]
    rfl
  | cons c cs ih =>
    obtain ⟨⟨hended, hcode⟩, hcs⟩ := List.forall_mem_cons.mp h
    rw [List.flatMap_cons, List.append_assoc, List.length_cons, Nat.add_right_comm,
      loop_again (abbrevTableTurn_toBin hended hcode decls _), ih hcs, List.append_assoc]
    rfl

theorem length_le_abbrevBytes (cs : List (PatternKey × UInt32)) :
    cs.length ≤ (cs.flatMap fun c => c.1.toBin c.2).length := by
  induction cs with
  | nil => exact Nat.le_refl 0
  | cons c cs ih =>
    have hpos := toBin_pos c.1 c.2
    rw [List.flatMap_cons, List.length_append, List.length_cons]
    omega

theorem numbered_ne_zero (hkeys : keys.length < 2 ^ 32 - 1) : ∀ c ∈ numbered keys, c.2 ≠ 0 := by
  intro c hc
  obtain ⟨i, hi, rfl⟩ := List.mem_iff_getElem.mp hc
  rw [numbered, List.length_mapIdx] at hi
  rw [List.getElem_of_eq (numbered.eq_1 keys), List.getElem_mapIdx]
  exact ofNat_succ_ne_zero (by omega)

theorem numbered_ended (hkeys : keys.length < 2 ^ 32 - 1) (hended : ∀ key ∈ keys, key.Ended) :
    ∀ c ∈ numbered keys, c.1.Ended ∧ c.2 ≠ 0 := by
  intro c hc
  refine ⟨?_, numbered_ne_zero hkeys c hc⟩
  obtain ⟨i, hi, rfl⟩ := List.mem_iff_getElem.mp hc
  rw [List.getElem_of_eq (numbered.eq_1 keys), List.getElem_mapIdx]
  exact hended _ (List.getElem_mem _)

/-- The first table of a section. -/
theorem abbrevSectionTurn_start {s : Bytes} (hs : s ≠ []) :
    abbrevSectionTurn s.length ([], s) =
      loop (abbrevTableTurn 0) (s.length + 1) ([], s) >>= fun next => .returns (.again next) := by
  cases s with
  | nil => exact absurd rfl hs
  | cons b s =>
    rw [abbrevSectionTurn, Nat.sub_self]
    rfl

/-- **The round trip** of the abbreviations, with the zero that ends a table. -/
theorem parseDebugAbbrev_written (hkeys : keys.length < 2 ^ 32 - 1)
    (hended : ∀ key ∈ keys, key.Ended) :
    parseDebugAbbrev {} (abbrevBytes keys ++ varuint32ToBin 0) =
      .returns { abbrevDecls := declsOf keys } := by
  have hall := numbered_ended hkeys hended
  have hlen : (numbered keys).length ≤ (abbrevBytes keys).length := length_le_abbrevBytes _
  obtain ⟨fuel, hfuel⟩ : ∃ fuel, (abbrevBytes keys ++ varuint32ToBin 0).length + 1 =
      (numbered keys).length + (fuel + 1) :=
    ⟨(abbrevBytes keys ++ varuint32ToBin 0).length - (numbered keys).length, by
      rw [List.length_append]
      omega⟩
  have htable : loop (abbrevTableTurn 0) ((abbrevBytes keys ++ varuint32ToBin 0).length + 1)
      ([], abbrevBytes keys ++ varuint32ToBin 0) = .returns (declsOf keys, []) := by
    rw [hfuel, abbrevBytes, loop_abbrevTable hall]
    exact loop_done rfl fuel
  have hagain : Again (abbrevSectionTurn (abbrevBytes keys ++ varuint32ToBin 0).length)
      ([], abbrevBytes keys ++ varuint32ToBin 0) (declsOf keys, []) := by
    rw [Again, abbrevSectionTurn_start (by simp [varuint32ToBin, varuint32ToBinLoop]), htable]
    rfl
  rw [parseDebugAbbrev]
  show (loop _ (_ + 1) ([], _) >>= _) = _
  rw [loop_again hagain]
  obtain ⟨m, hm⟩ : ∃ m, (abbrevBytes keys ++ varuint32ToBin 0).length = m + 1 :=
    ⟨(abbrevBytes keys).length, by rw [List.length_append]; rfl⟩
  rw [hm, loop_done rfl m]
  rfl

/-- **Without it** they cannot be read. -/
theorem parseDebugAbbrev_unended (hkeys : keys.length < 2 ^ 32 - 1) (hne : keys ≠ [])
    (hended : ∀ key ∈ keys, key.Ended) :
    parseDebugAbbrev {} (abbrevBytes keys) = .fails (.reported overrun) := by
  have hall := numbered_ended hkeys hended
  have hlen : (numbered keys).length ≤ (abbrevBytes keys).length := length_le_abbrevBytes _
  obtain ⟨fuel, hfuel⟩ : ∃ fuel, (abbrevBytes keys).length + 1 =
      (numbered keys).length + (fuel + 1) :=
    ⟨(abbrevBytes keys).length - (numbered keys).length, by omega⟩
  have htable : loop (abbrevTableTurn 0) ((abbrevBytes keys).length + 1) ([], abbrevBytes keys) =
      .fails (.reported overrun) := by
    have hloop := loop_abbrevTable hall [] [] (fuel + 1)
    rw [List.append_nil] at hloop
    rw [hfuel, abbrevBytes, hloop]
    exact loop_fails rfl fuel
  have hbytes : abbrevBytes keys ≠ [] := by
    intro hnil
    rw [hnil, numbered, List.length_mapIdx] at hlen
    exact hne (List.length_eq_zero_iff.mp (Nat.le_zero.mp hlen))
  rw [parseDebugAbbrev]
  show (loop _ (_ + 1) ([], _) >>= _) = _
  rw [loop_fails (by rw [abbrevSectionTurn_start hbytes, htable]; rfl)]
  rfl

end Abbreviations

/-! ## Entries -/

/-- The entry of a pattern. -/
def DiePattern.entry (die : DiePattern) : Entry where
  tag := die.tag
  hasChildren := die.hasChildren
  attrs := die.attrs.map fun a => (a.attr, a.value)

/-- The entries, each with the code of its abbreviation. -/
def diesToBin (keys : List PatternKey) (dies : List DiePattern) : Bytes :=
  dies.flatMap fun die => die.toBin (codeOf keys die.key)

section Entries

variable {keys : List PatternKey} {dies : List DiePattern}

theorem entry64FromBin_toBin {die : DiePattern} (hkeys : keys.length < 2 ^ 32 - 1)
    (hdie : die.key ∈ keys) (hsound : ∀ a ∈ die.attrs, a.Sound) (s : Bytes) :
    entry64FromBin (declsOf keys) 0 (die.toBin (codeOf keys die.key) ++ s) =
      .returns (some die.entry, s) := by
  have hattrs : (die.key.decl (codeOf keys die.key)).attrs =
      die.attrs.map fun a => { name := a.attr, form := a.form } := List.map_map
  rw [DiePattern.toBin, List.append_assoc, entry64FromBin, reads_varuint32]
  show (if codeOf keys die.key = 0 then _ else _) = _
  rw [if_neg (codeOf_ne_zero hkeys hdie), getAbbrevDecl_declsOf hkeys hdie]
  dsimp only
  rw [hattrs, attrs64FromBin_toBin hsound]
  rfl

theorem entries64FromBin_cons {decls : List AbbrevDecl} {tableOffset : UInt32} {s rest : Bytes}
    {entry : Option Entry} (hs : 0 < s.length)
    (h : entry64FromBin decls tableOffset s = .returns (entry, rest)) (fuel : Nat) :
    entries64FromBin decls tableOffset (fuel + 1) s =
      entries64FromBin decls tableOffset fuel rest >>= fun entries =>
        .returns (entry :: entries) := by
  cases s with
  | nil => exact absurd hs (Nat.lt_irrefl 0)
  | cons b s =>
    rw [entries64FromBin, h]
    rfl

/-- The entries end where the section does. -/
theorem entries64FromBin_toBin (hkeys : keys.length < 2 ^ 32 - 1)
    (hdies : ∀ die ∈ dies, die.key ∈ keys) (hsound : ∀ die ∈ dies, ∀ a ∈ die.attrs, a.Sound)
    {fuel : Nat} (hfuel : dies.length + 2 ≤ fuel) :
    entries64FromBin (declsOf keys) 0 fuel
        (diesToBin keys dies ++ (varuint32ToBin 0 ++ varuint32ToBin 0)) =
      .returns (dies.map (fun die => some die.entry) ++ [none, none]) := by
  induction dies generalizing fuel with
  | nil =>
    obtain ⟨fuel, rfl⟩ : ∃ m, fuel = m + 2 := ⟨fuel - 2, by omega⟩
    have hnull : ∀ s, entry64FromBin (declsOf keys) 0 (0 :: s) = .returns (none, s) :=
      fun s => rfl
    show entries64FromBin (declsOf keys) 0 (fuel + 1 + 1) [0, 0] = _
    rw [entries64FromBin_cons (by decide) (hnull [0]), entries64FromBin_cons (by decide) (hnull []),
      entries64FromBin]
    rfl
  | cons die dies ih =>
    obtain ⟨hdie, hdies⟩ := List.forall_mem_cons.mp hdies
    obtain ⟨ha, hsound⟩ := List.forall_mem_cons.mp hsound
    obtain ⟨fuel, rfl⟩ : ∃ m, fuel = m + 1 := ⟨fuel - 1, by omega⟩
    have hpos := varuint32ToBin_pos (codeOf keys die.key)
    have hentry := entry64FromBin_toBin hkeys hdie ha
      (diesToBin keys dies ++ (varuint32ToBin 0 ++ varuint32ToBin 0))
    rw [diesToBin, List.flatMap_cons, List.append_assoc]
    rw [diesToBin] at hentry ih
    rw [entries64FromBin_cons _ hentry, ih hdies hsound (by rw [List.length_cons] at hfuel; omega)]
    · rfl
    · rw [DiePattern.toBin, List.length_append, List.length_append]
      omega

theorem length_le_diesToBin (keys : List PatternKey) (dies : List DiePattern) :
    dies.length ≤ (diesToBin keys dies).length := by
  induction dies with
  | nil => exact Nat.le_refl 0
  | cons die dies ih =>
    have hpos := varuint32ToBin_pos (codeOf keys die.key)
    rw [diesToBin] at ih ⊢
    rw [List.flatMap_cons, List.length_append, List.length_cons, DiePattern.toBin,
      List.length_append]
    omega

/-- **The round trip** of a unit. -/
theorem unit64FromBin_toBin (hkeys : keys.length < 2 ^ 32 - 1)
    (hdies : ∀ die ∈ dies, die.key ∈ keys) (hsound : ∀ die ∈ dies, ∀ a ∈ die.attrs, a.Sound)
    {length : UInt64}
    (hlength : length.toNat = (diesToBin keys dies).length + 13) :
    unit64FromBin (declsOf keys)
        (infoPrefix length ++ (diesToBin keys dies ++ (varuint32ToBin 0 ++ varuint32ToBin 0))) =
      .returns (dies.map (fun die => some die.entry) ++ [none, none]) := by
  have hversion : ∀ s, reads uint16FromBin (uint16ToBin compileUnitVersion ++ s) =
      .returns (compileUnitVersion, s) := fun s => rfl
  have haddress : ∀ s, reads uint8FromBin (8 :: s) = .returns (8, s) := fun s => rfl
  have hlen := length_le_diesToBin keys dies
  have hends : ∀ s : Bytes, (s ++ (varuint32ToBin 0 ++ varuint32ToBin 0)).length = s.length + 2 :=
    fun s => List.length_append
  have hrest : length.toNat = (uint16ToBin compileUnitVersion ++ (uint64ToBin 0 ++
      (8 :: (diesToBin keys dies ++ (varuint32ToBin 0 ++ varuint32ToBin 0))))).length := by
    rw [List.length_append, List.length_append, List.length_cons, hends, hlength]
    show _ = 2 + (8 + _)
    omega
  rw [infoPrefix]
  simp only [List.append_assoc, List.singleton_append]
  rw [unit64FromBin, reads_ok (uint32FromBin_toBin _ _), Run.returns_bind]
  dsimp only
  rw [check_true rfl, Run.returns_bind, reads_ok (uint64FromBin_toBin _ _), Run.returns_bind]
  dsimp only
  rw [check_true hrest, Run.returns_bind, hversion, Run.returns_bind]
  dsimp only
  rw [check_true rfl, Run.returns_bind, reads_ok (uint64FromBin_toBin _ _), Run.returns_bind]
  dsimp only
  rw [haddress, Run.returns_bind]
  dsimp only
  rw [check_true rfl, Run.returns_bind]
  exact entries64FromBin_toBin hkeys hdies hsound (by rw [hends]; omega)

end Entries

end Microchain.DebugEosVm
