import Microchain.DebugEosVm.EntriesRead

/-!
# What a debugger reads of the functions

`write_subprograms` writes an entry and a symbol for each subprogram that is not inlined and
lies in one function of the wasm file (`functions`). What it has written is kept track of by
the entries and the symbols themselves (`Wrote`): the abbreviations that the entries have
been given stay theirs, and a name in the string table stays where it is.
-/

namespace Microchain.DebugEosVm

open Eosio Lib
open Elf (stringAt)

/-! ## The functions -/

/-- A subprogram with the machine code of its function. -/
structure Function where
  sub : Subprogram
  low : UInt64
  high : UInt64
deriving DecidableEq, Repr

/-- The function of a subprogram that is described. -/
def functionOf (info : WasmInfo) (fnLocs : List JitFnLoc) (codeStart : UInt64) (sub : Subprogram) :
    Option Function := do
  let fn ← getWasmFn info (info.wasmCodeOffset + sub.beginAddress)
  let wasmFn ← info.wasmFns[fn.toNat]?
  let loc ← fnLocs[fn.toNat]?
  if info.wasmCodeOffset + sub.endAddress ≤ wasmFn.endPos ∧ sub.parent = none then
    some
      { sub
        low := codeStart + loc.codePrologue.toUInt64
        high := codeStart + loc.codeEnd.toUInt64 }
  else none

def functions (info : WasmInfo) (fnLocs : List JitFnLoc) (codeStart : UInt64) : List Function :=
  info.subprograms.filterMap (functionOf info fnLocs codeStart)

namespace Function

def die (f : Function) : DiePattern := subprogramDie f.sub f.low f.high

/-- The name and the symbol, but for the place of the name. -/
def symbol (f : Function) (codeSection : UInt16) : Bytes × Elf.Sym :=
  (symbolName f.sub,
    { info := stInfo, shndx := codeSection, value := f.low, size := f.high - f.low })

end Function

section Loop

variable {info : WasmInfo} {fnLocs : List JitFnLoc} {codeStart : UInt64}

theorem getWasmFn_lt {wasmAddr fn : UInt32} (h : getWasmFn info wasmAddr = some fn) :
    fn.toNat < info.wasmFns.length := by
  rw [getWasmFn] at h
  split at h
  · cases h
  · next it _ =>
    obtain ⟨wasmFn, hfn, rfl⟩ := Option.map_eq_some_iff.mp h
    obtain ⟨hlt, -⟩ := List.getElem?_eq_some_iff.mp (Option.filter_eq_some_iff.mp hfn).1
    exact Nat.lt_of_le_of_lt (Nat.mod_le it _) hlt

/-- What a function is written as. -/
def Tables.write (codeSection : UInt16) (t : Tables) (f : Function) : Tables :=
  t.writeFunction codeSection f.sub f.low f.high

/-- **The body of the loop** writes the function, if there is one. -/
theorem writeSubprogram_eq (hfns : fnLocs.length = info.wasmFns.length) (codeSection : UInt16)
    (t : Tables) (sub : Subprogram) :
    t.writeSubprogram info fnLocs codeStart codeSection sub =
      .returns ((functionOf info fnLocs codeStart sub).elim t (t.write codeSection)) := by
  rw [Tables.writeSubprogram, functionOf]
  cases hfn : getWasmFn info (info.wasmCodeOffset + sub.beginAddress) with
  | none => rfl
  | some fn =>
    have hlt := getWasmFn_lt hfn
    have hlt' : fn.toNat < fnLocs.length := hfns ▸ hlt
    simp only [indexAt, List.getElem?_eq_getElem hlt, List.getElem?_eq_getElem hlt',
      Run.returns_bind, Option.bind_eq_bind, Option.bind_some]
    by_cases hend : info.wasmCodeOffset + sub.endAddress > info.wasmFns[fn.toNat].endPos
    · rw [if_pos hend, if_neg fun h => UInt32.not_lt.mpr h.1 hend]
      rfl
    · rw [if_neg hend]
      cases hparent : sub.parent with
      | some parent =>
        rw [if_pos (Option.isSome_some), if_neg fun h => Option.some_ne_none parent h.2]
        rfl
      | none =>
        rw [if_neg (show ¬ (none : Option UInt32).isSome by decide),
          if_pos ⟨UInt32.not_lt.mp hend, rfl⟩]
        rfl

theorem writeSubs_eq (hfns : fnLocs.length = info.wasmFns.length) (codeSection : UInt16)
    (t : Tables) (subs : List Subprogram) :
    t.writeSubs info fnLocs codeStart codeSection subs =
      .returns ((subs.filterMap (functionOf info fnLocs codeStart)).foldl
        (Tables.write codeSection) t) := by
  induction subs generalizing t with
  | nil => rfl
  | cons sub subs ih =>
    rw [Tables.writeSubs, writeSubprogram_eq hfns, Run.returns_bind, ih, List.filterMap_cons]
    cases functionOf info fnLocs codeStart sub <;> rfl

end Loop

/-! ## What has been written -/

/-- The tables hold the entries and the symbols. -/
structure Wrote (infoFront strings : Bytes) (keys : List PatternKey) (dies : List DiePattern)
    (syms : List (Bytes × Elf.Sym)) (t : Tables) : Prop where
  nodup : keys.Nodup
  codes : t.codes = numbered keys
  declared : t.abbrevData = abbrevBytes keys
  mem : ∀ die ∈ dies, die.key ∈ keys
  only : ∀ key ∈ keys, ∃ die ∈ dies, die.key = key
  info : t.infoData = infoFront ++ diesToBin keys dies
  symbols : t.symbolData = syms.flatMap fun p => p.2.bytes
  named : ∀ p ∈ syms, stringAt t.strings p.2.name.toNat = some p.1
  strings : strings <+: t.strings

section Wrote

variable {infoFront strings : Bytes} {keys : List PatternKey} {dies : List DiePattern}
  {syms : List (Bytes × Elf.Sym)} {t : Tables}

theorem diesToBin_append (hmem : ∀ die ∈ dies, die.key ∈ keys) (more : List PatternKey)
    (die : DiePattern) :
    diesToBin (keys ++ more) (dies ++ [die]) =
      diesToBin keys dies ++ die.toBin (codeOf (keys ++ more) die.key) := by
  rw [diesToBin, List.flatMap_append, List.flatMap_singleton]
  congr 1
  refine List.flatMap_congr fun d hd => ?_
  rw [codeOf_append (hmem d hd)]

/-- **An entry.** -/
theorem Wrote.writeDie (h : Wrote infoFront strings keys dies syms t) (die : DiePattern) :
    ∃ more, Wrote infoFront strings (keys ++ more) (dies ++ [die]) syms (t.writeDie die) := by
  have hfind := find?_numbered keys die.key
  rw [← h.codes] at hfind
  by_cases hmem : die.key ∈ keys
  · rw [if_pos hmem] at hfind
    have happend := diesToBin_append h.mem [] die
    refine ⟨[], ?_⟩
    rw [List.append_nil] at happend ⊢
    rw [Tables.writeDie, hfind]
    refine ⟨h.nodup, h.codes, h.declared, fun d hd => ?_, fun key hkey => ?_, ?_, h.symbols,
      h.named, h.strings⟩
    · rcases List.mem_append.mp hd with hd | hd
      · exact h.mem d hd
      · rwa [List.mem_singleton.mp hd]
    · obtain ⟨d, hd, hdkey⟩ := h.only key hkey
      exact ⟨d, List.mem_append_left _ hd, hdkey⟩
    · rw [happend, ← List.append_assoc, ← h.info]
  · rw [if_neg hmem] at hfind
    have hlen : t.codes.length = keys.length := by rw [h.codes, numbered, List.length_mapIdx]
    have hcode : codeOf (keys ++ [die.key]) die.key = UInt32.ofNat (t.codes.length + 1) := by
      rw [codeOf, List.idxOf_append_of_notMem hmem, hlen]
      simp
    refine ⟨[die.key], ?_⟩
    rw [Tables.writeDie, hfind]
    refine ⟨?_, ?_, ?_, fun d hd => ?_, fun key hkey => ?_, ?_, h.symbols, h.named, h.strings⟩
    · exact List.Nodup.append h.nodup (List.nodup_singleton _)
        fun key hkey hsame => hmem (List.mem_singleton.mp hsame ▸ hkey)
    · rw [numbered_concat, ← h.codes, ← hlen]
    · rw [abbrevBytes, numbered_concat, List.flatMap_append, List.flatMap_singleton, ← hlen]
      show t.abbrevData ++ _ = _
      rw [h.declared]
      rfl
    · rcases List.mem_append.mp hd with hd | hd
      · exact List.mem_append_left _ (h.mem d hd)
      · rw [List.mem_singleton.mp hd]
        exact List.mem_append_right _ (List.mem_singleton_self _)
    · rcases List.mem_append.mp hkey with hkey | hkey
      · obtain ⟨d, hd, hdkey⟩ := h.only key hkey
        exact ⟨d, List.mem_append_left _ hd, hdkey⟩
      · exact ⟨die, List.mem_append_right _ (List.mem_singleton_self _),
          (List.mem_singleton.mp hkey).symm⟩
    · show t.infoData ++ _ = _
      rw [diesToBin_append h.mem, ← List.append_assoc, ← h.info, hcode]

theorem writeDie_strings (t : Tables) (die : DiePattern) :
    (t.writeDie die).strings = t.strings := by
  rw [Tables.writeDie]
  split <;> rfl

/-- **A string** is found where it has been put. -/
theorem addStr_spec {strings s : Bytes} (hs : 0 ∉ s) (hnull : stringAt strings 0 = some [])
    (hlen : (addStr strings s).2.length ≤ 2 ^ 32) :
    stringAt (addStr strings s).2 (addStr strings s).1.toNat = some s := by
  have htake : s.takeWhile (· ≠ 0) = s := List.takeWhile_eq_self_iff.mpr fun a ha =>
    decide_eq_true fun hzero => hs (hzero ▸ ha)
  rw [addStr, htake] at hlen ⊢
  by_cases hnil : s = []
  · subst hnil
    exact hnull
  · rw [if_neg hnil] at hlen ⊢
    have hlt : strings.length < 2 ^ 32 := by
      rw [List.length_append, List.length_append, List.length_singleton] at hlen
      omega
    rw [UInt32.toNat_ofNat_of_lt' hlt]
    exact Elf.stringAt_append_string hs

theorem addStr_prefix (strings s : Bytes) : strings <+: (addStr strings s).2 := by
  rw [addStr]
  split
  · exact List.prefix_rfl
  · exact List.prefix_append _ _

/-- The names of a subprogram are C strings. -/
structure Subprogram.Plain (sub : Subprogram) : Prop where
  linkageName : ∀ str ∈ sub.linkageName, 0 ∉ str
  name : ∀ str ∈ sub.name, 0 ∉ str
  demangledName : 0 ∉ sub.demangledName

theorem symbolName_plain {sub : Subprogram} (h : sub.Plain) : 0 ∉ symbolName sub := by
  rw [symbolName]
  cases hlinkage : sub.linkageName with
  | some str => exact h.linkageName str hlinkage
  | none =>
    cases hname : sub.name with
    | some str => exact h.name str hname
    | none => exact List.not_mem_nil

/-- A symbol, but for the place of its name. -/
def unplaced (p : Bytes × Elf.Sym) : Bytes × Elf.Sym := (p.1, { p.2 with name := 0 })

/-- **A function.** -/
theorem Wrote.write (h : Wrote infoFront strings keys dies syms t)
    (hnull : stringAt t.strings 0 = some []) (codeSection : UInt16) {f : Function}
    (hf : f.sub.Plain) (hlen : (t.write codeSection f).strings.length ≤ 2 ^ 32) :
    ∃ more sym, unplaced sym = f.symbol codeSection ∧
      Wrote infoFront strings (keys ++ more) (dies ++ [f.die]) (syms ++ [sym])
        (t.write codeSection f) := by
  obtain ⟨more, h'⟩ := h.writeDie f.die
  have hstrings := writeDie_strings t f.die
  have hadd : (t.write codeSection f).strings = (addStr t.strings (symbolName f.sub)).2 := by
    rw [← hstrings]
    rfl
  have hname : (addStr (t.writeDie f.die).strings (symbolName f.sub)).1 =
      (addStr t.strings (symbolName f.sub)).1 := by
    rw [hstrings]
  rw [hadd] at hlen
  have hprefix := addStr_prefix t.strings (symbolName f.sub)
  refine ⟨more, (symbolName f.sub,
    { name := (addStr (t.writeDie f.die).strings (symbolName f.sub)).1, info := stInfo
      shndx := codeSection, value := f.low, size := f.high - f.low }), rfl,
    h'.nodup, h'.codes, h'.declared, h'.mem, h'.only, h'.info, ?_, fun p hp => ?_, ?_⟩
  · show (t.writeDie f.die).symbolData ++ _ = _
    rw [h'.symbols, List.flatMap_append, List.flatMap_singleton]
    rfl
  · rw [hadd]
    rcases List.mem_append.mp hp with hp | hp
    · obtain ⟨rest, hrest⟩ := hprefix
      rw [← hrest]
      exact Elf.stringAt_append (h.named p hp)
    · rw [List.mem_singleton.mp hp]
      dsimp only
      rw [hname]
      exact addStr_spec (symbolName_plain hf) hnull hlen
  · rw [hadd]
    exact h.strings.trans hprefix

theorem write_strings (codeSection : UInt16) (t : Tables) (f : Function) :
    t.strings <+: (t.write codeSection f).strings := by
  have hstrings := writeDie_strings t f.die
  show t.strings <+: (addStr (t.writeDie f.die).strings (symbolName f.sub)).2
  rw [hstrings]
  exact addStr_prefix _ _

theorem foldl_write_strings (codeSection : UInt16) (t : Tables) (fs : List Function) :
    t.strings <+: (fs.foldl (Tables.write codeSection) t).strings := by
  induction fs generalizing t with
  | nil => exact List.prefix_rfl
  | cons f fs ih => exact (write_strings codeSection t f).trans (ih _)

/-- **Any functions.** -/
theorem Wrote.foldl_write (h : Wrote infoFront strings keys dies syms t)
    (hnull : stringAt t.strings 0 = some []) (codeSection : UInt16) {fs : List Function}
    (hfs : ∀ f ∈ fs, f.sub.Plain)
    (hlen : (fs.foldl (Tables.write codeSection) t).strings.length ≤ 2 ^ 32) :
    ∃ more syms', syms'.map unplaced = fs.map (·.symbol codeSection) ∧
      Wrote infoFront strings (keys ++ more) (dies ++ fs.map Function.die) (syms ++ syms')
        (fs.foldl (Tables.write codeSection) t) := by
  induction fs generalizing keys dies syms t with
  | nil =>
    refine ⟨[], [], rfl, ?_⟩
    rwa [List.append_nil, List.map_nil, List.append_nil, List.append_nil]
  | cons f fs ih =>
    obtain ⟨hf, hfs⟩ := List.forall_mem_cons.mp hfs
    obtain ⟨more, sym, hsym, h'⟩ := h.write hnull codeSection hf
      (Nat.le_trans (foldl_write_strings codeSection _ fs).length_le hlen)
    have hnull' : stringAt (t.write codeSection f).strings 0 = some [] := by
      obtain ⟨rest, hrest⟩ := write_strings codeSection t f
      rw [← hrest]
      exact Elf.stringAt_append hnull
    obtain ⟨more', syms', hsyms', h''⟩ := ih h' hnull' hfs hlen
    refine ⟨more ++ more', sym :: syms', ?_, ?_⟩
    · rw [List.map_cons, List.map_cons, hsym, hsyms']
    · rw [← List.append_assoc, List.map_cons, List.foldl_cons]
      simpa only [List.append_assoc, List.singleton_append] using h''

end Wrote

/-! ## The tables -/

/-- All the patterns that there are. -/
def patterns : List PatternKey :=
  [⟨dwTagCompileUnit, true, [(dwAtLanguage, dwFormData8), (dwAtLowPc, dwFormAddr),
      (dwAtHighPc, dwFormAddr), (dwAtStmtList, dwFormSecOffset)]⟩,
    ⟨dwTagSubprogram, false, [(dwAtLowPc, dwFormAddr), (dwAtHighPc, dwFormAddr)]⟩,
    ⟨dwTagSubprogram, false, [(dwAtLowPc, dwFormAddr), (dwAtHighPc, dwFormAddr),
      (dwAtName, dwFormString)]⟩,
    ⟨dwTagSubprogram, false, [(dwAtLowPc, dwFormAddr), (dwAtHighPc, dwFormAddr),
      (dwAtLinkageName, dwFormString), (dwAtName, dwFormString)]⟩]

theorem patterns_ended : ∀ key ∈ patterns, key.Ended := by
  have hall : (patterns.all fun key => key.attrs.all fun a => a.1 != 0) = true := by decide
  intro key hkey a ha
  have hattrs := List.all_eq_true.mp hall key hkey
  exact bne_iff_ne.mp (List.all_eq_true.mp hattrs a ha)

theorem compileUnitDie_key (codeStart codeSize : UInt64) :
    (compileUnitDie codeStart codeSize).key ∈ patterns := List.mem_cons_self ..

theorem Function.die_key (f : Function) : f.die.key ∈ patterns := by
  obtain ⟨⟨_, _, linkageName, name, _, _, _⟩, _, _⟩ := f
  cases linkageName with
  | some linkageName =>
    have hlast : ∀ a b c d : PatternKey, d ∈ [a, b, c, d] := by simp
    cases name <;> exact hlast ..
  | none =>
    cases name with
    | some name => exact List.mem_cons_of_mem _ (List.mem_cons_of_mem _ (List.mem_cons_self ..))
    | none => exact List.mem_cons_of_mem _ (List.mem_cons_self ..)

theorem compileUnitDie_sound (codeStart codeSize : UInt64) :
    ∀ a ∈ (compileUnitDie codeStart codeSize).attrs, a.Sound := by
  simp [compileUnitDie, AttrFormValue.Sound]

theorem Function.die_sound {f : Function} (h : f.sub.Plain) : ∀ a ∈ f.die.attrs, a.Sound := by
  intro a ha
  rcases List.mem_append.mp ha with ha | ha
  · simp only [List.mem_cons, List.not_mem_nil, or_false] at ha
    rcases ha with rfl | rfl <;> exact .inl rfl
  · rw [nameAttrs] at ha
    cases hlinkage : f.sub.linkageName with
    | some linkageName =>
      have hlinkagePlain := h.linkageName linkageName hlinkage
      cases hname : f.sub.name with
      | some name =>
        simp only [hlinkage, hname, List.cons_append, List.nil_append, List.mem_cons,
          List.not_mem_nil, or_false] at ha
        rcases ha with rfl | rfl
        · exact ⟨rfl, hlinkagePlain⟩
        · exact ⟨rfl, h.name name hname⟩
      | none =>
        simp only [hlinkage, hname, List.cons_append, List.nil_append, List.mem_cons,
          List.not_mem_nil, or_false] at ha
        rcases ha with rfl | rfl
        · exact ⟨rfl, hlinkagePlain⟩
        · exact ⟨rfl, h.demangledName⟩
    | none =>
      cases hname : f.sub.name with
      | some name =>
        simp only [hlinkage, hname, List.nil_append, List.mem_cons, List.not_mem_nil,
          or_false] at ha
        rw [ha]
        exact ⟨rfl, h.name name hname⟩
      | none =>
        simp only [hlinkage, hname, List.nil_append, List.not_mem_nil] at ha

theorem infoPrefix_length (length : UInt64) : (infoPrefix length).length = 23 := rfl

/-- The length is filled in. -/
theorem overwrite_infoPrefix (length : UInt64) (s : Bytes) :
    overwrite (infoPrefix 0 ++ s) 4 (uint64ToBin length) = infoPrefix length ++ s := rfl

section Tables

variable {info : WasmInfo} {fnLocs : List JitFnLoc} {codeStart codeSize : UInt64}
  {codeSection : UInt16} {strings : Bytes}

/-- The entries of the unit. -/
def dies (info : WasmInfo) (fnLocs : List JitFnLoc) (codeStart codeSize : UInt64) :
    List DiePattern :=
  compileUnitDie codeStart codeSize :: (functions info fnLocs codeStart).map Function.die

/-- The tables in front of the loop. -/
def unitTables (strings : Bytes) (codeStart codeSize : UInt64) : Tables :=
  let t := ({ strings, infoData := infoPrefix 0 } : Tables).writeDie
    (compileUnitDie codeStart codeSize)
  { t with symbolData := ({} : Elf.Sym).bytes }

/-- The ends of the children and of the unit, and the length. -/
def closed (infoData : Bytes) : Bytes :=
  let infoData := infoData ++ varuint32ToBin 0 ++ varuint32ToBin 0
  overwrite infoData 4 (uint64ToBin (UInt64.ofNat (infoData.length - 12)))

theorem closed_eq (s : Bytes) :
    closed (infoPrefix 0 ++ s) = infoPrefix (UInt64.ofNat (s.length + 13)) ++
      (s ++ (varuint32ToBin 0 ++ varuint32ToBin 0)) := by
  have hlen : (infoPrefix 0 ++ (s ++ (varuint32ToBin 0 ++ varuint32ToBin 0))).length - 12 =
      s.length + 13 := by
    rw [List.length_append, List.length_append, infoPrefix_length]
    show 23 + (s.length + 2) - 12 = _
    omega
  rw [closed]
  simp only [List.append_assoc]
  rw [hlen, overwrite_infoPrefix]

/-- The tables in front of the loop hold the entry of the unit and the null symbol. -/
theorem unitTables_wrote (hnull : stringAt strings 0 = some []) (codeStart codeSize : UInt64) :
    ∃ keys, Wrote (infoPrefix 0) strings keys [compileUnitDie codeStart codeSize] [([], {})]
      (unitTables strings codeStart codeSize) := by
  have hempty : Wrote (infoPrefix 0) strings [] [] [] { strings, infoData := infoPrefix 0 } :=
    ⟨List.nodup_nil, rfl, rfl, nofun, nofun, rfl, rfl, nofun, List.prefix_rfl⟩
  obtain ⟨keys, h⟩ := hempty.writeDie (compileUnitDie codeStart codeSize)
  refine ⟨_, h.nodup, h.codes, h.declared, h.mem, h.only, h.info,
    (List.flatMap_singleton ..).symm, fun p hp => ?_, List.prefix_rfl⟩
  rw [List.mem_singleton.mp hp]
  exact hnull

theorem functions_plain (hplain : ∀ sub ∈ info.subprograms, sub.Plain) :
    ∀ f ∈ functions info fnLocs codeStart, f.sub.Plain := by
  intro f hf
  obtain ⟨sub, hsub, hof⟩ := List.mem_filterMap.mp hf
  have hsame : f.sub = sub := by
    rw [functionOf] at hof
    obtain ⟨fn, -, hof⟩ := Option.bind_eq_some_iff.mp hof
    obtain ⟨wasmFn, -, hof⟩ := Option.bind_eq_some_iff.mp hof
    obtain ⟨loc, -, hof⟩ := Option.bind_eq_some_iff.mp hof
    split at hof
    · cases hof
      rfl
    · cases hof
  rw [hsame]
  exact hplain sub hsub

variable (codeStart codeSize codeSection) in
/-- **What `write_subprograms` writes.** -/
theorem writeSubprograms_wrote (hfns : fnLocs.length = info.wasmFns.length)
    (hplain : ∀ sub ∈ info.subprograms, sub.Plain) (hnull : stringAt strings 0 = some []) :
    ∃ t, ({ strings } : Tables).writeSubprograms info fnLocs codeStart codeSize codeSection =
        .returns { t with infoData := closed t.infoData } ∧ strings <+: t.strings ∧
      (t.strings.length ≤ 2 ^ 32 → ∃ keys syms,
        syms.map unplaced =
          ([], {}) :: (functions info fnLocs codeStart).map (·.symbol codeSection) ∧
        Wrote (infoPrefix 0) strings keys (dies info fnLocs codeStart codeSize) syms t) := by
  have hrun : ({ strings } : Tables).writeSubprograms info fnLocs codeStart codeSize codeSection =
      (Tables.writeSubs info fnLocs codeStart codeSection (unitTables strings codeStart codeSize)
        info.subprograms >>= fun t => .returns { t with infoData := closed t.infoData }) := rfl
  rw [writeSubs_eq hfns] at hrun
  have hstrings : (unitTables strings codeStart codeSize).strings = strings :=
    writeDie_strings _ (compileUnitDie codeStart codeSize)
  refine ⟨_, hrun, ?_, fun hlen => ?_⟩
  · have hprefix := foldl_write_strings codeSection (unitTables strings codeStart codeSize)
      (functions info fnLocs codeStart)
    rwa [hstrings] at hprefix
  obtain ⟨keys, hunit⟩ := unitTables_wrote hnull codeStart codeSize
  obtain ⟨more, syms, hsyms, h⟩ := hunit.foldl_write (by rwa [hstrings]) codeSection
    (functions_plain hplain) hlen
  refine ⟨_, _, ?_, h⟩
  rw [List.map_append, hsyms]
  rfl

/-- The patterns of the entries. -/
theorem keys_of_dies {keys : List PatternKey} (hnodup : keys.Nodup)
    (honly : ∀ key ∈ keys, ∃ die ∈ dies info fnLocs codeStart codeSize, die.key = key) :
    keys.length ≤ 4 ∧ ∀ key ∈ keys, key.Ended := by
  have hsub : ∀ key ∈ keys, key ∈ patterns := by
    intro key hkey
    obtain ⟨die, hdie, rfl⟩ := honly key hkey
    rcases List.mem_cons.mp hdie with rfl | hdie
    · exact compileUnitDie_key ..
    · obtain ⟨f, -, rfl⟩ := List.mem_map.mp hdie
      exact f.die_key
  exact ⟨(hnodup.subperm hsub).length_le, fun key hkey => patterns_ended key (hsub key hkey)⟩

theorem dies_sound (hplain : ∀ sub ∈ info.subprograms, sub.Plain) :
    ∀ die ∈ dies info fnLocs codeStart codeSize, ∀ a ∈ die.attrs, a.Sound := by
  intro die hdie
  rcases List.mem_cons.mp hdie with rfl | hdie
  · exact compileUnitDie_sound codeStart codeSize
  · obtain ⟨f, hf, rfl⟩ := List.mem_map.mp hdie
    exact Function.die_sound (functions_plain hplain f hf)

/-- A debugger that takes the end of the abbreviations for the zero which is missing there
reads the entries and the symbols of the functions. -/
structure Tables.Describes (info : WasmInfo) (fnLocs : List JitFnLoc) (codeStart codeSize : UInt64)
    (codeSection : UInt16) (t : Tables) : Prop where
  entries : ∃ decls, parseDebugAbbrev {} (t.abbrevData ++ varuint32ToBin 0) =
      .returns { abbrevDecls := decls } ∧
    unit64FromBin decls t.infoData = .returns
      ((dies info fnLocs codeStart codeSize).map (fun die => some die.entry) ++ [none, none])
  symbols : ∃ syms, Elf.symbols t.strings ((functions info fnLocs codeStart).length + 1)
      t.symbolData = some syms ∧
    syms.map unplaced = ([], {}) :: (functions info fnLocs codeStart).map (·.symbol codeSection)

variable (codeStart codeSize codeSection) in
/-- **What a debugger reads** of it. -/
theorem writeSubprograms_read (hfns : fnLocs.length = info.wasmFns.length)
    (hplain : ∀ sub ∈ info.subprograms, sub.Plain) (hnull : stringAt strings 0 = some []) :
    ∃ t, ({ strings } : Tables).writeSubprograms info fnLocs codeStart codeSize codeSection =
        .returns t ∧ strings <+: t.strings ∧
      (t.strings.length ≤ 2 ^ 32 → t.infoData.length ≤ 2 ^ 64 →
        t.Describes info fnLocs codeStart codeSize codeSection ∧
          parseDebugAbbrev {} t.abbrevData = .fails (.reported overrun)) := by
  obtain ⟨t, hrun, hprefix, hwrote⟩ := writeSubprograms_wrote codeStart codeSize codeSection
    hfns hplain hnull
  refine ⟨_, hrun, hprefix, fun hstrings hinfo => ?_⟩
  obtain ⟨keys, syms, hsyms, h⟩ := hwrote hstrings
  obtain ⟨hfour, hended⟩ := keys_of_dies h.nodup h.only
  have hkeys : keys.length < 2 ^ 32 - 1 := Nat.lt_of_le_of_lt hfour (by decide)
  have hne : keys ≠ [] := List.ne_nil_of_mem (h.mem _ (List.mem_cons_self ..))
  have hclosed := closed_eq (diesToBin keys (dies info fnLocs codeStart codeSize))
  rw [← h.info] at hclosed
  refine ⟨⟨⟨declsOf keys, ?_, ?_⟩, syms, ?_, hsyms⟩, ?_⟩
  · show parseDebugAbbrev {} (t.abbrevData ++ _) = _
    rw [h.declared]
    exact parseDebugAbbrev_written hkeys hended
  · have hlen : (diesToBin keys (dies info fnLocs codeStart codeSize)).length + 13 < 2 ^ 64 := by
      have hall : (closed t.infoData).length ≤ 2 ^ 64 := hinfo
      rw [hclosed, List.length_append, infoPrefix_length, List.length_append] at hall
      omega
    show unit64FromBin (declsOf keys) (closed t.infoData) = _
    rw [hclosed]
    exact unit64FromBin_toBin hkeys h.mem (dies_sound hplain) (UInt64.toNat_ofNat_of_lt' hlen)
  · have hcount : (functions info fnLocs codeStart).length + 1 = syms.length := by
      have hlen := congrArg List.length hsyms
      rw [List.length_map, List.length_cons, List.length_map] at hlen
      exact hlen.symm
    show Elf.symbols t.strings _ t.symbolData = _
    rw [hcount, h.symbols]
    exact Elf.symbols_bytes h.named
  · show parseDebugAbbrev {} t.abbrevData = _
    rw [h.declared]
    exact parseDebugAbbrev_unended hkeys hne hended

end Tables

end Microchain.DebugEosVm
