import Microchain.DebugEosVm.LineProgramRows
import Microchain.DebugEosVm.SubprogramNames

/-!
# The file that a debugger gets (`dwarf.cpp`)

`register_with_debugger` makes an ELF file in memory: headers, whose sizes and places are
filled in when the data of a section is put behind them. A debugger reads the headers, the
sections by their names, and in these the entries and the symbols (`symfile_read`). The
abbreviations lack the zero at their end, so that the parser of this library takes them in no
such file (`symfile_unended`).
-/

namespace Microchain.DebugEosVm

open Eosio Lib
open Elf (stringAt)

/-! ## Constants of `elf.h` -/

def shtProgbits : UInt32 := 1
def shtSymtab : UInt32 := 2
def shtStrtab : UInt32 := 3

/-- `SHF_ALLOC | SHF_EXECINSTR` -/
def shfCode : UInt64 := 0x6

/-- `e_ident` -/
def elfIdent : Bytes := [0x7f, 0x45, 0x4c, 0x46, 2, 1, 1, 3, 0, 0, 0, 0, 0, 0, 0, 0]

/-! ## `register_with_debugger` -/

def strtabSection : UInt16 := 1

def codeSection : UInt16 := 2

/-- `elf_header`, with the places that are filled in later. -/
def elfHeader (entry phoff shoff : UInt64) : Elf.Ehdr where
  type := 2
  machine := 62
  version := 1
  entry := entry
  phoff := phoff
  shoff := shoff
  flags := 0
  ehsize := 64
  phentsize := 56
  phnum := 1
  shentsize := 64
  shnum := 7
  shstrndx := strtabSection

/-- `program_header` -/
def programHeader (codeStart codeSize : UInt64) : Elf.Phdr where
  type := 1
  flags := 5
  offset := 0
  vaddr := codeStart
  paddr := 0
  filesz := 0
  memsz := codeSize
  align := 0

def shstrtabName : Bytes := sectionName ['.', 's', 'h', 's', 't', 'r', 't', 'a', 'b']

def textName : Bytes := sectionName ['.', 't', 'e', 'x', 't']

def symtabName : Bytes := sectionName ['.', 's', 'y', 'm', 't', 'a', 'b']

/-- `sec_header`: the header, its place, and the strings and the file with it. -/
def secHeader (name : Bytes) (type : UInt32) (flags : UInt64) (strings file : Bytes) :
    (Elf.Shdr × Nat) × Bytes × Bytes :=
  let (shName, strings) := addStr strings name
  let header : Elf.Shdr := { name := shName, type, flags }
  ((header, file.length), strings, file ++ header.bytes)

/-- `write_sec` -/
def writeSec (header : Elf.Shdr) (pos : Nat) (data file : Bytes) : Bytes :=
  let header := { header with
    offset := UInt64.ofNat file.length
    size := UInt64.ofNat data.length }
  overwrite (file ++ data) pos header.bytes

/-- An exception of the library. -/
def throws {α : Type} : Except String α → Run Fault α
  | .ok a => .returns a
  | .error text => .fails (.reported text)

/-- `register_with_debugger` up to `reg`: the file. -/
def symfile (info : WasmInfo) (fnLocs : List JitFnLoc) (instrLocs : List JitInstrLoc)
    (codeStart codeSize entry : UInt64) : Run Fault Bytes := do
  check (fnLocs.length = info.wasmFns.length) "number of functions doesn't match"
  let file := (elfHeader entry 0 0).bytes elfIdent
  let phoff := UInt64.ofNat file.length
  let file := file ++ (programHeader codeStart codeSize).bytes
  let shoff := UInt64.ofNat file.length
  let (_, strings, file) := secHeader [] 0 0 [0] file
  let ((str, strPos), strings, file) := secHeader shstrtabName shtStrtab 0 strings file
  let ((code, codePos), strings, file) := secHeader textName Elf.shtNobits shfCode strings file
  let ((line, linePos), strings, file) := secHeader debugLineName shtProgbits 0 strings file
  let ((abbr, abbrPos), strings, file) := secHeader debugAbbrevName shtProgbits 0 strings file
  let ((inf, infPos), strings, file) := secHeader debugInfoName shtProgbits 0 strings file
  let ((sym, symPos), strings, file) := secHeader symtabName shtSymtab 0 strings file
  let code := { code with addr := codeStart, size := codeSize }
  let file := overwrite file codePos code.bytes
  let sym := { sym with link := strtabSection.toUInt32, entsize := 24 }
  let t ← ({ strings } : Tables).writeSubprograms info fnLocs codeStart codeSize codeSection
  let lineData ← throws (generateDebugLine info.toInfo instrLocs codeStart)
  let file := writeSec line linePos lineData file
  let file := writeSec abbr abbrPos t.abbrevData file
  let file := writeSec inf infPos t.infoData file
  let file := writeSec sym symPos t.symbolData file
  let file := writeSec str strPos t.strings file
  .returns (overwrite file 0 ((elfHeader entry phoff shoff).bytes elfIdent))

/-! ## The file -/

/-- The strings of the headers. -/
def headerStrings : Bytes :=
  [0] ++ (shstrtabName ++ [0]) ++ (textName ++ [0]) ++ (debugLineName ++ [0]) ++
    (debugAbbrevName ++ [0]) ++ (debugInfoName ++ [0]) ++ (symtabName ++ [0])

theorem overwrite_middle {front part part' behind : Bytes} {pos : Nat} (hpos : pos = front.length)
    (hlen : part'.length = part.length) :
    overwrite (front ++ part ++ behind) pos part' = front ++ part' ++ behind := by
  subst hpos
  have htake : (front ++ part ++ behind).take front.length = front := by
    rw [List.append_assoc, List.take_left]
  have hdrop : (front ++ part ++ behind).drop (front.length + part'.length) = behind := by
    rw [hlen, ← List.length_append, List.drop_left]
  rw [overwrite, htake, hdrop]

theorem overwrite_front {part part' behind : Bytes} (hlen : part'.length = part.length) :
    overwrite (part ++ behind) 0 part' = part' ++ behind :=
  @overwrite_middle [] part part' behind 0 rfl hlen

theorem shdrs_length (headers : List Elf.Shdr) :
    (headers.flatMap Elf.Shdr.bytes).length = 64 * headers.length := by
  induction headers with
  | nil => rfl
  | cons header headers ih =>
    rw [List.flatMap_cons, List.length_append, header.bytes_length, ih, List.length_cons]
    omega

/-- **A header** is written over. -/
theorem overwrite_header {front behind : Bytes} {headers : List Elf.Shdr} {i pos : Nat}
    (hi : i < headers.length) (hpos : pos = front.length + 64 * i) (header : Elf.Shdr) :
    overwrite (front ++ headers.flatMap Elf.Shdr.bytes ++ behind) pos header.bytes =
      front ++ (headers.set i header).flatMap Elf.Shdr.bytes ++ behind := by
  have hsplit : headers = headers.take i ++ headers[i] :: headers.drop (i + 1) := by
    rw [← List.drop_eq_getElem_cons hi, List.take_append_drop]
  have hset : headers.set i header = headers.take i ++ header :: headers.drop (i + 1) :=
    List.set_eq_take_append_cons_drop ▸ if_pos hi
  rw [hset]
  conv_lhs => rw [hsplit]
  rw [List.flatMap_append, List.flatMap_cons, List.flatMap_append, List.flatMap_cons]
  have hmiddle := @overwrite_middle (front ++ (headers.take i).flatMap Elf.Shdr.bytes)
    headers[i].bytes header.bytes ((headers.drop (i + 1)).flatMap Elf.Shdr.bytes ++ behind) pos
    (by rw [List.length_append, shdrs_length, List.length_take, Nat.min_eq_left hi.le, hpos])
    (by rw [header.bytes_length, headers[i].bytes_length])
  simpa only [List.append_assoc] using hmiddle

/-- The headers as they are first. -/
def initialHeaders : List Elf.Shdr :=
  [{}, { name := 1, type := shtStrtab }, { name := 11, type := Elf.shtNobits, flags := shfCode },
    { name := 17, type := shtProgbits }, { name := 29, type := shtProgbits },
    { name := 43, type := shtProgbits }, { name := 55, type := shtSymtab }]

/-- The header of a section whose data is behind `pos` bytes. -/
def located (header : Elf.Shdr) (pos : Nat) (data : Bytes) : Elf.Shdr :=
  { header with offset := UInt64.ofNat pos, size := UInt64.ofNat data.length }

/-- The size of the headers. -/
def headersSize : Nat := 568

/-- **A section** is put behind the file. -/
theorem writeSec_eq {front behind : Bytes} {headers : List Elf.Shdr} {i pos : Nat}
    (hfront : front.length = 120) (hheaders : headers.length = 7) (hi : i < 7)
    (hpos : pos = 120 + 64 * i) (header : Elf.Shdr) (data : Bytes) :
    writeSec header pos data (front ++ headers.flatMap Elf.Shdr.bytes ++ behind) =
      front ++ (headers.set i (located header (headersSize + behind.length)
        data)).flatMap Elf.Shdr.bytes ++ (behind ++ data) := by
  have hlen : (front ++ headers.flatMap Elf.Shdr.bytes ++ behind).length =
      headersSize + behind.length := by
    rw [List.length_append, List.length_append, shdrs_length, hfront, hheaders]
    rfl
  rw [writeSec, hlen, List.append_assoc _ behind data,
    overwrite_header (hheaders ▸ hi) (hfront ▸ hpos)]
  rfl

/-- The header of the code. -/
def codeHeader (codeStart codeSize : UInt64) : Elf.Shdr :=
  { name := 11, type := Elf.shtNobits, flags := shfCode, addr := codeStart, size := codeSize }

/-- The headers as they are at the end. -/
def finalHeaders (codeStart codeSize : UInt64) (line : Bytes) (t : Tables) : List Elf.Shdr :=
  [{}, located { name := 1, type := shtStrtab }
      (headersSize + (line ++ t.abbrevData ++ t.infoData ++ t.symbolData).length) t.strings,
    codeHeader codeStart codeSize,
    located { name := 17, type := shtProgbits } headersSize line,
    located { name := 29, type := shtProgbits } (headersSize + line.length) t.abbrevData,
    located { name := 43, type := shtProgbits } (headersSize + (line ++ t.abbrevData).length)
      t.infoData,
    located { name := 55, type := shtSymtab, link := strtabSection.toUInt32, entsize := 24 }
      (headersSize + (line ++ t.abbrevData ++ t.infoData).length) t.symbolData]

/-- The file, once all places are filled in. -/
def image (codeStart codeSize entry : UInt64) (line : Bytes) (t : Tables) : Bytes :=
  (elfHeader entry 64 120).bytes elfIdent ++ (programHeader codeStart codeSize).bytes ++
    (finalHeaders codeStart codeSize line t).flatMap Elf.Shdr.bytes ++
      (line ++ t.abbrevData ++ t.infoData ++ t.symbolData ++ t.strings)

theorem secHeader_eq {name strings strings' : Bytes} {shName type : UInt32} {flags : UInt64}
    (h : addStr strings name = (shName, strings')) (file : Bytes) :
    secHeader name type flags strings file =
      (({ name := shName, type, flags }, file.length), strings',
        file ++ ({ name := shName, type, flags } : Elf.Shdr).bytes) := by
  rw [secHeader, h]

section Symfile

variable {info : WasmInfo} {fnLocs : List JitFnLoc} {instrLocs : List JitInstrLoc}
  {codeStart codeSize entry : UInt64} {t : Tables} {line : Bytes}

/-- **The file.** -/
theorem symfile_eq (hfns : fnLocs.length = info.wasmFns.length)
    (hwrite : ({ strings := headerStrings } : Tables).writeSubprograms info fnLocs codeStart
      codeSize codeSection = .returns t)
    (hline : generateDebugLine info.toInfo instrLocs codeStart = .ok line) :
    symfile info fnLocs instrLocs codeStart codeSize entry =
      .returns (image codeStart codeSize entry line t) := by
  have hident : elfIdent.length = Elf.identSize := rfl
  have hehdr : ∀ phoff shoff, ((elfHeader entry phoff shoff).bytes elfIdent).length = 64 :=
    fun phoff shoff => Elf.Ehdr.bytes_length hident _
  have hphdr := (programHeader codeStart codeSize).bytes_length
  have hstr : addStr ([0] : Bytes) shstrtabName = (1, [0] ++ (shstrtabName ++ [0])) := by decide
  have hcode : addStr ([0] ++ (shstrtabName ++ [0])) textName =
      (11, [0] ++ (shstrtabName ++ [0]) ++ (textName ++ [0])) := by decide
  have hlineName : addStr ([0] ++ (shstrtabName ++ [0]) ++ (textName ++ [0])) debugLineName =
      (17, [0] ++ (shstrtabName ++ [0]) ++ (textName ++ [0]) ++ (debugLineName ++ [0])) := by decide
  have habbr : addStr ([0] ++ (shstrtabName ++ [0]) ++ (textName ++ [0]) ++
      (debugLineName ++ [0])) debugAbbrevName = (29, [0] ++ (shstrtabName ++ [0]) ++
        (textName ++ [0]) ++ (debugLineName ++ [0]) ++ (debugAbbrevName ++ [0])) := by decide
  have hinf : addStr ([0] ++ (shstrtabName ++ [0]) ++ (textName ++ [0]) ++ (debugLineName ++ [0]) ++
      (debugAbbrevName ++ [0])) debugInfoName = (43, [0] ++ (shstrtabName ++ [0]) ++
        (textName ++ [0]) ++ (debugLineName ++ [0]) ++ (debugAbbrevName ++ [0]) ++
          (debugInfoName ++ [0])) := by decide
  have hsym : addStr ([0] ++ (shstrtabName ++ [0]) ++ (textName ++ [0]) ++ (debugLineName ++ [0]) ++
      (debugAbbrevName ++ [0]) ++ (debugInfoName ++ [0])) symtabName = (55, headerStrings) := by
    decide
  rw [symfile, check_true hfns, Run.returns_bind]
  dsimp only
  rw [secHeader_eq (rfl : addStr [0] [] = (0, [0]))]
  dsimp only
  rw [secHeader_eq hstr]
  dsimp only
  rw [secHeader_eq hcode]
  dsimp only
  rw [secHeader_eq hlineName]
  dsimp only
  rw [secHeader_eq habbr]
  dsimp only
  rw [secHeader_eq hinf]
  dsimp only
  rw [secHeader_eq hsym]
  dsimp only
  rw [hwrite, Run.returns_bind, hline, throws, Run.returns_bind]
  simp only [List.length_append, hehdr, hphdr, Elf.Shdr.bytes_length]
  -- the headers as a list, from which each of them is replaced
  have hfront : ((elfHeader entry 0 0).bytes elfIdent ++
      (programHeader codeStart codeSize).bytes).length = 120 := by
    rw [List.length_append, hehdr, hphdr]
  have hstart : (elfHeader entry 0 0).bytes elfIdent ++ (programHeader codeStart codeSize).bytes ++
      ({} : Elf.Shdr).bytes ++ ({ name := 1, type := shtStrtab } : Elf.Shdr).bytes ++
      ({ name := 11, type := Elf.shtNobits, flags := shfCode } : Elf.Shdr).bytes ++
      ({ name := 17, type := shtProgbits } : Elf.Shdr).bytes ++
      ({ name := 29, type := shtProgbits } : Elf.Shdr).bytes ++
      ({ name := 43, type := shtProgbits } : Elf.Shdr).bytes ++
      ({ name := 55, type := shtSymtab } : Elf.Shdr).bytes =
      (elfHeader entry 0 0).bytes elfIdent ++ (programHeader codeStart codeSize).bytes ++
        initialHeaders.flatMap Elf.Shdr.bytes ++ [] := by
    simp only [initialHeaders, List.flatMap_cons, List.flatMap_nil, List.append_assoc,
      List.append_nil]
  rw [hstart, overwrite_header (i := 2) (by decide) (by rw [hfront]),
    writeSec_eq (i := 3) hfront rfl (by decide) rfl,
    writeSec_eq (i := 4) hfront rfl (by decide) rfl,
    writeSec_eq (i := 5) hfront rfl (by decide) rfl,
    writeSec_eq (i := 6) hfront rfl (by decide) rfl,
    writeSec_eq (i := 1) hfront rfl (by decide) rfl, List.append_assoc, List.append_assoc,
    overwrite_front (by rw [hehdr, hehdr]), ← List.append_assoc, ← List.append_assoc]
  rfl

theorem image_front : ((elfHeader entry 64 120).bytes elfIdent ++
    (programHeader codeStart codeSize).bytes).length = 120 := by
  rw [List.length_append, Elf.Ehdr.bytes_length rfl, Elf.Phdr.bytes_length]

/-- The data of a section is where its header says. -/
theorem contents_image (header : Elf.Shdr) (before data behind : Bytes)
    (hlen : (image codeStart codeSize entry line t).length < 2 ^ 64)
    (htype : header.type ≠ Elf.shtNobits)
    (hsplit : line ++ t.abbrevData ++ t.infoData ++ t.symbolData ++ t.strings =
      before ++ data ++ behind) :
    Elf.contents (image codeStart codeSize entry line t)
      (located header (headersSize + before.length) data) = some data := by
  have hheaders : ((elfHeader entry 64 120).bytes elfIdent ++
      (programHeader codeStart codeSize).bytes ++
      (finalHeaders codeStart codeSize line t).flatMap Elf.Shdr.bytes).length = headersSize := by
    rw [List.length_append, image_front, shdrs_length,
      show (finalHeaders codeStart codeSize line t).length = 7 from rfl]
    decide
  rw [image, hsplit, ← List.append_assoc, ← List.append_assoc] at hlen ⊢
  have hpos : headersSize + before.length = ((elfHeader entry 64 120).bytes elfIdent ++
      (programHeader codeStart codeSize).bytes ++
      (finalHeaders codeStart codeSize line t).flatMap Elf.Shdr.bytes ++ before).length := by
    rw [@List.length_append _ _ before, hheaders]
  rw [List.length_append, List.length_append, ← hpos] at hlen
  rw [Elf.contents, if_neg (show (located header _ data).type ≠ _ from htype)]
  show Elf.slice _ (UInt64.ofNat (headersSize + before.length)).toNat
    (UInt64.ofNat data.length).toNat = _
  rw [UInt64.toNat_ofNat_of_lt' (show headersSize + before.length < 2 ^ 64 by omega),
    UInt64.toNat_ofNat_of_lt' (show data.length < 2 ^ 64 by omega)]
  exact Elf.slice_append hpos rfl

/-- What a debugger looks at of the sections: the name, the address and the data. -/
def sectionView (s : Elf.Section) : Bytes × UInt64 × Bytes := (s.name, s.header.addr, s.data)

theorem readSection_eq {file strings name data : Bytes} {header : Elf.Shdr}
    (hname : stringAt strings header.name.toNat = some name)
    (hdata : Elf.contents file header = some data) :
    Elf.readSection file strings header = some { name, header, data } := by
  rw [Elf.readSection, hname, hdata]
  rfl

theorem contents_null (file : Bytes) : Elf.contents file {} = some [] := by
  show Elf.slice file 0 0 = some []
  rw [Elf.slice, if_pos (Nat.zero_le _)]
  rfl

/-- **The sections** of the file. -/
theorem sections_image (hstrings : headerStrings <+: t.strings)
    (hlen : (image codeStart codeSize entry line t).length < 2 ^ 64) :
    (Elf.sections (image codeStart codeSize entry line t)).map (·.map sectionView) =
      some [([], 0, []), (shstrtabName, 0, t.strings), (textName, codeStart, []),
        (debugLineName, 0, line), (debugAbbrevName, 0, t.abbrevData),
        (debugInfoName, 0, t.infoData), (symtabName, 0, t.symbolData)] := by
  have hname : ∀ pos name, stringAt headerStrings pos = some name →
      stringAt t.strings pos = some name := fun pos name h => by
    obtain ⟨more, hmore⟩ := hstrings
    rw [← hmore]
    exact Elf.stringAt_append h
  have hehdr : Elf.readEhdr (image codeStart codeSize entry line t) =
      some (elfHeader entry 64 120) := by
    rw [image, List.append_assoc, List.append_assoc]
    exact Elf.readEhdr_bytes rfl _
  have hheaders : Elf.readShdrs (image codeStart codeSize entry line t)
      (elfHeader entry 64 120).shentsize.toNat (elfHeader entry 64 120).shnum.toNat
      (elfHeader entry 64 120).shoff.toNat = some (finalHeaders codeStart codeSize line t) :=
    Elf.readShdrs_bytes image_front.symm _
  have hstr := contents_image { name := 1, type := shtStrtab }
    (line ++ t.abbrevData ++ t.infoData ++ t.symbolData) t.strings [] hlen (by decide)
    (List.append_nil _).symm
  have hstrHeader :
      (finalHeaders codeStart codeSize line t)[(elfHeader entry 64 120).shstrndx.toNat]? =
        some (located { name := 1, type := shtStrtab } (headersSize +
          (line ++ t.abbrevData ++ t.infoData ++ t.symbolData).length) t.strings) := rfl
  have hsections : Elf.sections (image codeStart codeSize entry line t) =
      (finalHeaders codeStart codeSize line t).mapM
        (Elf.readSection (image codeStart codeSize entry line t) t.strings) := by
    rw [Elf.sections, hehdr]
    simp only [Option.bind_eq_bind, Option.bind_some]
    rw [hheaders, Option.bind_some, hstrHeader, Option.bind_some, hstr, Option.bind_some]
  have hnull : Elf.readSection (image codeStart codeSize entry line t) t.strings {} =
      some { name := [], header := {}, data := [] } :=
    readSection_eq (hname 0 [] (by decide)) (contents_null _)
  have hstrSection := readSection_eq (hname 1 shstrtabName (by decide)) hstr
  have hcode : Elf.readSection (image codeStart codeSize entry line t) t.strings
      (codeHeader codeStart codeSize) =
        some { name := textName, header := codeHeader codeStart codeSize, data := [] } :=
    readSection_eq (hname 11 textName (by decide)) rfl
  have hline := readSection_eq (hname 17 debugLineName (by decide))
    (contents_image { name := 17, type := shtProgbits } [] line
      (t.abbrevData ++ t.infoData ++ t.symbolData ++ t.strings) hlen (by decide)
      (by simp only [List.nil_append, List.append_assoc]))
  have habbrev := readSection_eq (hname 29 debugAbbrevName (by decide))
    (contents_image { name := 29, type := shtProgbits } line t.abbrevData
      (t.infoData ++ t.symbolData ++ t.strings) hlen (by decide) (by simp only [List.append_assoc]))
  have hinfo := readSection_eq (hname 43 debugInfoName (by decide))
    (contents_image { name := 43, type := shtProgbits } (line ++ t.abbrevData) t.infoData
      (t.symbolData ++ t.strings) hlen (by decide) (by simp only [List.append_assoc]))
  have hsymbols := readSection_eq (hname 55 symtabName (by decide))
    (contents_image { name := 55, type := shtSymtab, link := strtabSection.toUInt32, entsize := 24 }
      (line ++ t.abbrevData ++ t.infoData) t.symbolData t.strings hlen (by decide) rfl)
  rw [List.length_nil, Nat.add_zero] at hline
  rw [hsections, finalHeaders]
  simp only [List.mapM_cons, List.mapM_nil, hnull, hstrSection, hcode, hline, habbrev, hinfo,
    hsymbols]
  rfl

variable (instrLocs codeStart codeSize entry) in
/-- **The file that is made of the tables**, and its sections. -/
theorem symfile_tables (hfns : fnLocs.length = info.wasmFns.length)
    (hplain : ∀ sub ∈ info.subprograms, sub.Plain) :
    ∃ (file line : Bytes) (t : Tables),
      symfile info fnLocs instrLocs codeStart codeSize entry = .returns file ∧
      generateDebugLine info.toInfo instrLocs codeStart = .ok line ∧
      (file.length ≤ 2 ^ 32 →
        (Elf.sections file).map (·.map sectionView) =
          some [([], 0, []), (shstrtabName, 0, t.strings), (textName, codeStart, []),
            (debugLineName, 0, line), (debugAbbrevName, 0, t.abbrevData),
            (debugInfoName, 0, t.infoData), (symtabName, 0, t.symbolData)] ∧
        t.Describes info fnLocs codeStart codeSize codeSection ∧
        parseDebugAbbrev {} t.abbrevData = .fails (.reported overrun)) := by
  obtain ⟨header, hheader, -⟩ := lineHeaderToBin_emitted info.toInfo
  have hline := generateDebugLine_ok hheader instrLocs codeStart
  obtain ⟨t, hwrite, hprefix, hread⟩ := writeSubprograms_read codeStart codeSize codeSection hfns
    hplain (by decide : stringAt headerStrings 0 = some [])
  refine ⟨_, _, t, symfile_eq hfns hwrite hline, hline, fun hlen => ?_⟩
  refine ⟨sections_image hprefix (Nat.lt_of_le_of_lt hlen (by decide)), ?_⟩
  simp only [image, List.length_append] at hlen
  exact hread (by omega) (by omega)

end Symfile

section Wasm

variable {T : Toolchain} {depth : Nat} {wasm : Bytes} {info : WasmInfo} {fnLocs : List JitFnLoc}

/-- **What a debugger reads of the file** that is registered for a wasm file: it is made
whenever there is a place for each function. As long as the offsets fit in 32 bits, its
sections have these names, the code is at its address, the line table is the one that
`generate_debug_line` makes, and the rest describes the functions. -/
theorem symfile_read (hdemangle : PlainDemangle T.cxaDemangle)
    (hinfo : getInfoFromWasm T depth wasm = .returns info)
    (hfns : fnLocs.length = info.wasmFns.length) (instrLocs : List JitInstrLoc)
    (codeStart codeSize entry : UInt64) :
    ∃ file line, symfile info fnLocs instrLocs codeStart codeSize entry = .returns file ∧
      generateDebugLine info.toInfo instrLocs codeStart = .ok line ∧
      (file.length ≤ 2 ^ 32 → ∃ t : Tables,
        (Elf.sections file).map (·.map sectionView) =
          some [([], 0, []), (shstrtabName, 0, t.strings), (textName, codeStart, []),
            (debugLineName, 0, line), (debugAbbrevName, 0, t.abbrevData),
            (debugInfoName, 0, t.infoData), (symtabName, 0, t.symbolData)] ∧
        t.Describes info fnLocs codeStart codeSize codeSection) := by
  have hplain := getInfoFromWasm_plain hdemangle depth wasm info hinfo
  obtain ⟨file, line, t, hfile, hline, hread⟩ := symfile_tables instrLocs codeStart codeSize entry
    hfns hplain
  refine ⟨file, line, hfile, hline, fun hlen => ?_⟩
  obtain ⟨hsections, hdescribes, -⟩ := hread hlen
  exact ⟨t, hsections, hdescribes⟩

/-- A wasm file with a function of 20 bytes and the subprogram `f` in it. -/
def functionFile : Bytes :=
  [0, 97, 115, 109, 1, 0, 0, 0,
   10, 22, 1, 20, 0, 0, 0, 0, 0, 0, 0, 0, 0, 0, 0, 0, 0, 0, 0, 0, 0, 0, 0, 0,
   0, 31, 13, 46, 100, 101, 98, 117, 103, 95, 97, 98, 98, 114, 101, 118,
   1, 17, 1, 0, 0, 2, 46, 0, 17, 1, 18, 11, 3, 8, 0, 0, 0,
   0, 33, 11, 46, 100, 101, 98, 117, 103, 95, 105, 110, 102, 111,
   17, 0, 0, 0, 4, 0, 0, 0, 0, 0, 4,
   1, 2, 2, 0, 0, 0, 20, 102, 0, 0]

/-- What is read from it. -/
def functionInfo : WasmInfo where
  wasmCodeOffset := 10
  abbrevDecls :=
    [{ code := 1, tag := dwTagCompileUnit, hasChildren := true },
     { code := 2, tag := dwTagSubprogram, hasChildren := false
       attrs := [⟨dwAtLowPc, dwFormAddr⟩, ⟨dwAtHighPc, dwFormData1⟩, ⟨dwAtName, dwFormString⟩] }]
  subprograms :=
    [{ beginAddress := 2, endAddress := 22, name := some [102], demangledName := [102] }]
  wasmFns := [{ sizePos := 11, localsPos := 12, endPos := 32 }]

/-- Its machine code. -/
def functionLoc : JitFnLoc :=
  { codePrologue := 1, codeBody := 2, codeEpilogue := 3, codeEnd := 4, wasmBegin := 5
    wasmEnd := 6 }

-- the machine code of `f`, between the prologue and the end
example : functions functionInfo [functionLoc] 0x1000 =
    [{ sub := { beginAddress := 2, endAddress := 22, name := some [102], demangledName := [102] }
       low := 0x1001, high := 0x1004 }] := by decide +kernel

theorem plainToolchain_plain : PlainDemangle plainToolchain.cxaDemangle := nofun

/-- The file is short. -/
theorem symfile_function_length {file : Bytes}
    (h : symfile functionInfo [functionLoc] [] 0x1000 64 0x1000 = .returns file) :
    file.length ≤ 2 ^ 32 := by
  have hlen : (symfile functionInfo [functionLoc] [] 0x1000 64 0x1000 >>= fun file =>
      .returns file.length) = .returns 827 := by decide +kernel
  rw [h] at hlen
  rw [Run.returns.inj hlen]
  decide

/-- The file for it describes this function. -/
theorem symfile_read_function :
    ∃ (file : Bytes) (t : Tables),
      symfile functionInfo [functionLoc] [] 0x1000 64 0x1000 = .returns file ∧
      (Elf.sections file).map (fun sections => sections.map (·.name)) =
        some [[], shstrtabName, textName, debugLineName, debugAbbrevName, debugInfoName,
          symtabName] ∧
      t.Describes functionInfo [functionLoc] 0x1000 64 codeSection := by
  obtain ⟨file, line, hfile, -, hread⟩ := symfile_read plainToolchain_plain
    (by decide +kernel : getInfoFromWasm plainToolchain 0 functionFile = .returns functionInfo)
    (rfl : [functionLoc].length = functionInfo.wasmFns.length) [] 0x1000 64 0x1000
  obtain ⟨t, hsections, hdescribes⟩ := hread (symfile_function_length hfile)
  refine ⟨file, t, hfile, ?_, hdescribes⟩
  obtain ⟨sections, hsections, hviews⟩ := Option.map_eq_some_iff.mp hsections
  have hnames := congrArg (List.map Prod.fst) hviews
  rw [List.map_map] at hnames
  rw [hsections]
  exact congrArg some hnames

/-- **No such file has abbreviations that this library takes.** -/
theorem symfile_unended (hdemangle : PlainDemangle T.cxaDemangle)
    (hinfo : getInfoFromWasm T depth wasm = .returns info) (instrLocs : List JitInstrLoc)
    (codeStart codeSize entry : UInt64) {file : Bytes}
    (hfile : symfile info fnLocs instrLocs codeStart codeSize entry = .returns file)
    (hlen : file.length ≤ 2 ^ 32) :
    ∃ sections, Elf.sections file = some sections ∧
      (∃ s ∈ sections, s.name = debugAbbrevName) ∧
      ∀ s ∈ sections, s.name = debugAbbrevName →
        parseDebugAbbrev {} s.data = .fails (.reported overrun) := by
  have hfns : fnLocs.length = info.wasmFns.length := by
    by_contra hne
    rw [symfile, check, if_neg hne] at hfile
    cases hfile
  have hplain := getInfoFromWasm_plain hdemangle depth wasm info hinfo
  obtain ⟨file', line, t, hfile', -, hread⟩ := symfile_tables instrLocs codeStart codeSize entry
    hfns hplain
  obtain rfl : file = file' := Run.returns.inj (hfile.symm.trans hfile')
  obtain ⟨hviews, -, hunended⟩ := hread hlen
  obtain ⟨sections, hsections, hviews⟩ := Option.map_eq_some_iff.mp hviews
  refine ⟨sections, hsections, ?_, fun s hs hname => ?_⟩
  · have habbrev : (debugAbbrevName, 0, t.abbrevData) ∈ sections.map sectionView := by
      rw [hviews]
      simp
    obtain ⟨s, hs, hview⟩ := List.mem_map.mp habbrev
    exact ⟨s, hs, congrArg Prod.fst hview⟩
  · -- no other section has this name
    have hview : sectionView s ∈ sections.map sectionView := List.mem_map_of_mem hs
    rw [hviews] at hview
    simp only [List.mem_cons, List.not_mem_nil, or_false, sectionView, Prod.mk.injEq,
      hname] at hview
    have hdata : s.data = t.abbrevData := by
      rcases hview with h | h | h | h | h | h | h
      · exact absurd h.1 (by decide)
      · exact absurd h.1 (by decide)
      · exact absurd h.1 (by decide)
      · exact absurd h.1 (by decide)
      · exact h.2.2
      · exact absurd h.1 (by decide)
      · exact absurd h.1 (by decide)
    rw [hdata]
    exact hunended

/-- So it is for the file above. -/
theorem symfile_unended_function :
    ∃ (file : Bytes) (sections : List Elf.Section),
      symfile functionInfo [functionLoc] [] 0x1000 64 0x1000 = .returns file ∧
      Elf.sections file = some sections ∧
      ∃ s ∈ sections, s.name = debugAbbrevName ∧
        parseDebugAbbrev {} s.data = .fails (.reported overrun) := by
  obtain ⟨file, -, -, hfile, -⟩ := symfile_tables [] 0x1000 64 0x1000
    (rfl : [functionLoc].length = functionInfo.wasmFns.length)
    (getInfoFromWasm_plain plainToolchain_plain 0 functionFile functionInfo (by decide +kernel))
  obtain ⟨sections, hsections, ⟨s, hs, hname⟩, hall⟩ := symfile_unended plainToolchain_plain
    (by decide +kernel : getInfoFromWasm plainToolchain 0 functionFile = .returns functionInfo)
    [] 0x1000 64 0x1000 hfile (symfile_function_length hfile)
  exact ⟨file, sections, hfile, hsections, s, hs, hname, hall s hs hname⟩

end Wasm

end Microchain.DebugEosVm
