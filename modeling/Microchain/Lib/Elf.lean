import Mathlib.Data.List.Basic
import Microchain.Lib.LineMachine

/-!
# Object files

The part of the 64-bit little-endian ELF format that a debugger needs of a file in memory:
the headers, the sections with their names, and the symbols with theirs. A header is a row of
little-endian fields.

- `Layout`: rows of fields and back.
- `sections`, `symbols`: what a reader finds in a file.
-/

namespace Microchain.Lib.Elf

open LineMachine (littleEndian)

/-! ## Fields -/

/-- The little-endian field of a number. -/
def field : ℕ → ℕ → List UInt8
  | 0, _ => []
  | n + 1, v => UInt8.ofNat v :: field n (v / 256)

@[simp] theorem field_length (n v : ℕ) : (field n v).length = n := by
  induction n generalizing v with
  | zero => rfl
  | succ n ih => rw [field, List.length_cons, ih]

theorem littleEndian_field {n v : ℕ} (h : v < 256 ^ n) : littleEndian (field n v) = v := by
  induction n generalizing v with
  | zero => exact (Nat.lt_one_iff.mp h).symm
  | succ n ih =>
    rw [field, littleEndian, ih (by rw [Nat.pow_succ] at h; omega), UInt8.toNat_ofNat']
    omega

/-- The sizes of the fields of a structure. -/
abbrev Layout := List ℕ

namespace Layout

/-- A structure in memory. -/
def encode : Layout → List ℕ → List UInt8
  | n :: layout, v :: values => field n v ++ encode layout values
  | _, _ => []

def decode : Layout → List UInt8 → List ℕ
  | [], _ => []
  | n :: layout, s => littleEndian (s.take n) :: decode layout (s.drop n)

/-- Every value has its field. -/
def Fits : Layout → List ℕ → Prop
  | [], [] => True
  | n :: layout, v :: values => v < 256 ^ n ∧ Fits layout values
  | _, _ => False

theorem encode_length {layout : Layout} {values : List ℕ} (h : layout.Fits values) :
    (layout.encode values).length = layout.sum := by
  induction layout generalizing values with
  | nil => rfl
  | cons n layout ih =>
    cases values with
    | nil => exact h.elim
    | cons v values =>
      rw [encode, List.length_append, field_length, ih h.2, List.sum_cons]

/-- **The round trip** of a structure. -/
theorem decode_encode {layout : Layout} {values : List ℕ} (h : layout.Fits values) :
    layout.decode (layout.encode values) = values := by
  induction layout generalizing values with
  | nil =>
    cases values with
    | nil => rfl
    | cons v values => exact h.elim
  | cons n layout ih =>
    cases values with
    | nil => exact h.elim
    | cons v values =>
      rw [encode, decode, List.take_left' (field_length n v), List.drop_left' (field_length n v),
        littleEndian_field h.1, ih h.2]

end Layout

/-! ## Parts of a file -/

/-- `n` bytes from a position on. -/
def slice (file : List UInt8) (pos n : ℕ) : Option (List UInt8) :=
  if pos + n ≤ file.length then some ((file.drop pos).take n) else none

theorem slice_append {front part behind : List UInt8} {pos n : ℕ} (hpos : pos = front.length)
    (hn : n = part.length) : slice (front ++ part ++ behind) pos n = some part := by
  subst hpos hn
  rw [slice, if_pos (by simp), List.append_assoc, List.drop_left, List.take_left]

/-- The string at a position, up to its terminating zero. -/
def stringAt (strings : List UInt8) (pos : ℕ) : Option (List UInt8) :=
  if 0 ∈ strings.drop pos then some ((strings.drop pos).takeWhile (· ≠ 0)) else none

theorem stringAt_append_string {strings str : List UInt8} (h : 0 ∉ str) :
    stringAt (strings ++ (str ++ [0])) strings.length = some str := by
  have hall : ∀ a ∈ str, decide (a ≠ 0) = true := fun a ha =>
    decide_eq_true fun hzero => h (hzero ▸ ha)
  rw [stringAt, List.drop_left, if_pos (List.mem_append_right str (List.mem_singleton_self 0)),
    List.takeWhile_append_of_pos hall]
  simp

/-- What comes behind a string does not matter. -/
theorem stringAt_append {strings more str : List UInt8} {pos : ℕ}
    (h : stringAt strings pos = some str) : stringAt (strings ++ more) pos = some str := by
  rw [stringAt] at h
  split at h
  · next hmem =>
    have hpos : pos ≤ strings.length := by
      by_contra hgt
      rw [List.drop_eq_nil_of_le (Nat.le_of_not_le hgt)] at hmem
      cases hmem
    rw [stringAt, List.drop_append_of_le_length hpos,
      if_pos (List.mem_append_left more hmem), ← h]
    obtain ⟨xs, ys, hsplit, hxs⟩ := List.eq_append_cons_of_mem hmem
    have hall : ∀ a ∈ xs, decide (a ≠ 0) = true := fun a ha =>
      decide_eq_true fun hzero => hxs (hzero ▸ ha)
    rw [hsplit, List.append_assoc, List.takeWhile_append_of_pos hall,
      List.takeWhile_append_of_pos hall]
    rfl
  · cases h

/-! ## Headers -/

/-- `Elf64_Ehdr`, behind the sixteen bytes of `e_ident`. -/
structure Ehdr where
  type : UInt16
  machine : UInt16
  version : UInt32
  entry : UInt64
  phoff : UInt64
  shoff : UInt64
  flags : UInt32
  ehsize : UInt16
  phentsize : UInt16
  phnum : UInt16
  shentsize : UInt16
  shnum : UInt16
  shstrndx : UInt16
deriving DecidableEq, Repr

/-- `Elf64_Phdr` -/
structure Phdr where
  type : UInt32
  flags : UInt32
  offset : UInt64
  vaddr : UInt64
  paddr : UInt64
  filesz : UInt64
  memsz : UInt64
  align : UInt64
deriving DecidableEq, Repr

/-- `Elf64_Shdr` -/
structure Shdr where
  name : UInt32 := 0
  type : UInt32 := 0
  flags : UInt64 := 0
  addr : UInt64 := 0
  offset : UInt64 := 0
  size : UInt64 := 0
  link : UInt32 := 0
  info : UInt32 := 0
  addralign : UInt64 := 0
  entsize : UInt64 := 0
deriving DecidableEq, Repr

/-- `Elf64_Sym` -/
structure Sym where
  name : UInt32 := 0
  info : UInt8 := 0
  other : UInt8 := 0
  shndx : UInt16 := 0
  value : UInt64 := 0
  size : UInt64 := 0
deriving DecidableEq, Repr

/-- The size of `e_ident`. -/
def identSize : ℕ := 16

def ehdrLayout : Layout := [2, 2, 4, 8, 8, 8, 4, 2, 2, 2, 2, 2, 2]

def phdrLayout : Layout := [4, 4, 8, 8, 8, 8, 8, 8]

def shdrLayout : Layout := [4, 4, 8, 8, 8, 8, 4, 4, 8, 8]

def symLayout : Layout := [4, 1, 1, 2, 8, 8]

def Ehdr.values (h : Ehdr) : List ℕ :=
  [h.type.toNat, h.machine.toNat, h.version.toNat, h.entry.toNat, h.phoff.toNat, h.shoff.toNat,
    h.flags.toNat, h.ehsize.toNat, h.phentsize.toNat, h.phnum.toNat, h.shentsize.toNat,
    h.shnum.toNat, h.shstrndx.toNat]

def Phdr.values (h : Phdr) : List ℕ :=
  [h.type.toNat, h.flags.toNat, h.offset.toNat, h.vaddr.toNat, h.paddr.toNat, h.filesz.toNat,
    h.memsz.toNat, h.align.toNat]

def Shdr.values (h : Shdr) : List ℕ :=
  [h.name.toNat, h.type.toNat, h.flags.toNat, h.addr.toNat, h.offset.toNat, h.size.toNat,
    h.link.toNat, h.info.toNat, h.addralign.toNat, h.entsize.toNat]

def Sym.values (s : Sym) : List ℕ :=
  [s.name.toNat, s.info.toNat, s.other.toNat, s.shndx.toNat, s.value.toNat, s.size.toNat]

theorem Ehdr.fits (h : Ehdr) : ehdrLayout.Fits h.values := by
  simp only [ehdrLayout, Ehdr.values, Layout.Fits, and_true]
  refine ⟨h.type.toNat_lt, h.machine.toNat_lt, h.version.toNat_lt, h.entry.toNat_lt,
    h.phoff.toNat_lt, h.shoff.toNat_lt, h.flags.toNat_lt, h.ehsize.toNat_lt, h.phentsize.toNat_lt,
    h.phnum.toNat_lt, h.shentsize.toNat_lt, h.shnum.toNat_lt, h.shstrndx.toNat_lt⟩

theorem Phdr.fits (h : Phdr) : phdrLayout.Fits h.values := by
  simp only [phdrLayout, Phdr.values, Layout.Fits, and_true]
  exact ⟨h.type.toNat_lt, h.flags.toNat_lt, h.offset.toNat_lt, h.vaddr.toNat_lt, h.paddr.toNat_lt,
    h.filesz.toNat_lt, h.memsz.toNat_lt, h.align.toNat_lt⟩

theorem Shdr.fits (h : Shdr) : shdrLayout.Fits h.values := by
  simp only [shdrLayout, Shdr.values, Layout.Fits, and_true]
  exact ⟨h.name.toNat_lt, h.type.toNat_lt, h.flags.toNat_lt, h.addr.toNat_lt, h.offset.toNat_lt,
    h.size.toNat_lt, h.link.toNat_lt, h.info.toNat_lt, h.addralign.toNat_lt, h.entsize.toNat_lt⟩

theorem Sym.fits (s : Sym) : symLayout.Fits s.values := by
  simp only [symLayout, Sym.values, Layout.Fits, and_true]
  exact ⟨s.name.toNat_lt, s.info.toNat_lt, s.other.toNat_lt, s.shndx.toNat_lt, s.value.toNat_lt,
    s.size.toNat_lt⟩

/-- The file header in memory. -/
def Ehdr.bytes (ident : List UInt8) (h : Ehdr) : List UInt8 := ident ++ ehdrLayout.encode h.values

def Phdr.bytes (h : Phdr) : List UInt8 := phdrLayout.encode h.values

def Shdr.bytes (h : Shdr) : List UInt8 := shdrLayout.encode h.values

def Sym.bytes (s : Sym) : List UInt8 := symLayout.encode s.values

theorem Ehdr.bytes_length {ident : List UInt8} (hident : ident.length = identSize) (h : Ehdr) :
    (h.bytes ident).length = 64 := by
  rw [Ehdr.bytes, List.length_append, hident, Layout.encode_length h.fits]
  rfl

theorem Phdr.bytes_length (h : Phdr) : h.bytes.length = 56 := Layout.encode_length h.fits

theorem Shdr.bytes_length (h : Shdr) : h.bytes.length = 64 := Layout.encode_length h.fits

theorem Sym.bytes_length (s : Sym) : s.bytes.length = 24 := Layout.encode_length s.fits

def Ehdr.ofValues : List ℕ → Option Ehdr
  | [type, machine, version, entry, phoff, shoff, flags, ehsize, phentsize, phnum, shentsize, shnum,
      shstrndx] =>
    some
      { type := .ofNat type, machine := .ofNat machine, version := .ofNat version
        entry := .ofNat entry, phoff := .ofNat phoff, shoff := .ofNat shoff, flags := .ofNat flags
        ehsize := .ofNat ehsize, phentsize := .ofNat phentsize, phnum := .ofNat phnum
        shentsize := .ofNat shentsize, shnum := .ofNat shnum, shstrndx := .ofNat shstrndx }
  | _ => none

def Shdr.ofValues : List ℕ → Option Shdr
  | [name, type, flags, addr, offset, size, link, info, addralign, entsize] =>
    some
      { name := .ofNat name, type := .ofNat type, flags := .ofNat flags, addr := .ofNat addr
        offset := .ofNat offset, size := .ofNat size, link := .ofNat link, info := .ofNat info
        addralign := .ofNat addralign, entsize := .ofNat entsize }
  | _ => none

def Sym.ofValues : List ℕ → Option Sym
  | [name, info, other, shndx, value, size] =>
    some
      { name := .ofNat name, info := .ofNat info, other := .ofNat other, shndx := .ofNat shndx
        value := .ofNat value, size := .ofNat size }
  | _ => none

theorem Ehdr.ofValues_values (h : Ehdr) : Ehdr.ofValues h.values = some h := by
  simp only [Ehdr.ofValues, Ehdr.values, UInt16.ofNat_toNat, UInt32.ofNat_toNat, UInt64.ofNat_toNat]

theorem Shdr.ofValues_values (h : Shdr) : Shdr.ofValues h.values = some h := by
  simp only [Shdr.ofValues, Shdr.values, UInt32.ofNat_toNat, UInt64.ofNat_toNat]

theorem Sym.ofValues_values (s : Sym) : Sym.ofValues s.values = some s := by
  simp only [Sym.ofValues, Sym.values, UInt8.ofNat_toNat, UInt16.ofNat_toNat, UInt32.ofNat_toNat,
    UInt64.ofNat_toNat]

/-! ## What a reader finds -/

/-- `SHT_NOBITS`: the section takes no place in the file. -/
def shtNobits : UInt32 := 8

def readEhdr (file : List UInt8) : Option Ehdr :=
  (slice file identSize ehdrLayout.sum).bind fun s => Ehdr.ofValues (ehdrLayout.decode s)

def readShdr (file : List UInt8) (pos : ℕ) : Option Shdr :=
  (slice file pos shdrLayout.sum).bind fun s => Shdr.ofValues (shdrLayout.decode s)

/-- `n` section headers, `size` bytes from each to the next. -/
def readShdrs (file : List UInt8) (size : ℕ) : ℕ → ℕ → Option (List Shdr)
  | 0, _ => some []
  | n + 1, pos => do
    let header ← readShdr file pos
    let rest ← readShdrs file size n (pos + size)
    some (header :: rest)

/-- The data of a section. -/
def contents (file : List UInt8) (h : Shdr) : Option (List UInt8) :=
  if h.type = shtNobits then some [] else slice file h.offset.toNat h.size.toNat

/-- A section as a reader finds it. -/
structure Section where
  name : List UInt8
  header : Shdr
  data : List UInt8
deriving DecidableEq, Repr

def readSection (file strings : List UInt8) (header : Shdr) : Option Section := do
  let name ← stringAt strings header.name.toNat
  let data ← contents file header
  some { name, header, data }

/-- The sections of a file. -/
def sections (file : List UInt8) : Option (List Section) := do
  let ehdr ← readEhdr file
  let headers ← readShdrs file ehdr.shentsize.toNat ehdr.shnum.toNat ehdr.shoff.toNat
  let strtab ← headers[ehdr.shstrndx.toNat]?
  let strings ← contents file strtab
  headers.mapM (readSection file strings)

/-- The symbols in the data of a section, with their names. -/
def symbols (strings : List UInt8) : ℕ → List UInt8 → Option (List (List UInt8 × Sym))
  | 0, _ => some []
  | n + 1, s => do
    let sym ← Sym.ofValues (symLayout.decode (s.take symLayout.sum))
    let name ← stringAt strings sym.name.toNat
    let rest ← symbols strings n (s.drop symLayout.sum)
    some ((name, sym) :: rest)

theorem readEhdr_bytes {ident behind : List UInt8} (hident : ident.length = identSize) (h : Ehdr) :
    readEhdr (h.bytes ident ++ behind) = some h := by
  rw [readEhdr, Ehdr.bytes, slice_append hident.symm (Layout.encode_length h.fits).symm,
    Option.bind_some, Layout.decode_encode h.fits, Ehdr.ofValues_values]

theorem readShdr_bytes {front behind : List UInt8} {pos : ℕ} (hpos : pos = front.length)
    (h : Shdr) : readShdr (front ++ h.bytes ++ behind) pos = some h := by
  rw [readShdr, Shdr.bytes, slice_append hpos (Layout.encode_length h.fits).symm, Option.bind_some,
    Layout.decode_encode h.fits, Shdr.ofValues_values]

/-- **Section headers** one behind another. -/
theorem readShdrs_bytes {front behind : List UInt8} {pos : ℕ} (hpos : pos = front.length)
    (headers : List Shdr) :
    readShdrs (front ++ headers.flatMap Shdr.bytes ++ behind) 64 headers.length pos =
      some headers := by
  induction headers generalizing front pos with
  | nil => rfl
  | cons header headers ih =>
    have hnext := @ih (front ++ header.bytes) (pos + 64)
      (by rw [List.length_append, header.bytes_length, hpos])
    rw [List.append_assoc front, ← List.flatMap_cons (f := Shdr.bytes)] at hnext
    rw [List.length_cons, readShdrs]
    have hfirst : readShdr (front ++ (header :: headers).flatMap Shdr.bytes ++ behind) pos =
        some header := by
      rw [List.flatMap_cons, ← List.append_assoc, List.append_assoc _ _ behind]
      exact readShdr_bytes hpos header
    rw [hfirst]
    show (readShdrs _ 64 headers.length (pos + 64)).bind _ = _
    rw [hnext]
    rfl

/-- **Symbols** one behind another. -/
theorem symbols_bytes {strings : List UInt8} {syms : List (List UInt8 × Sym)}
    (h : ∀ p ∈ syms, stringAt strings p.2.name.toNat = some p.1) :
    symbols strings syms.length (syms.flatMap fun p => p.2.bytes) = some syms := by
  induction syms with
  | nil => rfl
  | cons p syms ih =>
    obtain ⟨hp, hsyms⟩ := List.forall_mem_cons.mp h
    have hlen : p.2.bytes.length = symLayout.sum := p.2.bytes_length
    rw [List.length_cons, List.flatMap_cons, symbols, List.take_left' hlen, List.drop_left' hlen,
      Sym.bytes, Layout.decode_encode p.2.fits, Sym.ofValues_values]
    show (stringAt strings p.2.name.toNat).bind _ = _
    rw [hp]
    show (symbols strings syms.length _).bind _ = _
    rw [ih hsyms]
    rfl

end Microchain.Lib.Elf
