import Microchain.DebugEosVm.DebugLine
import Microchain.Lib.LowerBound
import Microchain.Lib.Sort

/-!
# Reading `.debug_abbrev` and `.debug_info` (`dwarf.cpp`)

An abbreviation says what the attributes of an entry are and whether it has children.
The entries of a unit are a forest in preorder, each with the code of its abbreviation
in front and each list of children ended by the code 0. `parse_die_children` collects
the subprograms, and `fill_parents` makes a forest of them by their address ranges.

`DW_AT_specification` takes the attributes of another entry of the unit, by its offset.
Nothing bounds how often an entry refers on, so the recursion there has its own fuel,
`depth`; everything else takes a byte for every entry it reads.
-/

namespace Microchain.DebugEosVm

open Eosio Lib

/-! ## Constants -/

/-- `compile_unit_version` -/
def compileUnitVersion : UInt16 := 4

/-! The attributes the parser knows, `dw_at_*`. -/

def dwAtName : UInt32 := 0x03
def dwAtLowPc : UInt32 := 0x11
def dwAtHighPc : UInt32 := 0x12
def dwAtSpecification : UInt32 := 0x47
def dwAtLinkageName : UInt32 := 0x6e

/-! The forms of a value, `dw_form_*`. -/

def dwFormAddr : UInt32 := 0x01
def dwFormBlock2 : UInt32 := 0x03
def dwFormBlock4 : UInt32 := 0x04
def dwFormData2 : UInt32 := 0x05
def dwFormData4 : UInt32 := 0x06
def dwFormData8 : UInt32 := 0x07
def dwFormString : UInt32 := 0x08
def dwFormBlock : UInt32 := 0x09
def dwFormBlock1 : UInt32 := 0x0a
def dwFormData1 : UInt32 := 0x0b
def dwFormFlag : UInt32 := 0x0c
def dwFormSdata : UInt32 := 0x0d
def dwFormStrp : UInt32 := 0x0e
def dwFormUdata : UInt32 := 0x0f
def dwFormRefAddr : UInt32 := 0x10
def dwFormRef1 : UInt32 := 0x11
def dwFormRef2 : UInt32 := 0x12
def dwFormRef4 : UInt32 := 0x13
def dwFormRef8 : UInt32 := 0x14
def dwFormRefUdata : UInt32 := 0x15
def dwFormIndirect : UInt32 := 0x16
def dwFormSecOffset : UInt32 := 0x17
def dwFormExprloc : UInt32 := 0x18
def dwFormFlagPresent : UInt32 := 0x19
def dwFormRefSig8 : UInt32 := 0x20

/-! The tags the parser looks at, `dw_tag_*`. -/

def dwTagCompileUnit : UInt32 := 0x11
def dwTagSubprogram : UInt32 := 0x2e

/-! ## Abbreviations -/

/-- A turn of the loop over the attributes of an abbreviation. -/
def abbrevAttrsTurn :
    List AbbrevAttr × Bytes → Run Fault (Turn (List AbbrevAttr × Bytes) (List AbbrevAttr × Bytes))
  | (attrs, s) => do
    let (name, s) ← reads varuint32FromBin s
    let (form, s) ← reads varuint32FromBin s
    if name = 0 then do
      check (form = 0) "incorrectly terminated abbreviation"
      .returns (.done (attrs, s))
    else .returns (.again (attrs ++ [{ name, form }], s))

/-- A turn of the loop over the declarations of a table. -/
def abbrevTableTurn (tableOffset : UInt32) :
    List AbbrevDecl × Bytes → Run Fault (Turn (List AbbrevDecl × Bytes) (List AbbrevDecl × Bytes))
  | (decls, s) => do
    let (code, s) ← reads varuint32FromBin s
    if code = 0 then .returns (.done (decls, s))
    else do
      let (tag, s) ← reads varuint32FromBin s
      let (hasChildren, s) ← reads uint8FromBin s
      let (attrs, s) ← loop abbrevAttrsTurn (s.length + 1) ([], s)
      let decl := { tableOffset, code, tag, hasChildren := hasChildren ≠ 0, attrs }
      .returns (.again (decls ++ [decl], s))

/-- A turn of the loop over the tables of a section of `size` bytes. -/
def abbrevSectionTurn (size : Nat) :
    List AbbrevDecl × Bytes → Run Fault (Turn (List AbbrevDecl × Bytes) (List AbbrevDecl))
  | (decls, []) => .returns (.done decls)
  | (decls, b :: s) => do
    let tableOffset := UInt32.ofNat (size - (b :: s).length)
    let next ← loop (abbrevTableTurn tableOffset) (s.length + 2) (decls, b :: s)
    .returns (.again next)

/-- `parse_debug_abbrev` -/
def parseDebugAbbrev (result : WasmInfo) (s : Bytes) : Run Fault WasmInfo := do
  let abbrevDecls ← loop (abbrevSectionTurn s.length) (s.length + 1) (result.abbrevDecls, s)
  .returns { result with abbrevDecls }

/-- `info::get_abbrev_decl` -/
def getAbbrevDecl (abbrevDecls : List AbbrevDecl) (tableOffset code : UInt32) : Option AbbrevDecl :=
  let key := (tableOffset, code)
  let it := lowerBound (fun a => pairLess a.key key) abbrevDecls
  (abbrevDecls[it]?).filter (·.key = key)

/-! ## Attribute values -/

/-- `attr_value` -/
inductive AttrValue where
  | address (value : UInt32)
  | block (data : Bytes)
  | data (value : UInt64)
  | exprloc (data : Bytes)
  | flag (value : Bool)
  | secOffset (value : UInt32)
  | ref (value : UInt64)
  | refAddr (value : UInt32)
  | refSig8 (value : UInt64)
  | string (value : Bytes)
deriving DecidableEq, Repr

namespace AttrValue

/-- `get_address` -/
def getAddress : AttrValue → Option UInt32
  | address value => some value
  | _ => none

/-- `get_data` -/
def getData : AttrValue → Option UInt64
  | data value => some value
  | _ => none

/-- `get_ref` -/
def getRef : AttrValue → Option UInt64
  | ref value => some value
  | _ => none

/-- `get_string(const attr_value&)` -/
def getString : AttrValue → Option Bytes
  | string value => some value
  | _ => none

end AttrValue

/-- The characters of a `const char*` up to its terminating zero. -/
def cString : Bytes → Run Fault Bytes
  | [] => .fails .outOfBounds
  | ch :: s =>
    if ch = 0 then .returns []
    else do
      let str ← cString s
      .returns (ch :: str)

/-- `info::get_str`, as the `std::string_view` that is made of it. -/
def getStr (strings : Bytes) (offset : UInt32) : Run Fault Bytes := do
  check (offset.toNat < strings.length) "string out of range in .debug_str"
  cString (strings.drop offset.toNat)

/-- A value that a decoder reads. -/
def valueFromBin {α : Type} (value : α → AttrValue) (fromBin : FromBin α) : Parser AttrValue :=
  fun s => do
    let (a, s) ← reads fromBin s
    .returns (value a, s)

/-- `vardata`, behind a size that a decoder reads. -/
def varData {α : Type} (value : Bytes → AttrValue) (toNat : α → Nat) (sizeFromBin : FromBin α) :
    Parser AttrValue := fun s => do
  let (size, s) ← reads sizeFromBin s
  check (toNat size ≤ s.length) "variable-length overrun in dwarf entry"
  let (data, s) ← reads (readBytes (toNat size)) s
  .returns (value data, s)

/-- `parse_attr_value` for a form that is not indirect. -/
def formValueFromBin (strings : Bytes) (form : UInt32) : Parser AttrValue := fun s =>
  if form = dwFormAddr then valueFromBin .address uint32FromBin s
  else if form = dwFormBlock then varData .block UInt32.toNat varuint32FromBin s
  else if form = dwFormBlock1 then varData .block UInt8.toNat uint8FromBin s
  else if form = dwFormBlock2 then varData .block UInt16.toNat uint16FromBin s
  else if form = dwFormBlock4 then varData .block UInt32.toNat uint32FromBin s
  else if form = dwFormSdata then valueFromBin .data sleb64FromBin s
  else if form = dwFormUdata then valueFromBin .data varuint64FromBin s
  else if form = dwFormData1 then valueFromBin (fun n => .data n.toUInt64) uint8FromBin s
  else if form = dwFormData2 then valueFromBin (fun n => .data n.toUInt64) uint16FromBin s
  else if form = dwFormData4 then valueFromBin (fun n => .data n.toUInt64) uint32FromBin s
  else if form = dwFormData8 then valueFromBin .data uint64FromBin s
  else if form = dwFormExprloc then varData .exprloc UInt32.toNat varuint32FromBin s
  -- present by its form, without a byte of its own
  else if form = dwFormFlagPresent then .returns (.flag true, s)
  else if form = dwFormFlag then valueFromBin (fun n => .flag (n ≠ 0)) uint8FromBin s
  else if form = dwFormSecOffset then valueFromBin .secOffset uint32FromBin s
  else if form = dwFormRefUdata then valueFromBin .ref varuint64FromBin s
  else if form = dwFormRef1 then valueFromBin (fun n => .ref n.toUInt64) uint8FromBin s
  else if form = dwFormRef2 then valueFromBin (fun n => .ref n.toUInt64) uint16FromBin s
  else if form = dwFormRef4 then valueFromBin (fun n => .ref n.toUInt64) uint32FromBin s
  else if form = dwFormRef8 then valueFromBin .ref uint64FromBin s
  else if form = dwFormRefAddr then valueFromBin .refAddr uint32FromBin s
  else if form = dwFormRefSig8 then valueFromBin .refSig8 uint64FromBin s
  else if form = dwFormString then do
    let (str, s) ← getString s
    .returns (.string str, s)
  else if form = dwFormStrp then do
    let (offset, s) ← reads uint32FromBin s
    let str ← getStr strings offset
    .returns (.string str, s)
  else .fails (.reported "unknown form in dwarf entry")

/-- One call of `parse_attr_value`, which calls itself for an indirect form. -/
def attrValueTurn (strings : Bytes) :
    UInt32 × Bytes → Run Fault (Turn (UInt32 × Bytes) (AttrValue × Bytes))
  | (form, s) =>
    if form = dwFormIndirect then do
      let next ← reads varuint32FromBin s
      .returns (.again next)
    else do
      let r ← formValueFromBin strings form s
      .returns (.done r)

/-- `parse_attr_value` -/
def parseAttrValue (strings : Bytes) (form : UInt32) : Parser AttrValue := fun s =>
  loop (attrValueTurn strings) (s.length + 1) (form, s)

/-! ## Entries -/

/-- What the functions on the entries of a unit are given. -/
structure DieContext where
  strings : Bytes
  abbrevDecls : List AbbrevDecl
  debugAbbrevOffset : UInt32
  /-- from the beginning of the unit to the end of the section -/
  unitS : Bytes
deriving Repr

/-- `*p`: a null pointer points outside of every object. -/
def deref {α : Type} : Option α → Run Fault α
  | some a => .returns a
  | none => .fails .outOfBounds

/-- An attribute with its value. -/
abbrev Given := AbbrevAttr × AttrValue

namespace DieContext

/-- `get_die_abbrev`: a null pointer for the code 0. -/
def getDieAbbrev (D : DieContext) : Parser (Option AbbrevDecl) := fun s => do
  let (code, s) ← reads varuint32FromBin s
  if code = 0 then .returns (none, s)
  else
    match getAbbrevDecl D.abbrevDecls D.debugAbbrevOffset code with
    | some decl => .returns (some decl, s)
    | none => .fails (.reported "Bad abbrev in .debug_info")

/-- The loop of `parse_die_attrs`: what `f` is called with, in order. `follow` is what the
call for the entry that `DW_AT_specification` refers to does. -/
def dieAttrs (D : DieContext) (follow : UInt64 → Run Fault (List Given)) :
    List AbbrevAttr → Parser (List Given)
  | [], s => .returns ([], s)
  | attr :: attrs, s => do
    let (value, s) ← parseAttrValue D.strings attr.form s
    let given ←
      if attr.name = dwAtSpecification then
        match value.getRef with
        | some ref => follow ref
        | none => .returns []
      else .returns [(attr, value)]
    let (rest, s) ← D.dieAttrs follow attrs s
    .returns (given ++ rest, s)

/-- The attributes of the entry at `ref`, for at most `depth` references on. -/
def followSpecification (D : DieContext) : Nat → UInt64 → Run Fault (List Given)
  | 0, _ => .running
  | depth + 1, ref => do
    check (ref.toNat < D.unitS.length) "DW_AT_specification out of range"
    let (refAbbrev, refS) ← D.getDieAbbrev (D.unitS.drop ref.toNat)
    let refAbbrev ← deref refAbbrev
    let (given, _) ← D.dieAttrs (D.followSpecification depth) refAbbrev.attrs refS
    .returns given

/-- `parse_die_attrs` -/
def parseDieAttrs (D : DieContext) (depth : Nat) (decl : AbbrevDecl) : Parser (List Given) :=
  D.dieAttrs (D.followSpecification depth) decl.attrs

end DieContext

/-- `common_attrs` -/
structure CommonAttrs where
  lowPc : Option UInt32 := none
  highPc : Option UInt32 := none
  linkageName : Option Bytes := none
  name : Option Bytes := none
deriving DecidableEq, Repr

namespace CommonAttrs

/-- `demangle`, where `__cxa_demangle` may find that it is no mangled name. -/
def demangle (cxaDemangle : Bytes → Option Bytes) (name : Bytes) : Bytes :=
  (cxaDemangle name).getD name

/-- `get_demangled_name` -/
def getDemangledName (cxaDemangle : Bytes → Option Bytes) (common : CommonAttrs) : Bytes :=
  match common.linkageName, common.name with
  | some linkageName, _ => demangle cxaDemangle linkageName
  | none, some name => name
  | none, none => []

/-- `high_pc`: an address, or a size to be added to `low_pc`. -/
def highPcOf (lowPc : Option UInt32) (value : AttrValue) : Option UInt32 :=
  match value.getAddress, lowPc, value.getData with
  | none, some lowPc, some size => some (lowPc.toUInt64 + size).toUInt32
  | address, _, _ => address

/-- `common_attrs::operator()` -/
def apply (common : CommonAttrs) : Given → CommonAttrs
  | (attr, value) =>
    if attr.name = dwAtLowPc then { common with lowPc := value.getAddress }
    else if attr.name = dwAtHighPc then { common with highPc := highPcOf common.lowPc value }
    else if attr.name = dwAtLinkageName then { common with linkageName := value.getString }
    else if attr.name = dwAtName then { common with name := value.getString }
    else common

/-- The subprogram of an entry: one with a name and a range that the linker has kept. -/
def subprogram (cxaDemangle : Bytes → Option Bytes) (common : CommonAttrs) : Option Subprogram :=
  let demangledName := common.getDemangledName cxaDemangle
  match common.lowPc, common.highPc with
  | some beginAddress, some endAddress =>
    if demangledName ≠ [] ∧ beginAddress ≠ 0 ∧ beginAddress < 0xffffffff then
      some { beginAddress, endAddress, linkageName := common.linkageName, name := common.name
             demangledName }
    else none
  | _, _ => none

end CommonAttrs

/-- What `parse_die_children` does about a child before it goes on to the child's own
children: whether these are parsed or skipped, and the subprograms. Below a skipped
entry everything is skipped. -/
def visitChild (cxaDemangle : Bytes → Option Bytes) (collect : Bool) (child : AbbrevDecl)
    (given : List Given) (subprograms : List Subprogram) : Bool × List Subprogram :=
  if collect ∧ child.tag = dwTagSubprogram then
    let common : CommonAttrs := given.foldl CommonAttrs.apply {}
    match common.subprogram cxaDemangle with
    | some p => (true, subprograms ++ [p])
    | none => (false, subprograms)
  else (collect, subprograms)

namespace DieContext

/-- The loop over a list of children, which `parse_die_children` (`collect`) and
`skip_die_children` have in common. -/
def dieChildren (D : DieContext) (cxaDemangle : Bytes → Option Bytes) (depth : Nat) :
    Nat → Bool → List Subprogram → Parser (List Subprogram)
  | 0, _, _, _ => .running
  | fuel + 1, collect, subprograms, s => do
    let (child, s) ← D.getDieAbbrev s
    match child with
    | none => .returns (subprograms, s)
    | some child => do
      let (given, s) ← D.parseDieAttrs depth child s
      let (collect', subprograms) := visitChild cxaDemangle collect child given subprograms
      let (subprograms, s) ←
        if child.hasChildren then D.dieChildren cxaDemangle depth fuel collect' subprograms s
        else .returns (subprograms, s)
      D.dieChildren cxaDemangle depth fuel collect subprograms s

/-- `skip_die_children`. Every entry takes a byte, so the fuel is enough. -/
def skipDieChildren (D : DieContext) (cxaDemangle : Bytes → Option Bytes) (depth : Nat)
    (decl : AbbrevDecl) (subprograms : List Subprogram) : Parser (List Subprogram) := fun s =>
  if decl.hasChildren then D.dieChildren cxaDemangle depth (s.length + 1) false subprograms s
  else .returns (subprograms, s)

/-- `parse_die_children` -/
def parseDieChildren (D : DieContext) (cxaDemangle : Bytes → Option Bytes) (depth : Nat)
    (decl : AbbrevDecl) (subprograms : List Subprogram) : Parser (List Subprogram) := fun s =>
  if decl.hasChildren then D.dieChildren cxaDemangle depth (s.length + 1) true subprograms s
  else .returns (subprograms, s)

end DieContext

/-! ## Units -/

/-- `parse_debug_info_unit` -/
def parseDebugInfoUnit (cxaDemangle : Bytes → Option Bytes) (depth : Nat) (result : WasmInfo)
    (unitS : Bytes) (subprograms : List Subprogram) (s : Bytes) : Run Fault (List Subprogram) := do
  let (version, s) ← reads uint16FromBin s
  check (version = compileUnitVersion) ".debug_info isn't from DWARF version 4"
  let (debugAbbrevOffset, s) ← reads uint32FromBin s
  let (addressSize, s) ← reads uint8FromBin s
  check (addressSize = 4) "mismatched address_size in .debug_info"
  let D : DieContext :=
    { strings := result.strings, abbrevDecls := result.abbrevDecls, debugAbbrevOffset, unitS }
  let (root, s) ← D.getDieAbbrev s
  check (root.any (·.tag = dwTagCompileUnit)) "missing DW_TAG_compile_unit in .debug_info"
  let root ← deref root
  let (_, s) ← D.parseDieAttrs depth root s
  let (subprograms, _) ← D.parseDieChildren cxaDemangle depth root subprograms s
  .returns subprograms

/-- The bytes of the next unit. -/
def infoUnitFromBin : Parser Bytes := fun s => do
  let (unitLength, s) ← reads uint32FromBin s
  check (unitLength < 0xfffffff0) "unit_length values in reserved range in .debug_info not supported"
  check (unitLength.toNat ≤ s.length) "bad unit_length in .debug_info"
  .returns (s.take unitLength.toNat, s.drop unitLength.toNat)

/-- A turn of the loop over the units. -/
def infoUnitTurn (cxaDemangle : Bytes → Option Bytes) (depth : Nat) (result : WasmInfo) :
    List Subprogram × Bytes → Run Fault (Turn (List Subprogram × Bytes) (List Subprogram))
  | (subprograms, []) => .returns (.done subprograms)
  | (subprograms, b :: s) => do
    let (unit, rest) ← infoUnitFromBin (b :: s)
    let subprograms ← parseDebugInfoUnit cxaDemangle depth result (b :: s) subprograms unit
    .returns (.again (subprograms, rest))

/-! ## The forest of subprograms -/

/-- `par.children.push_back(pos); subp.parent = parent;` -/
def adopt (subprograms : List Subprogram) (parent pos : Nat) : List Subprogram :=
  (subprograms.modify parent fun par => { par with children := par.children ++ [UInt32.ofNat pos] }).modify
    pos fun subp => { subp with parent := some (UInt32.ofNat parent) }

/-- `fill_parents`: the subprograms from `pos` on that begin in the one at `parent` become
its descendants. The position returned is that of the first that does not. -/
def fillParents : Nat → List Subprogram → Nat → Nat → Run Fault (List Subprogram × Nat)
  | 0, _, _, _ => .running
  | fuel + 1, subprograms, parent, pos => do
    let par ← indexAt subprograms parent
    match subprograms[pos]? with
    | none => .returns (subprograms, pos)
    | some subp =>
      if subp.beginAddress ≥ par.endAddress then .returns (subprograms, pos)
      else do
        check (subp.endAddress ≤ par.endAddress) "partial overlap in subprograms"
        let (subprograms, pos) ← fillParents fuel (adopt subprograms parent pos) pos (pos + 1)
        fillParents fuel subprograms parent pos

/-- A turn of the loop of `parse_debug_info` over the subprograms. -/
def rootTurn : List Subprogram × Nat → Run Fault (Turn (List Subprogram × Nat) (List Subprogram))
  | (subprograms, pos) =>
    if pos < subprograms.length then do
      let next ← fillParents (subprograms.length + 1) subprograms pos (pos + 1)
      .returns (.again next)
    else .returns (.done subprograms)

/-- The `fill_parents` loop of `parse_debug_info`. -/
def fillAllParents (subprograms : List Subprogram) : Run Fault (List Subprogram) :=
  loop rootTurn (subprograms.length + 1) (subprograms, 0)

/-- The library functions that the parser leaves the rest to. -/
structure Platform where
  cxaDemangle : Bytes → Option Bytes
  sortLocations : StdSort Location.less
  sortAbbrevDecls : StdSort AbbrevDecl.less
  sortSubprograms : StdSort Subprogram.less

/-- `parse_debug_info` -/
def parseDebugInfo (P : Platform) (depth : Nat) (result : WasmInfo) (s : Bytes) :
    Run Fault WasmInfo := do
  let subprograms ←
    loop (infoUnitTurn P.cxaDemangle depth result) (s.length + 1) (result.subprograms, s)
  let subprograms ← fillAllParents (P.sortSubprograms.sort subprograms)
  .returns { result with subprograms }

end Microchain.DebugEosVm
