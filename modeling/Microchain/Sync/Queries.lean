import Microchain.Starter.QuerySchema
import Microchain.Sync.Protocol

/-!
# What the box and the clients query

Both sides read their instance through queries, which are texts: the box for its head
(`Storage.changed`) and for the id of a block (`Storage.idForNum`), a client for what is
irreversible (`Subchain.getIrreversible`) and for the blocks of its status
(`SubchainClient.sendStatus`). The answers are texts, too, which are parsed as JSON.

Each text is one of a document: two of them are printed documents with a number in them.
From the evaluation of the document follows what the answer is parsed to
(`queries_answered`).
-/

namespace Microchain.Sync

open Eosio Subchain Starter Graphql Lib

/-! ## Numbers in a text -/

/-- A number in a template string. -/
def decimal (n : Nat) : Bytes := (intToJsonLoop n).reverse

theorem digit_value {m : Nat} (h : m < 10) : isDigit ('0'.toUInt8 + UInt8.ofNat m) = true ∧
    (m ≠ 0 → '0'.toUInt8 + UInt8.ofNat m ≠ '0'.toUInt8) ∧
    ('0'.toUInt8 + UInt8.ofNat m - '0'.toUInt8).toNat = m := by
  have hcases : ∀ m : Fin 10, isDigit ('0'.toUInt8 + UInt8.ofNat m) = true ∧
      (m.val ≠ 0 → '0'.toUInt8 + UInt8.ofNat m ≠ '0'.toUInt8) ∧
      ('0'.toUInt8 + UInt8.ofNat m - '0'.toUInt8).toNat = m.val := by decide
  exact hcases ⟨m, h⟩

theorem decimal_digits (n : Nat) : ∀ c ∈ decimal n, isDigit c = true := by
  intro c hc
  obtain ⟨m, hm, rfl⟩ := mem_intToJsonLoop (List.mem_reverse.mp hc)
  exact (digit_value hm).1

theorem decimal_eq (n : Nat) : decimal n =
    (if n / 10 = 0 then [] else decimal (n / 10)) ++ ['0'.toUInt8 + UInt8.ofNat (n % 10)] := by
  rw [decimal, intToJsonLoop_eq]
  split
  · rfl
  · rw [List.reverse_cons]
    rfl

theorem naturalPart_decimal (n : Nat) : NaturalPart (decimal n) := by
  by_cases hn : n = 0
  · subst hn
    rw [decimal_eq]
    exact .zero
  · -- the first digit is not a zero
    obtain ⟨m, hm, hne, hlast⟩ := getLast?_intToJsonLoop hn
    obtain ⟨digits, hdigits⟩ := List.getLast?_eq_some_iff.mp hlast
    have hdecimal : decimal n = ('0'.toUInt8 + UInt8.ofNat m) :: digits.reverse := by
      rw [decimal, hdigits, List.reverse_append]
      rfl
    rw [hdecimal]
    refine .nonZero (digit_value hm).1 ((digit_value hm).2.1 hne) fun c hc => ?_
    refine decimal_digits n c ?_
    rw [hdecimal]
    exact List.mem_cons_of_mem _ hc

/-- **The digits of a number** have its value. -/
theorem digitsValue_decimal (n : Nat) : digitsValue (decimal n) = n := by
  induction n using Nat.strongRecOn with
  | ind n ih =>
    rw [decimal_eq, digitsValue, List.foldl_append]
    show 10 * digitsValue _ + ('0'.toUInt8 + UInt8.ofNat (n % 10) - '0'.toUInt8).toNat = n
    rw [(digit_value (Nat.mod_lt n (by decide))).2.2]
    split
    · show 10 * 0 + n % 10 = n
      omega
    · rw [ih (n / 10) (by omega)]
      omega

theorem coerce_decimal (num : UInt32) : Literal.coerce uint32Type (.integer (decimal num.toNat)) =
    some (.ok (.number num.toNat)) := by
  have hne : decimal num.toNat ≠ [] := by
    rw [decimal_eq]
    exact fun h => by cases (List.append_eq_nil_iff.mp h).2
  have htake : (decimal num.toNat).takeWhile isDigit = decimal num.toNat :=
    List.takeWhile_eq_self_iff.mpr (decimal_digits _)
  have hdrop : (decimal num.toNat).dropWhile isDigit = [] :=
    List.dropWhile_eq_nil_iff.mpr (decimal_digits _)
  have hfrom : fromChars 0 4294967295 (decimal num.toNat) = .ok num.toNat [] := by
    have hlt := num.toNat_lt
    rw [fromChars, decide_eq_false (by rintro ⟨h, -⟩; cases h)]
    simp only [Bool.false_eq_true, if_false]
    rw [htake, if_neg hne, digitsValue_decimal, hdrop, if_neg (by omega)]
  rw [uint32Type, Literal.coerce, coerceNumber, hfrom]

/-! ## The documents -/

def plainField (name : String) (selection : Option (List Graphql.Field)) : Graphql.Field :=
  .mk none (ascii name) [] selection

/-- A field with a number for an argument. -/
def numField (name arg : String) (num : UInt32) (selection : List Graphql.Field) : Graphql.Field :=
  .mk none (ascii name) [⟨ascii arg, .integer (decimal num.toNat)⟩] (some selection)

/-- A query of one field of the log. -/
def logDocument (field : Graphql.Field) : Document where
  operation := .anonymous
  fields := [plainField "blockLog" (some [field])]

def headDocument : Document := logDocument (plainField "head" (some [plainField "num" none]))

def irreversibleDocument : Document :=
  logDocument (plainField "irreversible" (some [plainField "num" none]))

def blockByNumDocument (num : UInt32) : Document :=
  logDocument (numField "blockByNum" "num" num [plainField "id" none])

def blocksDocument (ge : UInt32) : Document :=
  logDocument (numField "blocks" "ge" ge [plainField "edges" (some [plainField "node"
    (some [plainField "num" none, plainField "id" none])])])

/-- The query of `changed`. -/
def headQuery : Bytes := ascii "\x7bblockLog\x7bhead\x7bnum\x7d\x7d\x7d"

/-- The query of `idForNum`. -/
def blockByNumQuery (num : Nat) : Bytes :=
  ascii "\x7bblockLog\x7bblockByNum(num:" ++ decimal num ++ ascii ")\x7bid\x7d\x7d\x7d"

/-- The query of `getIrreversible`. -/
def irreversibleQuery : Bytes :=
  ascii "\x7b\n            blockLog\x7b\n                irreversible\x7b\n" ++
    ascii "                    num\n                \x7d\n            \x7d\n        \x7d"

/-- The query of `sendStatus`. -/
def blocksQuery (irreversible : Nat) : Bytes :=
  ascii "\x7bblockLog\x7bblocks(ge:" ++ decimal irreversible ++
    ascii ")\x7bedges\x7bnode\x7bnum id\x7d\x7d\x7d\x7d\x7d"

/-! ## The texts -/

section Texts

variable {hashName : Bytes → Name}

theorem validArgs_nil : ValidArgs [] [] where
  nodup := List.nodup_nil
  known _ harg := absurd harg List.not_mem_nil
  required _ hparam := absurd hparam List.not_mem_nil

theorem headDocument_valid : headDocument.Valid (querySchema hashName) (.object .query) :=
  ⟨⟨_, rfl, validArgs_nil, ⟨_, rfl, validArgs_nil, ⟨_, rfl, validArgs_nil, trivial⟩, trivial⟩,
    trivial⟩, trivial⟩

theorem irreversibleDocument_valid :
    irreversibleDocument.Valid (querySchema hashName) (.object .query) :=
  ⟨⟨_, rfl, validArgs_nil, ⟨_, rfl, validArgs_nil, ⟨_, rfl, validArgs_nil, trivial⟩, trivial⟩,
    trivial⟩, trivial⟩

/-- One argument, when it is all that is required. -/
theorem validArgs_singleton {params : List Param} {param : Param} (hparam : param ∈ params)
    {arg : Argument} (hname : param.name = arg.name)
    (hvalue : (arg.value.coerce param.type).isSome)
    (hrequired : ∀ p ∈ params, p.isOptional = false → p.name = arg.name) :
    ValidArgs params [arg] where
  nodup := List.nodup_singleton _
  known a ha := by
    obtain rfl := List.mem_singleton.mp ha
    exact ⟨param, hparam, hname, .inr hvalue⟩
  required p hp hp' := List.mem_singleton.mpr (hrequired p hp hp')

theorem blockByNumDocument_valid (num : UInt32) :
    (blockByNumDocument num).Valid (querySchema hashName) (.object .query) := by
  have hargs : ValidArgs [⟨ascii "num", uint32Type, false⟩]
      [⟨ascii "num", .integer (decimal num.toNat)⟩] := by
    refine validArgs_singleton (List.mem_singleton_self _) rfl ?_ fun p hp _ => ?_
    · rw [coerce_decimal]
      rfl
    · obtain rfl := List.mem_singleton.mp hp
      rfl
  exact ⟨⟨_, rfl, validArgs_nil, ⟨_, rfl, hargs, ⟨_, rfl, validArgs_nil, trivial⟩, trivial⟩,
    trivial⟩, trivial⟩

theorem blocksDocument_valid (ge : UInt32) :
    (blocksDocument ge).Valid (querySchema hashName) (.object .query) := by
  have hoptional : ∀ p ∈ connectionParams uint32Type, p.isOptional = true := by decide
  have hparam : ⟨ascii "ge", uint32Type, true⟩ ∈ connectionParams uint32Type :=
    List.mem_cons_of_mem _ (List.mem_cons_self ..)
  have hargs : ValidArgs (connectionParams uint32Type)
      [⟨ascii "ge", .integer (decimal ge.toNat)⟩] := by
    refine validArgs_singleton hparam rfl ?_ fun p hp hrequired => ?_
    · rw [coerce_decimal]
      rfl
    · rw [hoptional p hp] at hrequired
      cases hrequired
  have hnode : FieldsValid (querySchema hashName) .blockWithId
      [plainField "num" none, plainField "id" none] :=
    ⟨⟨_, rfl, validArgs_nil, trivial⟩, ⟨_, rfl, validArgs_nil, trivial⟩, trivial⟩
  exact ⟨⟨_, rfl, validArgs_nil, ⟨_, rfl, hargs, ⟨_, rfl, validArgs_nil, ⟨_, rfl, validArgs_nil,
    hnode⟩, trivial⟩, trivial⟩, trivial⟩, trivial⟩

theorem isText_headQuery : headDocument.IsText headQuery := by
  have hplain : headDocument.tokens.all Token.isPlain := by decide
  have hsound : ∀ t ∈ headDocument.tokens, t.Sound :=
    fun t ht => .of_isPlain (List.all_eq_true.mp hplain t ht)
  exact isText_print hsound

theorem isText_blockByNumQuery (num : UInt32) :
    (blockByNumDocument num).IsText (blockByNumQuery num.toNat) := by
  have htokens : (blockByNumDocument num).tokens =
      [.punct '\x7b', .word (ascii "blockLog"), .punct '\x7b', .word (ascii "blockByNum"),
        .punct '(', .word (ascii "num"), .punct ':'] ++
      (Literal.integer (decimal num.toNat)).token ::
      [.punct ')', .punct '\x7b', .word (ascii "id"), .punct '\x7d', .punct '\x7d',
        .punct '\x7d'] := rfl
  have hsound : ∀ t ∈ (blockByNumDocument num).tokens, t.Sound := by
    rw [htokens]
    exact sound_number (naturalPart_decimal _) (by decide) (by decide)
  exact isText_print hsound

theorem isText_blocksQuery (ge : UInt32) : (blocksDocument ge).IsText (blocksQuery ge.toNat) := by
  have htokens : (blocksDocument ge).tokens =
      [.punct '\x7b', .word (ascii "blockLog"), .punct '\x7b', .word (ascii "blocks"), .punct '(',
        .word (ascii "ge"), .punct ':'] ++
      (Literal.integer (decimal ge.toNat)).token ::
      [.punct ')', .punct '\x7b', .word (ascii "edges"), .punct '\x7b', .word (ascii "node"),
        .punct '\x7b', .word (ascii "num"), .word (ascii "id"), .punct '\x7d', .punct '\x7d',
        .punct '\x7d', .punct '\x7d', .punct '\x7d'] := rfl
  have hsound : ∀ t ∈ (blocksDocument ge).tokens, t.Sound := by
    rw [htokens]
    exact sound_number (naturalPart_decimal _) (by decide) (by decide)
  exact isText_print hsound

end Texts

/-! ## Their evaluation -/

section Evaluation

variable {hashName : Bytes → Name} {m : MicroChain}

theorem field_eval {aliasName : Option Bytes} {name : Bytes} {args : List Argument}
    {selection : Option (List Graphql.Field)} {object : QueryObject} {member : Member QueryObject}
    {value : Value QueryObject} {answer : Answer}
    (hfind : (queryMembers hashName object).find? (·.name = name) = some member)
    (hvalue : member.eval args = .ok value)
    (hanswer : answerValue (evalSelection (queryMembers hashName) selection) value = .ok answer) :
    (Graphql.Field.mk aliasName name args selection).eval (queryMembers hashName) object =
      .ok answer := by
  rw [Graphql.Field.eval, hfind]
  dsimp only
  rw [hvalue]
  exact hanswer

theorem selection_eval {field : Graphql.Field} {object : QueryObject} {answer : Answer}
    (h : field.eval (queryMembers hashName) object = .ok answer) :
    evalSelection (queryMembers hashName) (some [field]) object =
      .ok (.object [(field.responseName, answer)]) := by
  rw [evalSelection, evalFields, h]
  rfl

theorem logDocument_eval {field : Graphql.Field} {answer : Answer}
    (h : field.eval (queryMembers hashName) (.blockLog m.blockLog) = .ok answer) :
    (logDocument field).eval (queryMembers hashName) (.object (.query m)) =
      .ok (.object [(ascii "blockLog", .object [(field.responseName, answer)])]) :=
  selection_eval (field_eval rfl rfl (selection_eval h))

/-- The answer for a pointer to a block, `answer` being that for a block. -/
theorem blockPointer_eval {select : QueryObject → Except String Answer}
    {answer : BlockWithId → Answer} (h : ∀ b, select (.blockWithId b) = .ok (answer b))
    (block : Option BlockWithId) :
    answerValue select (blockPointer block) = .ok ((block.map answer).getD .null) := by
  cases block with
  | none => rfl
  | some b => exact h b

/-- The answers for the objects of a list. -/
theorem answerElems_map {α : Type} {select : QueryObject → Except String Answer}
    {toObject : α → QueryObject} {answer : α → Answer}
    (h : ∀ x, select (toObject x) = .ok (answer x)) (xs : List α) :
    answerElems select (xs.map fun x => .object (toObject x)) = .ok (xs.map answer) := by
  induction xs with
  | nil => rfl
  | cons x xs ih =>
    show answerElems select (.object (toObject x) :: _) = _
    rw [answerElems, answerValue, h x, ih]
    rfl

theorem evalArgs_decimal {params : List Param} {param : Param} {name : String} {num : UInt32}
    (hfind : params.find? (·.name = ascii name) = some param)
    (htype : param.type = uint32Type) :
    evalArgs params [⟨ascii name, .integer (decimal num.toNat)⟩] =
      .ok (params.map (givenValue [(ascii name, some (.number num.toNat))])) := by
  have habsent : ¬ Argument.IsAbsent ⟨ascii name, .integer (decimal num.toNat)⟩ param := by
    rintro ⟨-, h⟩
    cases h
  have heval : Argument.eval params ⟨ascii name, .integer (decimal num.toNat)⟩ =
      .ok (some (.number num.toNat)) := by
    rw [Argument.eval, hfind]
    dsimp only
    rw [if_neg habsent, htype, coerce_decimal]
    rfl
  rw [evalArgs, List.mapM_cons, Argument.evalNamed, heval]
  rfl

/-- The two members of a block that are asked for. -/
def numAnswer (block : BlockWithId) : Bytes × Answer := (ascii "num", .scalar (.uint32 block.num))

def idAnswer (block : BlockWithId) : Bytes × Answer :=
  (ascii "id", .scalar (.checksum256 block.id))

def edgeAnswer (edge : Edge BlockWithId) : Answer :=
  .object [(ascii "node", .object [numAnswer edge.node, idAnswer edge.node])]

/-- A pointer to a block with some of its members. -/
def blockAnswer (select : BlockWithId → Bytes × Answer) (block : Option BlockWithId) : Answer :=
  (block.map fun b => .object [select b]).getD .null

theorem headDocument_eval : headDocument.eval (queryMembers hashName) (.object (.query m)) =
    .ok (.object [(ascii "blockLog",
      .object [(ascii "head", blockAnswer numAnswer m.blockLog.head)])]) :=
  logDocument_eval (field_eval rfl rfl (blockPointer_eval (fun _ => rfl) _))

theorem irreversibleDocument_eval :
    irreversibleDocument.eval (queryMembers hashName) (.object (.query m)) =
      .ok (.object [(ascii "blockLog", .object [(ascii "irreversible",
        blockAnswer numAnswer (m.blockLog.blockByNum m.blockLog.irreversible))])]) :=
  logDocument_eval (field_eval rfl rfl (blockPointer_eval (fun _ => rfl) _))

theorem number_toUint32 (num : UInt32) : ArgValue.toUint32 (.number num.toNat) = some num := by
  show some (UInt32.ofNat (Int.toNat num.toNat)) = some num
  rw [Int.toNat_natCast, UInt32.ofNat_toNat]

theorem blockByNumDocument_eval (num : UInt32) :
    (blockByNumDocument num).eval (queryMembers hashName) (.object (.query m)) =
      .ok (.object [(ascii "blockLog",
        .object [(ascii "blockByNum", blockAnswer idAnswer (m.blockLog.blockByNum num))])]) := by
  have hvalue : (Member.method (ascii "blockByNum") [⟨ascii "num", uint32Type, false⟩]
      (callByNum m.blockLog.blockByNum)).eval [⟨ascii "num", .integer (decimal num.toNat)⟩] =
        .ok (blockPointer (m.blockLog.blockByNum num)) := by
    rw [Member.eval, evalArgs_decimal rfl rfl]
    show Except.ok (blockPointer ((ArgValue.toUint32 (.number num.toNat)).bind _)) = _
    rw [number_toUint32]
    rfl
  exact logDocument_eval (field_eval rfl hvalue (blockPointer_eval (fun _ => rfl) _))

theorem blocksDocument_eval {ge : UInt32} {conn : Connection BlockWithId}
    (hconn : Query.blocks m { ge := some ge } {} = .ok conn) :
    (blocksDocument ge).eval (queryMembers hashName) (.object (.query m)) =
      .ok (.object [(ascii "blockLog", .object [(ascii "blocks",
        .object [(ascii "edges", .list (conn.edges.map edgeAnswer))])])]) := by
  have hvalue : (Member.method (ascii "blocks") (connectionParams uint32Type)
      (callConnection ArgValue.toUint32 (makeConnection (blockContainer m.blockLog) blockSchema)
        .blockConnection)).eval [⟨ascii "ge", .integer (decimal ge.toNat)⟩] =
        .ok (.object (.blockConnection conn)) := by
    have hargs : (connectionParams uint32Type).map
        (givenValue [(ascii "ge", some (.number ge.toNat))]) =
          [none, some (.number ge.toNat), none, none, none, none, none, none] := rfl
    have hcall : callConnection ArgValue.toUint32
        (makeConnection (blockContainer m.blockLog) blockSchema) .blockConnection
          [none, some (.number ge.toNat), none, none, none, none, none, none] =
        (Query.blocks m { ge := ArgValue.toUint32 (.number ge.toNat) } {}).map fun conn =>
          .object (.blockConnection conn) := rfl
    rw [Member.eval, evalArgs_decimal rfl rfl, hargs]
    refine hcall.trans ?_
    rw [number_toUint32, hconn]
    rfl
  have hedges : answerValue (evalSelection (queryMembers hashName)
      (some [plainField "node" (some [plainField "num" none, plainField "id" none])]))
      (.list (conn.edges.map fun edge => .object (.blockEdge edge))) =
        .ok (.list (conn.edges.map edgeAnswer)) := by
    rw [answerValue, answerElems_map (fun _ => rfl)]
    rfl
  exact logDocument_eval (field_eval rfl hvalue (selection_eval (field_eval rfl rfl hedges)))

end Evaluation

/-! ## What the two sides read -/

section Reading

variable {validate : Bytes → Option Nat}

/-- What is asked of the log, in what a reader parses. -/
def logData (name : String) (value : Json) : Json :=
  .object [("blockLog".toList, .object [(name.toList, value)])]

def numMember (num : Nat) : List Char × Json := ("num".toList, .number (digitsText num))

/-- The id as in the messages. -/
def idMember (id : Bytes) : List Char × Json := ("id".toList, .string (id.map charOfByte))

/-- A pointer to a block with one member. -/
def blockData (select : BlockWithId → List Char × Json) (block : Option BlockWithId) : Json :=
  (block.map fun b => .object [select b]).getD .null

/-- An edge of the blocks of a status. -/
def edgeData (block : BlockInfo) : Json :=
  .object [("node".toList, .object [numMember block.num, idMember block.id])]

theorem json_log {name : String} (hname : utf8 name.toList = ascii name) (answer : Answer) :
    (Answer.object [(ascii "blockLog", .object [(ascii name, answer)])]).json =
      logData name answer.json := by
  simp only [Answer.json, Answer.jsonFields, logData, readable_ascii hname,
    readable_ascii (by decide : utf8 "blockLog".toList = ascii "blockLog")]

theorem json_numAnswer (b : BlockWithId) :
    (Answer.object [numAnswer b]).json = .object [numMember b.num.toNat] := by
  simp only [Answer.json, Answer.jsonFields, numAnswer, numMember, Scalar.json,
    readable_ascii (by decide : utf8 "num".toList = ascii "num")]

theorem json_idAnswer (b : BlockWithId) :
    (Answer.object [idAnswer b]).json = .object [idMember (idText b.id)] := by
  simp only [Answer.json, Answer.jsonFields, idAnswer, idMember, Scalar.json, idText,
    readable_ascii (by decide : utf8 "id".toList = ascii "id")]

theorem json_edgeAnswer (edge : Edge BlockWithId) :
    (edgeAnswer edge).json = edgeData ⟨edge.node.num.toNat, idText edge.node.id⟩ := by
  simp only [edgeAnswer, edgeData, Answer.json, Answer.jsonFields, numAnswer, idAnswer, numMember,
    idMember, Scalar.json, idText, readable_ascii (by decide : utf8 "node".toList = ascii "node"),
    readable_ascii (by decide : utf8 "num".toList = ascii "num"),
    readable_ascii (by decide : utf8 "id".toList = ascii "id")]

theorem json_blockAnswer {select : BlockWithId → Bytes × Answer}
    {data : BlockWithId → List Char × Json}
    (h : ∀ b, (Answer.object [select b]).json = .object [data b]) (block : Option BlockWithId) :
    (blockAnswer select block).json = blockData data block := by
  cases block with
  | none => rfl
  | some b => exact h b

theorem json_edges (edges : List (Edge BlockWithId)) :
    (Answer.object [(ascii "edges", .list (edges.map edgeAnswer))]).json =
      .object [("edges".toList, .array ((edges.map fun edge =>
        BlockInfo.mk edge.node.num.toNat (idText edge.node.id)).map edgeData))] := by
  have helems : Answer.jsonElems (edges.map edgeAnswer) =
      (edges.map fun edge => BlockInfo.mk edge.node.num.toNat (idText edge.node.id)).map
        edgeData := by
    induction edges with
    | nil => rfl
    | cons edge edges ih =>
      rw [List.map_cons, Answer.jsonElems, json_edgeAnswer, ih, List.map_cons, List.map_cons]
  simp only [Answer.json, Answer.jsonFields, helems,
    readable_ascii (by decide : utf8 "edges".toList = ascii "edges")]

theorem getIrreversible_lt (m : MicroChain) :
    (UInt32.ofNat (getIrreversible m)).toNat = getIrreversible m := by
  rw [getIrreversible]
  cases m.blockLog.blockByNum m.blockLog.irreversible with
  | none => rfl
  | some b => exact congrArg UInt32.toNat UInt32.ofNat_toNat

theorem isText_irreversibleQuery : irreversibleDocument.IsText irreversibleQuery :=
  ⟨⟨[], .eof, [], 0⟩, by decide +kernel, rfl⟩

/-- **The queries of the two sides** are answered with what the model reads from the log: the
head of `changed`, what is irreversible, the id of a block, and the blocks of a status. -/
theorem queries_answered (h : ValidatesUtf8 validate) (hashName : Bytes → Name)
    (m : MicroChain) :
    Answered hashName validate m headQuery
      (logData "head" (blockData (fun b => numMember b.num.toNat) m.blockLog.head)) ∧
    Answered hashName validate m irreversibleQuery
      (logData "irreversible" (blockData (fun b => numMember b.num.toNat)
        (m.blockLog.blockByNum m.blockLog.irreversible))) ∧
    (∀ num : UInt32, Answered hashName validate m (blockByNumQuery num.toNat)
      (logData "blockByNum" (blockData (fun b => idMember (idText b.id))
        (m.blockLog.blockByNum num)))) ∧
    ∀ slowmo status, SubchainClient.status slowmo m = some status →
      Answered hashName validate m (blocksQuery status.irreversible)
        (logData "blocks" (.object [("edges".toList, .array (status.blocks.map edgeData))])) := by
  refine ⟨?_, ?_, fun num => ?_, fun slowmo status hstatus => ?_⟩
  · rw [← json_blockAnswer json_numAnswer, ← json_log (by decide)]
    exact answered_of_eval h headDocument_valid isText_headQuery headDocument_eval
  · rw [← json_blockAnswer json_numAnswer, ← json_log (by decide)]
    exact answered_of_eval h irreversibleDocument_valid isText_irreversibleQuery
      irreversibleDocument_eval
  · rw [← json_blockAnswer json_idAnswer, ← json_log (by decide)]
    exact answered_of_eval h (blockByNumDocument_valid num) (isText_blockByNumQuery num)
      (blockByNumDocument_eval num)
  · rw [SubchainClient.status] at hstatus
    split at hstatus
    · cases hstatus
    · next conn hconn =>
      cases hstatus
      dsimp only
      rw [← json_edges, ← json_log (by decide), ← getIrreversible_lt]
      exact answered_of_eval h (blocksDocument_valid _) (isText_blocksQuery _)
        (blocksDocument_eval hconn)

/-- A log with one block that is not irreversible yet. -/
def oneBlockChain : MicroChain where
  starterAccount := Name.ofString "starter"
  blockLog := { blocks := [{ num := 1 }] }

theorem queries_answered_example :
    let answered := Answered (fun _ => Name.ofString "starter")
      (fun buf => (decodeChar? buf).map Char.utf8Size) oneBlockChain
    answered headQuery (logData "head" (.object [("num".toList, .number (digitsText 1))])) ∧
    answered (blocksQuery 0) (logData "blocks" (.object [("edges".toList, .array
      [.object [("node".toList, .object [("num".toList, .number (digitsText 1)),
        ("id".toList, .string (List.replicate 64 '0'))])]])])) := by
  let status : ClientStatus :=
    { maxBlocksToSend := 1000, irreversible := 0, blocks := [⟨1, List.replicate 64 '0'.toUInt8⟩] }
  have hstatus : SubchainClient.status false oneBlockChain = some status := by decide +kernel
  have hid : (List.replicate 64 '0'.toUInt8).map charOfByte = List.replicate 64 '0' :=
    List.map_replicate
  obtain ⟨hhead, -, -, hblocks⟩ := queries_answered
    (fun _ _ => rfl : ValidatesUtf8 fun buf => (decodeChar? buf).map Char.utf8Size)
    (fun _ => Name.ofString "starter") oneBlockChain
  rw [← hid]
  exact ⟨hhead, hblocks false status hstatus⟩

end Reading

end Microchain.Sync
