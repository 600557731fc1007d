import Microchain.Graphql.Evaluation
import Microchain.Graphql.Printing
import Microchain.Starter.QueryRoot

/-!
# The schema of the micro chain

The reflected types with their members, as a schema of the query language. Every state of an
instance conforms to it (`query_conforms`), so that a valid document is answered by its
evaluation on the state, and its printed text is a query for it (`query_print`).
-/

namespace Microchain.Starter

open Eosio Subchain Lib Graphql

/-! ## The schema -/

/-- A reflected type. -/
inductive QueryKind where
  | query
  | blockLog
  | blockConnection
  | blockEdge
  | greetingConnection
  | greetingEdge
  | pageInfo
  | greeting
  | blockWithId
  | eosioBlock
  | transaction
  | action
  | creatorAction
deriving DecidableEq, Repr

def QueryObject.kind : QueryObject → QueryKind
  | .query _ => .query
  | .blockLog _ => .blockLog
  | .blockConnection _ => .blockConnection
  | .blockEdge _ => .blockEdge
  | .greetingConnection _ => .greetingConnection
  | .greetingEdge _ => .greetingEdge
  | .pageInfo _ => .pageInfo
  | .greeting _ => .greeting
  | .blockWithId _ => .blockWithId
  | .eosioBlock _ => .eosioBlock
  | .transaction _ => .transaction
  | .action _ => .action
  | .creatorAction _ => .creatorAction

theorem connectionParams_nodup (keyType : ArgType) :
    ((connectionParams keyType).map Param.name).Nodup := by
  show [ascii "gt", ascii "ge", ascii "lt", ascii "le", ascii "first", ascii "last",
    ascii "before", ascii "after"].Nodup
  decide

/-- A member without parameters. -/
def plainDef (name : String) (type : GqlType QueryKind) : FieldDef QueryKind :=
  ⟨ascii name, [], type, List.nodup_nil⟩

/-- A connection method. -/
def connectionDef (name : String) (keyType : ArgType) (kind : QueryKind) : FieldDef QueryKind :=
  ⟨ascii name, connectionParams keyType, .object kind, connectionParams_nodup keyType⟩

/-- A method with one block number. -/
def byNumDef (name : String) : FieldDef QueryKind :=
  ⟨ascii name, [⟨ascii "num", uint32Type, false⟩], .nullable (.object .blockWithId),
    List.nodup_singleton _⟩

/-- The key type of the greetings. -/
def accountType (hashName : Bytes → Name) : ArgType :=
  .fromString fun s => .ok (.name (hashName s))

/-- The members of the types. -/
def querySchema (hashName : Bytes → Name) : GqlSchema QueryKind
  | .query =>
    [plainDef "blockLog" (.object .blockLog),
      connectionDef "greetings" (accountType hashName) .greetingConnection]
  | .blockLog =>
    [connectionDef "blocks" uint32Type .blockConnection,
      plainDef "head" (.nullable (.object .blockWithId)),
      plainDef "irreversible" (.nullable (.object .blockWithId)), byNumDef "blockByNum",
      byNumDef "blockByEosioNum"]
  | .blockConnection =>
    [plainDef "edges" (.list (.object .blockEdge)), plainDef "pageInfo" (.object .pageInfo)]
  | .blockEdge => [plainDef "node" (.object .blockWithId), plainDef "cursor" .scalar]
  | .greetingConnection =>
    [plainDef "edges" (.list (.object .greetingEdge)), plainDef "pageInfo" (.object .pageInfo)]
  | .greetingEdge => [plainDef "node" (.object .greeting), plainDef "cursor" .scalar]
  | .pageInfo =>
    [plainDef "hasPreviousPage" .scalar, plainDef "hasNextPage" .scalar,
      plainDef "startCursor" .scalar, plainDef "endCursor" .scalar]
  | .greeting => [plainDef "account" .scalar, plainDef "message" (.nullable .scalar)]
  | .blockWithId =>
    [plainDef "id" .scalar, plainDef "num" .scalar, plainDef "previous" .scalar,
      plainDef "eosioBlock" (.object .eosioBlock)]
  | .eosioBlock =>
    [plainDef "num" .scalar, plainDef "id" .scalar, plainDef "previous" .scalar,
      plainDef "timestamp" .scalar, plainDef "transactions" (.list (.object .transaction))]
  | .transaction => [plainDef "id" .scalar, plainDef "actions" (.list (.object .action))]
  | .action =>
    [plainDef "seq" .scalar, plainDef "firstReceiver" .scalar, plainDef "receiver" .scalar,
      plainDef "name" .scalar, plainDef "creatorAction" (.nullable (.object .creatorAction)),
      plainDef "hexData" .scalar]
  | .creatorAction => [plainDef "seq" .scalar, plainDef "receiver" .scalar]

/-! ## Every state conforms to it -/

section Members

variable {name : String}

theorem scalarField_hasType (name : String) (value : Scalar) :
    (scalarField name value).HasType QueryObject.kind (plainDef name .scalar) :=
  ⟨rfl, rfl, .scalar value⟩

theorem objectField_hasType (name : String) (object : QueryObject) :
    (objectField name object).HasType QueryObject.kind (plainDef name (.object object.kind)) :=
  ⟨rfl, rfl, .object object⟩

theorem listField_hasType {α : Type} (name : String) (toObject : α → QueryObject)
    {kind : QueryKind} (hkind : ∀ x, (toObject x).kind = kind) (elems : List α) :
    (listField name toObject elems).HasType QueryObject.kind
      (plainDef name (.list (.object kind))) := by
  refine ⟨rfl, rfl, .list fun elem helem => ?_⟩
  obtain ⟨x, -, rfl⟩ := List.mem_map.mp helem
  rw [← hkind x]
  exact .object _

theorem pointer_hasType {value : Option (Value QueryObject)} {type : GqlType QueryKind}
    (h : ∀ v ∈ value, HasType QueryObject.kind v type) :
    HasType QueryObject.kind (pointer value) (.nullable type) := by
  cases value with
  | none => exact .null
  | some v => exact .full (h v rfl)

theorem blockPointer_hasType (block : Option BlockWithId) :
    HasType QueryObject.kind (blockPointer block) (.nullable (.object .blockWithId)) := by
  refine pointer_hasType fun v hv => ?_
  obtain ⟨b, -, rfl⟩ := Option.map_eq_some_iff.mp hv
  exact .object (QueryObject.blockWithId b)

theorem callByNum_hasType (name : String) (block : UInt32 → Option BlockWithId) :
    (Member.method (ascii name) [⟨ascii "num", uint32Type, false⟩] (callByNum block)).HasType
      QueryObject.kind (byNumDef name) := by
  refine ⟨rfl, rfl, fun args value hvalue => ?_⟩
  cases hvalue
  exact blockPointer_hasType _

theorem pointerMethod_hasType (name : String) (block : Option BlockWithId) :
    (Member.method (ascii name) [] fun _ => .ok (blockPointer block)).HasType QueryObject.kind
      (plainDef name (.nullable (.object .blockWithId))) := by
  refine ⟨rfl, rfl, fun args value hvalue => ?_⟩
  cases hvalue
  exact blockPointer_hasType _

theorem callConnection_hasType {κ ν : Type} (name : String) (keyType : ArgType)
    (toKey : ArgValue → Option κ)
    (connection : RangeArgs κ → PageArgs → Except String (Connection ν))
    {toObject : Connection ν → QueryObject} {kind : QueryKind}
    (hkind : ∀ conn, (toObject conn).kind = kind) :
    (Member.method (ascii name) (connectionParams keyType)
      (callConnection toKey connection toObject)).HasType QueryObject.kind
        (connectionDef name keyType kind) := by
  refine ⟨rfl, rfl, fun args value hvalue => ?_⟩
  rw [callConnection] at hvalue
  dsimp only at hvalue
  generalize connection _ _ = result at hvalue
  cases result with
  | error e => cases hvalue
  | ok conn =>
    cases hvalue
    rw [connectionDef, ← hkind conn]
    exact .object _

end Members

/-- **Every state of an instance** conforms to the schema. -/
theorem query_conforms (hashName : Bytes → Name) :
    Conforms QueryObject.kind (querySchema hashName) (queryMembers hashName) := by
  intro object
  cases object with
  | query m =>
    exact .cons (objectField_hasType "blockLog" (.blockLog m.blockLog))
      (.cons (callConnection_hasType "greetings" (accountType hashName) ArgValue.toName
        (Query.greetings m) fun _ => rfl) .nil)
  | blockLog log =>
    exact .cons (callConnection_hasType "blocks" uint32Type ArgValue.toUint32
        (makeConnection (blockContainer log) blockSchema) fun _ => rfl)
      (.cons (pointerMethod_hasType "head" log.head)
        (.cons (pointerMethod_hasType "irreversible" (log.blockByNum log.irreversible))
          (.cons (callByNum_hasType "blockByNum" log.blockByNum)
            (.cons (callByNum_hasType "blockByEosioNum" log.blockByEosioNum) .nil))))
  | blockConnection conn =>
    exact .cons (listField_hasType "edges" QueryObject.blockEdge (fun _ => rfl) conn.edges)
      (.cons (objectField_hasType "pageInfo" (.pageInfo conn.pageInfo)) .nil)
  | blockEdge edge =>
    exact .cons ⟨rfl, rfl, .reference (.object (QueryObject.blockWithId edge.node))⟩
      (.cons (scalarField_hasType "cursor" _) .nil)
  | greetingConnection conn =>
    exact .cons (listField_hasType "edges" QueryObject.greetingEdge (fun _ => rfl) conn.edges)
      (.cons (objectField_hasType "pageInfo" (.pageInfo conn.pageInfo)) .nil)
  | greetingEdge edge =>
    exact .cons (objectField_hasType "node" (.greeting edge.node))
      (.cons (scalarField_hasType "cursor" _) .nil)
  | pageInfo pageInfo =>
    exact .cons (scalarField_hasType _ _) (.cons (scalarField_hasType _ _)
      (.cons (scalarField_hasType _ _) (.cons (scalarField_hasType _ _) .nil)))
  | greeting node =>
    refine .cons (scalarField_hasType _ _) (.cons ⟨rfl, rfl, fun args value hvalue => ?_⟩ .nil)
    cases hvalue
    refine pointer_hasType fun v hv => ?_
    obtain ⟨greeting, -, rfl⟩ := Option.map_eq_some_iff.mp hv
    exact .scalar _
  | blockWithId block =>
    exact .cons (scalarField_hasType _ _) (.cons (scalarField_hasType _ _)
      (.cons (scalarField_hasType _ _)
        (.cons (objectField_hasType "eosioBlock" (.eosioBlock block.eosioBlock)) .nil)))
  | eosioBlock block =>
    exact .cons (scalarField_hasType _ _) (.cons (scalarField_hasType _ _)
      (.cons (scalarField_hasType _ _) (.cons (scalarField_hasType _ _)
        (.cons (listField_hasType "transactions" QueryObject.transaction (fun _ => rfl)
          block.transactions) .nil))))
  | transaction trx =>
    exact .cons (scalarField_hasType _ _)
      (.cons (listField_hasType "actions" QueryObject.action (fun _ => rfl) trx.actions) .nil)
  | action action =>
    refine .cons (scalarField_hasType _ _) (.cons (scalarField_hasType _ _)
      (.cons (scalarField_hasType _ _) (.cons (scalarField_hasType _ _)
        (.cons ⟨rfl, rfl, pointer_hasType fun v hv => ?_⟩
          (.cons (scalarField_hasType _ _) .nil)))))
    obtain ⟨creator, -, rfl⟩ := Option.map_eq_some_iff.mp hv
    exact .object (QueryObject.creatorAction creator)
  | creatorAction creator =>
    exact .cons (scalarField_hasType _ _) (.cons (scalarField_hasType _ _) .nil)

/-! ## Queries -/

section Query

variable {hashName : Bytes → Name} {m : MicroChain} {doc : Document} {query : Bytes}

/-- A valid document is evaluated, whatever its text. -/
theorem query_computes {toJson : Scalar → Bytes}
    (hvalid : doc.Valid (querySchema hashName) (.object .query)) (htext : doc.IsText query) :
    (∀ answer, doc.eval (queryMembers hashName) (.object (.query m)) = .ok answer →
      Returns (m.query hashName toJson query [])
        (ascii "\x7b\"data\": " ++ answer.render toJson ++ ascii "\x7d")) ∧
    ∀ message, doc.eval (queryMembers hashName) (.object (.query m)) = .error message →
      Fails (m.query hashName toJson query []) message := by
  obtain ⟨s', hreads, heof⟩ := htext
  obtain ⟨s, hoperation, hselection⟩ := gqlOperation_reads hreads
  have hcomputes : Computes GqlFailure.abort
      (gqlQuery (queryMembers hashName) toJson · (.object (.query m)) s)
      (evalSelection (queryMembers hashName) (some doc.fields) (.query m))
      fun answer => (answer.render toJson, s') :=
    selection_computes (query_conforms hashName) (some doc.fields) hvalid hselection
  constructor
  · intro answer heval
    rw [show evalSelection (queryMembers hashName) (some doc.fields) (.query m) = .ok answer
      from heval] at hcomputes
    exact gqlQueryString_of_returns hoperation hcomputes heof
  · intro message heval
    rw [show evalSelection (queryMembers hashName) (some doc.fields) (.query m) = .error message
      from heval] at hcomputes
    exact gqlQueryString_of_fails _ _ hoperation hcomputes

variable {validate : Bytes → Option Nat}

theorem readable_ascii {s : String} (h : utf8 s.toList = ascii s) :
    readable (ascii s) = s.toList := by
  rw [← h, readable_utf8]

/-- What the reader of an answer parses. -/
def Answered (hashName : Bytes → Name) (validate : Bytes → Option Nat) (m : MicroChain)
    (query : Bytes) (data : Json) : Prop :=
  ∃ out, Returns (m.query hashName (toJson validate) query []) out ∧
    IsJson (.object [("data".toList, data)]) out

theorem answered_of_eval (h : ValidatesUtf8 validate)
    (hvalid : doc.Valid (querySchema hashName) (.object .query)) (htext : doc.IsText query)
    {answer : Answer}
    (heval : doc.eval (queryMembers hashName) (.object (.query m)) = .ok answer) :
    Answered hashName validate m query answer.json := by
  obtain ⟨text, hrender, hspells⟩ := answer.spells_render h
  refine ⟨_, (query_computes hvalid htext).1 answer heval, ?_⟩
  rw [hrender]
  exact isJson_data hspells

/-- A page of the log, under another name. -/
def pageDocument : Document where
  operation := .query (some (ascii "page"))
  fields := [.mk (some (ascii "log")) (ascii "blockLog") [] (some [.mk none (ascii "blocks")
    [⟨ascii "ge", .integer (ascii "1")⟩]
    (some [.mk none (ascii "edges") [] (some [.mk none (ascii "cursor") [] none])])])]

theorem pageDocument_sound : ∀ t ∈ pageDocument.tokens, t.Sound := by
  have htokens : pageDocument.tokens =
      [.word (ascii "query"), .word (ascii "page"), .punct '\x7b', .word (ascii "log"), .punct ':',
        .word (ascii "blockLog"), .punct '\x7b', .word (ascii "blocks"), .punct '(',
        .word (ascii "ge"), .punct ':'] ++ (Literal.integer (ascii "1")).token ::
      [.punct ')', .punct '\x7b', .word (ascii "edges"), .punct '\x7b', .word (ascii "cursor"),
        .punct '\x7d', .punct '\x7d', .punct '\x7d', .punct '\x7d'] := rfl
  have hdigits : NaturalPart (ascii "1") :=
    .nonZero (by decide) (by decide) fun _ hc => absurd hc List.not_mem_nil
  rw [htokens]
  exact sound_number hdigits (by decide) (by decide)

end Query

end Microchain.Starter
