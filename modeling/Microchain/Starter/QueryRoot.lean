import Microchain.Graphql.Termination
import Microchain.Starter.Query

/-!
# The query root (`Query` in `starter-micro-chain.cpp`)

The reflected types a query can reach from the root, each with its members in the order
of its `EOSIO_REFLECT` list, and the exported function `query`. `hashName` is
`eosio::hash_name`, the conversion of a string to a name; it does not fail.
-/

namespace Microchain.Starter

open Eosio Subchain Lib Graphql

/-- A value of a reflected type. -/
inductive QueryObject where
  | query (m : MicroChain)
  | blockLog (log : BlockLog)
  | blockConnection (conn : Connection BlockWithId)
  | blockEdge (edge : Edge BlockWithId)
  | greetingConnection (conn : Connection GreetingNode)
  | greetingEdge (edge : Edge GreetingNode)
  | pageInfo (pageInfo : PageInfo)
  | greeting (node : GreetingNode)
  | blockWithId (block : BlockWithId)
  | eosioBlock (block : EosioBlock)
  | transaction (transaction : Transaction)
  | action (action : Action)
  | creatorAction (action : CreatorAction)

/-- A pointer or an optional. -/
def pointer : Option (Value QueryObject) → Value QueryObject
  | some value => .ref value
  | none => .null

/-- A pointer to a block. -/
def blockPointer (block : Option BlockWithId) : Value QueryObject :=
  pointer (block.map fun block => .object (.blockWithId block))

/-- A `uint32_t` argument. -/
def uint32Type : ArgType := .integer 0 4294967295

def ArgValue.toUint32 : ArgValue → Option UInt32
  | .number value => some (UInt32.ofNat value.toNat)
  | _ => none

def ArgValue.toName : ArgValue → Option Name
  | .name value => some value
  | _ => none

def ArgValue.toBytes : ArgValue → Option Bytes
  | .string value => some value
  | _ => none

/-- The arguments of a connection, with the type of its keys. -/
def connectionParams (keyType : ArgType) : List Param :=
  [⟨ascii "gt", keyType, true⟩, ⟨ascii "ge", keyType, true⟩, ⟨ascii "lt", keyType, true⟩,
    ⟨ascii "le", keyType, true⟩, ⟨ascii "first", uint32Type, true⟩,
    ⟨ascii "last", uint32Type, true⟩, ⟨ascii "before", .string, true⟩,
    ⟨ascii "after", .string, true⟩]

/-- The call of a connection method: the arguments in the order of its parameters. -/
def callConnection {κ ν : Type} (toKey : ArgValue → Option κ)
    (connection : RangeArgs κ → PageArgs → Except String (Connection ν))
    (toObject : Connection ν → QueryObject) (args : List (Option ArgValue)) :
    Except String (Value QueryObject) :=
  let arg {α : Type} (i : Nat) (convert : ArgValue → Option α) : Option α :=
    (args[i]?.join).bind convert
  (connection { gt := arg 0 toKey, ge := arg 1 toKey, lt := arg 2 toKey, le := arg 3 toKey }
    { first := arg 4 ArgValue.toUint32, last := arg 5 ArgValue.toUint32,
      before := arg 6 ArgValue.toBytes, after := arg 7 ArgValue.toBytes }).map
    fun conn => .object (toObject conn)

/-- The call of a method with one block number. -/
def callByNum (block : UInt32 → Option BlockWithId) (args : List (Option ArgValue)) :
    Except String (Value QueryObject) :=
  .ok (blockPointer ((args[0]?.join.bind ArgValue.toUint32).bind block))

def scalarField (name : String) (value : Scalar) : Member QueryObject :=
  .field (ascii name) (.scalar value)

def objectField (name : String) (object : QueryObject) : Member QueryObject :=
  .field (ascii name) (.object object)

def listField {α : Type} (name : String) (toObject : α → QueryObject) (elems : List α) :
    Member QueryObject :=
  .field (ascii name) (.list (elems.map fun x => .object (toObject x)))

/-- What `eosio_for_each_field` visits. -/
def queryMembers (hashName : Bytes → Name) : QueryObject → List (Member QueryObject)
  | .query m =>
    [objectField "blockLog" (.blockLog m.blockLog),
      .method (ascii "greetings")
        (connectionParams (.fromString fun s => .ok (.name (hashName s))))
        (callConnection ArgValue.toName (Query.greetings m) .greetingConnection)]
  | .blockLog log =>
    [.method (ascii "blocks") (connectionParams uint32Type)
        (callConnection ArgValue.toUint32 (makeConnection (blockContainer log) blockSchema)
          .blockConnection),
      .method (ascii "head") [] fun _ => .ok (blockPointer log.head),
      .method (ascii "irreversible") [] fun _ => .ok (blockPointer (log.blockByNum log.irreversible)),
      .method (ascii "blockByNum") [⟨ascii "num", uint32Type, false⟩] (callByNum log.blockByNum),
      .method (ascii "blockByEosioNum") [⟨ascii "num", uint32Type, false⟩]
        (callByNum log.blockByEosioNum)]
  | .blockConnection conn =>
    [listField "edges" .blockEdge conn.edges, objectField "pageInfo" (.pageInfo conn.pageInfo)]
  | .blockEdge edge =>
    [.field (ascii "node") (.ref (.object (.blockWithId edge.node))),
      scalarField "cursor" (.string edge.cursor)]
  | .greetingConnection conn =>
    [listField "edges" .greetingEdge conn.edges, objectField "pageInfo" (.pageInfo conn.pageInfo)]
  | .greetingEdge edge =>
    [objectField "node" (.greeting edge.node), scalarField "cursor" (.string edge.cursor)]
  | .pageInfo pageInfo =>
    [scalarField "hasPreviousPage" (.boolean pageInfo.hasPreviousPage),
      scalarField "hasNextPage" (.boolean pageInfo.hasNextPage),
      scalarField "startCursor" (.string pageInfo.startCursor),
      scalarField "endCursor" (.string pageInfo.endCursor)]
  | .greeting node =>
    [scalarField "account" (.name node.account),
      .method (ascii "message") [] fun _ =>
        .ok (pointer (node.greeting.map fun greeting => .scalar (.string greeting.message)))]
  | .blockWithId block =>
    [scalarField "id" (.checksum256 block.id), scalarField "num" (.uint32 block.num),
      scalarField "previous" (.checksum256 block.previous),
      objectField "eosioBlock" (.eosioBlock block.eosioBlock)]
  | .eosioBlock block =>
    [scalarField "num" (.uint32 block.num), scalarField "id" (.checksum256 block.id),
      scalarField "previous" (.checksum256 block.previous),
      scalarField "timestamp" (.timePoint block.timestamp),
      listField "transactions" .transaction block.transactions]
  | .transaction trx =>
    [scalarField "id" (.checksum256 trx.id), listField "actions" .action trx.actions]
  | .action action =>
    [scalarField "seq" (.uint64 action.seq), scalarField "firstReceiver" (.name action.firstReceiver),
      scalarField "receiver" (.name action.receiver), scalarField "name" (.name action.name),
      .field (ascii "creatorAction")
        (pointer (action.creatorAction.map fun creator => .object (.creatorAction creator))),
      scalarField "hexData" (.bytes action.hexData)]
  | .creatorAction creator =>
    [scalarField "seq" (.uint64 creator.seq), scalarField "receiver" (.name creator.receiver)]

/-- The exported function `query`: what it puts into `result`. -/
def MicroChain.query (hashName : Bytes → Name) (toJson : Scalar → Bytes) (m : MicroChain)
    (query vars : Bytes) (fuel : Nat) : Run String Bytes :=
  gqlQueryString (queryMembers hashName) toJson fuel (.object (.query m)) query vars

/-- A stream at a punctuator, with the rest of the input. -/
def atPunct (c : Char) (rest : String) : GqlStream :=
  ⟨ascii rest, .punctuator, [c.toUInt8], c.toUInt8⟩

/-- **A query that never returns**: on an empty chain the head is null, and its selection
set holds a character that starts no token. -/
theorem query_diverges : ¬ ∃ (hashName : Bytes → Name) (toJson : Scalar → Bytes),
    Terminates (MicroChain.query hashName toJson { starterAccount := Name.ofString "starter" }
      (ascii "\x7bblockLog\x7bhead\x7b?\x7d\x7d\x7d") []) := by
  rintro ⟨hashName, toJson, hterm⟩
  refine not_terminates_iff.mpr ?_ hterm
  have hnew : GqlStream.new (ascii "\x7bblockLog\x7bhead\x7b?\x7d\x7d\x7d") =
      atPunct '{' "blockLog\x7bhead\x7b?\x7d\x7d\x7d" := by decide +kernel
  have hblockLog : gqlFieldName (atPunct '{' "blockLog\x7bhead\x7b?\x7d\x7d\x7d").skip =
      .returns (ascii "blockLog", ascii "blockLog", atPunct '{' "head\x7b?\x7d\x7d\x7d") := by
    decide +kernel
  have hhead : gqlFieldName (atPunct '{' "head\x7b?\x7d\x7d\x7d").skip =
      .returns (ascii "head", ascii "head", atPunct '{' "?\x7d\x7d\x7d") := by
    decide +kernel
  have herror : (atPunct '{' "?\x7d\x7d\x7d").skip.currentType = .error := by decide +kernel
  have hskips : Skips (queryMembers hashName) toJson
      (.object (.query { starterAccount := Name.ofString "starter" }))
      (atPunct '{' "blockLog\x7bhead\x7b?\x7d\x7d\x7d") (atPunct '{' "?\x7d\x7d\x7d") := by
    refine .object rfl (.here _) ⟨by decide +kernel, _, objectField "blockLog" (.blockLog {}),
      hblockLog, ?_, 0, rfl⟩ ?_
    · exact List.find?_cons_of_pos (decide_eq_true rfl)
    refine .object rfl (.here _) ⟨by decide +kernel, _,
      .method (ascii "head") [] fun _ => .ok (blockPointer none), hhead, ?_, 0, rfl⟩ (.null _)
    rw [queryMembers, List.find?_cons_of_neg (by decide +kernel)]
    exact List.find?_cons_of_pos (decide_eq_true rfl)
  have hbad : BadSelectionSet (atPunct '{' "?\x7d\x7d\x7d") :=
    ⟨rfl, errorBeforeClose_error herror⟩
  exact gqlQueryString_diverges _ _ (by rw [hnew]; rfl) hskips hbad

end Microchain.Starter
