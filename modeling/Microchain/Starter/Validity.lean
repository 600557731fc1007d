import Microchain.Graphql.ToJson
import Microchain.Graphql.Uniformity
import Microchain.Starter.Cursors

/-!
# Whether a query is valid depends on the data

A value that is there is checked against its type by `gql_query`; of a null and of an
empty list `gql_skip_selection_set` skips the selection set unread. So the same query can
be answered over one chain and be an error over another.

`queryTypeMembers hashName deep` are the types behind the query root, as values. With
`deep` they hold everything that some chain has: such a query is valid over every chain.
Without they hold only what every chain has.

- `query_uniform_iff`: **when the data does not matter**. The query is valid for everything
  a chain can hold, or not even for what every chain holds;
- `query_not_uniform`: two states of one run between which it does.
-/

namespace Microchain.Starter

open Eosio Subchain Chainbase Lib Graphql

/-! ## The types -/

/-- A type that a query can reach. A connection shows whether it can have edges. -/
inductive QueryType where
  | query
  | blockLog
  | blockConnection (edges : Bool)
  | blockEdge
  | greetingConnection (edges : Bool)
  | greetingEdge
  | pageInfo
  | greeting
  | blockWithId
  | eosioBlock
  | transaction
  | action
  | creatorAction
deriving DecidableEq, Repr

/-- A value that can be missing. -/
def optionalType (present : Bool) (type : Value QueryType) : Value QueryType :=
  if present then .ref type else .null

/-- A container that can be empty. -/
def listType (present : Bool) (type : QueryType) : Value QueryType :=
  .list (if present then [.object type] else [])

/-- Some key fits the arguments of a connection. -/
def MayHaveEdges {κ : Type} (key : Key κ) (range : RangeArgs κ) (args : PageArgs)
    (after before : Option κ) : Prop :=
  args.HasRoom ∧ ∃ k, range.selects key after before k

open Classical in
/-- What a connection method returns. It aborts on the cursors alone. -/
noncomputable def connectionType {κ : Type} (deep : Bool) (key : Key κ)
    (toKey : ArgValue → Option κ) (toType : Bool → QueryType) (args : List (Option ArgValue)) :
    Except String (Value QueryType) := do
  let after ← keyFromHex key (pageArgs args).after
  let before ← keyFromHex key (pageArgs args).before
  .ok (.object (toType
    (deep && decide (MayHaveEdges key (rangeArgs toKey args) (pageArgs args) after before))))

/-- What a method with one block number returns. -/
def byNumType (deep : Bool) (args : List (Option ArgValue)) : Except String (Value QueryType) :=
  .ok (optionalType (deep && (args[0]?.join.bind ArgValue.toUint32).isSome) (.object .blockWithId))

def scalarMember (name : String) : Member QueryType :=
  .field (ascii name) (.scalar (.boolean false))

def objectMember (name : String) (type : QueryType) : Member QueryType :=
  .field (ascii name) (.object type)

/-- The members of a type, as `queryMembers` has them. -/
noncomputable def queryTypeMembers (hashName : Bytes → Name) (deep : Bool) :
    QueryType → List (Member QueryType)
  | .query =>
    [objectMember "blockLog" .blockLog,
      .method (ascii "greetings")
        (connectionParams (.fromString fun s => .ok (.name (hashName s))))
        (connectionType deep nameKey ArgValue.toName .greetingConnection)]
  | .blockLog =>
    [.method (ascii "blocks") (connectionParams uint32Type)
        (connectionType deep uint32Key ArgValue.toUint32 .blockConnection),
      .method (ascii "head") [] fun _ => .ok (optionalType deep (.object .blockWithId)),
      .method (ascii "irreversible") [] fun _ => .ok (optionalType deep (.object .blockWithId)),
      .method (ascii "blockByNum") [⟨ascii "num", uint32Type, false⟩] (byNumType deep),
      .method (ascii "blockByEosioNum") [⟨ascii "num", uint32Type, false⟩] (byNumType deep)]
  | .blockConnection edges =>
    [.field (ascii "edges") (listType edges .blockEdge), objectMember "pageInfo" .pageInfo]
  | .blockEdge =>
    [.field (ascii "node") (.ref (.object .blockWithId)), scalarMember "cursor"]
  | .greetingConnection edges =>
    [.field (ascii "edges") (listType edges .greetingEdge), objectMember "pageInfo" .pageInfo]
  | .greetingEdge => [objectMember "node" .greeting, scalarMember "cursor"]
  | .pageInfo =>
    [scalarMember "hasPreviousPage", scalarMember "hasNextPage", scalarMember "startCursor",
      scalarMember "endCursor"]
  | .greeting =>
    [scalarMember "account",
      .method (ascii "message") [] fun _ =>
        .ok (optionalType deep (.scalar (.boolean false)))]
  | .blockWithId =>
    [scalarMember "id", scalarMember "num", scalarMember "previous",
      objectMember "eosioBlock" .eosioBlock]
  | .eosioBlock =>
    [scalarMember "num", scalarMember "id", scalarMember "previous", scalarMember "timestamp",
      .field (ascii "transactions") (listType deep .transaction)]
  | .transaction =>
    [scalarMember "id", .field (ascii "actions") (listType deep .action)]
  | .action =>
    [scalarMember "seq", scalarMember "firstReceiver", scalarMember "receiver",
      scalarMember "name",
      .field (ascii "creatorAction") (optionalType deep (.object .creatorAction)),
      scalarMember "hexData"]
  | .creatorAction => [scalarMember "seq", scalarMember "receiver"]

/-! ## The states -/

/-- The log and the table have the invariants of their types. -/
structure MicroChain.Consistent (m : MicroChain) : Prop where
  log : m.blockLog.WellFormed
  table : Store [orderedByPk] m.db.greetings

/-- No blocks and no greetings. -/
structure MicroChain.IsEmpty (m : MicroChain) : Prop where
  log : m.blockLog.blocks = []
  table : byPk m.db.greetings = []

/-- Every state of a run is consistent. -/
theorem stateAfter_consistent {sha256 : Bytes → Checksum256} {starterAccount : Name}
    {calls : List Call} (h : (ChainRun.start starterAccount).Unaborted sha256 calls) :
    (stateAfter sha256 starterAccount calls).Consistent := by
  have hinv := ChainRun.run_inv (ChainRun.inv_start starterAccount) h
  exact ⟨hinv.log, hinv.table.store⟩

/-! ## A state has no more in it than its type -/

/-- The object is a value of the type, and holds nothing that the type does not. -/
inductive Within (deep : Bool) : QueryObject → QueryType → Prop
  | query {m : MicroChain} (hm : m.Consistent) (h : deep = false → m.IsEmpty) :
    Within deep (.query m) .query
  | blockLog {log : BlockLog} (hlog : log.WellFormed) (h : deep = false → log.blocks = []) :
    Within deep (.blockLog log) .blockLog
  | blockConnection {conn : Connection BlockWithId} {edges : Bool}
      (h : conn.edges ≠ [] → edges = true ∧ deep = true) :
      Within deep (.blockConnection conn) (.blockConnection edges)
  | greetingConnection {conn : Connection GreetingNode} {edges : Bool}
      (h : conn.edges ≠ [] → edges = true ∧ deep = true) :
      Within deep (.greetingConnection conn) (.greetingConnection edges)
  | pageInfo (pageInfo : PageInfo) : Within deep (.pageInfo pageInfo) .pageInfo
  | blockEdge (edge : Edge BlockWithId) (h : deep = true) : Within deep (.blockEdge edge) .blockEdge
  | greetingEdge (edge : Edge GreetingNode) (h : deep = true) :
    Within deep (.greetingEdge edge) .greetingEdge
  | greeting (node : GreetingNode) (h : deep = true) : Within deep (.greeting node) .greeting
  | blockWithId (block : BlockWithId) (h : deep = true) :
    Within deep (.blockWithId block) .blockWithId
  | eosioBlock (block : EosioBlock) (h : deep = true) : Within deep (.eosioBlock block) .eosioBlock
  | transaction (trx : Transaction) (h : deep = true) :
    Within deep (.transaction trx) .transaction
  | action (action : Action) (h : deep = true) : Within deep (.action action) .action
  | creatorAction (action : CreatorAction) (h : deep = true) :
    Within deep (.creatorAction action) .creatorAction

section Sparser

variable {R : QueryObject → QueryType → Prop}

theorem scalarField_sparser (name : String) (value : Scalar) :
    MemberSparser R (scalarField name value) (scalarMember name) := .field _ (.scalar _ _)

theorem objectField_sparser (name : String) {object : QueryObject} {type : QueryType}
    (h : R object type) : MemberSparser R (objectField name object) (objectMember name type) :=
  .field _ (.object h)

theorem list_sparser {α : Type} {toObject : α → QueryObject} {elems : List α} {type : QueryType}
    {present : Bool} (h : ∀ x ∈ elems, present = true ∧ R (toObject x) type) :
    Sparser R (.list (elems.map fun x => .object (toObject x))) (listType present type) := by
  refine .list (fun _ => .object type) (fun elem helem => ?_) fun elem helem => ?_
  all_goals
    obtain ⟨x, hx, rfl⟩ := List.mem_map.mp helem
    obtain ⟨hpresent, hobject⟩ := h x hx
  · rw [hpresent]
    exact List.mem_singleton.mpr rfl
  · exact .object hobject

theorem pointer_sparser {value : Option (Value QueryObject)} {type : Value QueryType}
    {present : Bool} (h : ∀ v, value = some v → present = true ∧ Sparser R v type) :
    Sparser R (pointer value) (optionalType present type) := by
  cases value with
  | none => exact .null _
  | some v =>
    obtain ⟨hpresent, hv⟩ := h v rfl
    rw [hpresent]
    exact .ref hv

theorem blockPointer_sparser {block : Option BlockWithId} {present : Bool}
    (h : ∀ b, block = some b → present = true ∧ R (.blockWithId b) .blockWithId) :
    Sparser R (blockPointer block) (optionalType present (.object .blockWithId)) := by
  refine pointer_sparser fun v hv => ?_
  obtain ⟨b, hb, rfl⟩ := Option.map_eq_some_iff.mp hv
  obtain ⟨hpresent, hobject⟩ := h b hb
  exact ⟨hpresent, .object hobject⟩

end Sparser

/-! ### Connections -/

section Connections

variable {κ α ν : Type}

open Classical in
/-- The type of a connection, once its cursors are read. -/
theorem connectionType_of_keys (deep : Bool) {key : Key κ} (toKey : ArgValue → Option κ)
    (toType : Bool → QueryType) {args : List (Option ArgValue)} {after before : Option κ}
    (hafter : keyFromHex key (pageArgs args).after = .ok after)
    (hbefore : keyFromHex key (pageArgs args).before = .ok before) :
    ∃ edges, connectionType deep key toKey toType args = .ok (.object (toType edges)) ∧
      (edges = true ↔ deep = true ∧
        MayHaveEdges key (rangeArgs toKey args) (pageArgs args) after before) := by
  refine ⟨deep && decide (MayHaveEdges key (rangeArgs toKey args) (pageArgs args) after before),
    ?_, by simp⟩
  rw [connectionType, hafter, hbefore]
  rfl

theorem connectionType_ok {deep : Bool} {key : Key κ} {toKey : ArgValue → Option κ}
    {toType : Bool → QueryType} {args : List (Option ArgValue)} {value : Value QueryType}
    (h : connectionType deep key toKey toType args = .ok value) :
    ∃ after before, keyFromHex key (pageArgs args).after = .ok after ∧
      keyFromHex key (pageArgs args).before = .ok before := by
  unfold connectionType at h
  obtain ⟨after, hafter, h⟩ := ok_of_bind h
  obtain ⟨before, hbefore, -⟩ := ok_of_bind h
  exact ⟨after, before, hafter, hbefore⟩

theorem makeConnection_ok {c : Container κ α} {S : Schema κ α ν} {args : PageArgs}
    {after before : Option κ} (hafter : keyFromHex S.key args.after = .ok after)
    (hbefore : keyFromHex S.key args.before = .ok before) (range : RangeArgs κ) :
    ∃ conn, makeConnection c S range args = .ok conn := by
  rw [makeConnection, hafter, hbefore]
  dsimp only [bind, Except.bind]
  split <;> exact ⟨_, rfl⟩

/-- A connection has edges only where its type has. -/
theorem callConnection_sparser {R : QueryObject → QueryType → Prop} {deep : Bool}
    {c : Container κ α} {S : Schema κ α ν} (hc : c.Ordered S)
    (hdeep : deep = false → c.elems = []) {toKey : ArgValue → Option κ}
    {toObject : Connection ν → QueryObject} {toType : Bool → QueryType}
    (hR : ∀ conn edges, (conn.edges ≠ [] → edges = true ∧ deep = true) →
      R (toObject conn) (toType edges))
    {args : List (Option ArgValue)} {value' : Value QueryType}
    (h : connectionType deep S.key toKey toType args = .ok value') :
    ∃ value, callConnection toKey (makeConnection c S) toObject args = .ok value ∧
      Sparser R value value' := by
  obtain ⟨after, before, hafter, hbefore⟩ := connectionType_ok h
  obtain ⟨edges, heq, hedges⟩ := connectionType_of_keys deep toKey toType hafter hbefore
  obtain rfl := Except.ok.inj (h.symm.trans heq)
  obtain ⟨conn, hconn⟩ := makeConnection_ok (c := c) hafter hbefore (rangeArgs toKey args)
  refine ⟨.object (toObject conn), ?_, .object (hR conn edges fun hne => ?_)⟩
  · show (makeConnection c S (rangeArgs toKey args) (pageArgs args)).map _ = _
    rw [hconn]
    rfl
  · obtain ⟨hroom, k, hk, hselects⟩ := (makeConnection_ne_nil_iff hc hafter hbefore hconn).mp hne
    have hdeep : deep = true := by
      by_contra hnot
      rw [Container.keys, hdeep (Bool.eq_false_iff.mpr hnot)] at hk
      cases hk
    exact ⟨hedges.mpr ⟨hdeep, hroom, k, hselects⟩, hdeep⟩

end Connections

theorem blockByNum_mem {log : BlockLog} {num : UInt32} {b : BlockWithId}
    (h : log.blockByNum num = some b) : b ∈ log.blocks :=
  List.mem_of_getElem? (Option.filter_eq_some_iff.mp h).1

theorem blockByEosioNum_mem {log : BlockLog} {num : UInt32} {b : BlockWithId}
    (h : log.blockByEosioNum num = some b) : b ∈ log.blocks :=
  List.mem_of_getElem? (Option.filter_eq_some_iff.mp h).1

/-- **No consistent state holds anything that its type does not.** -/
theorem within_simulates (hashName : Bytes → Name) (deep : Bool) :
    Simulates (queryMembers hashName) (queryTypeMembers hashName deep) (Within deep) := by
  intro object type h
  cases h with
  | @query m hm h =>
    refine .cons (objectField_sparser _ (.blockLog hm.log fun hd => (h hd).log)) (.cons ?_ .nil)
    refine .method _ _ fun args value' hvalue' => ?_
    exact callConnection_sparser (greetings_ordered hm.table) (fun hd => (h hd).table)
      (fun conn edges hconn => .greetingConnection hconn) hvalue'
  | @blockLog log hlog h =>
    -- a log with a block is not that of the empty state
    have hdeep : ∀ {b}, b ∈ log.blocks → deep = true := by
      intro b hb
      by_contra hnot
      rw [h (Bool.eq_false_iff.mpr hnot)] at hb
      cases hb
    have hblock : ∀ {block : Option BlockWithId}, (∀ b, block = some b → b ∈ log.blocks) →
        Sparser (Within deep) (blockPointer block) (optionalType deep (.object .blockWithId)) :=
      fun hmem => blockPointer_sparser fun b hb =>
        ⟨hdeep (hmem b hb), .blockWithId b (hdeep (hmem b hb))⟩
    have hbyNum : ∀ {block : UInt32 → Option BlockWithId},
        (∀ num b, block num = some b → b ∈ log.blocks) → ∀ args value', byNumType deep args = .ok value' →
        ∃ value, callByNum block args = .ok value ∧ Sparser (Within deep) value value' := by
      rintro block hmem args _ ⟨⟩
      refine ⟨_, rfl, blockPointer_sparser fun b hb => ?_⟩
      obtain ⟨num, hnum, hb⟩ := Option.bind_eq_some_iff.mp hb
      have hdeep := hdeep (hmem num b hb)
      exact ⟨by rw [hdeep, hnum]; rfl, .blockWithId b hdeep⟩
    refine .cons (.method _ _ fun args value' hvalue' => ?_)
      (.cons (.method _ _ fun args value' hvalue' => ?_)
        (.cons (.method _ _ fun args value' hvalue' => ?_)
          (.cons (.method _ _ (hbyNum fun num b => blockByNum_mem))
            (.cons (.method _ _ (hbyNum fun num b => blockByEosioNum_mem)) .nil))))
    · exact callConnection_sparser (blocks_ordered hlog.linked) h
        (fun conn edges hconn => .blockConnection hconn) hvalue'
    · cases hvalue'
      exact ⟨_, rfl, hblock fun b hb => List.mem_of_getLast? hb⟩
    · cases hvalue'
      exact ⟨_, rfl, hblock fun b hb => blockByNum_mem hb⟩
  | blockConnection h =>
    refine .cons (.field _ (list_sparser fun edge hedge => ?_))
      (.cons (objectField_sparser _ (.pageInfo _)) .nil)
    obtain ⟨hedges, hdeep⟩ := h (List.ne_nil_of_mem hedge)
    exact ⟨hedges, .blockEdge edge hdeep⟩
  | greetingConnection h =>
    refine .cons (.field _ (list_sparser fun edge hedge => ?_))
      (.cons (objectField_sparser _ (.pageInfo _)) .nil)
    obtain ⟨hedges, hdeep⟩ := h (List.ne_nil_of_mem hedge)
    exact ⟨hedges, .greetingEdge edge hdeep⟩
  | pageInfo pageInfo =>
    exact .cons (scalarField_sparser _ _) (.cons (scalarField_sparser _ _)
      (.cons (scalarField_sparser _ _) (.cons (scalarField_sparser _ _) .nil)))
  | blockEdge edge hdeep =>
    exact .cons (.field _ (.ref (.object (.blockWithId edge.node hdeep))))
      (.cons (scalarField_sparser _ _) .nil)
  | greetingEdge edge hdeep =>
    exact .cons (objectField_sparser _ (.greeting edge.node hdeep))
      (.cons (scalarField_sparser _ _) .nil)
  | greeting node hdeep =>
    refine .cons (scalarField_sparser _ _) (.cons (.method _ _ fun args value' hvalue' => ?_) .nil)
    cases hvalue'
    refine ⟨_, rfl, pointer_sparser fun v hv => ⟨hdeep, ?_⟩⟩
    obtain ⟨g, -, rfl⟩ := Option.map_eq_some_iff.mp hv
    exact .scalar _ _
  | blockWithId block hdeep =>
    exact .cons (scalarField_sparser _ _) (.cons (scalarField_sparser _ _)
      (.cons (scalarField_sparser _ _)
        (.cons (objectField_sparser _ (.eosioBlock block.eosioBlock hdeep)) .nil)))
  | eosioBlock block hdeep =>
    refine .cons (scalarField_sparser _ _) (.cons (scalarField_sparser _ _)
      (.cons (scalarField_sparser _ _) (.cons (scalarField_sparser _ _) (.cons ?_ .nil))))
    exact .field _ (list_sparser fun trx _ => ⟨hdeep, .transaction trx hdeep⟩)
  | transaction trx hdeep =>
    refine .cons (scalarField_sparser _ _) (.cons ?_ .nil)
    exact .field _ (list_sparser fun action _ => ⟨hdeep, .action action hdeep⟩)
  | action action hdeep =>
    refine .cons (scalarField_sparser _ _) (.cons (scalarField_sparser _ _)
      (.cons (scalarField_sparser _ _) (.cons (scalarField_sparser _ _)
        (.cons ?_ (.cons (scalarField_sparser _ _) .nil)))))
    refine .field _ (pointer_sparser fun v hv => ⟨hdeep, ?_⟩)
    obtain ⟨creator, -, rfl⟩ := Option.map_eq_some_iff.mp hv
    exact .object (.creatorAction creator hdeep)
  | creatorAction creator hdeep =>
    exact .cons (scalarField_sparser _ _) (.cons (scalarField_sparser _ _) .nil)

/-! ## What a type has in it some object has -/

/-- An action with a creator. -/
def Action.Rich (action : Action) : Prop := ∃ creator, action.creatorAction = some creator

def Transaction.Rich (trx : Transaction) : Prop := ∃ action ∈ trx.actions, Action.Rich action

/-- A block with all that a block can hold. -/
def EosioBlock.Rich (block : EosioBlock) : Prop := ∃ trx ∈ block.transactions, Transaction.Rich trx

/-- The object holds everything that the type does. Without `deep` every state does. -/
inductive Outline (deep : Bool) : QueryType → QueryObject → Prop
  | query (m : MicroChain) (h : deep = false) : Outline deep .query (.query m)
  | blockLog (log : BlockLog) (h : deep = false) : Outline deep .blockLog (.blockLog log)
  | blockConnection {conn : Connection BlockWithId} {edges : Bool}
      (h : edges = true → ∃ edge ∈ conn.edges, EosioBlock.Rich edge.node.eosioBlock) :
      Outline deep (.blockConnection edges) (.blockConnection conn)
  | greetingConnection {conn : Connection GreetingNode} {edges : Bool}
      (h : edges = true → ∃ edge ∈ conn.edges, edge.node.greeting.isSome) :
      Outline deep (.greetingConnection edges) (.greetingConnection conn)
  | pageInfo (pageInfo : PageInfo) : Outline deep .pageInfo (.pageInfo pageInfo)
  | blockEdge {edge : Edge BlockWithId} (h : EosioBlock.Rich edge.node.eosioBlock) :
    Outline deep .blockEdge (.blockEdge edge)
  | greetingEdge {edge : Edge GreetingNode} (h : edge.node.greeting.isSome) :
    Outline deep .greetingEdge (.greetingEdge edge)
  | greeting {node : GreetingNode} (h : node.greeting.isSome) :
    Outline deep .greeting (.greeting node)
  | blockWithId {block : BlockWithId} (h : EosioBlock.Rich block.eosioBlock) :
    Outline deep .blockWithId (.blockWithId block)
  | eosioBlock {block : EosioBlock} (h : EosioBlock.Rich block) :
    Outline deep .eosioBlock (.eosioBlock block)
  | transaction {trx : Transaction} (h : Transaction.Rich trx) :
    Outline deep .transaction (.transaction trx)
  | action {action : Action} (h : Action.Rich action) : Outline deep .action (.action action)
  | creatorAction (action : CreatorAction) : Outline deep .creatorAction (.creatorAction action)

section Fuller

variable {R : QueryType → QueryObject → Prop}

theorem scalarField_fuller (name : String) (value : Scalar) :
    MemberSparser R (scalarMember name) (scalarField name value) := .field _ (.scalar _ _)

theorem objectField_fuller (name : String) {object : QueryObject} {type : QueryType}
    (h : R type object) : MemberSparser R (objectMember name type) (objectField name object) :=
  .field _ (.object h)

theorem list_fuller {α : Type} {toObject : α → QueryObject} {elems : List α} {type : QueryType}
    {present : Bool} (h : present = true → ∃ x ∈ elems, R type (toObject x)) :
    Sparser R (listType present type) (.list (elems.map fun x => .object (toObject x))) := by
  cases present with
  | false => exact .list (fun _ => .null) (List.forall_mem_nil _) (List.forall_mem_nil _)
  | true =>
    obtain ⟨x, hx, hobject⟩ := h rfl
    refine .list (fun _ => .object (toObject x)) (fun elem _ => ?_) fun elem helem => ?_
    · exact List.mem_map.mpr ⟨x, hx, rfl⟩
    · obtain rfl := List.mem_singleton.mp helem
      exact .object hobject

theorem pointer_fuller {value : Option (Value QueryObject)} {type : Value QueryType}
    {present : Bool} (h : present = true → ∃ v, value = some v ∧ Sparser R type v) :
    Sparser R (optionalType present type) (pointer value) := by
  cases present with
  | false => exact .null _
  | true =>
    obtain ⟨v, rfl, hv⟩ := h rfl
    exact .ref hv

theorem blockPointer_fuller {block : Option BlockWithId} {present : Bool}
    (h : present = true → ∃ b, block = some b ∧ R .blockWithId (.blockWithId b)) :
    Sparser R (optionalType present (.object .blockWithId)) (blockPointer block) := by
  refine pointer_fuller fun hpresent => ?_
  obtain ⟨b, rfl, hb⟩ := h hpresent
  exact ⟨_, rfl, .object hb⟩

end Fuller

section Connections

variable {κ α ν : Type} {c : Container κ α} {S : Schema κ α ν}

theorem keys_of_makeConnection {range : RangeArgs κ} {args : PageArgs} {conn : Connection ν}
    (h : makeConnection c S range args = .ok conn) :
    ∃ after before, keyFromHex S.key args.after = .ok after ∧
      keyFromHex S.key args.before = .ok before := by
  rw [makeConnection] at h
  obtain ⟨after, hafter, h⟩ := ok_of_bind h
  obtain ⟨before, hbefore, -⟩ := ok_of_bind h
  exact ⟨after, before, hafter, hbefore⟩

theorem callConnection_ok {connection : RangeArgs κ → PageArgs → Except String (Connection ν)}
    {toKey : ArgValue → Option κ} {toObject : Connection ν → QueryObject}
    {args : List (Option ArgValue)} {value : Value QueryObject}
    (h : callConnection toKey connection toObject args = .ok value) :
    ∃ conn, connection (rangeArgs toKey args) (pageArgs args) = .ok conn ∧
      value = .object (toObject conn) := by
  have h : (connection (rangeArgs toKey args) (pageArgs args)).map
      (fun conn => Value.object (toObject conn)) = .ok value := h
  obtain ⟨conn, hconn, hvalue⟩ := ok_of_map h
  exact ⟨conn, hconn, hvalue.symm⟩

end Connections

/-- **Every state holds what its type without `deep` does, and some object what the type
with it does.** -/
theorem outline_simulates (hashName : Bytes → Name) (deep : Bool) :
    Simulates (queryTypeMembers hashName deep) (queryMembers hashName) (Outline deep) := by
  -- without `deep` the type of a connection has no edges, and its page info is always there
  have hconnection : ∀ {κ α ν : Type} {c : Container κ α} {S : Schema κ α ν}
      {toKey : ArgValue → Option κ} {toObject : Connection ν → QueryObject}
      {toType : Bool → QueryType}, deep = false →
      (∀ conn, Outline deep (toType false) (toObject conn)) → ∀ args value',
      callConnection toKey (makeConnection c S) toObject args = .ok value' →
      ∃ value, connectionType deep S.key toKey toType args = .ok value ∧
        Sparser (Outline deep) value value' := by
    intro κ α ν c S toKey toObject toType hdeep houtline args value' hvalue'
    obtain ⟨conn, hconn, rfl⟩ := callConnection_ok hvalue'
    obtain ⟨after, before, hafter, hbefore⟩ := keys_of_makeConnection hconn
    obtain ⟨edges, heq, hedges⟩ := connectionType_of_keys deep toKey toType hafter hbefore
    refine ⟨_, heq, .object ?_⟩
    have hnone : edges = false := Bool.eq_false_iff.mpr fun h => by
      rw [hdeep] at hedges
      cases (hedges.mp h).1
    rw [hnone]
    exact houtline conn
  intro type object h
  cases h with
  | query m hdeep =>
    refine .cons (objectField_fuller _ (.blockLog _ hdeep)) (.cons (.method _ _ ?_) .nil)
    exact hconnection hdeep fun conn => .greetingConnection fun h => by cases h
  | blockLog log hdeep =>
    have hblock : ∀ (block : Option BlockWithId) present, (present = true → deep = true) →
        Sparser (Outline deep) (optionalType present (.object .blockWithId)) (blockPointer block) :=
      fun block present himp => blockPointer_fuller fun hpresent => by
        rw [hdeep] at himp
        cases himp hpresent
    have hbyNum : ∀ {block : UInt32 → Option BlockWithId} args value',
        callByNum block args = .ok value' → ∃ value, byNumType deep args = .ok value ∧
          Sparser (Outline deep) value value' := by
      rintro block args _ ⟨⟩
      exact ⟨_, rfl, hblock _ _ fun h => (Bool.and_eq_true _ _ ▸ h).1⟩
    refine .cons (.method _ _ ?_) (.cons (.method _ _ ?_) (.cons (.method _ _ ?_)
      (.cons (.method _ _ hbyNum) (.cons (.method _ _ hbyNum) .nil))))
    · exact hconnection hdeep fun conn => .blockConnection fun h => by cases h
    · rintro args _ ⟨⟩
      exact ⟨_, rfl, hblock _ _ id⟩
    · rintro args _ ⟨⟩
      exact ⟨_, rfl, hblock _ _ id⟩
  | blockConnection h =>
    refine .cons (.field _ (list_fuller fun hedges => ?_))
      (.cons (objectField_fuller _ (.pageInfo _)) .nil)
    obtain ⟨edge, hedge, hrich⟩ := h hedges
    exact ⟨edge, hedge, .blockEdge hrich⟩
  | greetingConnection h =>
    refine .cons (.field _ (list_fuller fun hedges => ?_))
      (.cons (objectField_fuller _ (.pageInfo _)) .nil)
    obtain ⟨edge, hedge, hrich⟩ := h hedges
    exact ⟨edge, hedge, .greetingEdge hrich⟩
  | pageInfo pageInfo =>
    exact .cons (scalarField_fuller _ _) (.cons (scalarField_fuller _ _)
      (.cons (scalarField_fuller _ _) (.cons (scalarField_fuller _ _) .nil)))
  | blockEdge hrich =>
    exact .cons (.field _ (.ref (.object (.blockWithId hrich))))
      (.cons (scalarField_fuller _ _) .nil)
  | greetingEdge hrich =>
    exact .cons (objectField_fuller _ (.greeting hrich)) (.cons (scalarField_fuller _ _) .nil)
  | greeting hrich =>
    refine .cons (scalarField_fuller _ _) (.cons (.method _ _ ?_) .nil)
    rintro args _ ⟨⟩
    refine ⟨_, rfl, pointer_fuller fun _ => ?_⟩
    obtain ⟨greeting, hgreeting⟩ := Option.isSome_iff_exists.mp hrich
    exact ⟨_, by rw [hgreeting]; rfl, .scalar _ _⟩
  | blockWithId hrich =>
    exact .cons (scalarField_fuller _ _) (.cons (scalarField_fuller _ _)
      (.cons (scalarField_fuller _ _) (.cons (objectField_fuller _ (.eosioBlock hrich)) .nil)))
  | eosioBlock hrich =>
    obtain ⟨trx, htrx, hrich⟩ := hrich
    refine .cons (scalarField_fuller _ _) (.cons (scalarField_fuller _ _)
      (.cons (scalarField_fuller _ _) (.cons (scalarField_fuller _ _) (.cons ?_ .nil))))
    exact .field _ (list_fuller fun _ => ⟨trx, htrx, .transaction hrich⟩)
  | transaction hrich =>
    obtain ⟨action, haction, hrich⟩ := hrich
    refine .cons (scalarField_fuller _ _) (.cons ?_ .nil)
    exact .field _ (list_fuller fun _ => ⟨action, haction, .action hrich⟩)
  | action hrich =>
    obtain ⟨creator, hcreator⟩ := hrich
    refine .cons (scalarField_fuller _ _) (.cons (scalarField_fuller _ _)
      (.cons (scalarField_fuller _ _) (.cons (scalarField_fuller _ _)
        (.cons ?_ (.cons (scalarField_fuller _ _) .nil)))))
    refine .field _ (pointer_fuller fun _ => ?_)
    exact ⟨_, by rw [hcreator]; rfl, .object (.creatorAction creator)⟩
  | creatorAction creator =>
    exact .cons (scalarField_fuller _ _) (.cons (scalarField_fuller _ _) .nil)

/-! ## What is checked aborts nowhere -/

/-- An object behind the log and the connections. None of its methods aborts. -/
def IsData : QueryObject → Prop
  | .query _ => False
  | .blockLog _ => False
  | _ => True

theorem pointer_holds {P : QueryObject → Prop} {value : Option (Value QueryObject)}
    (h : ∀ v ∈ value, Holds P v) : Holds P (pointer value) := by
  cases value with
  | none => exact .null
  | some v => exact .ref (h v rfl)

theorem blockPointer_holds (block : Option BlockWithId) : Holds IsData (blockPointer block) := by
  refine pointer_holds fun v hv => ?_
  obtain ⟨b, -, rfl⟩ := Option.mem_map.mp hv
  exact .object trivial

theorem list_holds {α : Type} {toObject : α → QueryObject} {P : QueryObject → Prop}
    {elems : List α} (h : ∀ x, P (toObject x)) :
    Holds P (.list (elems.map fun x => .object (toObject x))) := by
  refine .list fun elem helem => ?_
  obtain ⟨x, -, rfl⟩ := List.mem_map.mp helem
  exact .object (h x)

theorem queryMembers_holds (hashName : Bytes → Name) (object : QueryObject) (h : IsData object) :
    ∀ member ∈ queryMembers hashName object, member.Holds IsData := by
  have hscalar : ∀ name value, (scalarField name value).Holds IsData := fun _ _ => .scalar _
  cases object with
  | query m => exact h.elim
  | blockLog log => exact h.elim
  | blockConnection conn =>
    simp only [queryMembers, List.forall_mem_cons]
    exact ⟨list_holds fun _ => trivial, .object trivial, List.forall_mem_nil _⟩
  | blockEdge edge =>
    simp only [queryMembers, List.forall_mem_cons]
    exact ⟨.ref (.object trivial), hscalar _ _, List.forall_mem_nil _⟩
  | greetingConnection conn =>
    simp only [queryMembers, List.forall_mem_cons]
    exact ⟨list_holds fun _ => trivial, .object trivial, List.forall_mem_nil _⟩
  | greetingEdge edge =>
    simp only [queryMembers, List.forall_mem_cons]
    exact ⟨.object trivial, hscalar _ _, List.forall_mem_nil _⟩
  | pageInfo pageInfo =>
    simp only [queryMembers, List.forall_mem_cons]
    exact ⟨hscalar _ _, hscalar _ _, hscalar _ _, hscalar _ _, List.forall_mem_nil _⟩
  | greeting node =>
    simp only [queryMembers, List.forall_mem_cons]
    refine ⟨hscalar _ _, ?_, List.forall_mem_nil _⟩
    rintro args _ ⟨⟩
    refine pointer_holds fun v hv => ?_
    obtain ⟨greeting, -, rfl⟩ := Option.mem_map.mp hv
    exact .scalar _
  | blockWithId block =>
    simp only [queryMembers, List.forall_mem_cons]
    exact ⟨hscalar _ _, hscalar _ _, hscalar _ _, .object trivial, List.forall_mem_nil _⟩
  | eosioBlock block =>
    simp only [queryMembers, List.forall_mem_cons]
    exact ⟨hscalar _ _, hscalar _ _, hscalar _ _, hscalar _ _, list_holds fun _ => trivial,
      List.forall_mem_nil _⟩
  | transaction trx =>
    simp only [queryMembers, List.forall_mem_cons]
    exact ⟨hscalar _ _, list_holds fun _ => trivial, List.forall_mem_nil _⟩
  | action action =>
    simp only [queryMembers, List.forall_mem_cons]
    refine ⟨hscalar _ _, hscalar _ _, hscalar _ _, hscalar _ _, pointer_holds fun v hv => ?_,
      hscalar _ _, List.forall_mem_nil _⟩
    obtain ⟨creator, -, rfl⟩ := Option.mem_map.mp hv
    exact .object trivial
  | creatorAction creator =>
    simp only [queryMembers, List.forall_mem_cons]
    exact ⟨hscalar _ _, hscalar _ _, List.forall_mem_nil _⟩

section Tame

variable (hashName : Bytes → Name) (toJson : Scalar → Bytes) (deep : Bool)

theorem quiet_of_holds {value : Value QueryObject} (h : Holds IsData value) :
    Quiet (queryMembers hashName) toJson value := by
  intro s message hfails
  obtain ⟨object, t, hreach, hfield⟩ := gqlQuery_aborts_iff.mp hfails
  -- only the root and the log have connections
  have hdata : IsData object := hreach.holds (queryMembers_holds hashName) h
  obtain ⟨size, args, hcalls, -⟩ := fieldFails_abort_iff.mp ⟨message, hfield⟩
  cases hcalls <;> exact hdata

/-- A connection aborts where its type does. -/
theorem callConnection_tame {κ α ν : Type} (c : Container κ α) (S : Schema κ α ν)
    {toKey : ArgValue → Option κ} (toObject : Connection ν → QueryObject)
    (hdata : ∀ conn, IsData (toObject conn)) {toType : Bool → QueryType}
    (args : List (Option ArgValue)) (value : Value QueryType)
    (h : connectionType deep S.key toKey toType args = .ok value) :
    ∃ value', callConnection toKey (makeConnection c S) toObject args = .ok value' ∧
      Tame (queryTypeMembers hashName deep) (queryMembers hashName) toJson value value' := by
  obtain ⟨after, before, hafter, hbefore⟩ := connectionType_ok h
  obtain ⟨conn, hconn⟩ := makeConnection_ok (c := c) hafter hbefore (rangeArgs toKey args)
  refine ⟨.object (toObject conn), ?_,
    (quiet_of_holds hashName toJson (.object (hdata conn))).tame value⟩
  show (makeConnection c S (rangeArgs toKey args) (pageArgs args)).map _ = _
  rw [hconn]
  rfl

/-- **Every state aborts only where its type does.** -/
theorem query_tame (m : MicroChain) : Tame (queryTypeMembers hashName deep)
    (queryMembers hashName) toJson (.object .query) (.object (.query m)) := by
  have hblock : ∀ (value : Value QueryType) (block : Option BlockWithId),
      Tame (queryTypeMembers hashName deep) (queryMembers hashName) toJson value
        (blockPointer block) :=
    fun value block => (quiet_of_holds hashName toJson (blockPointer_holds block)).tame value
  have hlog : Tame (queryTypeMembers hashName deep) (queryMembers hashName) toJson
      (.object .blockLog) (.object (.blockLog m.blockLog)) := by
    refine tame_object (.cons (.method _ _ ?_) (.cons (.method _ _ ?_) (.cons (.method _ _ ?_)
      (.cons (.method _ _ ?_) (.cons (.method _ _ ?_) .nil)))))
    · exact callConnection_tame hashName toJson deep (blockContainer m.blockLog) blockSchema
        .blockConnection fun _ => trivial
    all_goals exact fun args value _ => ⟨_, rfl, hblock value _⟩
  refine tame_object (.cons (.field _ hlog) (.cons (.method _ _ ?_) .nil))
  exact callConnection_tame hashName toJson deep (greetingContainer m.db.greetings) greetingSchema
    .greetingConnection fun _ => trivial

end Tame

/-! ## The states decide the types -/

/-- A consistent state. -/
abbrev State := { m : MicroChain // m.Consistent }

/-- A block with everything in it. -/
def richBlock (num : UInt32) : BlockWithId where
  num
  eosioBlock := { num, transactions := [{ actions := [{ creatorAction := some ⟨0, {}⟩ }] }] }

theorem richBlock_rich (num : UInt32) : EosioBlock.Rich (richBlock num).eosioBlock :=
  ⟨_, List.mem_singleton.mpr rfl, _, List.mem_singleton.mpr rfl, _, rfl⟩

/-- A log of one block, which is final. -/
def richLog (num : UInt32) : BlockLog := { blocks := [richBlock num], irreversible := num }

theorem richLog_blockByNum (num : UInt32) :
    (richLog num).blockByNum num = some (richBlock num) := by
  have hzero : (richLog num).lowerBoundByNum num = 0 := if_pos (UInt32.le_refl num)
  rw [BlockLog.blockByNum, hzero]
  exact Option.filter_eq_some_iff.mpr ⟨rfl, decide_eq_true rfl⟩

theorem richLog_blockByEosioNum (num : UInt32) :
    (richLog num).blockByEosioNum num = some (richBlock num) := by
  have hzero : (richLog num).lowerBoundByEosioNum num = 0 := by
    simp [BlockLog.lowerBoundByEosioNum, lowerBound, lowerBoundLoop, richLog, richBlock,
      getEosioNum]
  rw [BlockLog.blockByEosioNum, hzero]
  exact Option.filter_eq_some_iff.mpr ⟨rfl, decide_eq_true rfl⟩

theorem richLog_wellFormed (num : UInt32) : (richLog num).WellFormed where
  linked := .singleton _
  first := by
    rintro b ⟨⟩
    exact .inr (UInt32.le_refl num)
  irreversible_mem := .inr ⟨richBlock num, List.mem_singleton.mpr rfl, rfl⟩

theorem empty_consistent (starterAccount : Name) :
    MicroChain.Consistent { starterAccount } :=
  ⟨BlockLog.wellFormed_empty, (Refines.empty [orderedByPk]).store⟩

def emptyState : State := ⟨{ starterAccount := {} }, empty_consistent {}⟩

theorem emptyState_isEmpty : emptyState.1.IsEmpty := ⟨rfl, rfl⟩

/-- A chain of one block. -/
def blockState (num : UInt32) : State :=
  ⟨{ starterAccount := {}, blockLog := richLog num },
    richLog_wellFormed num, (Refines.empty [orderedByPk]).store⟩

/-- A table of one greeting. -/
def oneGreeting (account : Name) : GreetingIndex := (addOrReplace GreetingIndex.new ⟨account, []⟩).2

theorem oneGreeting_store (account : Name) : Store [orderedByPk] (oneGreeting account) := by
  have hnew : TableRefines GreetingIndex.new SnapshotTable.empty := Refines.empty [orderedByPk]
  obtain ⟨u, hu, hrefines⟩ := hnew.addOrReplace ⟨account, []⟩
  rw [oneGreeting, hu]
  exact hrefines.store

/-- A chain whose table has one greeting. -/
def greetingState (account : Name) : State :=
  ⟨{ starterAccount := {}, db := ⟨oneGreeting account⟩ }, BlockLog.wellFormed_empty,
    oneGreeting_store account⟩

section Decides

variable (hashName : Bytes → Name)

/-- One state whose value has all in it is enough. -/
theorem decides_of_state {type : Value QueryType} {values : State → Value QueryObject} (m : State)
    (h : Sparser (Outline true) type (values m)) :
    Decides (queryMembers hashName) (queryTypeMembers hashName true) (Set.range values) type :=
  decides_of_sparser (outline_simulates hashName true) (Set.mem_range_self m) h

/-- The connections of all states, by what they have in common: a state for every key. -/
theorem callConnection_decides {κ α ν : Type} (c : State → Container κ α) (S : Schema κ α ν)
    (toKey : ArgValue → Option κ) (toObject : Connection ν → QueryObject)
    (toType : Bool → QueryType) (edgeObject : Edge ν → QueryObject) (edgeType : QueryType)
    (hc : ∀ m, (c m).Ordered S)
    (hmembers : ∀ conn, queryMembers hashName (toObject conn) =
      [listField "edges" edgeObject conn.edges, objectField "pageInfo" (.pageInfo conn.pageInfo)])
    (htypes : ∀ edges, queryTypeMembers hashName true (toType edges) =
      [.field (ascii "edges") (listType edges edgeType), objectMember "pageInfo" .pageInfo])
    (hrich : ∀ k, ∃ m, k ∈ (c m).keys S ∧
      ∀ x ∈ (c m).elems, Outline true edgeType (edgeObject (edgeOf S x)))
    (args : List (Option ArgValue)) (values : State → Value QueryObject)
    (h : ∀ m, callConnection toKey (makeConnection (c m) S) toObject args = .ok (values m)) :
    ∃ type, connectionType true S.key toKey toType args = .ok type ∧
      Decides (queryMembers hashName) (queryTypeMembers hashName true) (Set.range values) type := by
  have hconns := fun m => callConnection_ok (h m)
  choose conn hconn hvalues using hconns
  obtain ⟨after, before, hafter, hbefore⟩ := keys_of_makeConnection (hconn emptyState)
  obtain ⟨edges, htype, hedges⟩ := connectionType_of_keys true toKey toType hafter hbefore
  refine ⟨_, htype, ?_⟩
  obtain rfl : (fun m => .object (toObject (conn m))) = values := funext fun m => (hvalues m).symm
  -- with room for an edge there is a state with one
  have hlist : Decides (queryMembers hashName) (queryTypeMembers hashName true)
      (Set.range fun m => .list ((conn m).edges.map fun edge => .object (edgeObject edge)))
      (listType edges edgeType) := by
    cases hcase : edges with
    | false => exact decides_of_state hashName emptyState (list_fuller fun h => by cases h)
    | true =>
      obtain ⟨-, hroom, k, hselects⟩ := hedges.mp hcase
      obtain ⟨m, hk, helems⟩ := hrich k
      refine decides_of_state hashName m (list_fuller fun _ => ?_)
      have hne := (makeConnection_ne_nil_iff (hc m) hafter hbefore (hconn m)).mpr
        ⟨hroom, k, hk, hselects⟩
      obtain ⟨edge, hedge⟩ := List.exists_mem_of_ne_nil _ hne
      obtain ⟨x, hx, rfl⟩ := makeConnection_fromElems (hconn m) edge hedge
      exact ⟨_, hedge, helems x hx⟩
  have hpage : Decides (queryMembers hashName) (queryTypeMembers hashName true)
      (Set.range fun m => .object (.pageInfo (conn m).pageInfo)) (.object .pageInfo) :=
    decides_of_state hashName emptyState (.object (.pageInfo _))
  refine decides_object emptyState [fun m => listField "edges" edgeObject (conn m).edges,
    fun m => objectField "pageInfo" (.pageInfo (conn m).pageInfo)] ?_ fun m => hmembers (conn m)
  rw [htypes]
  exact .cons (.field _ hlist) (.cons (.field _ hpage) .nil)

theorem byNum_decides {block : State → UInt32 → Option BlockWithId}
    (hrich : ∀ num, block (blockState num) num = some (richBlock num))
    (args : List (Option ArgValue)) (values : State → Value QueryObject)
    (h : ∀ m, callByNum (block m) args = .ok (values m)) :
    ∃ type, byNumType true args = .ok type ∧
      Decides (queryMembers hashName) (queryTypeMembers hashName true) (Set.range values) type := by
  refine ⟨_, rfl, ?_⟩
  obtain rfl : (fun m => blockPointer ((args[0]?.join.bind ArgValue.toUint32).bind (block m))) =
      values := funext fun m => Except.ok.inj (h m)
  cases args[0]?.join.bind ArgValue.toUint32 with
  -- without a number nothing is found, in no state and not by the type
  | none => exact decides_of_state hashName emptyState (.null _)
  | some num =>
    refine decides_of_state hashName (blockState num) (blockPointer_fuller fun _ => ?_)
    exact ⟨_, hrich num, .blockWithId (richBlock_rich num)⟩

theorem blockLog_decides :
    Decides (queryMembers hashName) (queryTypeMembers hashName true)
      (Set.range fun m : State => .object (.blockLog m.1.blockLog)) (.object .blockLog) := by
  have hfound : ∀ (block : State → Option BlockWithId),
      block (blockState 0) = some (richBlock 0) → ∀ (args : List (Option ArgValue)) values,
      (∀ m, (.ok (blockPointer (block m)) : Except String (Value QueryObject)) = .ok (values m)) →
      ∃ type, (.ok (optionalType true (.object .blockWithId)) : Except String (Value QueryType)) =
          .ok type ∧
        Decides (queryMembers hashName) (queryTypeMembers hashName true) (Set.range values) type := by
    intro block hblock args values h
    refine ⟨_, rfl, ?_⟩
    obtain rfl : (fun m => blockPointer (block m)) = values := funext fun m => Except.ok.inj (h m)
    refine decides_of_state hashName (blockState 0) (blockPointer_fuller fun _ => ?_)
    exact ⟨_, hblock, .blockWithId (richBlock_rich 0)⟩
  have hconnection := callConnection_decides hashName
    (fun m => blockContainer m.1.blockLog) blockSchema ArgValue.toUint32 .blockConnection
    .blockConnection .blockEdge .blockEdge (fun m => blocks_ordered m.2.log.linked)
    (fun _ => rfl) (fun _ => rfl) fun k => ⟨blockState k, List.mem_singleton.mpr rfl, fun x hx => by
      obtain rfl := List.mem_singleton.mp hx
      exact .blockEdge (richBlock_rich k)⟩
  refine decides_object emptyState [fun m => blocksMember m.1.blockLog,
    fun m => .method (ascii "head") [] fun _ => .ok (blockPointer m.1.blockLog.head),
    fun m => .method (ascii "irreversible") [] fun _ =>
      .ok (blockPointer (m.1.blockLog.blockByNum m.1.blockLog.irreversible)),
    fun m => .method (ascii "blockByNum") [⟨ascii "num", uint32Type, false⟩]
      (callByNum m.1.blockLog.blockByNum),
    fun m => .method (ascii "blockByEosioNum") [⟨ascii "num", uint32Type, false⟩]
      (callByNum m.1.blockLog.blockByEosioNum)] ?_ fun _ => rfl
  refine .cons (.method _ _ hconnection) (.cons (.method _ _ ?_) (.cons (.method _ _ ?_)
    (.cons (.method _ _ ?_) (.cons (.method _ _ ?_) .nil))))
  · exact hfound (fun m => m.1.blockLog.head) rfl
  · exact hfound (fun m => m.1.blockLog.blockByNum m.1.blockLog.irreversible) rfl
  · exact byNum_decides hashName fun num => richLog_blockByNum num
  · exact byNum_decides hashName fun num => richLog_blockByEosioNum num

/-- **What is valid over every consistent state is valid for the types.** -/
theorem query_decides :
    Decides (queryMembers hashName) (queryTypeMembers hashName true)
      (Set.range fun m : State => .object (.query m.1)) (.object .query) := by
  have hconnection := callConnection_decides hashName
    (fun m => greetingContainer m.1.db.greetings) greetingSchema ArgValue.toName
    .greetingConnection .greetingConnection .greetingEdge .greetingEdge
    (fun m => greetings_ordered m.2.table) (fun _ => rfl) (fun _ => rfl)
    fun k => ⟨greetingState k, List.mem_singleton.mpr rfl, fun x _ => .greetingEdge rfl⟩
  refine decides_object emptyState [fun m => objectField "blockLog" (.blockLog m.1.blockLog),
    fun m => greetingsMember hashName m.1] ?_ fun _ => rfl
  exact .cons (.field _ (blockLog_decides hashName)) (.cons (.method _ _ hconnection) .nil)

end Decides

/-! ## Validity over two states -/

/-- The errors form of an answer. -/
def IsErrors (toJson : Scalar → Bytes) (out : Bytes) : Prop :=
  ∃ message, out = errorsForm toJson message

section Uniform

variable (hashName : Bytes → Name) (toJson : Scalar → Bytes) (query vars : Bytes)

/-- Of any two states over which the query returns, it is an error for both or for none. -/
def Uniform : Prop :=
  ∀ m m' : MicroChain, m.Consistent → m'.Consistent → ∀ out out',
    Returns (m.query hashName toJson query vars) out →
    Returns (m'.query hashName toJson query vars) out' →
    (IsErrors toJson out ↔ IsErrors toJson out')

/-- The query is valid for the types behind the root. -/
def ValidForTypes (deep : Bool) : Prop :=
  Accepts (queryTypeMembers hashName deep) (.object .query) query

variable {hashName toJson query vars}

theorem ValidForTypes.accepts (h : ValidForTypes hashName query true) {m : MicroChain}
    (hm : m.Consistent) : Accepts (queryMembers hashName) (.object (.query m)) query :=
  accepts_of_sparser (within_simulates hashName true) (.object (.query hm fun h => by cases h)) h

theorem ValidForTypes.of_accepts {m : MicroChain}
    (h : Accepts (queryMembers hashName) (.object (.query m)) query) :
    ValidForTypes hashName query false :=
  accepts_of_sparser (outline_simulates hashName false) (.object (.query m rfl)) h

theorem ValidForTypes.accepts_empty (h : ValidForTypes hashName query false) :
    Accepts (queryMembers hashName) (.object (.query emptyState.1)) query :=
  accepts_of_sparser (within_simulates hashName false)
    (.object (.query emptyState.2 fun _ => emptyState_isEmpty)) h

/-- What is valid for what every chain has returns over every chain. -/
theorem ValidForTypes.returns (toJson : Scalar → Bytes) (h : ValidForTypes hashName query false)
    (m : MicroChain) : ∃ out, Returns (m.query hashName toJson query []) out :=
  (terminates_of_accepts h).returns
    fun message => not_aborts_of_accepts h (query_tame hashName toJson false m) message

theorem query_with_variables (m : MicroChain) (hvars : vars ≠ []) {out : Bytes}
    (h : Returns (m.query hashName toJson query vars) out) : IsErrors toJson out := by
  obtain ⟨fuel, h⟩ := h
  have h : gqlQueryString (queryMembers hashName) toJson fuel (.object (.query m)) query vars =
      .returns out := h
  rw [gqlQueryString, if_pos hvars] at h
  cases h
  exact ⟨_, rfl⟩

variable (hashName toJson query vars)

/-- **When the validity of a query does not depend on the data**: it is not looked at, or it
is valid for all that a chain can hold, or it is not valid for what every chain holds. -/
theorem query_uniform_iff : Uniform hashName toJson query vars ↔
    vars ≠ [] ∨ ValidForTypes hashName query true ∨ ¬ ValidForTypes hashName query false := by
  constructor
  · intro huniform
    by_contra hnot
    obtain ⟨hvars, hdeep, hvalid⟩ : vars = [] ∧ ¬ ValidForTypes hashName query true ∧
        ValidForTypes hashName query false := by
      simpa only [not_or, not_not] using hnot
    subst hvars
    -- some state has in it what is not valid, the empty one has not
    obtain ⟨m, hm⟩ : ∃ m : State,
        ¬ Accepts (queryMembers hashName) (.object (.query m.1)) query := by
      by_contra hall
      push Not at hall
      exact hdeep (accepts_of_decides emptyState (query_decides hashName) hall)
    obtain ⟨out, hout⟩ := hvalid.returns toJson emptyState.1
    obtain ⟨out', hout'⟩ := hvalid.returns toJson m.1
    have herrors := huniform _ _ emptyState.2 m.2 out out' hout hout'
    exact (isErrors_iff hout).mp (herrors.mpr ((isErrors_iff hout').mpr hm)) hvalid.accepts_empty
  · rintro (hvars | hdeep | hinvalid) m m' hm hm' out out' hout hout'
    · exact iff_of_true (query_with_variables m hvars hout) (query_with_variables m' hvars hout')
    all_goals
      by_cases hvars : vars = []
      swap
      · exact iff_of_true (query_with_variables m hvars hout) (query_with_variables m' hvars hout')
      subst hvars
      show (∃ message, _) ↔ ∃ message, _
      rw [isErrors_iff hout, isErrors_iff hout']
    · exact iff_of_false (not_not.mpr (hdeep.accepts hm)) (not_not.mpr (hdeep.accepts hm'))
    · exact iff_of_true (fun h => hinvalid (.of_accepts h)) fun h => hinvalid (.of_accepts h)

end Uniform

/-- **A query whose validity depends on the data**, over two states of a run: before the
first block the head is null and its selection set is skipped, with the field that a block
does not have. -/
theorem query_not_uniform : ¬ ∀ (hashName : Bytes → Name) (toJson : Scalar → Bytes)
    (sha256 : Bytes → Checksum256) (starterAccount : Name) (calls calls' : List Call)
    (query vars out out' : Bytes),
    Returns ((stateAfter sha256 starterAccount calls).query hashName toJson query vars) out →
    Returns ((stateAfter sha256 starterAccount calls').query hashName toJson query vars) out' →
    (IsErrors toJson out ↔ IsErrors toJson out') := by
  intro h
  have hquery := h (fun _ => {}) (Graphql.toJson fun buf => (decodeChar? buf).map Char.utf8Size)
    (fun _ => {}) (Name.ofString "starter") [] [.addBlock (.ok { num := 1 }) 0]
    (ascii "\x7bblockLog\x7bhead\x7bnope\x7d\x7d\x7d") []
    (ascii "\x7b\"data\": \x7b\"blockLog\":\x7b\"head\":null\x7d\x7d\x7d")
    (ascii "\x7b\"errors\": \x7b\"message\": \"nope not found\"\x7d\x7d")
    ⟨8, by decide +kernel⟩ ⟨8, by decide +kernel⟩
  obtain ⟨message, hmessage⟩ := hquery.mpr ⟨ascii "nope not found", by decide +kernel⟩
  exact data_ne_errorsForm (ascii "\x7b\"blockLog\":\x7b\"head\":null\x7d\x7d") message hmessage

end Microchain.Starter
