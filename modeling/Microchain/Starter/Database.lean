import Microchain.Chainbase.UndoIndex
import Microchain.Eosio.Name

/-!
# The micro chain's database

`chainbase::database` with the one table that `starter-micro-chain.cpp` registers,
the greetings, and the table helpers the handlers call.
-/

namespace Microchain.Starter

open Eosio Chainbase Lib

/-- `greeting` -/
structure Greeting where
  account : Name
  message : Bytes
deriving DecidableEq, Repr

/-- `ordered_by_pk<greeting_object>` -/
def orderedByPk : OrderedUnique Greeting where
  less a b := decide (a.value.account.value < b.value.account.value)
  strictWeak :=
    ⟨fun a b => by simp only [decide_eq_true_eq, UInt64.lt_iff_toNat_lt]; omega,
      fun a b c => by simp only [decide_eq_true_eq, UInt64.lt_iff_toNat_lt]; omega⟩

/-- `greeting_index` -/
abbrev GreetingIndex := UndoIndex Greeting

def GreetingIndex.new : GreetingIndex := UndoIndex.empty [orderedByPk]

/-- `get<by_pk>()` -/
def byPk (table : GreetingIndex) : List (Object Greeting) :=
  match table.secondary with
  | [] => []
  | set :: _ => table.contents set

/-- `get<by_pk>().find(account)` -/
def findByPk (table : GreetingIndex) (account : Name) : Option (Object Greeting) :=
  (byPk table).find? (·.value.account = account)

/-- `add_or_replace<by_pk>` -/
def addOrReplace (table : GreetingIndex) (value : Greeting) :
    Except String Unit × GreetingIndex :=
  let table :=
    match findByPk table value.account with
    | some obj => table.remove obj.id
    | none => table
  match table.emplace value with
  | (.ok _, table) => (.ok (), table)
  | (.error e, table) => (.error e, table)

/-- `clear_table` -/
def clearTable (table : GreetingIndex) : GreetingIndex :=
  table.byId.foldl (fun table id => table.remove id) table

/-- `database`: one registered index. -/
structure Database where
  greetings : GreetingIndex

/-- `database::session`: the sessions of the registered indices, none when the
session is not enabled. -/
structure DatabaseSession where
  indexSessions : List Session

namespace Database

def new : Database := ⟨GreetingIndex.new⟩

def undo (db : Database) : Database := ⟨db.greetings.undo⟩

def commit (db : Database) (revision : Int) : Database := ⟨db.greetings.commit revision⟩

def setRevision (db : Database) (revision : Nat) : Except String Database :=
  (db.greetings.setRevision revision).map Database.mk

/-- `start_undo_session` -/
def startUndoSession (db : Database) (enabled : Bool) : DatabaseSession × Database :=
  if enabled then
    let (session, greetings) := Session.start db.greetings enabled
    (⟨[session]⟩, ⟨greetings⟩)
  else (⟨[]⟩, db)

end Database

namespace DatabaseSession

/-- `push` -/
def push (_ : DatabaseSession) : DatabaseSession := ⟨[]⟩

/-- `undo`, which is also what the destructor does. -/
def undo (s : DatabaseSession) (db : Database) : Database :=
  s.indexSessions.foldl (fun db session => ⟨(session.undo db.greetings).2⟩) db

end DatabaseSession

end Microchain.Starter
