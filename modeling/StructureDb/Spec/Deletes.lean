import StructureDb.Spec.Server

/-! `TransactionalTable::Delete` beside the operations of other transactions, interleaved wherever they wait. -/

namespace StructureDb

namespace Deletes

open Coroutine

inductive Call
  | session (c : Server.Call)
  | delete (tx : TransactionId) (id key : Bytes)
deriving DecidableEq

def handler : Call → Server.Program Server.Reply
  | .session c => Server.handler c
  | .delete tx id key => do
    let found ← Server.delete tx id key
    pure (.deleted found)

abbrev Action := Coroutine.Action Call

abbrev Tables := Coroutine.Pool Context Call Server.Res Server.Wait Server.Exception Server.Reply

def start (db : Db) : Tables := ⟨(Server.start db).shared, []⟩

def step (o : Options) : Tables → Action → Option Tables := Pool.step (Server.kernel o) handler

/-- The versions of a key, newest first, as an iterator made now would yield them. -/
def versions (u : Context) (id key : Bytes) : List Row := (u.storages id).elim [] fun l => l.scanKey key

def lookup (u : Context) (tx : TransactionId) (id key : Bytes) : Option Bytes :=
  TransactionalTable.lookupRows u.txStorage tx (versions u id key)

def seen (u : Context) (tx : TransactionId) (id key : Bytes) : List Row :=
  (versions u id key).filter fun row => TransactionalTable.visible u.txStorage tx row.value

end Deletes

end StructureDb
