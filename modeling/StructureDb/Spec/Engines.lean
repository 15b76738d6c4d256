import StructureDb.Lib.Machine
import StructureDb.Spec.Database

/-! The storage engines of a database over several lives: upserts and flushes of single
engines, runs of the cleaner, and crashes between them, each followed by
`Database::Init`. `acked` are the upserts that returned, with the sequence number
of their record. -/

namespace StructureDb

/-- `LsmEngine::Flush` of one storage. -/
def Db.flushStorage (db : Db) (id : Bytes) : Option Db :=
  match db.storages id with
  | none => none
  | some l => some (db.setStorage id l.flush)

structure Engines where
  db : Db
  acked : List (Bytes × Row)

namespace Engines

inductive Op
  | create (id : Bytes)
  | upsert (id key : Bytes) (value : TransactionalValue)
  | flush (id : Bytes)
  | clean
  | crash
deriving DecidableEq

def start (o : Options) : Engines := ⟨Db.init o (fun _ => none) Dir.empty, []⟩

def step (o : Options) (s : Engines) : Op → Option Engines
  | .create id =>
    match s.db.addStorage id with
    | none => none
    | some db => some { s with db }
  | .upsert id key value =>
    match s.db.engineUpsert o id key value with
    | none => none
    | some (db, seqNo) => some { s with db, acked := s.acked ++ [(id, ⟨key, seqNo, value⟩)] }
  | .flush id =>
    match s.db.flushStorage id with
    | none => none
    | some db => some { s with db }
  | .clean => some { s with db := s.db.clean }
  | .crash => some { s with db := s.db.restart o }

def ackedOf (s : Engines) (id : Bytes) : List Row :=
  s.acked.filterMap fun a => if a.1 = id then some a.2 else none

end Engines

end StructureDb
