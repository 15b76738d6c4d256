import StructureDb.Lib.Machine
import StructureDb.Spec.Database

/-! A database and a ledger of its sequence numbers: which upserts were acknowledged,
which of their numbers have been seen in a table, and which logged records a
recovery has skipped. -/

namespace StructureDb

namespace Db

/-- The records of upsert events that `RecoverFromLog` skips. -/
def skippedEvents (o : Options) : Db → List Event → List (Bytes × Row)
  | _, [] => []
  | db, .commit tx :: rest => skippedEvents o (db.apply o (.commit tx)) rest
  | db, .upsert id seqNo key value :: rest =>
    let l := (db.storages id).getD (Lsm.init Dir.empty)
    let skipped := skippedEvents o (db.apply o (.upsert id seqNo key value)) rest
    if (l.putSeq o seqNo key value).2 then skipped else (id, ⟨key, seqNo, value⟩) :: skipped

def skippedByRestart (o : Options) (db : Db) : List (Bytes × Row) :=
  skippedEvents o ⟨openStorages db.dirs, TxStorage.empty, ⟨db.wal.dir, 0, 0, 0⟩⟩ (Wal.events db.wal.dir)

def inTable (db : Db) (id : Bytes) (seqNo : ℕ) : Bool :=
  match db.storages id with
  | none => false
  | some l => l.ssTables.any fun t => t.records.any fun r => r.seqNo = seqNo

end Db

structure Ledger where
  db : Db
  acked : List (Bytes × Row)
  persisted : List (Bytes × ℕ)
  skipped : List (Bytes × Row)

namespace Ledger

def start (o : Options) : Ledger := ⟨Db.init o (fun _ => none) Dir.empty, [], [], []⟩

/-- Note the acknowledged numbers that are in tables now. -/
def record (j : Ledger) : Ledger :=
  { j with
    persisted :=
      (j.acked.filter fun a => j.db.inTable a.1 a.2.seqNo).map (fun a => (a.1, a.2.seqNo)) ++ j.persisted }

def step (o : Options) (j : Ledger) : Db.Op → Option Ledger
  | .put id key value =>
    match j.db.engineUpsert o id key value with
    | none => none
    | some (db, seqNo) => some { j with db, acked := (id, ⟨key, seqNo, value⟩) :: j.acked }.record
  | .restart => some { j with db := j.db.restart o, skipped := j.db.skippedByRestart o ++ j.skipped }.record
  | op =>
    match j.db.step o op with
    | none => none
    | some db => some { j with db }.record

end Ledger

end StructureDb
