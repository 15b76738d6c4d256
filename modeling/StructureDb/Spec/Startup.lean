import StructureDb.Spec.Database

/-! A start of the database that is cut off. `Init` makes the directories of storages that are not there yet while it
recovers, and opens a new log segment at its end; other than that it only reads. -/

namespace StructureDb

structure Files where
  dirs : Bytes → Option (Dir Bytes (List Row))
  wal : Dir Bytes (List Event)

inductive Cut
  -- while it recovers, behind so many events of the log
  | recovering (applied : ℕ)
  -- behind `Writer::Open`
  | opened
deriving DecidableEq

namespace Db

def files (db : Db) : Files := ⟨db.dirs, db.wal.dir⟩

def recovering (o : Options) (f : Files) (applied : ℕ) : Db :=
  ((Wal.events f.wal).take applied).foldl (apply o) ⟨openStorages f.dirs, TxStorage.empty, ⟨f.wal, 0, 0, 0⟩⟩

def cutOff (o : Options) (f : Files) : Cut → Files
  | .recovering applied => ⟨(recovering o f applied).dirs, f.wal⟩
  | .opened => (init o f.dirs f.wal).files

/-- One start after another, the last of which gets to its end. -/
def startAgain (o : Options) (f : Files) (cuts : List Cut) : Db :=
  let f := cuts.foldl (cutOff o) f
  init o f.dirs f.wal

end Db

end StructureDb
