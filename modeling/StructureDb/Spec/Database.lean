import StructureDb.Spec.Wal

/-! `Database`: the storages by id, the transaction storage and the log; `Init` with
recovery, the requests of a session, the catalog, and the background jobs. -/

namespace StructureDb

def kSysTables : Bytes := [115, 121, 115, 95, 116, 97, 98, 108, 101, 115]

def kSysTransactions : Bytes := [115, 121, 115, 95, 116, 114, 97, 110, 115, 97, 99, 116, 105, 111, 110, 115]

def kWal : Bytes := [119, 97, 108]

def internalTables : List Bytes := [kSysTransactions, kSysTables, kWal]

structure Db where
  storages : Bytes → Option (Lsm TransactionalValue)
  txStorage : TxStorage
  wal : Wal

namespace Db

def setStorage (db : Db) (id : Bytes) (l : Lsm TransactionalValue) : Db :=
  { db with storages := Function.update db.storages id (some l) }

/-- `Event::Apply`; `EnsureStorageForRecover` makes a storage that is not there yet. -/
def apply (o : Options) (db : Db) : Event → Db
  | .upsert id seqNo key value =>
    let l := (db.storages id).getD (Lsm.init Dir.empty)
    db.setStorage id (l.putSeq o seqNo key value).1
  | .commit tx => { db with txStorage := db.txStorage.recoverFromLog tx }

def openStorages (dirs : Bytes → Option (Dir Bytes (List Row))) (id : Bytes) : Option (Lsm TransactionalValue) :=
  if id = kSysTables then some (Lsm.init ((dirs id).getD Dir.empty))
  else if id ∈ internalTables then none
  else (dirs id).map Lsm.init

/-- `Database::Init` on the directories of the storages and of the log. -/
def init (o : Options) (dirs : Bytes → Option (Dir Bytes (List Row))) (wal : Dir Bytes (List Event)) : Db :=
  let db : Db := ⟨openStorages dirs, TxStorage.empty, ⟨wal, 0, 0, 0⟩⟩
  { (Wal.events wal).foldl (apply o) db with wal := Wal.init wal }

def dirs (db : Db) (id : Bytes) : Option (Dir Bytes (List Row)) := (db.storages id).map Lsm.dir

/-- A crash and the next `Init`: only the files survive. -/
def restart (o : Options) (db : Db) : Db := init o db.dirs db.wal.dir

/-- `LsmEngine::Upsert`, with the sequence number of the new record. -/
def engineUpsert (o : Options) (db : Db) (id : Bytes) (key : Bytes) (value : TransactionalValue) :
    Option (Db × ℕ) :=
  match db.storages id with
  | none => none
  | some l =>
    let (l, seqNo) := l.put o key value
    some ({ db.setStorage id l with wal := db.wal.write (.upsert id seqNo key value) }, seqNo)

def begin (db : Db) : Db × TransactionId :=
  let (txStorage, tx) := db.txStorage.begin
  ({ db with txStorage }, tx)

def commit (db : Db) (tx : TransactionId) : Db :=
  { db with
    txStorage := (db.txStorage.setStatus tx .commited).releaseAllLocks tx
    wal := db.wal.write (.commit tx) }

def rollback (db : Db) (tx : TransactionId) : Db := { db with txStorage := db.txStorage.rollback tx }

def lookup (db : Db) (tx : TransactionId) (id key : Bytes) : Option Bytes :=
  match db.storages id with
  | none => none
  | some l => TransactionalTable.lookup db.txStorage tx l key

def scan (db : Db) (tx : TransactionId) (id : Bytes) (lowerBound upperBound : Option Bytes) : List (Bytes × Bytes) :=
  match db.storages id with
  | none => []
  | some l => TransactionalTable.scan db.txStorage tx l lowerBound upperBound

/-- The end of `Upsert` and `Delete`: take the row lock, then write the version. -/
def writeRow (o : Options) (db : Db) (id key : Bytes) (value : TransactionalValue) : Option (Db × ℕ) :=
  match db.txStorage.acquireRowLock value.tx key with
  | none => none
  | some txStorage => { db with txStorage }.engineUpsert o id key value

/-- `CreateTable` and `EnsureStorageForRecover` make the directory of a new storage. -/
def addStorage (db : Db) (id : Bytes) : Option Db :=
  if id ∈ internalTables ∨ (db.storages id).isSome then none
  else some (db.setStorage id (Lsm.init Dir.empty))

def flush (db : Db) : Db := { db with storages := fun id => (db.storages id).map Lsm.flush }

/-- `TransactionalTable::Compact` of one storage. -/
def compact (db : Db) (id : Bytes) : Db :=
  match db.storages id with
  | none => db
  | some l => db.setStorage id (TransactionalTable.compact db.txStorage l)

/-- `Event::IsPersistent`; `none` where `storages.at` throws. -/
def isPersistent (db : Db) : Event → Option Bool
  | .upsert id seqNo _ _ => (db.storages id).map fun l => decide (seqNo ≤ l.maxPersistentSeqNo)
  | .commit _ => some true

/-- What `CleanerStrategy` accumulates for one segment: nothing for a segment without events, and
what came before for one in which an event throws. -/
def accumulatePersistence (db : Db) : Option Bool → List Event → Option Bool
  | acc, [] => acc
  | acc, event :: rest =>
    match db.isPersistent event with
    | none => acc
    | some p => accumulatePersistence db (some (acc.getD true && p)) rest

/-- The segment files `DeleteObsoleteSegments` removes. -/
def obsoleteSegments (db : Db) : List Bytes :=
  (db.wal.dir.listing.filter fun f => db.accumulatePersistence none f.2 = some true).map
    fun f => walName (getSegmentNoFromName f.1).toNat

/-- `wal::Clean` with no follower connected. -/
def clean (db : Db) : Db := { db with wal := { db.wal with dir := db.wal.dir.unlinkAll db.obsoleteSegments } }

end Db

/-- `Catalog::TableInfo`; a status other than created and dropped cannot be stored. -/
structure TableInfo where
  dropped : Bool
  id : Bytes

namespace TableInfo

/-- `ToString(info)`: the status as eight bytes, then the id. -/
def toBytes (info : TableInfo) : Bytes :=
  (if info.dropped then 2 else 1) :: List.replicate 7 0 ++ info.id

def parse (data : Bytes) : TableInfo := ⟨data.take 8 = 2 :: List.replicate 7 0, data.drop 8⟩

end TableInfo

namespace Db

def getTableInfo (db : Db) (tx : TransactionId) (name : Bytes) : Option TableInfo :=
  (db.lookup tx kSysTables name).map TableInfo.parse

def getStorageId (db : Db) (tx : TransactionId) (name : Bytes) : Option Bytes :=
  match db.getTableInfo tx name with
  | none => none
  | some info => if info.dropped then none else some info.id

/-- The storage behind `Session::GetTable`; the system views have none. -/
def getTable (db : Db) (tx : TransactionId) (name : Bytes) : Option Bytes :=
  if name = kSysTables ∨ name = kSysTransactions then none else db.getStorageId tx name

def compactTables (db : Db) (tx : TransactionId) : List Bytes → Db
  | [] => db
  | name :: rest =>
    match db.getTable tx name with
    | none => compactTables db tx rest
    | some id => compactTables (db.compact id) tx rest

/-- `Compaction::Step`; its transaction stays started. -/
def compactionStep (db : Db) : Db × TransactionId :=
  let (db, tx) := db.begin
  (db.compactTables tx ((db.scan tx kSysTables none none).map Prod.fst), tx)

inductive Op
  | begin
  | commit (tx : TransactionId)
  | rollback (tx : TransactionId)
  | lock (tx : TransactionId) (key : Bytes)
  | put (id key : Bytes) (value : TransactionalValue)
  | addStorage (id : Bytes)
  | flush
  | compact (id : Bytes)
  | clean
  | restart
deriving DecidableEq

def step (o : Options) (db : Db) : Op → Option Db
  | .begin => some db.begin.1
  | .commit tx => some (db.commit tx)
  | .rollback tx => some (db.rollback tx)
  | .lock tx key => (db.txStorage.acquireRowLock tx key).map fun txStorage => { db with txStorage }
  | .put id key value => (db.engineUpsert o id key value).map Prod.fst
  | .addStorage id => db.addStorage id
  | .flush => some db.flush
  | .compact id => some (db.compact id)
  | .clean => some db.clean
  | .restart => some (db.restart o)

end Db

end StructureDb
