import StructureDb.Spec.Formats
import StructureDb.Spec.LogMemory
import StructureDb.Spec.World

/-! The database over the bytes of its log. A `Write` runs to its end before the next step; recovery and the
cleaner go by the events that they parse from the pages of the segments, with whatever lies behind the pages in
memory at the time. -/

namespace StructureDb

def Event.toLog : Event → LogEvent
  | .upsert id seqNo key value => upsertEvent id ⟨key, seqNo, value⟩
  | .commit tx => commitEvent tx

/-- An event that was parsed, with its value as the trees have it; `none` where that does not parse. -/
def LogEvent.toEvent : LogEvent → Option Event
  | .lsmStorageUpsert storageId seqNo key value =>
    (TransactionalValue.parse value).map fun value => .upsert storageId seqNo.toNat key value
  | .txStorageCommit txId => some (.commit txId.toNat)

namespace Writer

/-- A call of `Write` that nothing runs beside, with where it is after its last wait. -/
def writeAlone (w : Writer) (data : Bytes) : Writer × WriteCall :=
  (fun call : Writer × WriteCall => call.1.resume call.2)^[3] (w.write data)

def log (w : Writer) (event : Event) : Writer := (w.writeAlone (flushEvent event.toLog)).1

end Writer

structure ByteDb where
  storages : Bytes → Option (Lsm TransactionalValue)
  txStorage : TxStorage
  walWriter : Writer

namespace ByteDb

def db (s : ByteDb) : Db := ⟨s.storages, s.txStorage, ⟨Dir.empty, 0, 0, 0⟩⟩

/-- `Database::Init` on the directories of the storages and of the log. -/
def init (o : Options) (p : Platform) (dirs : Bytes → Option (Dir Bytes (List Row))) (wal : Dir Bytes Bytes) : ByteDb :=
  let db : Db := ⟨Db.openStorages dirs, TxStorage.empty, ⟨Dir.empty, 0, 0, 0⟩⟩
  let db := ((p.read wal).filterMap LogEvent.toEvent).foldl (Db.apply o) db
  ⟨db.storages, db.txStorage, Writer.init wal⟩

def logged (o : Options) (s : ByteDb) : Db.Op → Option Event
  | .commit tx => some (.commit tx)
  | .put id key value => (s.storages id).map fun l => .upsert id (l.put o key value).2 key value
  | _ => none

/-- The segment files `DeleteObsoleteSegments` removes. -/
def obsoleteSegments (s : ByteDb) (p : Platform) : List Bytes :=
  (s.walWriter.dir.listing.filter fun f =>
    s.db.accumulatePersistence none
      ((p.readSegment (getSegmentNoFromName f.1) 0 (pages f.2)).filterMap LogEvent.toEvent) = some true).map
        fun f => walName (getSegmentNoFromName f.1).toNat

/-- An operation, with what is behind the pages if it reads the log. -/
def step (o : Options) (order : EvaluationOrder) (s : ByteDb) : Db.Op × (Position → Bytes) → Option ByteDb
  | (.clean, beyond) => some { s with
      walWriter := { s.walWriter with dir := s.walWriter.dir.unlinkAll (s.obsoleteSegments ⟨order, beyond⟩) } }
  | (.restart, beyond) => some (init o ⟨order, beyond⟩ s.db.dirs s.walWriter.dir)
  | (op, _) => (s.db.step o op).map fun db =>
    ⟨db.storages, db.txStorage, (s.logged o op).elim s.walWriter s.walWriter.log⟩

end ByteDb

structure ByteWorld where
  db : ByteDb
  begun : List (Label × TransactionId)
  hist : List HistEvent
  written : List (Label × Bytes × Row)

namespace ByteWorld

def start (o : Options) (p : Platform) : ByteWorld := ⟨ByteDb.init o p (fun _ => none) Dir.empty, [], [], []⟩

def world (w : ByteWorld) : World := ⟨w.db.db, w.begun, w.hist, w.written⟩

def calls (w : ByteWorld) (op : Op × (Position → Bytes)) : List (Db.Op × (Position → Bytes)) :=
  (w.world.calls op.1).map fun call => (call, op.2)

def step (o : Options) (order : EvaluationOrder) (w : ByteWorld) (op : Op × (Position → Bytes)) : Option ByteWorld :=
  match w.world.step o op.1, Machine.run (ByteDb.step o order) w.db (w.calls op) with
  | some w', some db => some ⟨db, w'.begun, w'.hist, w'.written⟩
  | _, _ => none

end ByteWorld

end StructureDb
