import StructureDb.Spec.Background
import StructureDb.Spec.TableFile

/-! A tree over its files, one effect on the directory after another: `Lsm::Flush` and
`Lsm::Compact` create a file, write a header, pages and the header again, and remove files.
Between any two effects the process may crash and start again, with the whole log. -/

namespace StructureDb

namespace Disk

inductive FileEffect
  | create (name : Bytes)
  | write (name : Bytes) (pos : ℕ) (data : Bytes)
  | remove (name : Bytes)
deriving DecidableEq

/-- `FileWriter::Open` unlinks a file of the same name. -/
def FileEffect.apply (files : Dir Bytes Bytes) : FileEffect → Dir Bytes Bytes
  | .create name => files.create name []
  | .write name pos data => files.modify name fun file => writeAt file pos data
  | .remove name => files.unlink name

def buildEffects (crc : Bytes → BitVec 32) (pageSize : ℕ) (t : StructureDb.SSTable Bytes) : Option (List FileEffect) :=
  (buildWrites crc pageSize t.records).map fun writes =>
    .create t.path :: writes.map fun w => .write t.path w.1 w.2

/-- What a scan of the whole table yields; a record takes more than a byte. -/
def SSTable.readAll (crc : Bytes → BitVec 32) (t : SSTable) : List (Record Bytes) :=
  ((t.scan crc .fullScan t.file.length).map Prod.fst).getD []

/-- The loop of `Lsm::Init`; `none` where `SSTable::Create` throws. -/
def openTables (capacity : ℕ) : List (Bytes × Bytes) → Option (List (Bytes × SSTable))
  | [] => some []
  | f :: rest =>
    (SSTable.create f.2 capacity).bind fun t => (openTables capacity rest).map fun tables => (f.1, t) :: tables

def recordsOf (crc : Bytes → BitVec 32) (capacity : ℕ) (file : Bytes) : List (Record Bytes) :=
  ((SSTable.create file capacity).map fun t => t.readAll crc).getD []

/-- `Lsm::Init`. A table stands for the records that a scan of it yields. -/
def init (crc : Bytes → BitVec 32) (capacity : ℕ) (files : Dir Bytes Bytes) : Option (Lsm Bytes) :=
  (openTables capacity files.listing).map fun tables =>
    let maxPersistentSeqNo := tables.foldl (fun m t => max m t.2.getMaxSeqNo) 0
    { memTable := MemTable.empty
      roMemTables := []
      ssTables := tables.map fun t => ⟨t.1, t.2.readAll crc⟩
      maxPersistentSeqNo
      nextSeqNo := maxPersistentSeqNo + 1
      dir := files.map (recordsOf crc capacity) }

end Disk

open Disk

/-- How far the holder of `maintenance_mutex_` has come. -/
inductive Work
  | idle
  -- `Flush` at the head of its loop, and with the effects that are left for a table
  | flush (pending : ℕ)
  | flushing (rest : List FileEffect) (t : SSTable Bytes) (pending : ℕ)
  -- `Compact` with the effects that are left for its table, and while the old paths go
  | compacting (rest : List FileEffect) (t : SSTable Bytes) (paths : List Bytes)
  | removing (paths : List Bytes)

/-- `lsm.dir` stays as `Init` has found it; the files are in `files`. -/
structure TreeFiles where
  lsm : Lsm Bytes
  files : Dir Bytes Bytes
  log : List (Record Bytes)
  work : Work

namespace TreeFiles

def start : TreeFiles := ⟨Lsm.init Dir.empty, Dir.empty, [], .idle⟩

def advance (crc : Bytes → BitVec 32) (pageSize : ℕ) (s : TreeFiles) : Option TreeFiles :=
  match s.work with
  | .idle => none
  | .flush 0 => some { s with work := .idle }
  | .flush (pending + 1) =>
    match s.lsm.roMemTables with
    | [] => none
    | m :: _ =>
      (buildEffects crc pageSize (s.lsm.flushTable m)).map fun effects =>
        { s with work := .flushing effects (s.lsm.flushTable m) pending }
  | .flushing (effect :: rest) t pending =>
    some { s with files := effect.apply s.files, work := .flushing rest t pending }
  | .flushing [] t pending => some { s with lsm := s.lsm.publishFlush t, work := .flush pending }
  | .compacting (effect :: rest) t paths =>
    some { s with files := effect.apply s.files, work := .compacting rest t paths }
  | .compacting [] t paths => some { s with lsm := s.lsm.publishCompact t, work := .removing paths }
  | .removing [] => some { s with work := .idle }
  | .removing (path :: paths) =>
    some { s with files := (FileEffect.remove path).apply s.files, work := .removing paths }

/-- A compaction copies every record. -/
def step (crc : Bytes → BitVec 32) (o : Options) (pageSize capacity : ℕ) (s : TreeFiles) :
    Action Bytes → Option TreeFiles
  | .put key value =>
    let (lsm, seqNo) := s.lsm.put o key value
    some { s with lsm, log := s.log ++ [⟨key, seqNo, value⟩] }
  | .beginFlush =>
    match s.work with
    | .idle => some { s with work := .flush s.lsm.roMemTables.length }
    | _ => none
  | .beginCompact =>
    match s.work with
    | .idle =>
      let t := s.lsm.compactTable Served.copyRows
      (buildEffects crc pageSize t).map fun effects =>
        { s with work := .compacting effects t s.lsm.filesToDelete }
    | _ => none
  | .advance => s.advance crc pageSize
  | .restart => (Disk.init crc capacity s.files).map fun l => { s with lsm := l.replay o s.log, work := .idle }

end TreeFiles

end StructureDb
