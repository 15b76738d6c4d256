import StructureDb.Lib.Dir
import StructureDb.Spec.Types

/-! The log structured merge tree: `MemTable`, `SSTable`, `Lsm` and its two
iterators, over the directory the tables live in. A table file is the list of
records handed to `SSTableBuilder`, as `options.hpp` asks that every record fits
in a page; `Db.lookupFiles` and `Db.scanFiles` read the bytes, and a longer record
makes them throw. An open table keeps its contents when its path is unlinked, so
`Lsm.ssTables` and `Lsm.dir` are separate. -/

namespace StructureDb

/-- `lsm::Options`, of which only the freeze threshold changes what is stored. -/
structure Options where
  maxRecordsInMemTable : ℕ

section
variable {V : Type}

/-- An open table: the path it was opened under and what its file holds. -/
structure SSTable (V : Type) where
  path : Bytes
  records : List (Record V)
deriving DecidableEq

/-- The header's `max_seq_no`, which `SSTableBuilder::Add` accumulates from 0. -/
def SSTable.getMaxSeqNo (t : SSTable V) : ℕ := t.records.foldl (fun m r => max m r.seqNo) 0

/-- What the mem table and ss table iterators deliver: from the first record at or above the
lower bound while the key is at most the upper bound. -/
def scanRecords (range : ScanRange) (records : List (Record V)) : List (Record V) :=
  -- `Record{.key = lower}` carries `kMaxSequence`, so it sorts before every version of its key
  let start := match range.lowerBound with
    | some lo => records.dropWhile fun r => r.key < lo
    | none => records
  match range.upperBound with
  | some hi => start.takeWhile fun r => r.key ≤ hi
  | none => start

def SSTable.scan (t : SSTable V) (range : ScanRange) : List (Record V) := scanRecords range t.records

/-- `GetSSTableNo`: −1 when the name does not start with a number. -/
def getSSTableNo (path : Bytes) : ℤ :=
  match stoll path with
  | some n => n
  | none => -1

/-- `LsmKeyIterator`: the rest of the current iterator, and the scans `GetNextIterator` opens
after it. -/
structure LsmKeyIterator (V : Type) where
  current : List (Record V)
  pending : List (List (Record V))

namespace LsmKeyIterator

/-- `Advance`: leave exhausted iterators behind. -/
def advance : List (Record V) → List (List (Record V)) → LsmKeyIterator V
  | [], next :: pending => advance next pending
  | current, pending => ⟨current, pending⟩

def next (it : LsmKeyIterator V) : Option (Record V × LsmKeyIterator V) :=
  match it.current with
  | [] => none
  | r :: rest => some (r, advance rest it.pending)

def collect : ℕ → LsmKeyIterator V → List (Record V)
  | 0, _ => []
  | n + 1, it =>
    match it.next with
    | none => []
    | some (r, it) => r :: collect n it

end LsmKeyIterator

end

variable {V : Type} [LinearOrder V]

/-- `std::multiset<Record>`: kept sorted. -/
structure MemTable (V : Type) [LinearOrder V] where
  impl : List (Record V)
  sorted : impl.Pairwise (· ≤ ·)

namespace MemTable

def empty : MemTable V := ⟨[], List.Pairwise.nil⟩

def put (m : MemTable V) (r : Record V) : MemTable V :=
  ⟨m.impl.orderedInsert (· ≤ ·) r, m.sorted.orderedInsert r _⟩

def size (m : MemTable V) : ℕ := m.impl.length

def scan (m : MemTable V) (range : ScanRange) : List (Record V) := scanRecords range m.impl

end MemTable

/-- The records a `MergeIterator` over these inputs yields. -/
def mergeIterator (its : List (List (Record V))) : List (Record V) := KMerge.merge its

structure Lsm (V : Type) [LinearOrder V] where
  memTable : MemTable V
  roMemTables : List (MemTable V)
  ssTables : List (SSTable V)
  maxPersistentSeqNo : ℕ
  nextSeqNo : ℕ
  dir : Dir Bytes (List (Record V))

namespace Lsm

def init (dir : Dir Bytes (List (Record V))) : Lsm V :=
  let ssTables := dir.listing.map fun f => (⟨f.1, f.2⟩ : SSTable V)
  let maxPersistentSeqNo := ssTables.foldl (fun m t => max m t.getMaxSeqNo) 0
  { memTable := MemTable.empty
    roMemTables := []
    ssTables
    maxPersistentSeqNo
    nextSeqNo := maxPersistentSeqNo + 1
    dir }

def doPut (o : Options) (l : Lsm V) (seqNo : ℕ) (key : Bytes) (value : V) : Lsm V :=
  let memTable := l.memTable.put ⟨key, seqNo, value⟩
  if memTable.size > o.maxRecordsInMemTable then
    { l with memTable := MemTable.empty, roMemTables := l.roMemTables ++ [memTable] }
  else
    { l with memTable }

/-- `Lsm::Put(key, value)`, with the sequence number it returns. -/
def put (o : Options) (l : Lsm V) (key : Bytes) (value : V) : Lsm V × ℕ :=
  (doPut o { l with nextSeqNo := l.nextSeqNo + 1 } l.nextSeqNo key value, l.nextSeqNo)

/-- `Lsm::Put(seq_no, key, value)`: only the exact next number is taken. -/
def putSeq (o : Options) (l : Lsm V) (seqNo : ℕ) (key : Bytes) (value : V) : Lsm V × Bool :=
  if seqNo ≠ l.nextSeqNo then (l, false)
  else
    let l := doPut o l seqNo key value
    ({ l with nextSeqNo := l.nextSeqNo + 1 }, true)

/-- What recovery does to one tree: `Put(seq_no, key, value)` for every logged record. -/
def replay (o : Options) (l : Lsm V) (log : List (Record V)) : Lsm V :=
  log.foldl (fun l r => (l.putSeq o r.seqNo r.key r.value).1) l

/-- The table `MemTable::Flush` builds: it is named after the number of tables. -/
def flushTable (l : Lsm V) (m : MemTable V) : SSTable V := ⟨sstName l.ssTables.length, m.impl⟩

def writeTable (l : Lsm V) (t : SSTable V) : Lsm V := { l with dir := l.dir.create t.path t.records }

def publishFlush (l : Lsm V) (t : SSTable V) : Lsm V :=
  { l with
    maxPersistentSeqNo := max l.maxPersistentSeqNo t.getMaxSeqNo
    ssTables := l.ssTables ++ [t]
    roMemTables := l.roMemTables.tail }

def flushFront (l : Lsm V) : Lsm V :=
  match l.roMemTables with
  | [] => l
  | m :: _ => (l.writeTable (l.flushTable m)).publishFlush (l.flushTable m)

/-- `Lsm::Flush`: drain as many frozen mem tables as there are when it starts. -/
def flush (l : Lsm V) : Lsm V := flushFront^[l.roMemTables.length] l

def mergedRecords (l : Lsm V) : List (Record V) :=
  mergeIterator (l.ssTables.map fun t => t.scan .fullScan)

/-- `new_sst_no`: one more than the number of the last table. -/
def compactNo (l : Lsm V) : ℤ :=
  match l.ssTables.getLast? with
  | some t => getSSTableNo t.path + 1
  | none => 0

/-- The table `Lsm::Compact` builds; a strategy is given by what it copies of its input. -/
def compactTable (l : Lsm V) (strategy : List (Record V) → List (Record V)) : SSTable V :=
  ⟨sstName l.compactNo.toNat, strategy l.mergedRecords⟩

def filesToDelete (l : Lsm V) : List Bytes := l.ssTables.map SSTable.path

def publishCompact (l : Lsm V) (t : SSTable V) : Lsm V := { l with ssTables := [t] }

def removeFiles (l : Lsm V) (paths : List Bytes) : Lsm V := { l with dir := l.dir.unlinkAll paths }

/-- `Lsm::Compact`: the old paths are removed after the new table is published. -/
def compact (l : Lsm V) (strategy : List (Record V) → List (Record V)) : Lsm V :=
  let t := l.compactTable strategy
  ((l.writeTable t).publishCompact t).removeFiles l.filesToDelete

/-- `LsmRangeIterator`, read to its end. -/
def scanRange (l : Lsm V) (range : ScanRange) : List (Record V) :=
  mergeIterator (l.memTable.scan range ::
    l.roMemTables.map (fun m => m.scan range) ++ l.ssTables.map fun t => t.scan range)

/-- `LsmKeyIterator::Create`: mem table first, then frozen mem tables and ss tables, each from
the back. -/
def keyIterator (l : Lsm V) (key : Bytes) : LsmKeyIterator V :=
  .advance (l.memTable.scan (.only key))
    (l.roMemTables.reverse.map (fun m => m.scan (.only key)) ++
      l.ssTables.reverse.map fun t => t.scan (.only key))

def scanKey (l : Lsm V) (key : Bytes) : List (Record V) :=
  let it := l.keyIterator key
  it.collect (it.current.length + it.pending.flatten.length)

def get (l : Lsm V) (key : Bytes) : Option V :=
  (l.keyIterator key).next.map fun x => x.1.value

end Lsm

end StructureDb
