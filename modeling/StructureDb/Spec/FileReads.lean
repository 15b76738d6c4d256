import StructureDb.Spec.Database
import StructureDb.Spec.Formats

/-! `Lookup` and `Scan` through the bytes of the table files. A tree keeps the rows that were handed to
`SSTableBuilder`; here every table is built in pages of `page_size` bytes, opened and scanned. `Lookup` stops
at the first version it accepts and may leave tables unread, so that it fails no more often than here. -/

namespace StructureDb

/-- What the bytes of a table depend on. -/
structure FileOptions where
  crc : Bytes → BitVec 32
  pageSize : ℕ
  pageCacheCapacity : ℕ

def Record.stored (row : Row) : Record Bytes := ⟨row.key, row.seqNo, row.value.toBytes⟩

def Record.loaded (r : Record Bytes) :
    Option Row := (TransactionalValue.parse r.value).map fun value => ⟨r.key, r.seqNo, value⟩

/-- `SSTable::Scan` to its end on the file of a table; `none` where an assertion of the builder is violated, or an
exception leaves the scan. -/
def SSTable.scanFile (f : FileOptions) (t : SSTable TransactionalValue) (range : ScanRange) : Option (List Row) :=
  (Disk.buildWrites f.crc f.pageSize (t.records.map Record.stored)).bind fun writes =>
    (Disk.SSTable.create (Disk.contents writes) f.pageCacheCapacity).bind fun table =>
      (table.scan f.crc range t.records.length).bind fun r => r.1.mapM Record.loaded

def Lsm.readTables (f : FileOptions) (l : Lsm TransactionalValue) (range : ScanRange) : Option (List (List Row)) :=
  l.ssTables.mapM fun t => t.scanFile f range

namespace TransactionalTable

variable (s : TxStorage) (tx : TransactionId)

def lookupFiles (f : FileOptions) (l : Lsm TransactionalValue) (key : Bytes) : Option (Option Bytes) :=
  (l.readTables f (.only key)).map fun tables =>
    lookupRows s tx (l.memTable.scan (.only key) ++
      (l.roMemTables.reverse.map fun m => m.scan (.only key)).flatten ++ tables.reverse.flatten)

def scanFiles (f : FileOptions) (l : Lsm TransactionalValue) (lowerBound upperBound : Option Bytes) :
    Option (List (Bytes × Bytes)) :=
  (l.readTables f ⟨lowerBound, upperBound⟩).map fun tables =>
    scanRows s tx [] (mergeIterator (l.memTable.scan ⟨lowerBound, upperBound⟩ ::
      l.roMemTables.map (fun m => m.scan ⟨lowerBound, upperBound⟩) ++ tables))

end TransactionalTable

namespace Db

/-- `Lookup`; `none` is an exception. -/
def lookupFiles (f : FileOptions) (db : Db) (tx : TransactionId) (id key : Bytes) : Option (Option Bytes) :=
  match db.storages id with
  | none => some none
  | some l => TransactionalTable.lookupFiles db.txStorage tx f l key

def scanFiles (f : FileOptions) (db : Db) (tx : TransactionId) (id : Bytes) (lowerBound upperBound : Option Bytes) :
    Option (List (Bytes × Bytes)) :=
  match db.storages id with
  | none => some []
  | some l => TransactionalTable.scanFiles db.txStorage tx f l lowerBound upperBound

end Db

end StructureDb
