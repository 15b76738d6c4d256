import StructureDb.Proofs.Formats
import StructureDb.Proofs.TableScan
import StructureDb.Spec.FileReads

/-! Reads through the table files. If every row fits in a page behind its header and the numbers fit into
`int64_t`, every table of an ordered tree is built, opened and scanned back, and `Lookup` and `Scan` answer as they
do on the rows. -/

namespace StructureDb

open Codec

structure Record.FitsFile (pageSize : ℕ) (row : Row) : Prop where
  size : 16 + 24 + row.key.length + (18 + row.value.value.length) ≤ pageSize
  tx : row.value.tx < 2 ^ 63

variable {f : FileOptions} {rows : List Row} {row : Row} {pageSize : ℕ}

theorem TransactionalValue.length_toBytes (v : TransactionalValue) : v.toBytes.length = 18 + v.value.length := by
  simp only [toBytes, BufferWriter.writeBool, List.length_append, length_writeInt, length_writeString,
    List.length_singleton]
  omega

theorem Record.FitsFile.loaded (h : row.FitsFile pageSize) (hsmall : pageSize < 2 ^ 31) :
    row.stored.loaded = some row := by
  have hsize := h.size
  have hvalue : row.value.Encodable := ⟨h.tx.trans (by decide), by omega⟩
  have hread := TransactionalValue.roundTrips row.value hvalue []
  rw [List.append_nil] at hread
  simp only [Record.loaded, Record.stored, TransactionalValue.parse, hread, Option.map_some]

theorem mapM_loaded (h : ∀ row ∈ rows, row.FitsFile pageSize) (hsmall : pageSize < 2 ^ 31) :
    (rows.map Record.stored).mapM Record.loaded = some rows := by
  induction rows with
  | nil => rfl
  | cons row rows ih =>
    rw [List.map_cons, List.mapM_cons, (h row List.mem_cons_self).loaded hsmall,
      ih fun r hr => h r (List.mem_cons_of_mem _ hr)]
    rfl

/-- With distinct numbers the order does not depend on the values. -/
theorem stored_sorted (hsorted : rows.Pairwise (· ≤ ·)) (hdistinct : (rows.map Record.seqNo).Nodup) :
    (rows.map Record.stored).Pairwise (· ≤ ·) := by
  rw [List.pairwise_map]
  have hne : rows.Pairwise fun r s => r.seqNo ≠ s.seqNo := List.pairwise_map.mp hdistinct
  refine (hsorted.and hne).imp ?_
  rintro r s ⟨hle, hne⟩
  rcases (Record.lt_iff r s).mp (lt_of_le_of_ne hle fun h => hne (h ▸ rfl)) with hkey | ⟨hkey, hseq | ⟨heq, -⟩⟩
  · exact ((Record.lt_iff r.stored s.stored).mpr (Or.inl hkey)).le
  · exact ((Record.lt_iff r.stored s.stored).mpr (Or.inr ⟨hkey, Or.inl hseq⟩)).le
  · exact absurd heq hne

theorem length_le_of_seqNo {n : ℕ} (hdistinct : (rows.map Record.seqNo).Nodup) (hbound : ∀ row ∈ rows, row.seqNo < n) :
    rows.length ≤ n := by
  have hsub : (rows.map Record.seqNo) ⊆ List.range n := by
    intro i hi
    obtain ⟨row, hrow, rfl⟩ := List.mem_map.mp hi
    exact List.mem_range.mpr (hbound row hrow)
  have hle := (hdistinct.subperm hsub).length_le
  rwa [List.length_map, List.length_range] at hle

theorem SSTable.scanFile_eq (hsmall : f.pageSize < 2 ^ 31) {t : SSTable TransactionalValue}
    (hfits : ∀ row ∈ t.records, row.FitsFile f.pageSize) (hsorted : t.records.Pairwise (· ≤ ·))
    (hdistinct : (t.records.map Record.seqNo).Nodup) (hbound : ∀ row ∈ t.records, row.seqNo < 2 ^ 63 - 1)
    (range : ScanRange) : t.scanFile f range = some (t.scan range) := by
  have hlen := length_le_of_seqNo hdistinct hbound
  have hsize : ∀ r ∈ t.records.map Record.stored, 16 + 24 + r.key.length + r.value.length ≤ f.pageSize := by
    intro r hr
    obtain ⟨row, hrow, rfl⟩ := List.mem_map.mp hr
    have hvalue : row.stored.value.length = 18 + row.value.value.length := row.value.length_toBytes
    rw [hvalue]
    exact (hfits row hrow).size
  have hseq : ∀ r ∈ t.records.map Record.stored, r.seqNo < 2 ^ 63 := by
    intro r hr
    obtain ⟨row, hrow, rfl⟩ := List.mem_map.mp hr
    exact (hbound row hrow).trans (by decide)
  obtain ⟨chunks, htable, hbuild⟩ := Disk.Table.build f.crc hsmall hsize hseq (stored_sorted hsorted hdistinct)
    (by rw [List.length_map]; omega)
  obtain ⟨table, hcreate, hopened⟩ := htable.create f.crc f.pageCacheCapacity
  obtain ⟨it, table', hscan, -⟩ := htable.scan hopened range t.records.length
  have hrecords : ((t.records.map Record.stored).filter fun r => range.contains r.key).take t.records.length =
      (t.scan range).map Record.stored := by
    rw [SSTable.scan, scanRecords_eq_filter hsorted, List.filter_map, List.take_of_length_le]
    · rfl
    · rw [List.length_map]
      exact List.length_filter_le ..
  rw [SSTable.scanFile, hbuild, Option.bind_some, hcreate, Option.bind_some, hscan, Option.bind_some, hrecords]
  refine mapM_loaded (fun row hrow => hfits row ?_) hsmall
  rw [SSTable.scan, scanRecords_eq_filter hsorted] at hrow
  exact (List.mem_filter.mp hrow).1

def Lsm.OnDisk (f : FileOptions) (l : Lsm TransactionalValue) : Prop :=
  ∀ range, l.readTables f range = some (l.ssTables.map fun t => t.scan range)

def Db.OnDisk (f : FileOptions) (db : Db) : Prop := ∀ id l, db.storages id = some l → l.OnDisk f

theorem Lsm.Ordered.onDisk {l : Lsm TransactionalValue} (h : l.Ordered) (hsmall : f.pageSize < 2 ^ 31)
    (hfits : ∀ row ∈ l.records, row.FitsFile f.pageSize) (hnext : l.nextSeqNo < 2 ^ 63) : l.OnDisk f := by
  intro range
  have htable : ∀ t ∈ l.ssTables, t.scanFile f range = some (t.scan range) := by
    intro t ht
    have hlevel : t.records ∈ l.levels := Lsm.mem_levels.mpr (Or.inr (Or.inr ⟨t, ht, rfl⟩))
    refine SSTable.scanFile_eq hsmall (fun row hrow => hfits row (List.mem_flatten.mpr ⟨_, hlevel, hrow⟩))
      (h.sorted _ hlevel) (h.distinct _ hlevel) (fun row hrow => ?_) range
    have hbound := h.bound _ hlevel row hrow
    omega
  rw [Lsm.readTables]
  generalize l.ssTables = tables at htable ⊢
  induction tables with
  | nil => rfl
  | cons t tables ih =>
    rw [List.mapM_cons, htable t List.mem_cons_self, ih fun u hu => htable u (List.mem_cons_of_mem _ hu)]
    rfl

namespace Db.OnDisk

variable {db : Db}

theorem lookup (h : db.OnDisk f) (tx : TransactionId) (id key : Bytes) :
    db.lookupFiles f tx id key = some (db.lookup tx id key) := by
  unfold Db.lookupFiles Db.lookup
  rcases hl : db.storages id with _ | l
  · rfl
  · dsimp only
    rw [TransactionalTable.lookupFiles, h id l hl, Option.map_some, TransactionalTable.lookup, Lsm.scanKey_eq,
      Lsm.levels]
    simp only [List.map_cons, List.map_append, List.map_map, List.flatten_cons, List.flatten_append, List.map_reverse,
      List.append_assoc, MemTable.scan, SSTable.scan]
    rfl

theorem scan (h : db.OnDisk f) (tx : TransactionId) (id : Bytes) (lowerBound upperBound : Option Bytes) :
    db.scanFiles f tx id lowerBound upperBound = some (db.scan tx id lowerBound upperBound) := by
  unfold Db.scanFiles Db.scan
  rcases hl : db.storages id with _ | l
  · rfl
  · dsimp only
    rw [TransactionalTable.scanFiles, h id l hl]
    rfl

end Db.OnDisk

end StructureDb
