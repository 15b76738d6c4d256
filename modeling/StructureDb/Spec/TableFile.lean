import StructureDb.Lib.BinarySearch
import StructureDb.Lib.LruCache
import StructureDb.Spec.LogFormat

/-! The table files byte by byte: `SSTableBuilder` with its pages, and an open `SSTable` with
its page cache, its binary search and its iterator. `crc` is the checksum, any function of
the bytes. `none` is a violated assertion, an exception, or an access out of range. -/

namespace StructureDb

def Record.write (r : Record Bytes) : Bytes :=
  BufferWriter.writeString r.key ++ BufferWriter.writeInt (BitVec.ofNat 64 r.seqNo) ++ BufferWriter.writeString r.value

def Record.read (buf : Bytes) : Option (Record Bytes × Bytes) :=
  match BufferReader.readString buf with
  | none => none
  | some (key, buf) =>
    match BufferReader.readInt buf with
    | none => none
    | some (seqNo, buf) =>
      match BufferReader.readString buf with
      | none => none
      | some (value, buf) => some (⟨key, seqNo.toNat, value⟩, buf)

namespace Disk

/-! ### Files -/

/-- `lseek` and `write` on a file. -/
def writeAt (file : Bytes) (pos : ℕ) (data : Bytes) : Bytes :=
  file.take pos ++ List.replicate (pos - file.length) 0 ++ data ++ file.drop (pos + data.length)

/-- `io::FileWriter` on a new file: its position, and the writes so far with their positions. -/
structure FileWriter where
  pos : ℕ
  writes : List (ℕ × Bytes)

namespace FileWriter

def create : FileWriter := ⟨0, []⟩

def write (w : FileWriter) (data : Bytes) : FileWriter := ⟨w.pos + data.length, w.writes ++ [(w.pos, data)]⟩

def rewind (w : FileWriter) : FileWriter := { w with pos := 0 }

end FileWriter

/-- What the file holds behind some writes. -/
def contents (writes : List (ℕ × Bytes)) : Bytes := writes.foldl (fun file w => writeAt file w.1 w.2) []

/-- `FileReader::Read` at a position, into a buffer of zeros; at the end of the file it throws. -/
def readAt (file : Bytes) (pos size : ℕ) : Option Bytes :=
  if file.length ≤ pos then none
  else some ((file.drop pos).take size ++ List.replicate (size - (file.length - pos)) 0)

/-! ### Pages -/

structure PageHeader where
  count : BitVec 64
  checksum : BitVec 64

namespace PageHeader

def sdbSize : ℕ := 16

def write (h : PageHeader) : Bytes := BufferWriter.writeInt h.count ++ BufferWriter.writeInt h.checksum

def read (buf : Bytes) : Option (PageHeader × Bytes) :=
  match BufferReader.readInt buf with
  | none => none
  | some (count, buf) =>
    match BufferReader.readInt buf with
    | none => none
    | some (checksum, buf) => some (⟨count, checksum⟩, buf)

end PageHeader

/-- `Crc::Result` is an `int32_t`. -/
def getPageChecksum (crc : Bytes → BitVec 32) (page : Bytes) : BitVec 64 :=
  (crc (page.drop PageHeader.sdbSize)).signExtend 64

structure PageBuilder where
  pageSize : ℕ
  currentPage : Bytes
  count : ℕ

namespace PageBuilder

/-- `Clear` leaves room for the header. -/
def clear (pageSize : ℕ) : PageBuilder := ⟨pageSize, List.replicate PageHeader.sdbSize 0, 0⟩

def isEnoughSpace (b : PageBuilder) (recordSize : ℕ) : Bool := b.currentPage.length + recordSize ≤ b.pageSize

def addRecord (b : PageBuilder) (raw : Bytes) : PageBuilder :=
  { b with currentPage := b.currentPage ++ raw, count := b.count + 1 }

def isEmpty (b : PageBuilder) : Bool := b.count = 0

/-- The page is filled up with zeros, if it is shorter, and the header is copied over its beginning. -/
def extract (crc : Bytes → BitVec 32) (b : PageBuilder) : Bytes :=
  let page := b.currentPage ++ List.replicate (b.pageSize - b.currentPage.length) 0
  (⟨BitVec.ofNat 64 b.count, getPageChecksum crc page⟩ : PageHeader).write ++ page.drop PageHeader.sdbSize

end PageBuilder

structure Page where
  records : List (Record Bytes)
deriving DecidableEq

namespace Page

def readRecords : ℕ → Bytes → Option (List (Record Bytes))
  | 0, _ => some []
  | count + 1, buf =>
    match Record.read buf with
    | none => none
    | some (record, buf) => (readRecords count buf).map fun records => record :: records

inductive LoadFault
  | curraptedSSTable
  -- `reserve` throws
  | lengthError
  -- a read beyond the end of the buffer
  | overrun
deriving DecidableEq

/-- `max_size` of a vector of strings; a negative count is above it. -/
def kMaxStrings : ℕ := (2 ^ 63 - 1) / 32

def tryLoad (crc : Bytes → BitVec 32) (buffer : Bytes) : Except LoadFault Page :=
  match PageHeader.read buffer with
  | none => .error .overrun
  | some (header, buf) =>
    if getPageChecksum crc buffer ≠ header.checksum then .error .curraptedSSTable
    else if kMaxStrings < header.count.toNat then .error .lengthError
    else
      match readRecords header.count.toNat buf with
      | none => .error .overrun
      | some records => .ok ⟨records⟩

/-- `Load`, where it does not matter why it does not return. -/
def load (crc : Bytes → BitVec 32) (buffer : Bytes) : Option Page := (tryLoad crc buffer).toOption

/-- `std::ranges::lower_bound` over the keys -/
def find (p : Page) (key : Bytes) : ℕ := (p.records.takeWhile fun r => r.key < key).length

def at? (p : Page) (pos : ℕ) : Option (Record Bytes) := p.records[pos]?

def maxKey (p : Page) : Option Bytes := p.records.getLast?.map Record.key

def size (p : Page) : ℕ := p.records.length

end Page

/-! ### Building a table -/

structure SSTableHeader where
  -- `int64_t` in the source: what is negative there is 2 ^ 63 or more here
  pageSize : ℕ
  pageCount : ℕ
  maxSeqNo : ℕ
deriving DecidableEq

namespace SSTableHeader

def sdbSize : ℕ := 24

def write (h : SSTableHeader) : Bytes :=
  BufferWriter.writeInt (BitVec.ofNat 64 h.pageSize) ++ BufferWriter.writeInt (BitVec.ofNat 64 h.pageCount) ++
    BufferWriter.writeInt (BitVec.ofNat 64 h.maxSeqNo)

def read (buf : Bytes) : Option SSTableHeader :=
  match BufferReader.readInt buf with
  | none => none
  | some (pageSize, buf) =>
    match BufferReader.readInt buf with
    | none => none
    | some (pageCount, buf) =>
      match BufferReader.readInt buf with
      | none => none
      | some (maxSeqNo, _) => some ⟨pageSize.toNat, pageCount.toNat, maxSeqNo.toNat⟩

/-- `Read(reader, header)`, with what is left to read. -/
def readFrom (buf : Bytes) : Option (SSTableHeader × Bytes) :=
  match BufferReader.readInt buf with
  | none => none
  | some (pageSize, buf) =>
    match BufferReader.readInt buf with
    | none => none
    | some (pageCount, buf) =>
      match BufferReader.readInt buf with
      | none => none
      | some (maxSeqNo, buf) => some (⟨pageSize.toNat, pageCount.toNat, maxSeqNo.toNat⟩, buf)

end SSTableHeader

structure SSTableBuilder where
  header : SSTableHeader
  pageBuilder : PageBuilder
  fileWriter : FileWriter

namespace SSTableBuilder

def flushHeader (b : SSTableBuilder) : SSTableBuilder := { b with fileWriter := b.fileWriter.write b.header.write }

def create (pageSize : ℕ) : SSTableBuilder :=
  flushHeader ⟨⟨pageSize, 0, 0⟩, PageBuilder.clear pageSize, FileWriter.create⟩

/-- It asserts that the page is not empty. -/
def flushPage (crc : Bytes → BitVec 32) (b : SSTableBuilder) : Option SSTableBuilder :=
  if b.pageBuilder.isEmpty then none
  else
    some { header := { b.header with pageCount := b.header.pageCount + 1 }
           pageBuilder := PageBuilder.clear b.pageBuilder.pageSize
           fileWriter := b.fileWriter.write (b.pageBuilder.extract crc) }

/-- `Add` behind its check of the space -/
def addRecord (b : SSTableBuilder) (r : Record Bytes) : SSTableBuilder :=
  { b with
    pageBuilder := b.pageBuilder.addRecord r.write
    header := { b.header with maxSeqNo := max b.header.maxSeqNo r.seqNo } }

def add (crc : Bytes → BitVec 32) (b : SSTableBuilder) (r : Record Bytes) : Option SSTableBuilder :=
  if b.pageBuilder.isEnoughSpace r.write.length then some (b.addRecord r)
  else (b.flushPage crc).map fun b => b.addRecord r

def finish (crc : Bytes → BitVec 32) (b : SSTableBuilder) : Option SSTableBuilder :=
  (if b.pageBuilder.isEmpty then some b else b.flushPage crc).map fun b =>
    { b with fileWriter := b.fileWriter.rewind }.flushHeader

def addAll (crc : Bytes → BitVec 32) (b : SSTableBuilder) : List (Record Bytes) → Option SSTableBuilder
  | [] => some b
  | r :: records => (b.add crc r).bind fun b => b.addAll crc records

end SSTableBuilder

/-- The writes by which `MemTable::Flush` and `Lsm::Compact` make a table of records. -/
def buildWrites (crc : Bytes → BitVec 32) (pageSize : ℕ) (records : List (Record Bytes)) :
    Option (List (ℕ × Bytes)) :=
  ((SSTableBuilder.create pageSize).addAll crc records).bind fun b => (b.finish crc).map fun b => b.fileWriter.writes

/-! ### An open table -/

structure SSTable where
  -- the file behind `file_reader_`
  file : Bytes
  header : SSTableHeader
  pageCache : LruCache ℕ Page

namespace SSTable

def create (file : Bytes) (pageCacheCapacity : ℕ) : Option SSTable :=
  match readAt file 0 SSTableHeader.sdbSize with
  | none => none
  | some buffer => (SSTableHeader.read buffer).map fun header => ⟨file, header, LruCache.empty pageCacheCapacity⟩

def getMaxSeqNo (t : SSTable) : ℕ := t.header.maxSeqNo

def pageOffset (h : SSTableHeader) (pageNum : ℕ) : ℕ := SSTableHeader.sdbSize + pageNum * h.pageSize

/-- It asserts that there is such a page. -/
def getPage (crc : Bytes → BitVec 32) (t : SSTable) (pageNum : ℕ) : Option (Page × SSTable) :=
  if t.header.pageCount ≤ pageNum then none
  else
    match t.pageCache.get pageNum with
    | some (page, pageCache) => some (page, { t with pageCache })
    | none =>
      match readAt t.file (pageOffset t.header pageNum) t.header.pageSize with
      | none => none
      | some buffer =>
        (Page.load crc buffer).map fun page => (page, { t with pageCache := t.pageCache.put pageNum page })

/-- The comparison of `LowerBound`. -/
def reaches (crc : Bytes → BitVec 32) (key : Bytes) (pageNum : ℕ) (t : SSTable) : Option (Bool × SSTable) :=
  (t.getPage crc pageNum).bind fun r => r.1.maxKey.map fun maxKey => (decide (key ≤ maxKey), r.2)

/-- The number of the first page that may contain the key. -/
def lowerBound (crc : Bytes → BitVec 32) (t : SSTable) (key : Bytes) : Option (ℕ × SSTable) :=
  BinarySearch.lowerBound (reaches crc key) t.header.pageCount 0 t.header.pageCount t

end SSTable

structure SSTableIterator where
  range : ScanRange
  currentPage : ℕ
  currentRecord : ℕ
  next : Option (Record Bytes)

namespace SSTableIterator

/-- `NextImpl`, which moves the iterator and leaves the record in `next_`. -/
def nextImpl (crc : Bytes → BitVec 32) (it : SSTableIterator) (t : SSTable) : Option (SSTableIterator × SSTable) :=
  if t.header.pageCount ≤ it.currentPage then some ({ it with next := none }, t)
  else
    (t.getPage crc it.currentPage).bind fun r =>
      (r.1.at? it.currentRecord).map fun record =>
        (if r.1.size ≤ it.currentRecord + 1 then ⟨it.range, it.currentPage + 1, 0, some record⟩
         else ⟨it.range, it.currentPage, it.currentRecord + 1, some record⟩, r.2)

/-- Where `Create` puts the iterator before its first `NextImpl`. -/
def seek (crc : Bytes → BitVec 32) (range : ScanRange) (t : SSTable) : Option (SSTableIterator × SSTable) :=
  match range.lowerBound with
  | none => some (⟨range, 0, 0, none⟩, t)
  | some key =>
    (t.lowerBound crc key).bind fun r =>
      if r.1 < t.header.pageCount then
        (r.2.getPage crc r.1).map fun p => (⟨range, r.1, p.1.find key, none⟩, p.2)
      else some (⟨range, r.1, 0, none⟩, r.2)

def create (crc : Bytes → BitVec 32) (range : ScanRange) (t : SSTable) : Option (SSTableIterator × SSTable) :=
  (seek crc range t).bind fun r => r.1.nextImpl crc r.2

def hasMore (it : SSTableIterator) : Bool :=
  it.next.any fun record => it.range.upperBound.all fun upper => decide (record.key ≤ upper)

/-- Up to `n` rounds of `while (HasMore()) Next()`: the records, and the iterator and the table behind them. -/
def collect (crc : Bytes → BitVec 32) : ℕ → SSTableIterator → SSTable →
    Option (List (Record Bytes) × SSTableIterator × SSTable)
  | 0, it, t => some ([], it, t)
  | n + 1, it, t =>
    if it.hasMore then
      it.next.bind fun record =>
        (it.nextImpl crc t).bind fun r =>
          (collect crc n r.1 r.2).map fun c => (record :: c.1, c.2)
    else some ([], it, t)

end SSTableIterator

/-- `Scan` of a range, of which the first `n` records are taken. -/
def SSTable.scan (crc : Bytes → BitVec 32) (t : SSTable) (range : ScanRange) (n : ℕ) :
    Option (List (Record Bytes) × SSTableIterator × SSTable) :=
  (SSTableIterator.create crc range t).bind fun r => r.1.collect crc n r.2

def SSTable.scans (crc : Bytes → BitVec 32) (t : SSTable) : List (ScanRange × ℕ) → Option SSTable
  | [] => some t
  | (range, n) :: history => (t.scan crc range n).bind fun r => r.2.2.scans crc history

end Disk

end StructureDb
