import StructureDb.Spec.TableFile

/-! `sdb_viewer`, which prints a table file. It reads the pages one after another through a
stream, takes their checksums as they are, and knows nothing of ranges or of a page cache. -/

namespace StructureDb

namespace Disk

namespace Viewer

/-! ### `std::ifstream` -/

structure Stream where
  -- the bytes from the position on
  rest : Bytes
  eof : Bool

/-- `read` into a buffer of zeros. Where the file is too short the rest of the buffer stays as it is, and the stream
is at its end from then on; such a stream reads nothing. -/
def Stream.read (s : Stream) (size : ℕ) : Bytes × Stream :=
  if s.eof then (List.replicate size 0, s)
  else
    (s.rest.take size ++ List.replicate (size - s.rest.length) 0, ⟨s.rest.drop size, decide (s.rest.length < size)⟩)

/-! ### The program -/

inductive Line
  | onlySSTables
  | goingToRead (filePath : Bytes)
  | failedToOpen (filePath : Bytes)
  | tableHeader (header : SSTableHeader)
  | page (i : ℕ) (header : PageHeader)
  | record (j : ℕ) (record : Record Bytes)

/-- What is printed; no exit code stands for an exception, or a read beyond the end of a buffer. -/
structure Output where
  lines : List Line
  exitCode : Option ℕ

namespace Output

def done : Output := ⟨[], some 0⟩

def fault : Output := ⟨[], none⟩

def print (line : Line) (rest : Output) : Output := ⟨line :: rest.lines, rest.exitCode⟩

end Output

/-- The length of a loop up to a signed bound. -/
def rounds (bound : BitVec 64) : ℕ := bound.toInt.toNat

/-- The loop over the records of a page, and what comes behind it. -/
def showRecords (next : Output) : ℕ → ℕ → Bytes → Output
  | 0, _, _ => next
  | n + 1, j, buf =>
    match Record.read buf with
    | none => .fault
    | some (record, buf) => .print (.record j record) (showRecords next n (j + 1) buf)

/-- The loop over the pages; a vector cannot have a negative size. -/
def showPages (pageSize : ℕ) : ℕ → ℕ → Stream → Output
  | 0, _, _ => .done
  | n + 1, i, file =>
    if file.eof then .done
    else if 2 ^ 63 ≤ pageSize then .fault
    else
      match PageHeader.read (file.read pageSize).1 with
      | none => .fault
      | some (header, buf) =>
        .print (.page i header)
          (showRecords (showPages pageSize n (i + 1) (file.read pageSize).2) (rounds header.count) 0 buf)

def showTable (file : Bytes) : Output :=
  match SSTableHeader.read ((⟨file, false⟩ : Stream).read SSTableHeader.sdbSize).1 with
  | none => .fault
  | some header =>
    .print (.tableHeader header)
      (showPages header.pageSize (rounds (BitVec.ofNat 64 header.pageCount)) 0
        ((⟨file, false⟩ : Stream).read SSTableHeader.sdbSize).2)

def kSuffix : Bytes := [46, 115, 115, 116, 46, 115, 100, 98]

/-- No file is one that cannot be opened. -/
def main (filePath : Bytes) (file : Option Bytes) : Output :=
  if kSuffix.isSuffixOf filePath then
    .print (.goingToRead filePath) (match file with
      | none => ⟨[.failedToOpen filePath], some 1⟩
      | some file => showTable file)
  else ⟨[.onlySSTables], some 1⟩

end Viewer

end Disk

end StructureDb
