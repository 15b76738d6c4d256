import StructureDb.Lib.Dir
import StructureDb.Spec.Table

/-! The write ahead log: segments of one page, named by number. The reader takes the
segments in the order of their names and gets from each page the events written
to it: the padding never parses as an event. The bytes of the log refine this one for
events that fit in a page, with the arguments of `Parse` evaluated in source order. -/

namespace StructureDb

inductive Event
  | upsert (storageId : Bytes) (seqNo : ℕ) (key : Bytes) (value : TransactionalValue)
  | commit (tx : TransactionId)
deriving DecidableEq

def Event.size : Event → ℕ
  | .upsert storageId _ key value => 8 + (8 + storageId.length) + 8 + (8 + key.length) + (8 + value.size)
  | .commit _ => 8 + 8

def kWalPageSize : ℕ := 4096

def kMaxPagesInSegment : ℕ := 1

/-- What the reader gets back of an event as it was written. The parser of one larger than a page runs past the end of
the page buffer, and what it makes of the event depends on the memory there; the theorems exclude such events. -/
def Event.readable (event : Event) : List Event := if event.size > kWalPageSize then [] else [event]

/-- The log directory and the state of `wal::Writer`. -/
structure Wal where
  dir : Dir Bytes (List Event)
  currentSegmentNo : ℕ
  currentPageSize : ℕ
  pagesInCurrentSegment : ℕ

def getSegmentNoFromName (name : Bytes) : ℤ :=
  match stoll name with
  | some n => n
  | none => -1

/-- The number with which `Writer::Init` goes on: one more than that of the last name. -/
def initialSegmentNo {α : Type} (dir : Dir Bytes α) : ℕ :=
  match dir.listing.getLast? with
  | some f => (getSegmentNoFromName f.1 + 1).toNat
  | none => 0

namespace Wal

def openSegment (w : Wal) : Wal :=
  { w with pagesInCurrentSegment := 0, dir := w.dir.touch (walName w.currentSegmentNo) [] }

def flushSegment (w : Wal) : Wal := openSegment { w with currentSegmentNo := w.currentSegmentNo + 1 }

def flushPage (w : Wal) : Wal :=
  if w.currentPageSize = 0 then w
  else
    let w := { w with currentPageSize := 0, pagesInCurrentSegment := w.pagesInCurrentSegment + 1 }
    if w.pagesInCurrentSegment ≥ kMaxPagesInSegment then w.flushSegment else w

/-- `Writer::Write`. The open segment may have been unlinked; what is then written is lost. -/
def write (w : Wal) (event : Event) : Wal :=
  let w := if w.currentPageSize + event.size > kWalPageSize then w.flushPage else w
  { w with
    dir := w.dir.modify (walName w.currentSegmentNo) fun events => events ++ event.readable
    currentPageSize := w.currentPageSize + event.size }

def init (dir : Dir Bytes (List Event)) : Wal := openSegment ⟨dir, initialSegmentNo dir, 0, 0⟩

def events (dir : Dir Bytes (List Event)) : List Event := (dir.listing.map Prod.snd).flatten

end Wal

end StructureDb
