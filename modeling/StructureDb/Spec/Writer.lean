import StructureDb.Lib.Machine
import StructureDb.Spec.LogReader

/-! `wal::Writer` over bytes, with its suspension points. A `Write` call runs until it waits for
a file: while it pads the page, while it opens the next segment and while it writes the
event. Any number of calls may be suspended at a time, and any of them may go on. What is
written to a file is appended when the write is started. -/

namespace StructureDb

structure Writer where
  dir : Dir Bytes Bytes
  -- the file behind `current_segment_writer_`
  currentSegmentWriter : Bytes
  currentSegmentNo : ℕ
  currentPageSize : ℕ
  pagesInCurrentSegment : ℕ

/-- Where a call of `Write` waits, with the bytes it still has to write. -/
inductive WriteCall
  | padding (data : Bytes)
  | opening (path data : Bytes)
  | writing (size : ℕ)
  | returned
deriving DecidableEq

namespace Writer

def append (w : Writer) (data : Bytes) : Writer :=
  { w with dir := w.dir.modify w.currentSegmentWriter fun bytes => bytes ++ data }

def writeData (w : Writer) (data : Bytes) : Writer × WriteCall := (w.append data, .writing data.length)

/-- `OpenSegment` up to its wait for the file. -/
def openSegment (w : Writer) (data : Bytes) : Writer × WriteCall :=
  ({ w with pagesInCurrentSegment := 0, dir := w.dir.touch (walName w.currentSegmentNo) [] },
    .opening (walName w.currentSegmentNo) data)

def flushSegment (w : Writer) (data : Bytes) : Writer × WriteCall :=
  openSegment { w with currentSegmentNo := w.currentSegmentNo + 1 } data

/-- `FlushPage` behind the padding. -/
def endPage (w : Writer) (data : Bytes) : Writer × WriteCall :=
  let w := { w with currentPageSize := 0, pagesInCurrentSegment := w.pagesInCurrentSegment + 1 }
  if w.pagesInCurrentSegment ≥ kMaxPagesInSegment then w.flushSegment data else w.writeData data

def flushPage (w : Writer) (data : Bytes) : Writer × WriteCall :=
  if w.currentPageSize = 0 then w.writeData data
  else if w.currentPageSize < kWalPageSize then
    (w.append (List.replicate (kWalPageSize - w.currentPageSize) 0), .padding data)
  else w.endPage data

/-- `Write` up to its first wait. -/
def write (w : Writer) (data : Bytes) : Writer × WriteCall :=
  if w.currentPageSize + data.length > kWalPageSize then w.flushPage data else w.writeData data

/-- A suspended call goes on to its next wait; `FSync` does not wait. -/
def resume (w : Writer) : WriteCall → Writer × WriteCall
  | .padding data => w.endPage data
  | .opening path data => { w with currentSegmentWriter := path }.writeData data
  | .writing size => ({ w with currentPageSize := w.currentPageSize + size }, .returned)
  | .returned => (w, .returned)

def init (dir : Dir Bytes Bytes) : Writer :=
  { dir := dir.touch (walName (initialSegmentNo dir)) []
    currentSegmentWriter := walName (initialSegmentNo dir)
    currentSegmentNo := initialSegmentNo dir
    currentPageSize := 0
    pagesInCurrentSegment := 0 }

end Writer

/-- A writer with all calls of `Write` so far, in the order in which they were made. -/
structure Writes where
  writer : Writer
  calls : List (LogEvent × WriteCall)

namespace Writes

inductive Action
  | write (event : LogEvent)
  | resume (call : ℕ)
deriving DecidableEq

def start : Writes := ⟨Writer.init Dir.empty, []⟩

def step (s : Writes) : Action → Option Writes
  | .write event =>
    let (writer, call) := s.writer.write (flushEvent event)
    some ⟨writer, s.calls ++ [(event, call)]⟩
  | .resume i =>
    match s.calls[i]? with
    | none => none
    | some (event, call) =>
      if call = .returned then none
      else
        let (writer, call) := s.writer.resume call
        some ⟨writer, s.calls.set i (event, call)⟩

def inFlight (s : Writes) : ℕ :=
  (s.calls.map fun c => match c.2 with
    | .writing size => size
    | _ => 0).sum

end Writes

end StructureDb
