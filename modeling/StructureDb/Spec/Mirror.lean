import StructureDb.Spec.Writer

/-! The log directory of a follower. The pages that come from the leader are written there by
`WriteReceivedPage`, and the follower's own writer, which the start of the database opens on the
same directory, logs the commits of the sessions that the follower serves. A page is received
by unlinking the name and creating the file again: a writer that has the old file open goes on
writing to a file without a name. `NextSegmentToFetch` looks at one file size after another. -/

namespace StructureDb

/-- The path of a file that has been unlinked; no file in the directory has it. -/
def unlinkedPath : Bytes := []

/-- What becomes of an open file when its name is unlinked. -/
def detachPath (name path : Bytes) : Bytes := if path = name then unlinkedPath else path

def WriteCall.detach (name : Bytes) : WriteCall → WriteCall
  | .opening path data => .opening (detachPath name path) data
  | call => call

/-- A file is created under a name; files that were open under this name stay open without one. -/
def Writes.createFile (s : Writes) (name : Bytes) : Writes :=
  ⟨{ s.writer with
      dir := s.writer.dir.create name []
      currentSegmentWriter := detachPath name s.writer.currentSegmentWriter },
    s.calls.map fun c => (c.1, c.2.detach name)⟩

/-- The test in `NextSegmentToFetch`: `FileSize` is at least that of a page. -/
def hasWholePage (dir : Dir Bytes Bytes) (segmentNo : ℕ) : Bool :=
  match dir.files.lookup (walName segmentNo) with
  | none => false
  | some data => decide (kWalPageSize ≤ data.length)

/-- The follower's log. `received` has the last page that was received for each segment number. -/
structure Mirror where
  writes : Writes
  -- `WriteReceivedPage` behind the creation of the file
  receiving : Option (ℕ × Bytes)
  -- `NextSegmentToFetch` before it looks at this segment
  fetching : Option ℕ
  received : ℕ → Option Bytes

namespace Mirror

inductive Action
  -- the follower's own writer
  | write (event : LogEvent)
  | resume (call : ℕ)
  -- `WriteReceivedPage`
  | createFile (segmentNo : ℕ) (data : Bytes)
  | writePage
  -- `NextSegmentToFetch`
  | nextSegmentToFetch
  | fileSize
  | restart
deriving DecidableEq

def dir (s : Mirror) : Dir Bytes Bytes := s.writes.writer.dir

def start : Mirror := ⟨Writes.start, none, none, fun _ => none⟩

def setReceived (received : ℕ → Option Bytes) (segmentNo : ℕ) (data : Option Bytes) : ℕ → Option Bytes :=
  fun n => if n = segmentNo then data else received n

/-- The pages are received one after another, and the next segment is asked for in between. -/
def step (s : Mirror) : Action → Option Mirror
  | .write event => (s.writes.step (.write event)).map fun writes => { s with writes }
  | .resume call => (s.writes.step (.resume call)).map fun writes => { s with writes }
  | .createFile segmentNo data =>
    if s.receiving = none ∧ s.fetching = none then
      some { s with
        writes := s.writes.createFile (walName segmentNo)
        receiving := some (segmentNo, data)
        received := setReceived s.received segmentNo none }
    else none
  | .writePage =>
    match s.receiving with
    | none => none
    | some (segmentNo, data) =>
      -- the file was not opened for appending
      some { s with
        writes := { s.writes with
          writer := { s.writes.writer with
            dir := s.dir.modify (walName segmentNo) fun bytes => data ++ bytes.drop data.length } }
        receiving := none
        received := setReceived s.received segmentNo (some data) }
  | .nextSegmentToFetch =>
    if s.receiving = none ∧ s.fetching = none then some { s with fetching := some 0 } else none
  | .fileSize =>
    match s.fetching with
    | none => none
    | some segmentNo => some { s with fetching := if hasWholePage s.dir segmentNo then some (segmentNo + 1) else none }
  | .restart => some { s with writes := ⟨Writer.init s.dir, []⟩, receiving := none, fetching := none }

end Mirror

end StructureDb
