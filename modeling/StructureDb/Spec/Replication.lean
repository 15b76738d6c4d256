import StructureDb.Spec.Writer

/-! The leader's side of replication: the registry of the connected followers, the streams that
send the pages of the log to them, and the job that removes log segments. All of them share
the log directory with the writer, and every one of them stops at its suspension points: a
stream while a page is sent and between two polls, the job while it lists the directory,
reads a page or removes a file. -/

namespace StructureDb

structure FollowerRegistry where
  nextToken : ℕ
  positions : List (ℕ × Position)

namespace FollowerRegistry

def empty : FollowerRegistry := ⟨0, []⟩

/-- `Register`; the token is the old `next_token_`. -/
def register (r : FollowerRegistry) (origin : Position) : FollowerRegistry :=
  ⟨r.nextToken + 1, r.positions ++ [(r.nextToken, origin)]⟩

def update (r : FollowerRegistry) (token : ℕ) (nextNeeded : Position) : FollowerRegistry :=
  { r with positions := r.positions.map fun p => if p.1 = token then (p.1, nextNeeded) else p }

def unregister (r : FollowerRegistry) (token : ℕ) : FollowerRegistry :=
  { r with positions := r.positions.filter fun p => p.1 ≠ token }

def minRetainedSegment (r : FollowerRegistry) : Option ℤ :=
  match r.positions with
  | [] => none
  | p :: rest => some (rest.foldl (fun minSegment q => min minSegment q.2.segmentNo) p.2.segmentNo)

end FollowerRegistry

/-- A stream of pages to a follower. `sent` are the pages whose write is done; while one is being written, it
stands in `writing` with the pages of this round behind it. -/
structure GetEventsReactor where
  origin : Position
  token : ℕ
  nextPos : Position
  tailSentSize : ℤ
  sent : List WalPageData
  writing : Option (WalPageData × List WalPageData)

namespace GetEventsReactor

def init (origin : Position) (token : ℕ) : GetEventsReactor :=
  { origin, token, nextPos := origin, tailSentSize := -1, sent := [], writing := none }

def isAlreadySentTail (r : GetEventsReactor) (page : WalPageData) : Bool :=
  page.position = r.nextPos ∧ (page.data.length : ℤ) = r.tailSentSize

def isCompleted (page : WalPageData) : Bool := page.data.length = kWalPageSize

/-- The loop of `Pump` over the collected pages, up to the next `StartWrite` or to the end of the round. -/
def pumpPages (r : GetEventsReactor) : List WalPageData → GetEventsReactor
  | [] => { r with writing := none }
  | page :: rest =>
    if ¬isCompleted page ∧ r.isAlreadySentTail page then { r with writing := none }
    else { r with writing := some (page, rest) }

/-- A round begins: the pages from `next_pos_` on are collected. -/
def poll (r : GetEventsReactor) (dir : Dir Bytes Bytes) : GetEventsReactor :=
  r.pumpPages (collectPagesFrom dir r.nextPos)

def pageWritten (r : GetEventsReactor) (page : WalPageData) (rest : List WalPageData) : GetEventsReactor :=
  if isCompleted page then
    pumpPages
      { r with
        sent := r.sent ++ [page]
        nextPos := ⟨page.position.segmentNo, page.position.pageNo + 1⟩
        tailSentSize := -1 }
      rest
  else
    { r with sent := r.sent ++ [page], nextPos := page.position, tailSentSize := page.data.length, writing := none }

end GetEventsReactor

/-- `CleanerStrategy`: what is known of each segment so far. -/
abbrev SegmentPersistence := List (ℤ × Bool)

namespace CleanerStrategy

def accumulatePersistence (persistence : SegmentPersistence) (segmentNo : ℤ) (isPersistent : Bool) :
    SegmentPersistence :=
  if persistence.any fun p => p.1 = segmentNo then
    persistence.map fun p => if p.1 = segmentNo then (p.1, p.2 && isPersistent) else p
  else persistence ++ [(segmentNo, isPersistent)]

/-- `IsPersistent` of an event; a storage that is not there is an exception. -/
def isPersistent (maxPersistentSeqNo : Bytes → Option ℤ) : LogEvent → Option Bool
  | .lsmStorageUpsert storageId seqNo _ _ => (maxPersistentSeqNo storageId).map fun n => decide (seqNo.toInt ≤ n)
  | .txStorageCommit _ => some true

/-- The events of a page one after another; whether an exception ends it. -/
def onEvents (maxPersistentSeqNo : Bytes → Option ℤ) (segmentNo : ℤ) :
    SegmentPersistence → List LogEvent → SegmentPersistence × Bool
  | persistence, [] => (persistence, false)
  | persistence, event :: rest =>
    match isPersistent maxPersistentSeqNo event with
    | none => (persistence, true)
    | some p => onEvents maxPersistentSeqNo segmentNo (accumulatePersistence persistence segmentNo p) rest

/-- The segments that `DeleteObsoleteSegments` removes, in the order of an unordered map. -/
def obsoleteSegments (persistence : SegmentPersistence) (retainFromSegment : Option ℤ) : List ℤ :=
  (persistence.filter fun p => p.2 ∧ retainFromSegment.all fun retain => ¬p.1 ≥ retain).map Prod.fst

end CleanerStrategy

/-- Where `WalCleaner::Step` waits. -/
inductive WalCleaner
  | idle
  | listing (retainFromSegment : Option ℤ)
  | reading (retainFromSegment : Option ℤ) (segments : List Bytes) (pageNo : ℕ) (persistence : SegmentPersistence)
  | deleting (retainFromSegment : Option ℤ) (segments : List ℤ)
deriving DecidableEq

namespace WalCleaner

def delete (retainFromSegment : Option ℤ) : List ℤ → WalCleaner
  | [] => .idle
  | segments => .deleting retainFromSegment segments

def read (retainFromSegment : Option ℤ) (persistence : SegmentPersistence) : List Bytes → WalCleaner
  | [] => delete retainFromSegment (CleanerStrategy.obsoleteSegments persistence retainFromSegment)
  | segments => .reading retainFromSegment segments 0 persistence

end WalCleaner

/-- The leader's log with all that works on its directory. -/
structure Leader where
  writes : Writes
  maxPersistentSeqNo : Bytes → Option ℤ
  followers : FollowerRegistry
  reactors : List GetEventsReactor
  cleaner : WalCleaner

namespace Leader

inductive Action
  -- the writer, and a flush of a storage
  | write (event : LogEvent)
  | resume (call : ℕ)
  | persisted (storageId : Bytes) (seqNo : ℤ)
  -- a stream: `GetEvents`, a round of `Pump`, `OnWriteDone` and `OnDone`
  | getEvents (origin : Position)
  | poll (token : ℕ)
  | writeDone (token : ℕ)
  | done (token : ℕ)
  -- `WalCleaner::Step`
  | clean
  | listDirectory
  | readPage
  | remove (segmentNo : ℤ)
  | restart
deriving DecidableEq

def dir (s : Leader) : Dir Bytes Bytes := s.writes.writer.dir

def setDir (s : Leader) (dir : Dir Bytes Bytes) : Leader :=
  { s with writes := { s.writes with writer := { s.writes.writer with dir } } }

def start : Leader := ⟨Writes.start, fun _ => none, FollowerRegistry.empty, [], .idle⟩

def reopen (s : Leader) : Leader := { start with writes := ⟨Writer.init s.dir, []⟩ }

def reactor? (s : Leader) (token : ℕ) : Option GetEventsReactor := s.reactors.find? fun r => r.token = token

def setReactor (s : Leader) (reactor : GetEventsReactor) : Leader :=
  { s with reactors := s.reactors.map fun r => if r.token = reactor.token then reactor else r }

def pageWritten (s : Leader) (r : GetEventsReactor) (page : WalPageData) (rest : List WalPageData) : Leader :=
  let s := s.setReactor (r.pageWritten page rest)
  if GetEventsReactor.isCompleted page then
    { s with followers := s.followers.update r.token ⟨page.position.segmentNo, page.position.pageNo + 1⟩ }
  else s

/-- One read of `Reader::ReadSegment` with `CleanerStrategy`; a segment that cannot be opened ends the job. -/
def readPage (s : Leader) (retainFromSegment : Option ℤ) (segment : Bytes) (rest : List Bytes) (pageNo : ℕ)
    (persistence : SegmentPersistence) : WalCleaner :=
  match s.dir.files.lookup segment with
  | none => .idle
  | some data =>
    match (pages data)[pageNo]? with
    | none => .read retainFromSegment persistence rest
    | some page =>
      let segmentNo := getSegmentNoFromName segment
      let (persistence, thrown) :=
        CleanerStrategy.onEvents s.maxPersistentSeqNo segmentNo persistence (onPage page).1
      if thrown ∨ (onPage page).2 then .read retainFromSegment persistence rest
      else .reading retainFromSegment (segment :: rest) (pageNo + 1) persistence

def step (s : Leader) : Action → Option Leader
  | .write event => (s.writes.step (.write event)).map fun writes => { s with writes }
  | .resume call => (s.writes.step (.resume call)).map fun writes => { s with writes }
  | .persisted storageId seqNo =>
    some { s with maxPersistentSeqNo := fun id => if id = storageId then some seqNo else s.maxPersistentSeqNo id }
  | .getEvents origin =>
    some { s with
      followers := s.followers.register origin
      reactors := s.reactors ++ [.init origin s.followers.nextToken] }
  | .poll token =>
    match s.reactor? token with
    | none => none
    | some r => if r.writing.isSome then none else some (s.setReactor (r.poll s.dir))
  | .writeDone token =>
    match s.reactor? token with
    | none => none
    | some r =>
      match r.writing with
      | none => none
      | some (page, rest) => some (s.pageWritten r page rest)
  | .done token =>
    some { s with
      followers := s.followers.unregister token
      reactors := s.reactors.filter fun r => r.token ≠ token }
  | .clean =>
    if s.cleaner = .idle then some { s with cleaner := .listing s.followers.minRetainedSegment } else none
  | .listDirectory =>
    match s.cleaner with
    | .listing retain => some { s with cleaner := .read retain [] (s.dir.listing.map Prod.fst) }
    | _ => none
  | .readPage =>
    match s.cleaner with
    | .reading retain (segment :: rest) pageNo persistence =>
      some { s with cleaner := s.readPage retain segment rest pageNo persistence }
    | _ => none
  | .remove segmentNo =>
    match s.cleaner with
    | .deleting retain segments =>
      if segmentNo ∈ segments then
        some { s.setDir (s.dir.unlink (walName segmentNo.toNat)) with
            cleaner := .delete retain (segments.erase segmentNo) }
      else none
    | _ => none
  | .restart => some s.reopen

end Leader

end StructureDb
