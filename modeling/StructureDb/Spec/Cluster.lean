import StructureDb.Spec.Mirror
import StructureDb.Spec.Replication

/-! A leader and one of its followers. `Follower::Run` looks for the first segment that its log
lacks, asks the leader for the pages from there on and writes what it reads into its log, page by page. The stream
may break at any time, and pages that were sent but not read are lost then; so are they when the
follower crashes. The loop then begins again. The leader writes its log and serves other
followers meanwhile. A `WalCleaner` of the follower is left out. -/

namespace StructureDb

/-- The pages that were given to the transport. -/
def GetEventsReactor.started (r : GetEventsReactor) : List WalPageData := r.sent ++ (r.writing.map Prod.fst).toList

inductive Follower
  | waiting
  | fetching
  | requesting (fromSegment : ℕ)
  -- a stream, and how many of its pages have been read
  | reading (token pages : ℕ)
deriving DecidableEq

/-- A stream ends with the process of the leader. -/
def Follower.cut : Follower → Follower
  | .reading _ _ => .waiting
  | follower => follower

structure Cluster where
  leader : Leader
  mirror : Mirror
  follower : Follower

namespace Cluster

inductive Action
  | leader (action : Leader.Action)
  -- the follower's own writer
  | write (event : LogEvent)
  | resume (call : ℕ)
  -- `Follower::Run`
  | nextSegmentToFetch
  | fileSize
  | getEvents
  | read
  | writePage
  | disconnect
  | restart
deriving DecidableEq

def start : Cluster := ⟨Leader.start, Mirror.start, .waiting⟩

def leaderStep (s : Cluster) (action : Leader.Action) : Option Cluster :=
  (s.leader.step action).map fun leader =>
    { s with leader, follower := if action = .restart then s.follower.cut else s.follower }

def mirrorStep (s : Cluster) (action : Mirror.Action) (follower : Follower) : Option Cluster :=
  (s.mirror.step action).map fun mirror => { s with mirror, follower }

def nextPage (s : Cluster) (token pages : ℕ) : Option WalPageData :=
  (s.leader.reactor? token).bind fun r => r.started[pages]?

def step (s : Cluster) : Action → Option Cluster
  | .leader action => s.leaderStep action
  | .write event => s.mirrorStep (.write event) s.follower
  | .resume call => s.mirrorStep (.resume call) s.follower
  | .nextSegmentToFetch => if s.follower = .waiting then s.mirrorStep .nextSegmentToFetch .fetching else none
  | .fileSize =>
    match s.mirror.fetching with
    | none => none
    | some segmentNo =>
      s.mirrorStep .fileSize (if hasWholePage s.mirror.dir segmentNo then .fetching else .requesting segmentNo)
  | .getEvents =>
    match s.follower with
    | .requesting fromSegment =>
      (s.leader.step (.getEvents ⟨fromSegment, 0⟩)).map fun leader =>
        { s with leader, follower := .reading s.leader.followers.nextToken 0 }
    | _ => none
  | .read =>
    match s.follower with
    | .reading token pages =>
      match s.nextPage token pages with
      | none => none
      | some page => s.mirrorStep (.createFile page.position.segmentNo.toNat page.data) (.reading token (pages + 1))
    | _ => none
  | .writePage => s.mirrorStep .writePage s.follower
  -- `Read` returns false, or the call fails, and the page that was read is through
  | .disconnect =>
    if s.mirror.receiving = none ∧ s.mirror.fetching = none then some { s with follower := .waiting } else none
  | .restart => s.mirrorStep .restart .waiting

end Cluster

end StructureDb
