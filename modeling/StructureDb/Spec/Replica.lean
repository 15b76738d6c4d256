import StructureDb.Spec.World

/-! A leader with its clients and a follower that applies the leader's log. `ProcessPage` writes a page into the
follower's log and then applies its events one after another; the page may be one that the follower has a longer or a
shorter version of. Meanwhile the follower flushes its storages and serves sessions that read: they take their ids from
the follower's own counter, and an autocommit lookup ends with a commit that goes to the follower's own log.
After a crash `Init` recovers from the files and from the log that is there; pages that are
received may have overwritten some of the follower's own commit events. The follower's `Compaction` and
`WalCleaner` are left out. -/

namespace StructureDb

structure Replica where
  leader : World
  -- the follower: its database, the segments it received, the events of the page in hand, and the
  -- transactions its own sessions committed
  db : Db
  log : List (List Event)
  events : List Event
  own : List TransactionId

namespace Replica

inductive Action
  | leader (op : Op)
  -- a page of the leader, of which the first events were there when it was read
  | processPage (segmentNo size : ℕ)
  | apply
  | begin
  | commit (tx : TransactionId)
  | rollback (tx : TransactionId)
  | flush
  -- the commit events of its own sessions that the follower finds again
  | restart (found : List TransactionId)
deriving DecidableEq

def start (o : Options) : Replica := ⟨World.start o, Db.init o (fun _ => none) Dir.empty, [], [], []⟩

def segments (s : Replica) : List (List Event) := s.leader.db.wal.dir.listing.map Prod.snd

def step (o : Options) (s : Replica) : Action → Option Replica
  | .leader op => (s.leader.step o op).map fun leader => { s with leader }
  | .processPage segmentNo size =>
    match s.events, s.segments[segmentNo]? with
    | [], some segment =>
      let page := segment.take size
      some { s with log := s.log.take segmentNo ++ page :: s.log.drop (segmentNo + 1), events := page }
    | _, _ => none
  | .apply =>
    match s.events with
    | [] => none
    | event :: rest => some { s with db := s.db.apply o event, events := rest }
  | .begin => some { s with db := s.db.begin.1 }
  | .commit tx =>
    -- a session that began before the leader's transaction of the same id committed goes on to its own commit
    if s.db.txStorage.isStarted tx ∨ s.db.txStorage.isCommited tx then
      some { s with db := s.db.commit tx, own := tx :: s.own }
    else none
  | .rollback tx => if s.db.txStorage.isStarted tx then some { s with db := s.db.rollback tx } else none
  | .flush => some { s with db := s.db.flush }
  | .restart found =>
    if ∀ tx ∈ found, tx ∈ s.own then
      some { s with
        db := (s.log.flatten ++ found.map Event.commit).foldl (Db.apply o)
          ⟨Db.openStorages s.db.dirs, TxStorage.empty, Wal.init s.db.wal.dir⟩
        events := [] }
    else none

/-- The events of the received segments that have been applied. -/
def applied (s : Replica) : List Event := s.log.flatten.take (s.log.flatten.length - s.events.length)

end Replica

end StructureDb
