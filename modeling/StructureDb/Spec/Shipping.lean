import StructureDb.Spec.LogMemory
import StructureDb.Spec.Lsm
import StructureDb.Spec.Writer

/-! The pages of the leader's log on their way to a follower, over bytes. The leader numbers the
records of each storage one after another and logs them; segments may be removed, and restarts
begin new ones. A page is read from the directory at some time, perhaps while it grows, and is
delivered at any time after that, any number of times. `ProcessPage` parses its events, a read past
the end of the page counting as an exception, and applies them one after another; the follower
flushes its storages in between. -/

namespace StructureDb

structure Shipping where
  -- the leader: its log, and the records of its storages in the order of their numbers
  writes : Writes
  records : Bytes → List (Record Bytes)
  -- the pages that were read
  sent : List Bytes
  -- the follower: its storages, and the events of the page in hand
  storages : Bytes → Option (Lsm Bytes)
  events : List LogEvent

namespace Shipping

inductive Action
  -- the leader
  | upsert (storageId key value : Bytes)
  | commit (tx : BitVec 64)
  | resume (call : ℕ)
  | remove (segmentNo : ℕ)
  | restart
  -- a page, of which the first bytes were there when it was read
  | send (segmentNo pageNo size : ℕ)
  -- the follower
  | processPage (page : ℕ)
  | apply
  | flush (storageId : Bytes)
deriving DecidableEq

def dir (s : Shipping) : Dir Bytes Bytes := s.writes.writer.dir

def start : Shipping := ⟨Writes.start, fun _ => [], [], fun _ => none, []⟩

def nextRecord (s : Shipping) (storageId key value : Bytes) : Record Bytes :=
  ⟨key, (s.records storageId).length + 1, value⟩

def logged (storageId : Bytes) (record : Record Bytes) : LogEvent :=
  .lsmStorageUpsert storageId (BitVec.ofNat 64 record.seqNo) record.key record.value

/-- `Event::Apply` on the follower: a storage that is not there is created. -/
def applyEvent (o : Options) (storages : Bytes → Option (Lsm Bytes)) : LogEvent → Bytes → Option (Lsm Bytes)
  | .lsmStorageUpsert storageId seqNo key value =>
    let l := (storages storageId).getD (Lsm.init Dir.empty)
    Function.update storages storageId (some (l.putSeq o seqNo.toNat key value).1)
  | .txStorageCommit _ => storages

def step (o : Options) (order : EvaluationOrder) (s : Shipping) : Action → Option Shipping
  | .upsert storageId key value =>
    let record := s.nextRecord storageId key value
    (s.writes.step (.write (logged storageId record))).map fun writes =>
      { s with writes, records := Function.update s.records storageId (s.records storageId ++ [record]) }
  | .commit tx => (s.writes.step (.write (.txStorageCommit tx))).map fun writes => { s with writes }
  | .resume call => (s.writes.step (.resume call)).map fun writes => { s with writes }
  | .remove segmentNo =>
    some { s with writes := { s.writes with
      writer := { s.writes.writer with dir := s.dir.unlink (walName segmentNo) } } }
  | .restart => some { s with writes := ⟨Writer.init s.dir, []⟩ }
  | .send segmentNo pageNo size =>
    match s.dir.files.lookup (walName segmentNo) with
    | none => none
    | some data =>
      match (pages data)[pageNo]? with
      | none => none
      | some page => some { s with sent := s.sent ++ [page.take size] }
  | .processPage i =>
    match s.events, s.sent[i]? with
    | [], some page => some { s with events := (parseMemory order.arguments [] page.length page).1 }
    | _, _ => none
  | .apply =>
    match s.events with
    | [] => none
    | event :: rest => some { s with storages := applyEvent o s.storages event, events := rest }
  | .flush storageId =>
    match s.storages storageId with
    | none => none
    | some l => some { s with storages := Function.update s.storages storageId (some l.flushFront) }

end Shipping

end StructureDb
