import StructureDb.Lib.Splits
import StructureDb.Proofs.ByteDatabase
import StructureDb.Proofs.Rebuild
import StructureDb.Proofs.Refinement
import StructureDb.Proofs.Reopened
import StructureDb.Proofs.WalSessions

/-! Transactions across a crash. The commit event of a transaction comes after the events of
all its versions, so a beginning of the log that has the one has the others, and
recovery from it has the versions. An event that is larger than a page is not recovered
as it was written, and its transaction is then committed with another version. -/

namespace StructureDb

def Event.ofRow (id : Bytes) (row : Row) : Event := .upsert id row.seqNo row.key row.value

namespace World

variable {o : Options} {w w' : World} {events : List Event} {op : Op}

structure Atomic (w : World) (events : List Event) : Prop where
  whole : w.db.Whole events
  logged : ∀ h id row, (h, id, row) ∈ w.written → Event.ofRow id row ∈ events
  before : ∀ pre t post, events = pre ++ .commit t :: post →
    ∀ h id row, (h, id, row) ∈ w.written → row.value.tx = t → Event.ofRow id row ∈ pre
  settled : ∀ t, .commit t ∈ events → w.db.txStorage.txStatus t = some .commited
  fresh : ∀ t, w.db.txStorage.txStatus t ≠ none → t < w.db.txStorage.nextTxId

namespace Atomic

theorem start (o : Options) : (start o).Atomic [] :=
  ⟨Db.Whole.start o, by simp [World.start], by simp, by simp, fun _ h => absurd rfl h⟩

/-- A running transaction has no commit event yet. -/
theorem not_committed (hw : w.Atomic events) {h : Label} {t : TransactionId} (ht : w.tx h = some t) :
    .commit t ∉ events := by
  intro hm
  have hs := hw.settled t hm
  rw [TxStorage.isStarted_iff.mp (txOf_eq_some.mp ht).2] at hs
  cases hs

theorem congr (hw : w.Atomic events) {db : Db} (hdb : db.Whole events) (htx : db.txStorage = w.db.txStorage) :
    Atomic { w with db } events :=
  ⟨hdb, hw.logged, hw.before, htx ▸ hw.settled, htx ▸ hw.fresh⟩

theorem begin (hw : w.Atomic events) (h : Label) :
    Atomic { w with db := w.db.begin.1, begun := (h, w.db.txStorage.nextTxId) :: w.begun } events := by
  refine ⟨hw.whole.congr rfl rfl, hw.logged, hw.before, ?_, ?_⟩
  · intro t ht
    have hs := hw.settled t ht
    have hlt := hw.fresh t (by rw [hs]; simp)
    exact (TxStorage.begin_txStatus_of_ne hlt.ne).trans hs
  · intro t ht
    have hle : t ≤ w.db.txStorage.nextTxId := by
      by_cases he : t = w.db.txStorage.nextTxId
      · exact he.le
      · exact (hw.fresh t ((TxStorage.begin_txStatus_of_ne he) ▸ ht)).le
    exact Nat.lt_succ_of_le hle

theorem write (hw : w.Atomic events) {h : Label} {t : TransactionId} {id key : Bytes} {value : TransactionalValue}
    (ht : w.tx h = some t) (hv : value.tx = t) (hsize : ∀ n, (Event.upsert id n key value).size ≤ kWalPageSize)
    (hs : w.writeRow o h id key value = some w') : ∃ events', w'.Atomic events' := by
  obtain ⟨s, db, n, hl, hu, rfl⟩ := writeRow_cases hs
  obtain ⟨-, hnext, hstatus, -⟩ := TxStorage.acquireRowLock_spec hl
  have hwhole : Db.Whole { w.db with txStorage := s } events := hw.whole.congr rfl rfl
  have htx : db.txStorage = s := by
    obtain ⟨l, -, -, rfl⟩ := Db.engineUpsert_cases hu
    rfl
  refine ⟨_, hwhole.put (hsize n) hu, ?_, ?_, ?_, ?_⟩
  · intro h' id' row hm
    rcases List.mem_cons.mp hm with he | hm
    · obtain ⟨-, rfl, rfl⟩ := he
      exact List.mem_append_right _ (List.mem_singleton.mpr rfl)
    · exact List.mem_append_left _ (hw.logged h' id' row hm)
  · intro pre t' post hsplit h' id' row hm htx'
    obtain ⟨he, -⟩ | ⟨post', hsplit⟩ := Splits.concat_eq_append_cons hsplit
    · cases he
    · rcases List.mem_cons.mp hm with he | hm
      · -- the writer has not committed
        obtain ⟨-, rfl, rfl⟩ := he
        refine absurd ?_ (hw.not_committed ht)
        rw [hsplit, ← hv, htx']
        simp
      · exact hw.before pre t' post' hsplit h' id' row hm htx'
  · intro t' ht'
    have ht' : .commit t' ∈ events := by simpa using ht'
    dsimp only
    rw [htx, hstatus]
    exact hw.settled t' ht'
  · dsimp only
    rw [htx, hstatus, hnext]
    exact hw.fresh

theorem commit (hw : w.Atomic events) {h : Label} {t : TransactionId} (ht : w.tx h = some t) :
    Atomic { w with db := w.db.commit t, hist := .commit h :: w.hist } (events ++ [.commit t]) := by
  have hstarted := TxStorage.isStarted_iff.mp (txOf_eq_some.mp ht).2
  refine ⟨hw.whole.commit t, fun h' id row hm => List.mem_append_left _ (hw.logged h' id row hm), ?_, ?_, ?_⟩
  · intro pre t' post hsplit h' id row hm htx
    obtain ⟨-, rfl, -⟩ | ⟨post', hsplit⟩ := Splits.concat_eq_append_cons hsplit
    · exact hw.logged h' id row hm
    · exact hw.before pre t' post' hsplit h' id row hm htx
  · intro t' ht'
    dsimp only [Db.commit]
    rw [TxStorage.releaseAllLocks_txStatus]
    by_cases he : t' = t
    · rw [he, TxStorage.setStatus_txStatus_self]
    · rw [TxStorage.setStatus_txStatus_of_ne _ he]
      exact hw.settled t' (by simpa [he] using ht')
  · intro t' hne
    dsimp only [Db.commit] at hne
    rw [TxStorage.releaseAllLocks_txStatus] at hne
    refine hw.fresh t' ?_
    by_cases he : t' = t
    · rw [he, hstarted]
      simp
    · rwa [TxStorage.setStatus_txStatus_of_ne _ he] at hne

theorem rollback (hw : w.Atomic events) {h : Label} {t : TransactionId} (ht : w.tx h = some t) :
    Atomic { w with db := w.db.rollback t, hist := .rollback h :: w.hist } events := by
  have hstarted := TxStorage.isStarted_iff.mp (txOf_eq_some.mp ht).2
  refine ⟨hw.whole.congr rfl rfl, hw.logged, hw.before, ?_, ?_⟩
  · intro t' ht'
    have hne : t' ≠ t := fun he => hw.not_committed ht (he ▸ ht')
    exact (TxStorage.setStatus_txStatus_of_ne _ hne).trans (hw.settled t' ht')
  · intro t' hne
    refine hw.fresh t' ?_
    by_cases he : t' = t
    · rw [he, hstarted]
      simp
    · exact (TxStorage.setStatus_txStatus_of_ne (s := w.db.txStorage) .rollbacked he) ▸ hne

theorem restart (hw : w.Atomic events) (hno : w.db.wal.currentSegmentNo < 10000) :
    Atomic { w with db := w.db.restart o } events := by
  have hstatus := hw.whole.durable.restart_txStatus (o := o) hno
  refine ⟨hw.whole.restart hno, hw.logged, hw.before, ?_, ?_⟩
  · intro t ht
    exact (hstatus t).trans (if_pos ht)
  · intro t hne
    dsimp only at hne
    rw [hstatus] at hne
    split_ifs at hne with ht
    · exact ((hw.whole.durable.restart_nextTxId hno _).mp le_rfl).2 t ht
    · exact absurd rfl hne

end Atomic

/-- An event fits in a page, and the log has segments `0000` to `9999` at most when `Init` reads it. -/
def WithinLimits (w : World) : Op → Prop
  | .restart => w.db.wal.currentSegmentNo < 10000
  | op => op.FitsPage

instance (w : World) : (op : Op) → Decidable (w.WithinLimits op)
  | .restart => inferInstanceAs (Decidable (_ < _))
  | .begin h => inferInstanceAs (Decidable (Op.begin h).FitsPage)
  | .upsert h id key value => inferInstanceAs (Decidable (Op.upsert h id key value).FitsPage)
  | .delete h id key => inferInstanceAs (Decidable (Op.delete h id key).FitsPage)
  | .deleteFound h id key => inferInstanceAs (Decidable (Op.deleteFound h id key).FitsPage)
  | .commit h => inferInstanceAs (Decidable (Op.commit h).FitsPage)
  | .rollback h => inferInstanceAs (Decidable (Op.rollback h).FitsPage)
  | .addStorage id => inferInstanceAs (Decidable (Op.addStorage id).FitsPage)
  | .flush => inferInstanceAs (Decidable Op.flush.FitsPage)
  | .compact id => inferInstanceAs (Decidable (Op.compact id).FitsPage)
  | .clean => inferInstanceAs (Decidable Op.clean.FitsPage)

theorem Effect.atomic (he : Effect o w op w') (hw : w.Atomic events) (hl : w.WithinLimits op) (hclean : op ≠ .clean)
    (hcompact : ∀ id, op ≠ .compact id) : ∃ events', w'.Atomic events' := by
  cases he with
  | begin => exact ⟨_, hw.begin _⟩
  | write hv ht _ hs =>
    have hfits : op.FitsPage := by cases op <;> cases hv <;> exact hl
    exact hw.write ht (Op.version_spec hv).2.1 (hfits.size_le hv) hs
  | absent => exact ⟨_, hw⟩
  | commit ht => exact ⟨_, hw.commit ht⟩
  | rollback ht => exact ⟨_, hw.rollback ht⟩
  | addStorage ha =>
    refine ⟨_, hw.congr (hw.whole.addStorage ha) ?_⟩
    obtain ⟨-, -, rfl⟩ := Db.addStorage_cases ha
    rfl
  | flush => exact ⟨_, hw.congr hw.whole.flush rfl⟩
  | compact id => exact absurd rfl (hcompact id)
  | clean => exact absurd rfl hclean
  | restart => exact ⟨_, hw.restart hl⟩

/-- Recovery from a beginning of the log: who is committed has all versions, and who has a commit event is committed. -/
theorem Atomic.recover (hw : w.Atomic events) {crashed : Dir Bytes (List Event)} (hp : Wal.events crashed <+: events)
    (t : TransactionId) :
    ((Db.init o w.db.dirs crashed).txStorage.isCommited t = true ↔ .commit t ∈ Wal.events crashed) ∧
      (.commit t ∈ Wal.events crashed → ∀ h id row, (h, id, row) ∈ w.written → row.value.tx = t →
        ∃ l, (Db.init o w.db.dirs crashed).storages id = some l ∧ row ∈ l.records) := by
  refine ⟨?_, ?_⟩
  · rw [TxStorage.isCommited_iff, Db.init_txStorage, TxStorage.foldl_recoverFromLog_txStatus]
    simp [mem_commitsOf, TxStorage.empty]
  · intro hc h id row hm htx
    obtain ⟨pre, post, hsplit⟩ := List.append_of_mem hc
    obtain ⟨rest, hrest⟩ := hp
    have hevents : events = pre ++ .commit t :: (post ++ rest) := by
      rw [← hrest, hsplit, List.append_assoc, List.cons_append]
    have hpre := hw.before pre t _ hevents h id row hm htx
    have hin : row ∈ logOf id (Wal.events crashed) := by
      rw [mem_logOf, hsplit]
      exact List.mem_append_left _ hpre
    have hall : row ∈ logOf id events := by
      rw [← hrest, logOf_append]
      exact List.mem_append_left _ hin
    obtain ⟨l, hl⟩ := Option.isSome_iff_exists.mp (hw.whole.durable.known id (List.ne_nil_of_mem hall))
    refine ⟨_, hw.whole.durable.init_storages hl crashed, ?_⟩
    refine (hw.whole.trees id l hl).replay_beginning o ?_ row hin
    exact ⟨logOf id rest, by rw [← logOf_append, hrest]⟩

end World

namespace ByteDb

open BufferWriter

def valueUpTo (tx : TransactionId) (front : Bytes) (n : ℕ) : Bytes :=
  writeInt (BitVec.ofNat 64 tx) ++ writeBool false ++ writeBool false ++
    writeInt (BitVec.ofNat 64 (front.length + n)) ++ front

theorem toBytes_upTo (tx : TransactionId) (front back : Bytes) :
    TransactionalValue.toBytes ⟨tx, false, false, front ++ back⟩ = valueUpTo tx front back.length ++ back := by
  simp only [TransactionalValue.toBytes, valueUpTo, writeString, List.length_append, List.append_assoc]

def crashing (value : TransactionalValue) : List Db.Op :=
  [.addStorage [84], .begin, .lock 10 [1], .put [84] [1] value, .commit 10, .restart]

theorem run_crashing {p : Platform} {value value' : TransactionalValue}
    (h : (p.read (((Writer.init Dir.empty).log (.upsert [84] 1 [1] value)).log (.commit 10)).dir).filterMap
      LogEvent.toEvent = [.upsert [84] 1 [1] value', .commit 10]) :
    ∃ s l, Machine.run (step ⟨0⟩ p.order) (init ⟨0⟩ p (fun _ => none) Dir.empty)
        ((crashing value).map (·, p.beyond)) = some s ∧
      s.txStorage.isCommited 10 = true ∧ s.storages [84] = some l ∧ l.records = [⟨[1], 1, value'⟩] := by
  obtain ⟨dirs, hdirs, hrun⟩ : ∃ dirs, dirs [84] = some Dir.empty ∧
      Machine.run (step ⟨0⟩ p.order) (init ⟨0⟩ p (fun _ => none) Dir.empty) ((crashing value).map (·, p.beyond)) =
        some (init ⟨0⟩ p dirs (((Writer.init Dir.empty).log (.upsert [84] 1 [1] value)).log (.commit 10)).dir) :=
    ⟨_, rfl, rfl⟩
  refine ⟨_, (Lsm.init Dir.empty).replay ⟨0⟩ [⟨[1], 1, value'⟩], hrun, ?_, ?_, rfl⟩
  · rw [init, h]
    rfl
  · rw [init, h]
    simp only [Db.foldl_apply_storages, Db.openStorages, hdirs]
    rfl

section Large

variable {p : Platform} (hp : p.order.arguments = UpsertArgument.leftToRight)
  (hbeyond : 60 ≤ (p.beyond ⟨0, 0⟩).length)

include hp hbeyond

/-- What is read of a version with 4096 bytes, whose event runs over the page by 60 bytes. -/
theorem read_large :
    p.read (((Writer.init Dir.empty).log (.upsert [84] 1 [1] ⟨10, false, false, List.replicate 4096 0⟩)).log
        (.commit 10)).dir =
      [.upsert [84] 1 [1] ⟨10, false, false, List.replicate 4036 0 ++ (p.beyond ⟨0, 0⟩).take 60⟩, .commit 10].map
        Event.toLog := by
  obtain ⟨value, hvalue⟩ : ∃ value, value = TransactionalValue.mk 10 false false (List.replicate 4096 0) :=
    ⟨_, rfl⟩
  rw [← hvalue]
  have hsize : (Event.upsert [84] 1 [1] value).size = 4156 := by
    rw [hvalue]
    simp only [Event.size, TransactionalValue.size, List.length_replicate, List.length_singleton]
  -- the log has the version in a segment of its own
  have hw : ((Writer.init Dir.empty).log (.upsert [84] 1 [1] value)).Holds []
      [Event.toLog (.upsert [84] 1 [1] value)] :=
    Writer.Holds.start.write_room (by rw [Event.length_flushEvent_toLog, hsize]; decide) (Or.inl rfl)
  have hlog : (((Writer.init Dir.empty).log (.upsert [84] 1 [1] value)).log (.commit 10)).Holds
      [(0, ⟨[Event.toLog (.upsert [84] 1 [1] value)], 0⟩)] [Event.toLog (.commit 10)] := by
    have hlen := hw.pageSize
    rw [flushEvents_singleton, Event.length_flushEvent_toLog, hsize] at hlen
    have hnext := hw.write_next (e := Event.toLog (.commit 10)) (by decide) (by rw [hlen]; decide)
    rw [flushEvents_singleton, Event.length_flushEvent_toLog, hsize, ← hw.numbers] at hnext
    exact hnext
  have hcut : p.readSegment 0 0 (pages (flushEvents [Event.toLog (.upsert [84] 1 [1] value)])) =
      [Event.toLog (.upsert [84] 1 [1] ⟨10, false, false, List.replicate 4036 0 ++ (p.beyond ⟨0, 0⟩).take 60⟩)] := by
    have hdata : List.replicate 4096 (0 : Byte) = List.replicate 4036 0 ++ List.replicate 60 0 := by
      rw [List.replicate_append_replicate]
    have hfirst : (flushEvents [] ++ upsertUpTo [84] 1 [1] (valueUpTo 10 (List.replicate 4036 0) 60)
        (List.replicate 60 0)).length = kWalPageSize := by
      simp only [flushEvents, List.flatMap_nil, List.nil_append, length_upsertUpTo, valueUpTo, List.length_append,
        length_writeInt, List.length_replicate]
      rfl
    have hread := Platform.readSegment_zeros hp (by decide) (by decide) hbeyond hfirst
    rw [hvalue, Event.toLog, Event.toLog, upsertEvent, upsertEvent, hdata, toBytes_upTo, toBytes_upTo, List.length_take,
      min_eq_left hbeyond, List.length_replicate]
    exact hread
  have hlast : p.readSegment 1 0 (pages (flushEvents [Event.toLog (.commit 10)] ++ List.replicate 0 0)) =
      [Event.toLog (.commit 10)] := Platform.readSegment_flushEvents hp (by decide) 1
  have hno := hlog.numbers.symm
  rw [Platform.read, hlog.readerSegments (by rw [hno, List.length_singleton]; decide), hno]
  simp only [List.map_cons, List.map_nil, List.cons_append, List.nil_append, List.flatMap_cons, List.flatMap_nil,
    List.append_nil, LogSegment.bytes, List.replicate_zero]
  exact congrArg₂ _ hcut hlast

/-- Its transaction is committed, and the version ends in the bytes behind the page. -/
theorem recover_large :
    ∃ s l, Machine.run (step ⟨0⟩ p.order) (init ⟨0⟩ p (fun _ => none) Dir.empty)
        ((crashing ⟨10, false, false, List.replicate 4096 0⟩).map (·, p.beyond)) = some s ∧
      s.txStorage.isCommited 10 = true ∧ s.storages [84] = some l ∧
      l.records = [⟨[1], 1, ⟨10, false, false, List.replicate 4036 0 ++ (p.beyond ⟨0, 0⟩).take 60⟩⟩] := by
  refine run_crashing ?_
  have hread := read_large hp hbeyond
  have hlen : (List.replicate 4036 0 ++ (p.beyond ⟨0, 0⟩).take 60).length = 4096 := by
    rw [List.length_append, List.length_replicate, List.length_take, min_eq_left hbeyond]
  generalize List.replicate 4036 0 ++ (p.beyond ⟨0, 0⟩).take 60 = data at hread hlen ⊢
  have hvalue : TransactionalValue.Encodable ⟨10, false, false, data⟩ :=
    ⟨(by decide : 10 < 2 ^ 64), by dsimp only; omega⟩
  rw [hread]
  simp only [List.map_cons, List.map_nil, List.filterMap_cons, Event.toEvent_upsert (by decide : 1 < 2 ^ 64) hvalue]
  rfl

end Large

end ByteDb

end StructureDb
