import StructureDb.Proofs.DbSteps
import StructureDb.Proofs.Formats
import StructureDb.Proofs.LogBytes

/-! The database over the bytes of its log refines the one over the log of events. If every event fits
in a page and arguments are evaluated in source order, what the reader parses are the events that
were logged, whatever lies behind its pages; recovery and the cleaner then do the same in both. -/

namespace StructureDb

open Codec

namespace Event

/-- The numbers fit into `int64_t`, and the event into a page. -/
def Storable : Event → Prop
  | .upsert id seqNo key value => seqNo < 2 ^ 63 ∧ value.tx < 2 ^ 63 ∧ (upsert id seqNo key value).size ≤ kWalPageSize
  | .commit tx => tx < 2 ^ 63

instance : DecidablePred Storable
  | .upsert _ _ _ _ => inferInstanceAs (Decidable (_ ∧ _))
  | .commit _ => inferInstanceAs (Decidable (_ < _))

variable {e : Event} {es : List Event}

theorem Storable.size_le (h : e.Storable) : e.size ≤ kWalPageSize := by
  cases e with
  | upsert id seqNo key value => exact h.2.2
  | commit tx => simp [size, kWalPageSize]

theorem toEvent_upsert {id key : Bytes} {seqNo : ℕ} {value : TransactionalValue} (hseq : seqNo < 2 ^ 64)
    (hvalue : value.Encodable) : (upsert id seqNo key value).toLog.toEvent = some (.upsert id seqNo key value) := by
  have hread := TransactionalValue.roundTrips value hvalue []
  rw [List.append_nil] at hread
  simp only [toLog, upsertEvent, LogEvent.toEvent, TransactionalValue.parse, hread, Option.map_some,
    toNat_ofNat_of_lt hseq]

theorem Storable.toEvent_toLog (h : e.Storable) : e.toLog.toEvent = some e := by
  cases e with
  | upsert id seqNo key value =>
    obtain ⟨hseq, htx, hsize⟩ := h
    simp only [size, TransactionalValue.size, kWalPageSize] at hsize
    exact toEvent_upsert (by omega) ⟨htx.trans (by decide), by omega⟩
  | commit tx =>
    have htx : tx < 2 ^ 64 := Nat.lt_trans h (by decide)
    simp only [toLog, commitEvent, LogEvent.toEvent, toNat_ofNat_of_lt htx]

theorem filterMap_toEvent (h : ∀ e ∈ es, e.Storable) : (es.map toLog).filterMap LogEvent.toEvent = es := by
  have hsome : ∀ e ∈ es, (LogEvent.toEvent ∘ toLog) e = some e := fun e he => (h e he).toEvent_toLog
  rw [List.filterMap_map, List.filterMap_congr hsome, List.filterMap_some]

end Event

/-! ### The events that are in the log -/

namespace Wal

variable {P : Event → Prop} {w : Wal} {dir : Dir Bytes (List Event)}

def Only (P : Event → Prop) (dir : Dir Bytes (List Event)) : Prop := ∀ f ∈ dir.files, ∀ e ∈ f.2, P e

theorem Only.events (h : Only P dir) : ∀ e ∈ events dir, P e := by
  intro e he
  obtain ⟨es, hes, he⟩ := List.mem_flatten.mp he
  obtain ⟨f, hf, rfl⟩ := List.mem_map.mp hes
  exact h f (Dir.mem_listing.mp hf) e he

theorem Only.touch (h : Only P dir) (name : Bytes) : Only P (dir.touch name []) := by
  intro f hf e he
  rcases Dir.mem_touch.mp hf with hf | ⟨-, rfl⟩
  · exact h f hf e he
  · cases he

theorem Only.append (h : Only P dir) {event : Event} (hevent : P event) (name : Bytes) :
    Only P (dir.modify name fun events => events ++ event.readable) := by
  intro f hf e he
  rcases Dir.mem_modify.mp hf with ⟨hf, -⟩ | ⟨es, hes, rfl⟩
  · exact h f hf e he
  · rcases List.mem_append.mp he with he | he
    · exact h _ hes e he
    · unfold Event.readable at he
      split_ifs at he with hlarge
      · cases he
      · rw [List.mem_singleton.mp he]
        exact hevent

theorem Only.write (h : Only P w.dir) {event : Event} (hevent : P event) : Only P (w.write event).dir := by
  rcases write_cases w event with ⟨-, hw⟩ | ⟨-, hw⟩ <;> rw [hw]
  · exact h.append hevent _
  · exact (h.touch _).append hevent _

theorem Only.unlinkAll (h : Only P dir) (names : List Bytes) : Only P (dir.unlinkAll names) :=
  fun f hf => h f (Dir.mem_unlinkAll.mp hf).1

end Wal

/-! ### The refinement -/

namespace Db

/-- Whether an event is persistent does not depend on the log. -/
theorem accumulatePersistence_congr {db db' : Db} (h : db.storages = db'.storages) (acc : Option Bool)
    (es : List Event) :
    db.accumulatePersistence acc es = db'.accumulatePersistence acc es := by
  have hpersistent : db.isPersistent = db'.isPersistent := by
    funext e
    cases e with
    | upsert id seqNo key value => simp only [isPersistent, h]
    | commit tx => rfl
  induction es generalizing acc with
  | nil => rfl
  | cons e es ih => simp only [accumulatePersistence, hpersistent, ih]

end Db

namespace ByteDb

variable {o : Options} {order : EvaluationOrder} {p : Platform} {beyond : Position → Bytes} {s s' : ByteDb} {db : Db}
  {op : Db.Op}

structure Shows (s : ByteDb) (db : Db) : Prop where
  storages : s.storages = db.storages
  txStorage : s.txStorage = db.txStorage
  inStep : InStep db.wal s.walWriter
  storable : Wal.Only Event.Storable db.wal.dir

/-- What is logged can be written down and fits in a page, and the names of the segments at a restart have four
digits. -/
structure Fits (o : Options) (s : ByteDb) (op : Db.Op × (Position → Bytes)) : Prop where
  logged : ∀ e ∈ s.logged o op.1, e.Storable
  restart : op.1 = .restart → s.walWriter.currentSegmentNo < 10000

instance (op : Db.Op × (Position → Bytes)) : Decidable (Fits o s op) :=
  decidable_of_iff ((∀ e ∈ s.logged o op.1, e.Storable) ∧ (op.1 = .restart → s.walWriter.currentSegmentNo < 10000))
    ⟨fun h => ⟨h.1, h.2⟩, fun h => ⟨h.1, h.2⟩⟩

namespace Shows

theorem read (h : Shows s db) (hp : p.order.arguments = UpsertArgument.leftToRight) :
    (p.read s.walWriter.dir).filterMap LogEvent.toEvent = Wal.events db.wal.dir := by
  obtain ⟨segs, hsegs⟩ := h.inStep.inBytes
  rw [hsegs.read hp, Event.filterMap_toEvent h.storable.events]

theorem obsoleteSegments (h : Shows s db) (hp : p.order.arguments = UpsertArgument.leftToRight) :
    s.obsoleteSegments p = db.obsoleteSegments := by
  obtain ⟨segs, hsegs⟩ := h.inStep.inBytes
  have hstorable := h.storable
  rw [hsegs.events] at hstorable
  unfold ByteDb.obsoleteSegments Db.obsoleteSegments
  rw [hsegs.bytes, hsegs.events, Dir.listing_map, Dir.listing_map, List.filter_map, List.filter_map, List.map_map,
    List.map_map]
  -- the same segments, each by its bytes and by its events
  refine congrArg (List.map _) (List.filter_congr fun f hf => ?_)
  have hf := Dir.mem_listing.mp hf
  have hread : (p.readSegment (getSegmentNoFromName f.1) 0 (pages f.2.bytes)).filterMap LogEvent.toEvent =
      f.2.events := by
    rw [(hsegs.whole f hf).read hp]
    exact Event.filterMap_toEvent (hstorable (f.1, f.2.events) (List.mem_map_of_mem hf))
  have hstorages : s.db.storages = db.storages := h.storages
  simp only [Function.comp_apply, hread, Db.accumulatePersistence_congr hstorages]

theorem clean (h : Shows s db) (hp : p.order.arguments = UpsertArgument.leftToRight) :
    Shows { s with walWriter := { s.walWriter with dir := s.walWriter.dir.unlinkAll (s.obsoleteSegments p) } }
      db.clean := by
  rw [h.obsoleteSegments hp]
  exact ⟨h.storages, h.txStorage, h.inStep.unlinkAll _, h.storable.unlinkAll _⟩

theorem restart (h : Shows s db) (hp : p.order.arguments = UpsertArgument.leftToRight)
    (hfew : s.walWriter.currentSegmentNo < 10000) : Shows (init o p s.db.dirs s.walWriter.dir) (db.restart o) := by
  have hdirs : s.db.dirs = db.dirs := by
    funext id
    change (s.storages id).map _ = _
    rw [h.storages]
    rfl
  have hno : s.walWriter.currentSegmentNo = db.wal.currentSegmentNo := by
    obtain ⟨segs, hsegs⟩ := h.inStep.inBytes
    exact hsegs.segmentNo
  refine ⟨?_, ?_, h.inStep.restart (hno ▸ hfew), h.storable.touch _⟩
  · funext id
    simp only [init, Db.restart, h.read hp, hdirs, Db.foldl_apply_storages, Db.init_storages]
  · simp only [init, Db.restart, h.read hp, Db.foldl_apply_txStorage, Db.init_txStorage]

/-- An operation that does not read the log does the same to both. -/
theorem step_db (h : Shows s db) (hclean : op ≠ .clean) (hrestart : op ≠ .restart) {d : Db}
    (hd : s.db.step o op = some d) :
    ∃ d', db.step o op = some d' ∧ d'.storages = d.storages ∧ d'.txStorage = d.txStorage ∧
      d'.wal = (s.logged o op).elim db.wal db.wal.write := by
  rw [ByteDb.db, h.storages, h.txStorage] at hd
  cases op with
  | clean => exact absurd rfl hclean
  | restart => exact absurd rfl hrestart
  | begin | commit tx | rollback tx | flush =>
    cases hd
    exact ⟨_, rfl, rfl, rfl, rfl⟩
  | lock tx key =>
    obtain ⟨txStorage, hlock, rfl⟩ := Option.map_eq_some_iff.mp hd
    have hlock : db.txStorage.acquireRowLock tx key = some txStorage := hlock
    exact ⟨{ db with txStorage }, by rw [Db.step, hlock]; rfl, rfl, rfl, rfl⟩
  | put id key value =>
    obtain ⟨⟨d, seqNo⟩, hupsert, rfl⟩ := Option.map_eq_some_iff.mp hd
    obtain ⟨l, hl, -, rfl⟩ := Db.engineUpsert_cases hupsert
    have hl : db.storages id = some l := hl
    refine ⟨{ db.setStorage id (l.put o key value).1 with
      wal := db.wal.write (.upsert id (l.put o key value).2 key value) }, ?_, rfl, rfl, ?_⟩
    · simp only [Db.step, Db.engineUpsert, hl, Option.map_some]
    · simp only [ByteDb.logged, h.storages, hl]
      rfl
  | addStorage id =>
    obtain ⟨hid, hnone, rfl⟩ := Db.addStorage_cases hd
    have hnone : db.storages id = none := hnone
    exact ⟨db.setStorage id (Lsm.init Dir.empty), by simp [Db.step, Db.addStorage, hid, hnone], rfl, rfl, rfl⟩
  | compact id =>
    cases hd
    refine ⟨_, rfl, ?_, ?_, ?_⟩ <;> simp only [Db.compact] <;> rcases db.storages id with _ | l <;> rfl

theorem log (h : Shows s db) {d d' : Db} {event : Option Event} (hevent : ∀ e ∈ event, e.Storable)
    (hstorages : d'.storages = d.storages) (htx : d'.txStorage = d.txStorage)
    (hwal : d'.wal = event.elim db.wal db.wal.write) :
    Shows ⟨d.storages, d.txStorage, event.elim s.walWriter s.walWriter.log⟩ d' := by
  refine ⟨hstorages.symm, htx.symm, ?_, ?_⟩ <;> rw [hwal]
  · cases event with
    | none => exact h.inStep
    | some e => exact h.inStep.write (hevent e rfl).size_le
  · cases event with
    | none => exact h.storable
    | some e => exact h.storable.write (hevent e rfl)

end Shows

theorem step_other (hclean : op ≠ .clean) (hrestart : op ≠ .restart) :
    s.step o order (op, beyond) = (s.db.step o op).map fun db =>
      ⟨db.storages, db.txStorage, (s.logged o op).elim s.walWriter s.walWriter.log⟩ := by
  cases op <;> first | rfl | exact absurd rfl hclean | exact absurd rfl hrestart

theorem step_shows (horder : order.arguments = UpsertArgument.leftToRight) (h : Shows s db)
    (hg : s.Fits o (op, beyond)) (hs : s.step o order (op, beyond) = some s') :
    ∃ db', db.step o op = some db' ∧ Shows s' db' := by
  by_cases hclean : op = .clean
  · subst hclean
    cases hs
    exact ⟨_, rfl, h.clean horder⟩
  by_cases hrestart : op = .restart
  · subst hrestart
    cases hs
    exact ⟨_, rfl, h.restart horder (hg.restart rfl)⟩
  rw [step_other hclean hrestart] at hs
  obtain ⟨d, hd, rfl⟩ := Option.map_eq_some_iff.mp hs
  obtain ⟨d', hd', hstorages, htx, hwal⟩ := h.step_db hclean hrestart hd
  exact ⟨d', hd', h.log hg.logged hstorages htx hwal⟩

theorem Shows.run (h : Shows s db) (horder : order.arguments = UpsertArgument.leftToRight)
    {ops : List (Db.Op × (Position → Bytes))} (hg : Machine.Guarded (step o order) (Fits o) s ops)
    (hr : Machine.run (step o order) s ops = some s') :
    ∃ db', Machine.run (Db.step o) db (ops.map Prod.fst) = some db' ∧ Shows s' db' := by
  have hstep (s db op s') (h : Shows s db) (hg : s.Fits o op) (hs : s.step o order op = some s') :
      True ∧ ∃ db', db.step o op.1 = some db' ∧ Shows s' db' := ⟨trivial, step_shows horder h hg hs⟩
  obtain ⟨db', hdb', -, h'⟩ := Machine.run_simulates (H := fun _ _ => True) hstep h hg hr
  exact ⟨db', hdb', h'⟩

theorem start_shows (o : Options) (p : Platform) :
    Shows (init o p (fun _ => none) Dir.empty) (Db.init o (fun _ => none) Dir.empty) :=
  ⟨rfl, rfl, InStep.start, Wal.Only.touch (fun _ hf => absurd hf List.not_mem_nil) _⟩

/-- Every run over bytes, with whatever behind the pages, is a run of the database, with the same trees and the same
transactions, and the events that recovery would parse are those of the log. -/
theorem byte_log_refines_event_log (p : Platform) (hp : p.order.arguments = UpsertArgument.leftToRight)
    {ops : List (Db.Op × (Position → Bytes))}
    (hg : Machine.Guarded (step o p.order) (Fits o) (init o p (fun _ => none) Dir.empty) ops)
    (hr : Machine.run (step o p.order) (init o p (fun _ => none) Dir.empty) ops = some s) :
    ∃ db, Machine.run (Db.step o) (Db.init o (fun _ => none) Dir.empty) (ops.map Prod.fst) = some db ∧
      s.storages = db.storages ∧ s.txStorage = db.txStorage ∧
        (p.read s.walWriter.dir).filterMap LogEvent.toEvent = Wal.events db.wal.dir := by
  obtain ⟨db, hdb, h⟩ := (start_shows o p).run hp hg hr
  exact ⟨db, hdb, h.storages, h.txStorage, h.read hp⟩

/-- The cleaner keeps a row that is only in the log; it is found again after a crash, and after another one
behind a flush. Ones lie behind the pages at first, then nothing. -/
theorem byte_log_refines_twice_restarted :
    let p : Platform := ⟨.inSource, fun _ => List.replicate 16 1⟩
    let start := init ⟨1⟩ p (fun _ => none) Dir.empty
    let ops : List (Db.Op × (Position → Bytes)) := [.begin, .addStorage [116], .put [116] [1] ⟨10, false, false, [9]⟩,
      .clean, .commit 10, .restart].map (·, p.beyond) ++
        [.put [116] [2] ⟨11, false, false, [8]⟩, .flush, .restart].map (·, fun _ => [])
    Machine.Guarded (step ⟨1⟩ p.order) (Fits ⟨1⟩) start ops ∧
      ∃ s, Machine.run (step ⟨1⟩ p.order) start ops = some s ∧ s.db.lookup 11 [116] [1] = some [9] ∧
        ∃ db, Machine.run (Db.step ⟨1⟩) (Db.init ⟨1⟩ (fun _ => none) Dir.empty) (ops.map Prod.fst) = some db ∧
          s.storages = db.storages ∧ s.txStorage = db.txStorage ∧
            (p.read s.walWriter.dir).filterMap LogEvent.toEvent = Wal.events db.wal.dir := by
  intro p start ops
  have hg : Machine.Guarded (step ⟨1⟩ p.order) (Fits ⟨1⟩) start ops := by decide +kernel
  refine ⟨hg, Machine.exists_run_of (T := fun s => s.db.lookup 11 [116] [1] = some [9]) (by decide +kernel) ?_⟩
  intro s hs hlookup
  exact ⟨hlookup, byte_log_refines_event_log p rfl hg hs⟩

end ByteDb

/-! ### The clients -/

/-- Requests go by the trees and the transactions. -/
theorem World.step_withLog {o : Options} {op : Op} {w w' : World} (wal : Wal) (hs : w.step o op = some w') :
    ∃ v, World.step o { w with db := { w.db with wal } } op = some v ∧ v.begun = w'.begun ∧ v.hist = w'.hist ∧
      v.written = w'.written := by
  let v : World := { w with db := { w.db with wal } }
  cases step_effect hs with
  | begin fresh => exact ⟨_, (Effect.begin (w := v) fresh).step, rfl, rfl, rfl⟩
  | @write _ h _ id key value _ hv ht hf hw =>
    obtain ⟨s, db, n, hl, he, rfl⟩ := writeRow_cases hw
    obtain ⟨l, hid, rfl, rfl⟩ := Db.engineUpsert_cases he
    have hid : w.db.storages id = some l := hid
    have hwrite : v.writeRow o h id key value = some
        { db := ⟨(w.db.setStorage id (l.put o key value).1).storages, s, wal.write (.upsert id l.nextSeqNo key value)⟩
          begun := w.begun
          hist := .write h (id, key) value.payload :: w.hist
          written := (h, id, ⟨key, l.nextSeqNo, value⟩) :: w.written } := by
      simp only [v, World.writeRow, Db.writeRow, hl, Db.engineUpsert, hid]
      rfl
    exact ⟨_, (Effect.write (w := v) hv ht hf hwrite).step, rfl, rfl, rfl⟩
  | absent ht gone => exact ⟨_, (Effect.absent (w := v) ht gone).step, rfl, rfl, rfl⟩
  | commit ht => exact ⟨_, (Effect.commit (w := v) ht).step, rfl, rfl, rfl⟩
  | rollback ht => exact ⟨_, (Effect.rollback (w := v) ht).step, rfl, rfl, rfl⟩
  | @addStorage id _ hdb =>
    obtain ⟨hid, hnone, rfl⟩ := Db.addStorage_cases hdb
    have hadd : v.db.addStorage id = some (v.db.setStorage id (Lsm.init Dir.empty)) := by
      simp [v, Db.addStorage, hid, hnone]
    exact ⟨_, (Effect.addStorage hadd).step, rfl, rfl, rfl⟩
  | flush => exact ⟨_, (Effect.flush (w := v)).step, rfl, rfl, rfl⟩
  | compact id => exact ⟨_, (Effect.compact (w := v) id).step, rfl, rfl, rfl⟩
  | clean => exact ⟨_, (Effect.clean (w := v)).step, rfl, rfl, rfl⟩
  | restart => exact ⟨_, (Effect.restart (w := v)).step, rfl, rfl, rfl⟩

namespace ByteWorld

variable {o : Options} {order : EvaluationOrder} {b b' : ByteWorld} {w : World} {op : Op × (Position → Bytes)}

structure Shows (b : ByteWorld) (w : World) : Prop where
  db : b.db.Shows w.db
  begun : b.begun = w.begun
  hist : b.hist = w.hist
  written : b.written = w.written

theorem Shows.world (h : Shows b w) :
    b.world = { w with db := ⟨w.db.storages, w.db.txStorage, ⟨Dir.empty, 0, 0, 0⟩⟩ } := by
  rw [ByteWorld.world, ByteDb.db, h.db.storages, h.db.txStorage, h.begun, h.hist, h.written]

/-- What the request logs can be written down and fits in a page, and the names of the segments at a restart have
four digits. -/
def Fits (o : Options) (order : EvaluationOrder) (b : ByteWorld) (op : Op × (Position → Bytes)) : Prop :=
  Machine.Guarded (ByteDb.step o order) (ByteDb.Fits o) b.db (b.calls op)

instance (order : EvaluationOrder) (b : ByteWorld) (op : Op × (Position → Bytes)) : Decidable (Fits o order b op) :=
  Machine.Guarded.decidable ..

theorem step_shows (horder : order.arguments = UpsertArgument.leftToRight) (h : Shows b w) (hg : b.Fits o order op)
    (hs : b.step o order op = some b') : ∃ w', w.step o op.1 = some w' ∧ Shows b' w' := by
  unfold step at hs
  split at hs
  · rename_i w₁ db hw hdb
    cases hs
    rw [h.world] at hw
    obtain ⟨w', hw', hbegun, hhist, hwritten⟩ := World.step_withLog w.db.wal hw
    obtain ⟨db', hdb', hshows⟩ := h.db.run horder hg hdb
    have hcalls : (b.calls op).map Prod.fst = w.calls op.1 := by
      rw [calls, List.map_map, h.world]
      exact List.map_id _
    rw [hcalls] at hdb'
    obtain rfl := Option.some.inj (hdb'.symm.trans (World.step_effect hw').calls)
    exact ⟨w', hw', hshows, hbegun.symm, hhist.symm, hwritten.symm⟩
  · cases hs

theorem start_shows (o : Options) (p : Platform) : Shows (start o p) (World.start o) :=
  ⟨ByteDb.start_shows o p, rfl, rfl, rfl⟩

end ByteWorld

end StructureDb
