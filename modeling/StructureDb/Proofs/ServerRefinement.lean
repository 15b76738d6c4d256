import StructureDb.Proofs.DbSteps
import StructureDb.Proofs.LogBytes
import StructureDb.Proofs.ServerSteps

/-! The server refines the database: whatever the order in which the calls of sessions go on,
the storages, the statuses and the writes to the log are those of a database that does
one operation at a time. -/

namespace StructureDb.Server

open Coroutine

variable {o : Options} {w : Wal} {db : Db} {s s' s'' : Context} {op : Op} {c : Call}

/-- A database whose log was `w` is in the state of the server, but for the locks; `Write` was called for the events
that it has logged since. -/
structure Shows (w : Wal) (db : Db) (s : Context) : Prop where
  storages : s.storages = db.storages
  txStatus : s.txStorage.txStatus = db.txStorage.txStatus
  nextTxId : s.txStorage.nextTxId = db.txStorage.nextTxId
  log : ∃ es : List Event, db.wal = es.foldl Wal.write w ∧ s.walWriter.calls.map Prod.fst = es.map Event.toLog

theorem shows_start (db : Db) : Shows db.wal db (start db).shared := ⟨rfl, rfl, rfl, [], rfl, rfl⟩

theorem Shows.logged (h : Shows w db s) (e : Event) :
    ∃ es : List Event, db.wal.write e = es.foldl Wal.write w ∧
      (s.write e.toLog).1.walWriter.calls.map Prod.fst = es.map Event.toLog := by
  obtain ⟨es, hwal, hcalls⟩ := h.log
  refine ⟨es ++ [e], ?_, ?_⟩
  · rw [List.foldl_append, ← hwal]
    rfl
  · rw [Context.write_calls, List.map_append, List.map_append, hcalls]
    rfl

/-- What the server does from `s` to `s'`, a database can do. -/
def Follows (o : Options) (w : Wal) (s s' : Context) : Prop :=
  ∀ db, Shows w db s → ∃ ops db', Machine.run (Db.step o) db ops = some db' ∧ Shows w db' s'

namespace Follows

theorem refl (o : Options) (w : Wal) (s : Context) : Follows o w s s := fun db h => ⟨[], db, rfl, h⟩

theorem trans (h : Follows o w s s') (h' : Follows o w s' s'') : Follows o w s s'' := by
  intro db hs
  obtain ⟨ops, db', hr, hs'⟩ := h db hs
  obtain ⟨ops', db'', hr', hs''⟩ := h' db' hs'
  exact ⟨ops ++ ops', db'', Machine.run_append hr hr', hs''⟩

theorem step (dbOp : Db.Op) (h : ∀ db, Shows w db s → ∃ db', db.step o dbOp = some db' ∧ Shows w db' s') :
    Follows o w s s' := by
  intro db hs
  obtain ⟨db', hstep, hs'⟩ := h db hs
  exact ⟨[dbOp], db', Machine.run_cons.mpr ⟨db', hstep, rfl⟩, hs'⟩

theorem hidden (h : ∀ db, Shows w db s → Shows w db s') : Follows o w s s' :=
  fun db hs => ⟨[], db, rfl, h db hs⟩

theorem effect (hop : c.Allows op) (hid : ∀ id, c.creates = some id → id ∉ internalTables) (he : Effect o s op s') :
    Follows o w s s' := by
  cases he with
  | same => exact refl o w s
  | begin =>
    refine step .begin fun db h => ⟨_, rfl, h.storages, ?_, ?_, h.log⟩
    · change Function.update s.txStorage.txStatus s.txStorage.nextTxId _ = _
      rw [h.txStatus, h.nextTxId]
      rfl
    · exact congrArg (· + 1) h.nextTxId
  | setStatus tx status =>
    obtain rfl : status = .rollbacked := hop
    refine step (.rollback tx) fun db h => ⟨_, rfl, h.storages, ?_, h.nextTxId, h.log⟩
    change Function.update s.txStorage.txStatus tx _ = _
    rw [h.txStatus]
    rfl
  | logCommit tx =>
    refine step (.commit tx) fun db h => ⟨_, rfl, h.storages, ?_, h.nextTxId, h.logged (.commit tx)⟩
    change Function.update s.txStorage.txStatus tx _ = _
    rw [h.txStatus]
    rfl
  | grant tx rowKey txStorage hgrant =>
    obtain ⟨-, hnext, hstatus, -, -⟩ := TxStorage.acquireRowLock_spec hgrant
    exact hidden fun db h => ⟨h.storages, hstatus.trans h.txStatus, hnext.trans h.nextTxId, h.log⟩
  | sleep tx rowKey => exact hidden fun db h => ⟨h.storages, h.txStatus, h.nextTxId, h.log⟩
  | release tx => exact hidden fun db h => ⟨h.storages, h.txStatus, h.nextTxId, h.log⟩
  | emplace id hnone =>
    refine step (.addStorage id) fun db h => ⟨db.setStorage id (Lsm.init Dir.empty), ?_, ?_, h.txStatus, h.nextTxId,
      h.log⟩
    · rw [h.storages] at hnone
      simp [Db.step, Db.addStorage, hid id hop, hnone]
    · change Function.update s.storages id _ = _
      rw [h.storages]
      rfl
  | put id key value l hl =>
    refine step (.put id key value) fun db h => ⟨⟨(db.setStorage id (l.put o key value).1).storages, db.txStorage,
      db.wal.write (.upsert id l.nextSeqNo key value)⟩, ?_, ?_, h.txStatus, h.nextTxId, h.logged _⟩
    · rw [h.storages] at hl
      simp only [Db.step, Db.engineUpsert, hl, Option.map_some]
      rfl
    · change Function.update s.storages id _ = _
      rw [h.storages]
      rfl
  | resume op call walWriter hw =>
    refine hidden fun db h => ⟨h.storages, h.txStatus, h.nextTxId, ?_⟩
    obtain ⟨es, hwal, hcalls⟩ := h.log
    exact ⟨es, hwal, (Writes.resume_events hw).trans hcalls⟩

end Follows

def Proper (c : Call) (t : Task Res Wait Exception Reply) : Prop :=
  t.All c.Allows ∧ ∀ id, c.creates = some id → id ∉ internalTables

/-- The ids of new tables are not reserved. -/
def ProperIds (_ : Server) : Action → Prop
  | .start c => ∀ id, c.creates = some id → id ∉ internalTables
  | .resume _ => True

instance (p : Server) : DecidablePred (ProperIds p)
  | .start c => inferInstanceAs (Decidable (∀ id ∈ c.creates, id ∉ internalTables))
  | .resume _ => inferInstanceAs (Decidable True)

def Reached (o : Options) (db : Db) (s : Context) : Prop :=
  ∃ ops db', Machine.run (Db.step o) db ops = some db' ∧ Shows db.wal db' s

theorem Reached.follows (h : Reached o db s) (hf : Follows o db.wal s s') : Reached o db s' := by
  obtain ⟨ops, db', hr, hs⟩ := h
  obtain ⟨ops', db'', hr', hs'⟩ := hf db' hs
  exact ⟨ops ++ ops', db'', Machine.run_append hr hr', hs'⟩

theorem step_reached {p p' : Server} {action : Action}
    (h : Reached o db p.shared ∧ ∀ x ∈ p.tasks, Proper x.1 x.2) (hg : ProperIds p action)
    (hstep : p.step o action = some p') : Reached o db p'.shared ∧ ∀ x ∈ p'.tasks, Proper x.1 x.2 := by
  refine Pool.step_inv (P := Reached o db) (Q := fun _ => Proper) (R := fun _ _ => True) ?_ ?_ (fun _ _ _ _ h => h) h
    hstep
  · rintro c rfl
    exact ⟨handler_allows c, hg⟩
  · intro c t u t' hreached hproper ha
    obtain ⟨hfollows, hall⟩ := advance_rel (Follows.refl o db.wal) (fun _ _ _ => Follows.trans)
      (fun _ _ _ hop he => Follows.effect hop hproper.2 he) hproper.1 ha
    exact ⟨hreached.follows hfollows, ⟨hall, hproper.2⟩, trivial⟩

/-- Whatever sessions run beside each other, a database that does one operation at a time has the same trees, the same
statuses, and calls of `Write` for the same events in the same order. -/
theorem sessions_refine_database {actions : List Action} {p : Server}
    (hg : Machine.Guarded (step o) ProperIds (start db) actions)
    (hr : Machine.run (step o) (start db) actions = some p) :
    ∃ ops db', Machine.run (Db.step o) db ops = some db' ∧ Shows db.wal db' p.shared := by
  have h0 : Reached o db (start db).shared ∧ ∀ x ∈ (start db).tasks, Proper x.1 x.2 :=
    ⟨⟨[], db, rfl, shows_start db⟩, fun x hx => absurd hx List.not_mem_nil⟩
  exact (Machine.run_inv (P := fun _ p => Reached o db p.shared ∧ ∀ x ∈ p.tasks, Proper x.1 x.2) h0
    (fun _ _ _ _ h hg hs => step_reached h hg hs) hg hr).1

/-- Transaction 10 writes to its new table while 11 creates another one. -/
theorem sessions_refine_database_beside :
    let db := Db.init ⟨0⟩ (fun _ => none) Dir.empty
    let actions : List Action :=
      [.start .begin, .start .begin, .resume 0, .resume 1, .start (.createTable 10 [116] [7]), .resume 2, .resume 2,
        .resume 2, .resume 2, .resume 2, .start (.upsert 10 [116] [1] [9]),
      .start (.createTable 11 [117] [8]), .resume 3, .resume 4, .resume 3, .resume 4, .resume 3, .resume 4, .resume 3]
    Machine.Guarded (step ⟨0⟩) ProperIds (start db) actions ∧
      ∃ p, Machine.run (step ⟨0⟩) (start db) actions = some p ∧ p.shared.walWriter.calls.length = 3 ∧
        ∃ ops db', Machine.run (Db.step ⟨0⟩) db ops = some db' ∧ Shows db.wal db' p.shared := by
  intro db actions
  have hg : Machine.Guarded (step ⟨0⟩) ProperIds (start db) actions := by decide +kernel
  refine ⟨hg, Machine.exists_run_of (T := fun p => p.shared.walWriter.calls.length = 3) (by decide +kernel) ?_⟩
  intro p hp hcalls
  exact ⟨hcalls, sessions_refine_database hg hp⟩

end StructureDb.Server
