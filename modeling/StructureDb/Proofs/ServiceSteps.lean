import StructureDb.Proofs.Programs
import StructureDb.Proofs.ServerSteps

/-! What an operation of a thread does to its process, whether it is performed for the first
time or goes on after a wait, and which operations a thread has. -/

namespace StructureDb

namespace Node

variable {s : Node} {id : Bytes} {f : Lsm TransactionalValue → Lsm TransactionalValue}

theorem modify_of_none (h : s.context.storages id = none) : s.modify id f = s := by
  simp only [modify, h]

theorem modify_of_some {l : Lsm TransactionalValue} (h : s.context.storages id = some l) :
    s.modify id f = { s with context := { s.context with
      storages := Function.update s.context.storages id (some (f l)) } } := by
  simp only [modify, h]

end Node

namespace Service

open Coroutine

variable {o : Options} {s s' : Node} {op : Op}

def Op.edit : Op → Option (ℕ × Bytes × (Lsm TransactionalValue → Lsm TransactionalValue))
  | .writeTable no id table => some (no, id, fun l => l.writeTable table)
  | .publishFlush no id table => some (no, id, fun l => l.publishFlush table)
  | .publishCompact no id table => some (no, id, fun l => l.publishCompact table)
  | .remove no id path => some (no, id, fun l => l.removeFiles [path])
  | _ => none

def Writing : Server.Op → Prop
  | .logCommit _ => True
  | .upsert _ _ _ => True
  | _ => False

inductive Effect (o : Options) (s : Node) : Op → Node → Prop
  | same (op : Op) : Effect o s op s
  | begin : Effect o s (.server .begin)
      { s with context := { s.context with txStorage := s.context.txStorage.begin.1 } }
  | setStatus (tx : TransactionId) (status : Status) : Effect o s (.server (.setStatus tx status))
      { s with context := { s.context with txStorage := s.context.txStorage.setStatus tx status } }
  | logCommit (tx : TransactionId) : Effect o s (.server (.logCommit tx))
      { s with
        context := ({ s.context with txStorage := s.context.txStorage.setStatus tx .commited }.write (commitEvent tx)).1
        log := s.log ++ [.commit tx] }
  | grant (tx : TransactionId) (rowKey : Bytes) (txStorage : TxStorage)
      (h : s.context.txStorage.acquireRowLock tx rowKey = some txStorage) :
      Effect o s (.server (.acquireRowLock tx rowKey)) { s with context := { s.context with txStorage } }
  | sleep (tx : TransactionId) (rowKey : Bytes) : Effect o s (.server (.acquireRowLock tx rowKey))
      { s with context := { s.context with lockAvailable := s.context.lockAvailable.wait.1 } }
  | release (tx : TransactionId) : Effect o s (.server (.releaseAllLocks tx))
      { s with context := { s.context with
          txStorage := s.context.txStorage.releaseAllLocks tx
          lockAvailable := s.context.lockAvailable.notifyAll } }
  | emplace (id : Bytes) (h : s.context.storages id = none) : Effect o s (.server (.tryEmplace id))
      { s with context := { s.context with
          storages := Function.update s.context.storages id (some (Lsm.init Dir.empty)) } }
  | put (id key : Bytes) (value : TransactionalValue) (l : Lsm TransactionalValue)
      (h : s.context.storages id = some l) : Effect o s (.server (.upsert id key value))
      { s with
        context := ({ s.context with
          storages := Function.update s.context.storages id (some (l.put o key value).1) }.write
            (upsertEvent id ⟨key, l.nextSeqNo, value⟩)).1
        log := s.log ++ [.upsert id l.nextSeqNo key value] }
  | resume (op : Server.Op) (call : ℕ) (walWriter : Writes)
    (h : s.context.walWriter.step (.resume call) = some walWriter)
      (hop : Writing op) : Effect o s (.server op) { s with context := { s.context with walWriter } }
  | createDirectory (id : Bytes) : Effect o s (.createDirectory id) { s with directories := id :: s.directories }
  | lock (no : ℕ) (id : Bytes) (h : s.maintenance id = none) : Effect o s (.lockMaintenance no id)
      { s with maintenance := Function.update s.maintenance id (some no) }
  | unlock (no : ℕ) (id : Bytes) : Effect o s (.unlockMaintenance no id)
      { s with maintenance := Function.update s.maintenance id none }
  | edit (op : Op) (no : ℕ) (id : Bytes) (f : Lsm TransactionalValue → Lsm TransactionalValue)
      (l : Lsm TransactionalValue) (hedit : op.edit = some (no, id, f)) (h : s.context.storages id = some l) :
      Effect o s op { s with context := { s.context with
        storages := Function.update s.context.storages id (some (f l)) } }

theorem modify_effect (no : ℕ) {id : Bytes} {f : Lsm TransactionalValue → Lsm TransactionalValue}
    (h : op.edit = some (no, id, f)) : Effect o s op (s.modify id f) := by
  rcases hl : s.context.storages id with _ | l
  · rw [Node.modify_of_none hl]
    exact .same op
  · rw [Node.modify_of_some hl]
    exact .edit op no id f l h hl

/-- An operation that logs nothing changes the context only. -/
theorem perform_server {op : Server.Op} (h : events s.context op = []) :
    (perform o s (.server op)).1 = { s with context := (Server.perform o s.context op).1 } := by
  simp only [perform, h, List.append_nil]

theorem acquireRowLock_effect (o : Options) (s : Node) (tx : TransactionId) (rowKey : Bytes) :
    Effect o s (.server (.acquireRowLock tx rowKey))
      { s with context := (Server.acquireRowLock s.context tx rowKey).1 } := by
  unfold Server.acquireRowLock
  rcases h : s.context.txStorage.acquireRowLock tx rowKey with _ | txStorage
  · exact .sleep tx rowKey
  · exact .grant tx rowKey txStorage h

theorem perform_effect (o : Options) (s : Node) (op : Op) : Effect o s op (perform o s op).1 := by
  cases op with
  | server op =>
    cases op with
    | begin =>
      rw [perform_server rfl]
      exact .begin
    | setStatus tx status =>
      rw [perform_server rfl]
      exact .setStatus tx status
    | logCommit tx => exact .logCommit tx
    | isCommited tx =>
      rw [perform_server rfl]
      exact .same _
    | acquireRowLock tx rowKey =>
      rw [perform_server rfl]
      exact acquireRowLock_effect o s tx rowKey
    | releaseAllLocks tx =>
      rw [perform_server rfl, Server.perform, Server.releaseAllLocks]
      split_ifs with h
      · exact .same _
      · exact .release tx
    | hasStorage id =>
      rw [perform_server rfl]
      exact .same _
    | tryEmplace id =>
      rw [perform_server rfl, Server.perform, Server.tryEmplace]
      split_ifs with h
      · exact .same _
      · exact .emplace id (Option.not_isSome_iff_eq_none.mp h)
    | scan id key =>
      rw [perform_server rfl]
      exact .same _
    | upsert id key value =>
      rcases h : s.context.storages id with _ | l
      · rw [perform_server (by simp only [events, h]), Server.perform, Server.engineUpsert, h]
        exact .same _
      · simp only [perform, Server.perform, Server.engineUpsert, events, h]
        exact .put id key value l h
    | io =>
      rw [perform_server rfl]
      exact .same _
  | getStatus tx => exact .same _
  | scanRange id range => exact .same _
  | createDirectory id => exact .same _
  | lockMaintenance no id =>
    rw [perform]
    split_ifs with h
    · exact .lock no id h
    · exact .same _
  | unlockMaintenance no id => exact .unlock no id
  | tree id => exact .same _
  | writeTable no id table => exact modify_effect no rfl
  | publishFlush no id table => exact modify_effect no rfl
  | publishCompact no id table => exact modify_effect no rfl
  | remove no id path => exact modify_effect no rfl

theorem resumeWrite_effect {call : ℕ} {x : Unit ⊕ Server.Wait} {context : Context} (op : Server.Op) (hop : Writing op)
    (h : Server.resumeWrite s.context call = some (context, x)) : Effect o s (.server op) { s with context } := by
  unfold Server.resumeWrite at h
  rcases hw : s.context.walWriter.step (.resume call) with _ | walWriter
  · rw [hw] at h
    cases h
  · simp only [hw] at h
    split_ifs at h
    · cases h
      exact .resume op call walWriter hw hop
    · cases h
      exact .resume op call walWriter hw hop

theorem server_wake_effect {op : Server.Op} {b : Server.Wait} {x : Server.Res op ⊕ Server.Wait} {context : Context}
    (h : Server.wake s.context op b = some (context, x)) : Effect o s (.server op) { s with context } := by
  unfold Server.wake at h
  split at h
  · rename_i tx rowKey n
    split_ifs at h
    have hs := acquireRowLock_effect o s tx rowKey
    rw [Option.some.inj h] at hs
    exact hs
  · exact resumeWrite_effect _ trivial h
  · exact resumeWrite_effect _ trivial h
  · cases h
    exact .same _
  · cases h

theorem wake_effect {b : Wait} {x : Res op ⊕ Wait} (h : wake s op b = some (s', x)) : Effect o s op s' := by
  unfold wake at h
  split at h
  · rename_i op b
    obtain ⟨⟨context, y⟩, hw, hs⟩ := Option.map_eq_some_iff.mp h
    cases hs
    exact server_wake_effect hw
  · cases h
    exact .createDirectory _
  · rename_i no id
    split_ifs at h with hfree
    cases h
    exact .lock no id hfree
  · cases h
    exact .same _
  · cases h
    exact .same _
  · cases h

/-- A wait for a lock that ends is a new attempt. -/
theorem wake_acquireRowLock {tx : TransactionId} {rowKey : Bytes} {b : Wait} {x : Node × (Unit ⊕ Wait)}
    (h : wake s (.server (.acquireRowLock tx rowKey)) b = some x) :
    x = perform o s (.server (.acquireRowLock tx rowKey)) := by
  cases b with
  | mutex => cases h
  | server wait =>
    cases wait with
    | io => cases h
    | write call => cases h
    | timer n =>
      obtain ⟨y, hy, rfl⟩ := Option.map_eq_some_iff.mp h
      rw [Server.wake] at hy
      split_ifs at hy
      cases hy
      simp only [perform, Server.perform, events, List.append_nil]

theorem resumeWrite_walWriter {context : Context} {call : ℕ} {x : Unit ⊕ Server.Wait}
    (h : Server.resumeWrite s.context call = some (context, x)) :
    ∃ walWriter, context = { s.context with walWriter } := by
  unfold Server.resumeWrite at h
  split at h
  · cases h
  · split_ifs at h <;> exact ⟨_, (congrArg Prod.fst (Option.some.inj h)).symm⟩

/-- A write that goes on inside the log writer leaves all else. -/
theorem wake_writing {op : Server.Op} {b : Wait} {x : Node × (Res (.server op) ⊕ Wait)}
    (h : wake s (.server op) b = some x) (hop : Writing op) :
    ∃ walWriter, x.1 = { s with context := { s.context with walWriter } } := by
  cases b with
  | mutex => cases h
  | server wait =>
    obtain ⟨⟨context, y⟩, hy, rfl⟩ := Option.map_eq_some_iff.mp h
    cases op with
    | logCommit tx =>
      cases wait with
      | write call =>
        obtain ⟨walWriter, rfl⟩ := resumeWrite_walWriter hy
        exact ⟨walWriter, rfl⟩
      | _ => cases hy
    | upsert id key value =>
      cases wait with
      | write call =>
        obtain ⟨walWriter, rfl⟩ := resumeWrite_walWriter hy
        exact ⟨walWriter, rfl⟩
      | _ => cases hy
    | _ => exact hop.elim

theorem perform_granted {tx : TransactionId} {rowKey : Bytes} {txStorage : TxStorage}
    (h : s.context.txStorage.acquireRowLock tx rowKey = some txStorage) :
    perform o s (.server (.acquireRowLock tx rowKey)) = ({ s with context := { s.context with txStorage } },
      .inl ()) := by
  simp only [perform, Server.perform, Server.acquireRowLock, h, events, List.append_nil]
  rfl

theorem perform_sleeps {tx : TransactionId} {rowKey : Bytes} (h : s.context.txStorage.acquireRowLock tx rowKey = none) :
    ∃ b, (perform o s (.server (.acquireRowLock tx rowKey))).2 = .inr b := by
  simp only [perform, Server.perform, Server.acquireRowLock, h]
  exact ⟨_, rfl⟩

theorem perform_put {id key : Bytes} {value : TransactionalValue} {l : Lsm TransactionalValue}
    (h : s.context.storages id = some l) :
    ∃ u b, perform o s (.server (.upsert id key value)) = (u, .inr b) ∧ u.maintenance = s.maintenance ∧
      u.context.txStorage = s.context.txStorage ∧
      u.context.storages = Function.update s.context.storages id (some (l.put o key value).1) ∧
      u.log = s.log ++ [.upsert id l.nextSeqNo key value] := by
  simp only [perform, Server.perform, Server.engineUpsert, events, h]
  exact ⟨_, _, rfl, rfl, rfl, rfl, rfl⟩

def Thread.creates (t : Thread) : Option Bytes :=
  match t.activity with
  | .session request _ => request.uuid
  | _ => none

def Thread.Allows (t : Thread) : Op → Prop
  | .server .begin => False
  | .server (.setStatus tx status) => t.activity = .rollback tx ∧ status = .rollbacked
  | .server (.logCommit tx) => t.tx = some tx
  | .server (.acquireRowLock tx _) => t.tx = some tx
  | .server (.releaseAllLocks tx) => t.tx = some tx
  | .server (.upsert _ _ value) => t.tx = some value.tx ∧ value.isFrozen = false
  | .server (.tryEmplace id) => t.creates = some id
  | .createDirectory id => t.creates = some id
  | .lockMaintenance no _ => no = t.no
  | .unlockMaintenance no _ => no = t.no
  | .writeTable no _ _ => no = t.no
  | .publishFlush no _ _ => no = t.no
  | .publishCompact no _ _ => no = t.no
  | .remove no _ _ => no = t.no
  | _ => True

namespace Thread

variable {t : Thread} {tx : TransactionId}

theorem reads (t : Thread) : Reads t.Allows :=
  ⟨⟨fun _ _ => trivial, fun _ => trivial, fun _ => trivial, trivial⟩, fun _ => trivial, fun _ _ => trivial⟩

theorem maintains (t : Thread) : Maintains t.Allows t.no where
  toReads := t.reads
  tree := fun _ => trivial
  lock := fun _ => rfl
  unlock := fun _ => rfl
  writeTable := fun _ _ => rfl
  publishFlush := fun _ _ => rfl
  publishCompact := fun _ _ => rfl
  remove := fun _ _ => rfl

theorem writesFor (h : t.tx = some tx) : WritesFor t.Allows tx where
  toReads := t.reads
  row := fun _ _ => ⟨t.reads.server, h, fun _ htx hfrozen => ⟨htx ▸ h, hfrozen⟩⟩

theorem commit_allows (h : t.tx = some tx) : (lift (Server.commit tx)).All t.Allows :=
  all_lift ((Server.all_call h).bind fun _ => Server.all_call h)

end Thread

theorem body_allows (no : ℕ) (request : Request) (tx : TransactionId) :
    (body no tx request).All (Thread.Allows ⟨no, .session request tx⟩) :=
  Handles.body ⟨Thread.reads _, fun _ => Thread.writesFor rfl, fun _ => Thread.maintains ⟨no, .session request tx⟩,
    fun _ => Thread.commit_allows rfl, fun _ hid => ⟨hid, hid⟩⟩

theorem program_allows (t : Thread) : (program t).All t.Allows := by
  obtain ⟨no, activity⟩ := t
  cases activity with
  | session request tx => exact (body_allows no request tx).handle fun _ => trivial
  | rollback tx =>
    have hstatus : Thread.Allows ⟨no, .rollback tx⟩ (.server (.setStatus tx .rollbacked)) := ⟨rfl, rfl⟩
    have hrelease : Thread.Allows ⟨no, .rollback tx⟩ (.server (.releaseAllLocks tx)) := rfl
    exact (all_lift ((Server.all_call hstatus).bind fun _ => Server.all_call hrelease)).bind fun _ => trivial
  | flush ids => exact ((Thread.maintains ⟨no, .flush ids⟩).flushAll ids).bind fun _ => trivial

/-- What every operation of a thread does to the process, the thread does. -/
theorem advance_rel {A : Op → Prop} {R : Node → Node → Prop} (hrefl : ∀ s, R s s)
    (htrans : ∀ s s' s'', R s s' → R s' s'' → R s s'') (heffect : ∀ s op s', A op → Effect o s op s' → R s s')
    {t t' : Task Res Wait Exception Response} (ht : t.All A) (ha : (kernel o).advance s t = some (s', t')) :
    R s s' ∧ t'.All A :=
  Kernel.advance_rel hrefl htrans (fun s op hop => heffect s op _ hop (perform_effect o s op))
    (fun s op _ s' _ hop hw => heffect s op s' hop (wake_effect hw)) ht ha

inductive Starts (s : Node) : Action → Node → Activity → Prop
  | begin (r : Request) (htx : r.tx = none) (hfresh : r.Fresh s) (hmutates : s.readOnly = true → r.mutates = false) :
      Starts s (.request r)
        { s with
          context := { s.context with txStorage := s.context.txStorage.begin.1 }
          uuids := r.uuid.toList ++ s.uuids } (.session r s.context.txStorage.nextTxId)
  | join (r : Request) (tx : TransactionId) (htx : r.tx = some tx) (hfresh : r.Fresh s)
      (hmutates : s.readOnly = true → r.mutates = false) (hstarted : s.context.txStorage.isStarted tx = true) :
      Starts s (.request r) { s with uuids := r.uuid.toList ++ s.uuids } (.session r tx)
  | rollback (tx : TransactionId) (hstarted : s.context.txStorage.isStarted tx = true) :
      Starts s (.rollback tx) s (.rollback tx)
  | flush (ids : List Bytes) : Starts s (.flush ids) s (.flush ids)

end Service

namespace Service

open Coroutine

variable {o : Options} {s s' : Service} {action : Action}

def spawned (s : Service) (activity : Activity) : Thread × Task Res Wait Exception Response :=
  (⟨s.tasks.length, activity⟩, .ready (program ⟨s.tasks.length, activity⟩))

def running (s : Service) : Action → Option (Node × Thread × Task Res Wait Exception Response)
  | .request r => (startSession s.shared r.tx).map fun x =>
    ({ x.1 with uuids := r.uuid.toList ++ x.1.uuids }, s.spawned (.session r x.2))
  | .rollback tx => some (s.shared, s.spawned (.rollback tx))
  | .flush ids => some (s.shared, s.spawned (.flush ids))
  | .resume i => (s.tasks[i]?).map fun x => (s.shared, x)
  | .apply _ => none
  | .restart _ => none

theorem Starts.running {node : Node} {activity : Activity} (h : Starts s.shared action node activity) :
    s.running action = some (node, s.spawned activity) := by
  cases h with
  | begin r htx hfresh hmutates => simp only [Service.running, htx, startSession, Option.map_some, TxStorage.begin]
  | join r tx htx hfresh hmutates hstarted =>
    simp only [Service.running, htx, startSession, hstarted, if_true, Option.map_some]
  | rollback tx hstarted => rfl
  | flush ids => rfl

def Advances (o : Options) (node : Node) (pre post : List (Thread × Task Res Wait Exception Response))
    (x : Thread × Task Res Wait Exception Response) (s' : Service) : Prop :=
  ∃ node' t', (kernel o).advance node x.2 = some (node', t') ∧ s' = ⟨node', pre ++ (x.1, t') :: post⟩

/-- A step spawns a thread and lets it run, lets a thread go on, applies an event of the leader or begins a new life. -/
theorem step_cases (h : s.step o action = some s') :
    (∃ node activity, Starts s.shared action node activity ∧
      Advances o node s.tasks [] (s.spawned activity) s') ∨
    (∃ i x pre post, action = .resume i ∧ s.tasks[i]? = some x ∧ s.tasks = pre ++ x :: post ∧
      Advances o s.shared pre post x s') ∨
    (∃ event, action = .apply event ∧ s' = { s with shared := s.shared.apply o event }) ∨
    ∃ events, action = .restart events ∧ s' = start (s.shared.restart o events) := by
  cases action with
  | request r =>
    rw [step] at h
    split_ifs at h with hrefused hfresh
    have hmutates : s.shared.readOnly = true → r.mutates = false := by
      intro hro
      rw [hro, Bool.true_and] at hrefused
      exact Bool.not_eq_true _ ▸ hrefused
    left
    rcases htx : r.tx with _ | tx
    · rw [htx] at h
      exact ⟨_, _, .begin r htx hfresh hmutates, _, _, rfl, (Option.some.inj h).symm⟩
    · rw [htx] at h
      simp only [startSession] at h
      split_ifs at h with hstarted
      exact ⟨_, _, .join r tx htx hfresh hmutates hstarted, _, _, rfl, (Option.some.inj h).symm⟩
  | rollback tx =>
    rw [step] at h
    split_ifs at h with hstarted
    exact Or.inl ⟨_, _, .rollback tx hstarted, _, _, rfl, (Option.some.inj h).symm⟩
  | flush ids => exact Or.inl ⟨_, _, .flush ids, _, _, rfl, (Option.some.inj h).symm⟩
  | resume i =>
    right
    left
    rw [step] at h
    rcases Pool.step_cases h with ⟨l, hl, -⟩ | ⟨j, th, t, node, t', pre, post, hj, hi, ha, htasks, rfl⟩
    · cases hl
    · cases hj
      exact ⟨i, (th, t), pre, post, rfl, hi, htasks, node, t', ha, rfl⟩
  | apply event => exact Or.inr (Or.inr (Or.inl ⟨event, rfl, (Option.some.inj h).symm⟩))
  | restart events => exact Or.inr (Or.inr (Or.inr ⟨events, rfl, (Option.some.inj h).symm⟩))

def Numbered (s : Service) : Prop := s.tasks.map (fun x => x.1.no) = List.range s.tasks.length

theorem Numbered.spawn (h : Numbered s) (node : Node) (activity : Activity) :
    Numbered ⟨node, s.tasks ++ [s.spawned activity]⟩ := Splits.Numbered.concat h rfl

theorem Numbered.advance {pre post : List (Thread × Task Res Wait Exception Response)}
    {x : Thread × Task Res Wait Exception Response} {node node' : Node} {t' : Task Res Wait Exception Response}
    (h : Numbered ⟨node, pre ++ x :: post⟩) : Numbered ⟨node', pre ++ (x.1, t') :: post⟩ :=
  Splits.Numbered.splice h rfl

theorem Numbered.ne {pre post : List (Thread × Task Res Wait Exception Response)}
    {x y : Thread × Task Res Wait Exception Response} {node : Node} (h : Numbered ⟨node, pre ++ x :: post⟩)
    (hy : y ∈ pre ∨ y ∈ post) : y.1.no ≠ x.1.no := by
  have hpool : Splits.Numbered (fun z => z.1.no) (pre ++ x :: post) := h
  exact hpool.ne hy

end Service

end StructureDb
