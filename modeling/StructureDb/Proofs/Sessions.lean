import StructureDb.Proofs.Locks
import StructureDb.Spec.Server

/-! Which operations the calls of sessions are made of: a call takes at most one row lock,
that of the row it writes, and only `Commit` and `Rollback` release locks. -/

namespace StructureDb.Server

open Coroutine

/-- The transaction and the row lock a call may ask for. The rows of the catalog are the names of the tables. -/
def Call.row : Call → Option (TransactionId × Bytes)
  | .acquireRowLock tx rowKey => some (tx, rowKey)
  | .upsert tx _ key _ => some (tx, key)
  | .delete tx _ key => some (tx, key)
  | .createTable tx name _ => some (tx, name)
  | .dropTable tx name => some (tx, name)
  | _ => none

def Call.ends : Call → Option TransactionId
  | .commit tx => some tx
  | .rollback tx => some tx
  | _ => none

def Call.creates : Call → Option Bytes
  | .createTable _ _ id => some id
  | _ => none

def Call.Allows (c : Call) : Op → Prop
  | .acquireRowLock tx rowKey => c.row = some (tx, rowKey)
  | .releaseAllLocks tx => c.ends = some tx
  | .setStatus _ status => status = .rollbacked
  | .upsert _ _ value => value.isFrozen = false
  | .tryEmplace id => c.creates = some id
  | _ => True

def IsLock : Op → Prop
  | .acquireRowLock _ _ => True
  | _ => False

structure Reads (A : Op → Prop) : Prop where
  scan : ∀ id key, A (.scan id key)
  isCommited : ∀ tx, A (.isCommited tx)
  hasStorage : ∀ id, A (.hasStorage id)
  io : A .io

variable {A : Op → Prop} {tx : TransactionId} {id key name : Bytes}

theorem all_call {op : Op} (h : A op) : (call op).All A := Coro.all_perform h

namespace Reads

theorem visible (h : Reads A) (tx : TransactionId) (v : TransactionalValue) : (visible tx v).All A := by
  unfold Server.visible
  split_ifs
  · trivial
  · exact all_call (h.isCommited v.tx)

theorem lookupRows (h : Reads A) (tx : TransactionId) (rows : List Row) : (lookupRows tx rows).All A := by
  induction rows with
  | nil => trivial
  | cons row rest ih =>
    refine (all_call h.io).bind fun _ => (h.visible tx row.value).bind fun found => ?_
    split_ifs
    · trivial
    · trivial
    · exact ih

theorem lookup (h : Reads A) (tx : TransactionId) (id key : Bytes) : (lookup tx id key).All A :=
  (all_call (h.scan id key)).bind fun rows => (all_call h.io).bind fun _ => h.lookupRows tx rows

theorem getTableInfo (h : Reads A) (tx : TransactionId) (name : Bytes) : (getTableInfo tx name).All A :=
  (h.lookup tx kSysTables name).bind fun _ => trivial

theorem getTable (h : Reads A) (tx : TransactionId) (name : Bytes) : (getTable tx name).All A := by
  unfold Server.getTable
  split_ifs
  · trivial
  · refine Coro.All.bind ?_ fun id => ?_
    · refine (h.getTableInfo tx name).bind fun info => ?_
      cases info <;> trivial
    · cases id with
      | none => trivial
      | some id =>
        refine (all_call (h.hasStorage id)).bind fun b => ?_
        cases b <;> trivial

end Reads

structure WritesRow (A : Op → Prop) (tx : TransactionId) (id key : Bytes) : Prop extends Reads A where
  lock : A (.acquireRowLock tx key)
  put : ∀ value, value.tx = tx → value.isFrozen = false → A (.upsert id key value)

namespace WritesRow

theorem upsert (h : WritesRow A tx id key) (value : Bytes) : (upsert tx id key value).All A :=
  (all_call h.lock).bind fun _ => all_call (h.put _ rfl rfl)

theorem delete (h : WritesRow A tx id key) : (delete tx id key).All A := by
  refine (h.toReads.lookup tx id key).bind fun row => ?_
  cases row with
  | none => trivial
  | some row => exact (all_call h.lock).bind fun _ => (all_call (h.put _ rfl rfl)).bind fun _ => trivial

theorem addStorage (h : WritesRow A tx kSysTables name) (id : Bytes) : (addStorage tx name id).All A := by
  unfold Server.addStorage
  split_ifs
  · trivial
  · refine (h.toReads.getTableInfo tx name).bind fun info => ?_
    cases info with
    | none => exact h.upsert _
    | some info =>
      dsimp only
      split_ifs
      · exact h.upsert _
      · trivial

theorem deleteStorage (h : WritesRow A tx kSysTables name) : (deleteStorage tx name).All A := by
  unfold Server.deleteStorage
  split_ifs
  · trivial
  · refine (h.toReads.getTableInfo tx name).bind fun info => ?_
    cases info with
    | none => trivial
    | some info =>
      dsimp only
      split_ifs
      · trivial
      · exact h.upsert _

theorem createTable (h : WritesRow A tx kSysTables name) (hid : A (.tryEmplace id)) : (createTable tx name id).All A :=
  (h.addStorage id).bind fun _ => (all_call h.io).bind fun _ => (all_call h.io).bind fun _ => all_call hid

end WritesRow

theorem onTable_rule {T : Program Reply → Prop} {body : Bytes → Program Reply}
    (hget : ∀ k : Option Table → Program Reply, (∀ table, T (k table)) → T (getTable tx name >>= k))
    (hnone : T (pure .noSuchTable)) (hview : T (throw .mutationOnSystemView)) (hbody : ∀ id, T (body id)) :
    T (onTable tx name body) := by
  refine hget _ fun table => ?_
  cases table with
  | none => exact hnone
  | some table =>
    cases table with
    | systemView => exact hview
    | transactional id => exact hbody id

theorem all_onTable (h : Reads A) {body : Bytes → Program Reply} (hbody : ∀ id, (body id).All A) :
    (onTable tx name body).All A :=
  onTable_rule (fun _ hk => (h.getTable tx name).bind hk) trivial trivial hbody

theorem Call.reads (c : Call) : Reads c.Allows := ⟨fun _ _ => trivial, fun _ => trivial, fun _ => trivial, trivial⟩

theorem Call.writesRow {c : Call} (h : c.row = some (tx, key)) (id : Bytes) : WritesRow c.Allows tx id key :=
  ⟨c.reads, h, fun _ _ hv => hv⟩

theorem handler_allows (c : Call) : (handler c).All c.Allows := by
  cases c with
  | begin => exact (all_call trivial).bind fun _ => trivial
  | commit tx =>
    exact Coro.All.bind ((all_call trivial).bind fun _ => all_call rfl) fun _ => trivial
  | rollback tx =>
    have hstatus : Call.Allows (.rollback tx) (.setStatus tx .rollbacked) := rfl
    exact Coro.All.bind ((all_call hstatus).bind fun _ => all_call rfl) fun _ => trivial
  | acquireRowLock tx rowKey =>
    have hlock : Call.Allows (.acquireRowLock tx rowKey) (.acquireRowLock tx rowKey) := rfl
    exact (all_call hlock).bind fun _ => trivial
  | lookup tx id key => exact ((Call.reads _).lookup tx id key).bind fun _ => trivial
  | upsert tx table key value =>
    exact all_onTable (Call.reads _) fun id => ((Call.writesRow rfl id).upsert value).bind fun _ => trivial
  | delete tx table key =>
    exact all_onTable (Call.reads _) fun id => (Call.writesRow rfl id).delete.bind fun _ => trivial
  | createTable tx name id =>
    have hid : Call.Allows (.createTable tx name id) (.tryEmplace id) := rfl
    exact ((Call.writesRow rfl _).createTable hid).bind fun _ => trivial
  | dropTable tx name =>
    exact Coro.All.bind ((Call.writesRow rfl _).deleteStorage.handle fun _ => trivial) fun _ => trivial

theorem reads_not_lock : Reads fun op => ¬ IsLock op :=
  ⟨fun _ _ => not_false, fun _ => not_false, fun _ => not_false, not_false⟩

theorem once_upsert (tx : TransactionId) (id key value : Bytes) : (upsert tx id key value).Once IsLock :=
  Coro.once_perform.bind_all fun _ => all_call not_false

theorem once_delete (tx : TransactionId) (id key : Bytes) : (delete tx id key).Once IsLock := by
  refine (reads_not_lock.lookup tx id key).bind_once fun row => ?_
  cases row with
  | none => trivial
  | some row => exact Coro.once_perform.bind_all fun _ => (all_call not_false).bind fun _ => trivial

theorem once_addStorage (tx : TransactionId) (name id : Bytes) : (addStorage tx name id).Once IsLock := by
  unfold addStorage
  split_ifs
  · trivial
  · refine (reads_not_lock.getTableInfo tx name).bind_once fun info => ?_
    cases info with
    | none => exact once_upsert ..
    | some info =>
      dsimp only
      split_ifs
      · exact once_upsert ..
      · trivial

theorem once_deleteStorage (tx : TransactionId) (name : Bytes) : (deleteStorage tx name).Once IsLock := by
  unfold deleteStorage
  split_ifs
  · trivial
  · refine (reads_not_lock.getTableInfo tx name).bind_once fun info => ?_
    cases info with
    | none => trivial
    | some info =>
      dsimp only
      split_ifs
      · trivial
      · exact once_upsert ..

theorem once_onTable {body : Bytes → Program Reply} (hbody : ∀ id, (body id).Once IsLock) :
    (onTable tx name body).Once IsLock :=
  onTable_rule (fun _ hk => (reads_not_lock.getTable tx name).bind_once hk) trivial trivial hbody

theorem handler_locks_once (c : Call) : (handler c).Once IsLock := by
  cases c with
  | begin =>
    apply Coro.All.once
    exact (all_call not_false).bind fun _ => trivial
  | commit tx =>
    apply Coro.All.once
    exact Coro.All.bind ((all_call not_false).bind fun _ => all_call not_false) fun _ => trivial
  | rollback tx =>
    apply Coro.All.once
    exact Coro.All.bind ((all_call not_false).bind fun _ => all_call not_false) fun _ => trivial
  | acquireRowLock tx rowKey => exact Coro.once_perform.bind_all fun _ => trivial
  | lookup tx id key =>
    apply Coro.All.once
    exact (reads_not_lock.lookup tx id key).bind fun _ => trivial
  | upsert tx table key value => exact once_onTable fun id => (once_upsert tx id key value).bind_all fun _ => trivial
  | delete tx table key => exact once_onTable fun id => (once_delete tx id key).bind_all fun _ => trivial
  | createTable tx name id =>
    refine Coro.Once.bind_all ((once_addStorage tx name id).bind_all fun _ => ?_) fun _ => trivial
    exact (all_call not_false).bind fun _ => (all_call not_false).bind fun _ => all_call not_false
  | dropTable tx name =>
    exact Coro.Once.bind_all ((once_deleteStorage tx name).handle fun _ => trivial) fun _ => trivial

end StructureDb.Server
