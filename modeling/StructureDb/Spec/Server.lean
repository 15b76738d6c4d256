import StructureDb.Lib.Coroutine
import StructureDb.Spec.Database
import StructureDb.Spec.Writer

/-! The operations of sessions as coroutines on one `io_context`. They suspend in
`AcquireRowLock`, in the log writer and in file operations, and any number of them run
beside each other. What a key iterator yields is fixed when it is made: it reads the mem tables at once, and
table files do not change. -/

namespace StructureDb

namespace BufferWriter

def writeBool (value : Bool) : Bytes := [if value then 1 else 0]

end BufferWriter

open BufferWriter in
def TransactionalValue.toBytes (v : TransactionalValue) : Bytes :=
  writeInt (BitVec.ofNat 64 v.tx) ++ writeBool v.isDeleted ++ writeBool v.isFrozen ++ writeString v.value

def upsertEvent (id : Bytes) (row : Row) : LogEvent :=
  .lsmStorageUpsert id (BitVec.ofNat 64 row.seqNo) row.key row.value.toBytes

def commitEvent (tx : TransactionId) : LogEvent := .txStorageCommit (BitVec.ofNat 64 tx)

/-- `io::ConditionVariable`: every wait makes a timer, and `waiters` are those not yet cancelled. -/
structure ConditionVariable where
  waiters : List ℕ
  nextTimer : ℕ
deriving DecidableEq

namespace ConditionVariable

/-- One turn of the loop of `Wait`, with its timer. -/
def wait (cv : ConditionVariable) : ConditionVariable × ℕ :=
  (⟨cv.waiters ++ [cv.nextTimer], cv.nextTimer + 1⟩, cv.nextTimer)

/-- `NotifyAll` cancels the timers one after the other until none is left. -/
def notifyAll (cv : ConditionVariable) : ConditionVariable := { cv with waiters := [] }

end ConditionVariable

/-- `database::Context`, with the condition variable of `transaction::Storage`. -/
structure Context where
  storages : Bytes → Option (Lsm TransactionalValue)
  txStorage : TxStorage
  lockAvailable : ConditionVariable
  walWriter : Writes

namespace Context

/-- `Writer::Write` up to its first wait, with the number of the call. -/
def write (s : Context) (event : LogEvent) : Context × ℕ :=
  let (writer, call) := s.walWriter.writer.write (flushEvent event)
  ({ s with walWriter := ⟨writer, s.walWriter.calls ++ [(event, call)]⟩ }, s.walWriter.calls.length)

end Context

namespace Server

open Coroutine

/-- What coroutines do between their waits. -/
inductive Op
  | begin
  | setStatus (tx : TransactionId) (status : Status)
  -- `Storage::Commit` without the release of the locks
  | logCommit (tx : TransactionId)
  | isCommited (tx : TransactionId)
  | acquireRowLock (tx : TransactionId) (rowKey : Bytes)
  | releaseAllLocks (tx : TransactionId)
  | hasStorage (id : Bytes)
  | tryEmplace (id : Bytes)
  | scan (id key : Bytes)
  -- `LsmEngine::Upsert`
  | upsert (id key : Bytes) (value : TransactionalValue)
  -- a file operation
  | io

abbrev Res : Op → Type
  | .begin => TransactionId
  | .isCommited _ => Bool
  | .hasStorage _ => Bool
  | .scan _ _ => List Row
  | _ => Unit

inductive Wait
  | timer (n : ℕ)
  | write (call : ℕ)
  | io
deriving DecidableEq

def acquireRowLock (s : Context) (tx : TransactionId) (rowKey : Bytes) : Context × (Unit ⊕ Wait) :=
  match s.txStorage.acquireRowLock tx rowKey with
  | some txStorage => ({ s with txStorage }, .inl ())
  | none =>
    let (lockAvailable, timer) := s.lockAvailable.wait
    ({ s with lockAvailable }, .inr (.timer timer))

/-- Without a lock nobody is notified. -/
def releaseAllLocks (s : Context) (tx : TransactionId) : Context :=
  if s.txStorage.txLocks tx = [] then s
  else { s with txStorage := s.txStorage.releaseAllLocks tx, lockAvailable := s.lockAvailable.notifyAll }

def logCommit (s : Context) (tx : TransactionId) : Context × Wait :=
  let (s, call) := { s with txStorage := s.txStorage.setStatus tx .commited }.write (commitEvent tx)
  (s, .write call)

/-- A table holds on to its storage, so it is there. -/
def engineUpsert (o : Options) (s : Context) (id key : Bytes) (value : TransactionalValue) : Context × (Unit ⊕ Wait) :=
  match s.storages id with
  | none => (s, .inl ())
  | some l =>
    let (l, seqNo) := l.put o key value
    let (s, call) :=
      { s with storages := Function.update s.storages id (some l) }.write (upsertEvent id ⟨key, seqNo, value⟩)
    (s, .inr (.write call))

def tryEmplace (s : Context) (id : Bytes) : Context :=
  if (s.storages id).isSome then s
  else { s with storages := Function.update s.storages id (some (Lsm.init Dir.empty)) }

def perform (o : Options) (s : Context) : (op : Op) → Context × (Res op ⊕ Wait)
  | .begin => ({ s with txStorage := s.txStorage.begin.1 }, .inl s.txStorage.begin.2)
  | .setStatus tx status => ({ s with txStorage := s.txStorage.setStatus tx status }, .inl ())
  | .logCommit tx => ((logCommit s tx).1, .inr (logCommit s tx).2)
  | .isCommited tx => (s, .inl (s.txStorage.isCommited tx))
  | .acquireRowLock tx rowKey => acquireRowLock s tx rowKey
  | .releaseAllLocks tx => (releaseAllLocks s tx, .inl ())
  | .hasStorage id => (s, .inl (s.storages id).isSome)
  | .tryEmplace id => (tryEmplace s id, .inl ())
  | .scan id key => (s, .inl ((s.storages id).elim [] fun l => l.scanKey key))
  | .upsert id key value => engineUpsert o s id key value
  | .io => (s, .inr .io)

def resumeWrite (s : Context) (call : ℕ) : Option (Context × (Unit ⊕ Wait)) :=
  match s.walWriter.step (.resume call) with
  | none => none
  | some walWriter =>
    if (walWriter.calls[call]?).map Prod.snd = some .returned then some ({ s with walWriter }, .inl ())
    else some ({ s with walWriter }, .inr (.write call))

/-- A wait for a lock ends when its timer is cancelled, and the predicate is checked again. -/
def wake (s : Context) : (op : Op) → Wait → Option (Context × (Res op ⊕ Wait))
  | .acquireRowLock tx rowKey, .timer n =>
    if n ∈ s.lockAvailable.waiters then none else some (acquireRowLock s tx rowKey)
  | .logCommit _, .write call => resumeWrite s call
  | .upsert _ _ _, .write call => resumeWrite s call
  | .io, .io => some (s, .inl ())
  | _, _ => none

def kernel (o : Options) : Kernel Context Res Wait := ⟨perform o, wake⟩

inductive Exception
  | tableAlreadyExists
  | nameAlreadyExists (name : Bytes)
  | cannotDropSystemTable
  | mutationOnSystemView
  | outOfRange
deriving DecidableEq

abbrev Program := Coro Res Exception

def call (op : Op) : Program (Res op) := Coro.perform op

section Storage

def commit (tx : TransactionId) : Program Unit := do
  call (.logCommit tx)
  call (.releaseAllLocks tx)

def rollback (tx : TransactionId) : Program Unit := do
  call (.setStatus tx .rollbacked)
  call (.releaseAllLocks tx)

end Storage

section TransactionalTable

def visible (tx : TransactionId) (v : TransactionalValue) : Program Bool :=
  if v.isFrozen || v.tx == tx then pure true else call (.isCommited v.tx)

/-- The loop of `Lookup` over what the iterator yields. Only a read of a page that is not cached suspends; a wait
behind every row allows more interleavings than there are. -/
def lookupRows (tx : TransactionId) : List Row → Program (Option Row)
  | [] => pure none
  | row :: rest => do
    call .io
    let found ← visible tx row.value
    if found then
      if row.value.isDeleted then pure none else pure (some row)
    else lookupRows tx rest

/-- `Lookup`, with the whole version instead of its value. -/
def lookup (tx : TransactionId) (id key : Bytes) : Program (Option Row) := do
  let rows ← call (.scan id key)
  call .io
  lookupRows tx rows

def upsert (tx : TransactionId) (id key value : Bytes) : Program Unit := do
  call (.acquireRowLock tx key)
  call (.upsert id key ⟨tx, false, false, value⟩)

def delete (tx : TransactionId) (id key : Bytes) : Program Bool := do
  match ← lookup tx id key with
  | none => pure false
  | some _ =>
    call (.acquireRowLock tx key)
    call (.upsert id key ⟨tx, true, false, []⟩)
    pure true

end TransactionalTable

section Catalog

def getTableInfo (tx : TransactionId) (name : Bytes) : Program (Option TableInfo) := do
  let row ← lookup tx kSysTables name
  pure (row.map fun row => TableInfo.parse row.value.value)

/-- `id` is the uuid that is drawn. -/
def addStorage (tx : TransactionId) (name id : Bytes) : Program Unit := do
  if name ∈ internalTables then
    throw .tableAlreadyExists
  match ← getTableInfo tx name with
  | none => upsert tx kSysTables name (TableInfo.toBytes ⟨false, id⟩)
  | some info =>
    if info.dropped then upsert tx kSysTables name (TableInfo.toBytes ⟨false, id⟩)
    else throw (.nameAlreadyExists name)

def deleteStorage (tx : TransactionId) (name : Bytes) : Program Unit := do
  if name ∈ internalTables then
    throw .cannotDropSystemTable
  match ← getTableInfo tx name with
  | none => pure ()
  | some info =>
    if info.dropped then pure ()
    else upsert tx kSysTables name (TableInfo.toBytes { info with dropped := true })

def getStorageId (tx : TransactionId) (name : Bytes) : Program (Option Bytes) := do
  match ← getTableInfo tx name with
  | none => pure none
  | some info => pure (if info.dropped then none else some info.id)

end Catalog

section Session

inductive Table
  | systemView
  | transactional (id : Bytes)

def getTable (tx : TransactionId) (name : Bytes) : Program (Option Table) := do
  if name = kSysTables ∨ name = kSysTransactions then
    pure (some .systemView)
  else
    match ← getStorageId tx name with
    | none => pure none
    | some id =>
      if ← call (.hasStorage id) then pure (some (.transactional id)) else throw .outOfRange

/-- Behind the catalog come the waits of `CreateDirectory` and of `Init` on the new directory. -/
def createTable (tx : TransactionId) (name id : Bytes) : Program Unit := do
  addStorage tx name id
  call .io
  call .io
  call (.tryEmplace id)

/-- All exceptions are caught. -/
def dropTable (tx : TransactionId) (name : Bytes) : Program Unit :=
  tryCatch (deleteStorage tx name) fun _ => pure ()

end Session

inductive Reply
  | done
  | begun (tx : TransactionId)
  | deleted (found : Bool)
  | version (row : Option Row)
  | noSuchTable
deriving DecidableEq

/-- The operations of transactions. `lookup` and `acquireRowLock` are calls of `TransactionalTable` and of
`transaction::Storage` themselves, the others go through a session. -/
inductive Call
  | begin
  | commit (tx : TransactionId)
  | rollback (tx : TransactionId)
  | acquireRowLock (tx : TransactionId) (rowKey : Bytes)
  | lookup (tx : TransactionId) (id key : Bytes)
  | upsert (tx : TransactionId) (table key value : Bytes)
  | delete (tx : TransactionId) (table key : Bytes)
  | createTable (tx : TransactionId) (name id : Bytes)
  | dropTable (tx : TransactionId) (name : Bytes)
deriving DecidableEq

def onTable (tx : TransactionId) (name : Bytes) (body : Bytes → Program Reply) : Program Reply := do
  match ← getTable tx name with
  | none => pure .noSuchTable
  | some .systemView => throw .mutationOnSystemView
  | some (.transactional id) => body id

def handler : Call → Program Reply
  | .begin => do
    let tx ← call .begin
    pure (.begun tx)
  | .commit tx => do
    commit tx
    pure .done
  | .rollback tx => do
    rollback tx
    pure .done
  | .acquireRowLock tx rowKey => do
    call (.acquireRowLock tx rowKey)
    pure .done
  | .lookup tx id key => do
    let row ← lookup tx id key
    pure (.version row)
  | .upsert tx table key value => onTable tx table fun id => do
    upsert tx id key value
    pure .done
  | .delete tx table key => onTable tx table fun id => do
    let found ← delete tx id key
    pure (.deleted found)
  | .createTable tx name id => do
    createTable tx name id
    pure .done
  | .dropTable tx name => do
    dropTable tx name
    pure .done

abbrev Action := Coroutine.Action Call

end Server

abbrev Server := Coroutine.Pool Context Server.Call Server.Res Server.Wait Server.Exception Server.Reply

namespace Server

open Coroutine

/-- A server on a database that has just been opened: nobody holds a lock, and of the log only what is written from here
on is followed. -/
def start (db : Db) : Server :=
  ⟨⟨db.storages, { db.txStorage with rowLocks := fun _ => none, txLocks := fun _ => [] }, ⟨[], 0⟩, Writes.start⟩,
    []⟩

def step (o : Options) : Server → Action → Option Server := Pool.step (kernel o) handler

end Server

end StructureDb
