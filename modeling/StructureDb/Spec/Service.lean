import StructureDb.Spec.Server

/-! The services of a process. Every request, with its session around it, and every background
job is a coroutine over the operations of `Server` and those of `Lsm::Flush` and
`Lsm::Compact`. A follower applies the events of its leader beside them, and a process may
crash and start again. What an iterator yields is fixed when it is made. A scan waits behind every
row, also behind those of mem tables, for which nothing waits: the runs here are more than those of
the process. -/

namespace StructureDb

namespace Status

def text : Status → Bytes
  | .started => [115, 116, 97, 114, 116, 101, 100]
  | .commited => [99, 111, 109, 109, 105, 116, 101, 100]
  | .rollbacked => [114, 111, 108, 108, 98, 97, 99, 107, 101, 100]

end Status

/-- `transaction::FromString`. `std::stoll` skips blanks and takes a sign; `none` where it throws. -/
def TransactionId.fromString (tx : Bytes) : Option ℤ :=
  let number : Option ℤ :=
    match tx.dropWhile fun c => c = 32 ∨ 9 ≤ c ∧ c ≤ 13 with
    | 45 :: digits => (stoll digits).map fun n => -(n : ℤ)
    | 43 :: digits => (stoll digits).map fun n => (n : ℤ)
    | digits => (stoll digits).map fun n => (n : ℤ)
  number.filter fun n => -2 ^ 63 ≤ n ∧ n < 2 ^ 63

/-- A process in memory and on disk. -/
structure Node where
  context : Context
  -- who holds the `maintenance_mutex_` of a storage
  maintenance : Bytes → Option ℕ
  -- the directories that `CreateDirectory` has made
  directories : List Bytes
  -- the ids that `GenerateUuid` has drawn
  uuids : List Bytes
  -- the events that have gone into the log, over all lives of the process
  log : List Event
  readOnly : Bool

namespace Node

def db (s : Node) : Db := ⟨s.context.storages, s.context.txStorage, ⟨Dir.empty, 0, 0, 0⟩⟩

def modify (s : Node) (id : Bytes) (f : Lsm TransactionalValue → Lsm TransactionalValue) : Node :=
  match s.context.storages id with
  | none => s
  | some l => { s with context := { s.context with storages := Function.update s.context.storages id (some (f l)) } }

/-- `Event::Apply` of an event in a page that `WriteReceivedPage` has put into the log. -/
def apply (o : Options) (s : Node) (event : Event) : Node :=
  let db := s.db.apply o event
  { s with
    context := { s.context with storages := db.storages, txStorage := db.txStorage }
    log := s.log ++ [event] }

/-- `Database::Init` on the directories of the storages and of the log; `events` is what the reader delivers. -/
def init (o : Options) (dirs : Bytes → Option (Dir Bytes (List Row))) (wal : Dir Bytes Bytes) (events : List Event)
    (readOnly : Bool) : Node :=
  let db := events.foldl (Db.apply o) ⟨Db.openStorages dirs, TxStorage.empty, ⟨Dir.empty, 0, 0, 0⟩⟩
  { context := ⟨db.storages, db.txStorage, ⟨[], 0⟩, ⟨Writer.init wal, []⟩⟩
    maintenance := fun _ => none
    directories := []
    uuids := []
    log := events
    readOnly }

def dirs (s : Node) (id : Bytes) : Option (Dir Bytes (List Row)) :=
  match s.context.storages id with
  | some l => some l.dir
  | none => if id ∈ s.directories then some Dir.empty else none

/-- A crash and the next `Init`, where `events` is what the reader delivers. -/
def restart (o : Options) (s : Node) (events : List Event) : Node :=
  { init o s.dirs s.context.walWriter.writer.dir events s.readOnly with
    directories := s.directories
    uuids := s.uuids
    log := s.log }

end Node

namespace Service

open Coroutine

inductive Op
  | server (op : Server.Op)
  | getStatus (tx : TransactionId)
  | scanRange (id : Bytes) (range : ScanRange)
  | createDirectory (id : Bytes)
  -- `LockExclusive` and `UnlockExclusive` on the `maintenance_mutex_` of a storage
  | lockMaintenance (no : ℕ) (id : Bytes)
  | unlockMaintenance (no : ℕ) (id : Bytes)
  -- the tables of a storage as they are
  | tree (id : Bytes)
  | writeTable (no : ℕ) (id : Bytes) (table : SSTable TransactionalValue)
  | publishFlush (no : ℕ) (id : Bytes) (table : SSTable TransactionalValue)
  | publishCompact (no : ℕ) (id : Bytes) (table : SSTable TransactionalValue)
  | remove (no : ℕ) (id path : Bytes)

abbrev Res : Op → Type
  | .server op => Server.Res op
  | .getStatus _ => Option Status
  | .scanRange _ _ => List Row
  | .tree _ => Option (Lsm TransactionalValue)
  | _ => Unit

inductive Wait
  | server (wait : Server.Wait)
  | mutex
deriving DecidableEq

def events (s : Context) : Server.Op → List Event
  | .logCommit tx => [.commit tx]
  | .upsert id key value =>
    match s.storages id with
    | none => []
    | some l => [.upsert id l.nextSeqNo key value]
  | _ => []

def perform (o : Options) (s : Node) : (op : Op) → Node × (Res op ⊕ Wait)
  | .server op =>
    let (context, x) := Server.perform o s.context op
    ({ s with context, log := s.log ++ events s.context op }, x.map id .server)
  | .getStatus tx => (s, .inl (s.context.txStorage.getStatus tx))
  | .scanRange id range => (s, .inl ((s.context.storages id).elim [] fun l => l.scanRange range))
  | .createDirectory _ => (s, .inr (.server .io))
  | .lockMaintenance no id =>
    if s.maintenance id = none then ({ s with maintenance := Function.update s.maintenance id (some no) }, .inl ())
    else (s, .inr .mutex)
  | .unlockMaintenance _ id => ({ s with maintenance := Function.update s.maintenance id none }, .inl ())
  | .tree id => (s, .inl (s.context.storages id))
  | .writeTable _ id table => (s.modify id fun l => l.writeTable table, .inr (.server .io))
  | .publishFlush _ id table => (s.modify id fun l => l.publishFlush table, .inl ())
  | .publishCompact _ id table => (s.modify id fun l => l.publishCompact table, .inl ())
  | .remove _ id path => (s.modify id fun l => l.removeFiles [path], .inr (.server .io))

def wake (s : Node) : (op : Op) → Wait → Option (Node × (Res op ⊕ Wait))
  | .server op, .server wait =>
    (Server.wake s.context op wait).map fun x => ({ s with context := x.1 }, x.2.map id .server)
  | .createDirectory id, .server .io => some ({ s with directories := id :: s.directories }, .inl ())
  | .lockMaintenance no id, .mutex =>
    if s.maintenance id = none then
      some ({ s with maintenance := Function.update s.maintenance id (some no) }, .inl ())
    else none
  | .writeTable _ _ _, .server .io => some (s, .inl ())
  | .remove _ _ _, .server .io => some (s, .inl ())
  | _, _ => none

def kernel (o : Options) : Kernel Node Res Wait := ⟨perform o, wake⟩

inductive Exception
  | session (e : Server.Exception)
  | unimplemented
  -- `std::stoll`
  | invalidNumber
deriving DecidableEq

abbrev Program := Coro Res Exception

def call (op : Op) : Program (Res op) := Coro.perform op

def lift {α : Type} (c : Server.Program α) : Program α := c.embed Op.server Exception.session

def io : Program Unit := call (.server .io)

section TransactionalTable

def listed (tx : TransactionId) (v : TransactionalValue) : Program Bool :=
  if v.tx = tx then pure true else call (.server (.isCommited v.tx))

def scanRows (tx : TransactionId) : List (Bytes × Bytes) → List Row → Program (List (Bytes × Bytes))
  | result, [] => pure result
  | result, row :: rest => do
    io
    let found ← listed tx row.value
    if found then
      if row.value.isDeleted then scanRows tx result rest
      else if result.getLast?.map Prod.fst = some row.key then scanRows tx result rest
      else scanRows tx (result ++ [(row.key, row.value.value)]) rest
    else scanRows tx result rest

def scan (tx : TransactionId) (id : Bytes) (range : ScanRange) : Program (List (Bytes × Bytes)) := do
  let rows ← call (.scanRange id range)
  io
  scanRows tx [] rows

def freezeRow (status : Option Status) (row : Row) : Row :=
  if status = some .commited ∧ row.value.isFrozen = false then
    { row with value := { row.value with isFrozen := true } }
  else row

/-- `CompactRows`, with the rows that go to the builder. -/
def compactRows : Option Bytes → List Row → Program (List Row)
  | _, [] => pure []
  | lastAdded, row :: rest => do
    io
    if row.value.isDeleted then compactRows lastAdded rest
    else
      let status ← call (.getStatus row.value.tx)
      if status ≠ some .commited ∧ status ≠ some .started then compactRows lastAdded rest
      else if lastAdded ≠ some row.key then do
        io
        let out ← compactRows (some row.key) rest
        pure (freezeRow status row :: out)
      else compactRows lastAdded rest

def removeFiles (no : ℕ) (id : Bytes) : List Bytes → Program Unit
  | [] => pure ()
  | path :: paths => do
    call (.remove no id path)
    removeFiles no id paths

def compactTree (no : ℕ) (id : Bytes) (l : Lsm TransactionalValue) : Program Unit := do
  io
  let rows ← compactRows none l.mergedRecords
  let table : SSTable TransactionalValue := ⟨sstName l.compactNo.toNat, rows⟩
  call (.writeTable no id table)
  call (.publishCompact no id table)
  removeFiles no id l.filesToDelete

def flushFront (no : ℕ) (id : Bytes) (l : Lsm TransactionalValue) : Program Unit :=
  match l.roMemTables with
  | [] => pure ()
  | m :: _ => do
    call (.writeTable no id (l.flushTable m))
    call (.publishFlush no id (l.flushTable m))

/-- A storage that is at hand is there. -/
def onTree (id : Bytes) (body : Lsm TransactionalValue → Program Unit) : Program Unit := do
  match ← call (.tree id) with
  | none => pure ()
  | some l => body l

def flushTables (no : ℕ) (id : Bytes) : ℕ → Program Unit
  | 0 => pure ()
  | pending + 1 => do
    onTree id (flushFront no id)
    flushTables no id pending

/-- Under the `maintenance_mutex_` of a storage. -/
def maintain (no : ℕ) (id : Bytes) (body : Lsm TransactionalValue → Program Unit) : Program Unit := do
  call (.lockMaintenance no id)
  onTree id body
  call (.unlockMaintenance no id)

def compact (no : ℕ) (id : Bytes) : Program Unit := maintain no id (compactTree no id)

def flush (no : ℕ) (id : Bytes) : Program Unit := maintain no id fun l => flushTables no id l.roMemTables.length

end TransactionalTable

section Session

def scanCatalog (tx : TransactionId) (range : ScanRange) : Program (List (Bytes × Bytes)) := do
  let rows ← scan tx kSysTables range
  pure (rows.map fun row => (row.1, (TableInfo.parse row.2).id))

inductive Table
  | sysTables
  | sysTransactions
  | transactional (id : Bytes)

def getTable (tx : TransactionId) (name : Bytes) : Program (Option Table) := do
  if name = kSysTables then pure (some .sysTables)
  else if name = kSysTransactions then pure (some .sysTransactions)
  else
    match ← lift (Server.getStorageId tx name) with
    | none => pure none
    | some id =>
      if ← call (.server (.hasStorage id)) then pure (some (.transactional id)) else throw (.session .outOfRange)

def createTable (tx : TransactionId) (name id : Bytes) : Program Unit := do
  lift (Server.addStorage tx name id)
  call (.createDirectory id)
  -- `Init` on the new directory
  io
  call (.server (.tryEmplace id))

/-- What `Lookup` finds: a version of a row, or what a system view makes up. -/
inductive Found
  | version (row : Row)
  | text (value : Bytes)
deriving DecidableEq

namespace Table

variable (tx : TransactionId)

def upsert (key value : Bytes) : Table → Program Unit
  | .transactional id => lift (Server.upsert tx id key value)
  | _ => throw (.session .mutationOnSystemView)

def delete (key : Bytes) : Table → Program Bool
  | .transactional id => lift (Server.delete tx id key)
  | _ => throw (.session .mutationOnSystemView)

def lookup (key : Bytes) : Table → Program (Option Found)
  | .sysTables => do
    let id ← lift (Server.getStorageId tx key)
    pure (id.map .text)
  | .sysTransactions =>
    match TransactionId.fromString key with
    | none => throw .invalidNumber
    | some n =>
      if n < 0 then pure none
      else do
        let status ← call (.getStatus n.toNat)
        pure (status.map fun s => .text s.text)
  | .transactional id => do
    let row ← lift (Server.lookup tx id key)
    pure (row.map .version)

def scan (range : ScanRange) : Table → Program (List (Bytes × Bytes))
  | .sysTables => scanCatalog tx range
  | .sysTransactions => throw .unimplemented
  | .transactional id => Service.scan tx id range

def compact (no : ℕ) : Table → Program Unit
  | .transactional id => Service.compact no id
  | _ => pure ()

end Table

def compactTable (no : ℕ) (tx : TransactionId) (name : Bytes) : Program Unit := do
  match ← getTable tx name with
  | none => pure ()
  | some table => table.compact no

def compactTables (no : ℕ) (tx : TransactionId) : List Bytes → Program Unit
  | [] => pure ()
  | name :: rest => do
    compactTable no tx name
    compactTables no tx rest

/-- `Compaction::Step` behind the start of its session. -/
def compactionStep (no : ℕ) (tx : TransactionId) : Program Unit := do
  let tables ← scanCatalog tx .fullScan
  compactTables no tx (tables.map Prod.fst)

end Session

/-- The requests, with the transaction they carry, and the job that has a session. -/
inductive Request
  | begin
  | commit (tx : TransactionId)
  | upsert (tx : Option TransactionId) (table key value : Bytes)
  | lookup (tx : Option TransactionId) (table key : Bytes)
  | delete (tx : Option TransactionId) (table key : Bytes)
  -- `id` is the uuid that the catalog draws
  | createTable (tx : Option TransactionId) (name id : Bytes)
  | dropTable (tx : Option TransactionId) (name : Bytes)
  | scan (tx : Option TransactionId) (table : Bytes) (lowerBound upperBound : Option Bytes)
  | compactTable (tx : Option TransactionId) (table : Bytes)
  | compaction
deriving DecidableEq

namespace Request

def tx : Request → Option TransactionId
  | .begin => none
  | .commit tx => some tx
  | .upsert tx _ _ _ => tx
  | .lookup tx _ _ => tx
  | .delete tx _ _ => tx
  | .createTable tx _ _ => tx
  | .dropTable tx _ => tx
  | .scan tx _ _ _ => tx
  | .compactTable tx _ => tx
  | .compaction => none

def mutates : Request → Bool
  | .upsert _ _ _ _ => true
  | .delete _ _ _ => true
  | .createTable _ _ _ => true
  | .dropTable _ _ => true
  | _ => false

def uuid : Request → Option Bytes
  | .createTable _ _ id => some id
  | _ => none

end Request

inductive Response
  | ok
  | begun (tx : TransactionId)
  | found (value : Option Found)
  | records (records : List (Bytes × Bytes))
  | noSuchTable
  | internal (e : Exception)
deriving DecidableEq

def Response.isOk : Response → Bool
  | .noSuchTable => false
  | .internal _ => false
  | _ => true

/-- `Session::Finish`, with the transaction that the request carries. -/
def finish (carried : Option TransactionId) (tx : TransactionId) : Program Unit :=
  match carried with
  | none => lift (Server.commit tx)
  | some _ => pure ()

def withTable (tx : TransactionId) (name : Bytes) (body : Table → Program Response) : Program Response := do
  match ← getTable tx name with
  | none => pure .noSuchTable
  | some table => body table

/-- A handler inside its `try`, in the session of `tx`. -/
def body (no : ℕ) (tx : TransactionId) : Request → Program Response
  | .begin => pure (.begun tx)
  | .commit carried => do
    lift (Server.commit tx)
    finish (some carried) tx
    pure .ok
  | .upsert carried table key value => withTable tx table fun t => do
    t.upsert tx key value
    finish carried tx
    pure .ok
  | .lookup carried table key => withTable tx table fun t => do
    let value ← t.lookup tx key
    finish carried tx
    pure (.found value)
  | .delete carried table key => withTable tx table fun t => do
    let _ ← t.delete tx key
    finish carried tx
    pure .ok
  | .createTable carried name id => do
    createTable tx name id
    finish carried tx
    pure .ok
  | .dropTable carried name => do
    lift (Server.dropTable tx name)
    finish carried tx
    pure .ok
  | .scan carried table lowerBound upperBound => withTable tx table fun t => do
    let records ← t.scan tx ⟨lowerBound, upperBound⟩
    finish carried tx
    pure (.records records)
  | .compactTable _ table => withTable tx table fun t => do
    t.compact no
    pure .ok
  | .compaction => do
    compactionStep no tx
    pure .ok

/-- `Database::Flush` on the storages in the order of the map. -/
def flushAll (no : ℕ) : List Bytes → Program Unit
  | [] => pure ()
  | id :: ids => do
    flush no id
    flushAll no ids

inductive Activity
  | session (request : Request) (tx : TransactionId)
  | rollback (tx : TransactionId)
  | flush (ids : List Bytes)
deriving DecidableEq

structure Thread where
  no : ℕ
  activity : Activity
deriving DecidableEq

def program (t : Thread) : Program Response :=
  match t.activity with
  | .session request tx => tryCatch (body t.no tx request) fun e => pure (.internal e)
  | .rollback tx => do
    lift (Server.rollback tx)
    pure .ok
  | .flush ids => do
    flushAll t.no ids
    pure .ok

def Thread.tx (t : Thread) : Option TransactionId :=
  match t.activity with
  | .session _ tx => some tx
  | .rollback tx => some tx
  | .flush _ => none

/-- `Session::Start`; `none` where it throws. -/
def startSession (s : Node) : Option TransactionId → Option (Node × TransactionId)
  | some tx => if s.context.txStorage.isStarted tx then some (s, tx) else none
  | none =>
    some ({ s with context := { s.context with txStorage := s.context.txStorage.begin.1 } },
      s.context.txStorage.begin.2)

inductive Action
  | request (request : Request)
  | rollback (tx : TransactionId)
  | flush (ids : List Bytes)
  | resume (thread : ℕ)
  | apply (event : Event)
  | restart (events : List Event)
deriving DecidableEq

end Service

abbrev Service :=
  Coroutine.Pool Node Service.Thread Service.Res Service.Wait Service.Exception Service.Response

namespace Service

open Coroutine

def start (node : Node) : Service := ⟨node, []⟩

def launch (o : Options) (s : Service) (node : Node) (activity : Activity) : Service :=
  Pool.launch (kernel o) program s node ⟨s.tasks.length, activity⟩

/-- The uuid of a new table has not been drawn before, and it is no reserved name. -/
def Request.Fresh (s : Node) (r : Request) : Prop := ∀ id ∈ r.uuid, id ∉ s.uuids ∧ id ∉ internalTables

instance (s : Node) (r : Request) : Decidable (r.Fresh s) := inferInstanceAs (Decidable (∀ id ∈ r.uuid, _))

/-- A request that is refused, or whose session does not start, does nothing. -/
def step (o : Options) (s : Service) : Action → Option Service
  | .request r =>
    if s.shared.readOnly && r.mutates then none
    else if r.Fresh s.shared then
      match startSession s.shared r.tx with
      | none => none
      | some (node, tx) => some (s.launch o { node with uuids := r.uuid.toList ++ node.uuids } (.session r tx))
    else none
  | .rollback tx =>
    if s.shared.context.txStorage.isStarted tx then some (s.launch o s.shared (.rollback tx)) else none
  | .flush ids => some (s.launch o s.shared (.flush ids))
  | .resume i => Pool.step (kernel o) program s (.resume i)
  | .apply event => some { s with shared := s.shared.apply o event }
  | .restart events => some (start (s.shared.restart o events))

end Service

end StructureDb
