import StructureDb.Lib.Coroutine
import StructureDb.Spec.Lsm

/-! A tree under concurrent calls. `Lsm::Put`, `Lsm::Get`, `Lsm::Flush` and `Lsm::Compact` are
coroutines that wait for `shared_mutex_`, for `maintenance_mutex_` and for the disk, where an
operation may throw. Every `co_await` on a file is a wait, also where a page is in the cache or
not full yet. -/

namespace StructureDb

inductive Mode
  | shared
  | exclusive
deriving DecidableEq

/-- `io::SharedMutex`: `state` is −1 while it is locked exclusively, otherwise the number of
shared locks. -/
structure SharedMutex where
  state : ℤ
  -- the timers of those who wait
  waiters : List ℕ
  -- the number of timers so far
  timers : ℕ
  -- the calls that have it locked, of which the source keeps no record
  owners : List (ℕ × Mode)
deriving DecidableEq

namespace SharedMutex

def unlocked : SharedMutex := ⟨0, [], 0, []⟩

/-- What `LockShared` and `LockExclusive` give to `TryLock`. -/
def predicate (m : SharedMutex) : Mode → Prop
  | .shared => 0 ≤ m.state
  | .exclusive => m.state = 0

instance (m : SharedMutex) : (mode : Mode) → Decidable (m.predicate mode)
  | .shared => inferInstanceAs (Decidable (0 ≤ m.state))
  | .exclusive => inferInstanceAs (Decidable (m.state = 0))

/-- What `LockShared` and `LockExclusive` do behind `TryLock`. -/
def locked (m : SharedMutex) (no : ℕ) (mode : Mode) : SharedMutex :=
  { m with
    state := match mode with
      | .shared => m.state + 1
      | .exclusive => -1
    owners := (no, mode) :: m.owners }

/-- One turn of the loop of `TryLock`, with the timer that is left to wait for. -/
def tryLock (m : SharedMutex) (no : ℕ) (mode : Mode) : SharedMutex × (Unit ⊕ ℕ) :=
  if m.predicate mode then (m.locked no mode, .inl ())
  else ({ m with waiters := m.waiters ++ [m.timers], timers := m.timers + 1 }, .inr m.timers)

/-- Every timer is cancelled; those who wait go on later. -/
def notifyWaiters (m : SharedMutex) : SharedMutex := { m with waiters := [] }

def unlock (m : SharedMutex) (no : ℕ) (mode : Mode) : SharedMutex :=
  notifyWaiters
    { m with
      state := match mode with
        | .shared => m.state - 1
        | .exclusive => 0
      owners := m.owners.erase (no, mode) }

end SharedMutex

inductive Mutex
  | shared
  | maintenance
deriving DecidableEq

/-- A tree with its mutexes, and what has happened to it. -/
structure SharedLsm (V : Type) [LinearOrder V] where
  lsm : Lsm V
  mutex : Mutex → SharedMutex
  -- which of the file operations to come throw
  faults : List Bool
  -- the calls of `Put` that have their number and are not over
  putting : List (ℕ × Record V)
  -- whether a `Put` has come to its number while another one was under way
  overlapped : Bool
  -- the records that have got a number, those that have come into the mem table, in this order, and those that have
  -- been in a published table
  drawn : List (Record V)
  entered : List (Record V)
  tabled : List (Record V)

namespace SharedLsm

open Coroutine

inductive Op (V : Type)
  -- `next_seq_no_++` in `Put`, and the test in `Put` with a number
  | assign (no : ℕ) (key : Bytes) (value : V)
  | accept (no : ℕ) (r : Record V)
  | lock (no : ℕ) (m : Mutex) (mode : Mode)
  | unlock (no : ℕ) (m : Mutex) (mode : Mode)
  -- what `DoPut` does under its lock
  | enter (r : Record V)
  -- the end of a `Put`, with what it adds to `next_seq_no_`
  | settle (no increment : ℕ)
  -- the tables as they are
  | tree
  | io
  | writeTable (t : SSTable V)
  | publishFlush (t : SSTable V)
  | publishCompact (t : SSTable V)
  | remove (path : Bytes)

variable {V : Type} [LinearOrder V]

/-- A file operation answers whether it has thrown. -/
abbrev Res : Op V → Type
  | .assign _ _ _ => ℕ
  | .accept _ _ => Bool
  | .tree => Lsm V
  | .io => Bool
  | .remove _ => Bool
  | _ => Unit

inductive Wait
  | timer (n : ℕ)
  | disk
deriving DecidableEq

def draw (s : SharedLsm V) (no : ℕ) (r : Record V) : SharedLsm V :=
  { s with
    putting := s.putting ++ [(no, r)]
    overlapped := s.overlapped || !s.putting.isEmpty
    drawn := s.drawn ++ [r] }

def tryLock (s : SharedLsm V) (no : ℕ) (m : Mutex) (mode : Mode) : SharedLsm V × (Unit ⊕ Wait) :=
  let (mutex, x) := (s.mutex m).tryLock no mode
  ({ s with mutex := Function.update s.mutex m mutex }, x.map id .timer)

def publish (s : SharedLsm V) (l : Lsm V) (t : SSTable V) : SharedLsm V :=
  { s with lsm := l, tabled := s.tabled ++ t.records }

def perform (o : Options) (s : SharedLsm V) : (op : Op V) → SharedLsm V × (Res op ⊕ Wait)
  | .assign no key value =>
    let s' := s.draw no ⟨key, s.lsm.nextSeqNo, value⟩
    ({ s' with lsm := { s.lsm with nextSeqNo := s.lsm.nextSeqNo + 1 } }, .inl s.lsm.nextSeqNo)
  | .accept no r => if r.seqNo ≠ s.lsm.nextSeqNo then (s, .inl false) else (s.draw no r, .inl true)
  | .lock no m mode => s.tryLock no m mode
  | .unlock no m mode => ({ s with mutex := Function.update s.mutex m ((s.mutex m).unlock no mode) }, .inl ())
  | .enter r => ({ s with lsm := s.lsm.doPut o r.seqNo r.key r.value, entered := s.entered ++ [r] }, .inl ())
  | .settle no increment =>
    ({ s with
      lsm := { s.lsm with nextSeqNo := s.lsm.nextSeqNo + increment }
      putting := s.putting.filter fun x => x.1 ≠ no }, .inl ())
  | .tree => (s, .inl s.lsm)
  | .io => (s, .inr .disk)
  | .writeTable t => ({ s with lsm := s.lsm.writeTable t }, .inl ())
  | .publishFlush t => (s.publish (s.lsm.publishFlush t) t, .inl ())
  | .publishCompact t => (s.publish (s.lsm.publishCompact t) t, .inl ())
  | .remove _ => (s, .inr .disk)

def wake (s : SharedLsm V) : (op : Op V) → Wait → Option (SharedLsm V × (Res op ⊕ Wait))
  | .lock no m mode, .timer n => if n ∈ (s.mutex m).waiters then none else some (s.tryLock no m mode)
  | .io, .disk => some ({ s with faults := s.faults.tail }, .inl (s.faults.headD false))
  | .remove path, .disk =>
    if s.faults.headD false then some ({ s with faults := s.faults.tail }, .inl true)
    else some ({ s with faults := s.faults.tail, lsm := s.lsm.removeFiles [path] }, .inl false)
  | _, _ => none

def kernel (o : Options) : Kernel (SharedLsm V) (Res (V := V)) Wait := ⟨perform o, wake⟩

inductive Exception
  | file
deriving DecidableEq

abbrev Program (V : Type) [LinearOrder V] := Coro (Res (V := V)) Exception

def call (op : Op V) : Program V (Res op) := Coro.perform op

def lockShared (no : ℕ) (m : Mutex) : Program V Unit := call (.lock no m .shared)

def lockExclusive (no : ℕ) (m : Mutex) : Program V Unit := call (.lock no m .exclusive)

def unlockShared (no : ℕ) (m : Mutex) : Program V Unit := call (.unlock no m .shared)

def unlockExclusive (no : ℕ) (m : Mutex) : Program V Unit := call (.unlock no m .exclusive)

def io : Program V Unit := do
  if ← call .io then throw .file

def ios : ℕ → Program V Unit
  | 0 => pure ()
  | n + 1 => do
    io
    ios n

section Put

def doPut (no : ℕ) (r : Record V) : Program V Unit := do
  lockExclusive no .shared
  call (.enter r)
  unlockExclusive no .shared

def put (no : ℕ) (key : Bytes) (value : V) : Program V ℕ := do
  let seqNo ← call (.assign no key value)
  doPut no ⟨key, seqNo, value⟩
  call (.settle no 0)
  pure seqNo

def putSeq (no : ℕ) (r : Record V) : Program V Bool := do
  if ← call (.accept no r) then
    doPut no r
    call (.settle no 1)
    pure true
  else pure false

end Put

section Get

/-- An iterator of one table; one over an ss table loads pages. -/
structure Source (V : Type) where
  onDisk : Bool
  records : List (Record V)

def Source.load (x : Source V) : Program V Unit := if x.onDisk then io else pure ()

def advance : Source V → List (Source V) → Program V (Source V × List (Source V))
  | ⟨_, []⟩, next :: pending => do
    next.load
    advance next pending
  | current, pending => pure (current, pending)

/-- The tables in the order in which `GetNextIterator` opens them. -/
def sources (l : Lsm V) (key : Bytes) : List (Source V) :=
  l.roMemTables.reverse.map (fun m => ⟨false, m.scan (.only key)⟩) ++
    l.ssTables.reverse.map fun t => ⟨true, t.scan (.only key)⟩

def first (l : Lsm V) (key : Bytes) : Program V (Option (Record V)) := do
  let (current, pending) ← advance ⟨false, l.memTable.scan (.only key)⟩ (sources l key)
  match current.records with
  | [] => pure none
  | r :: rest => do
    current.load
    let _ ← advance ⟨current.onDisk, rest⟩ pending
    pure (some r)

def get (no : ℕ) (key : Bytes) : Program V (Option V) := do
  lockShared no .shared
  let l ← call .tree
  let record ← first l key
  unlockShared no .shared
  pure (record.map Record.value)

end Get

section Maintenance

/-- A builder over its records, with what comes before and behind: `CreateFileWriter`, the header, `Add`, the last page
and the header in `Finish`, `CreateFileReader` and the header in `SSTable::Create`. -/
def buildTable (t : SSTable V) : Program V Unit := do
  ios 2
  ios t.records.length
  ios 2
  call (.writeTable t)
  ios 2

def flushFront (no : ℕ) : Program V Unit := do
  let l ← call .tree
  match l.roMemTables with
  | [] => pure ()
  | m :: _ => do
    buildTable (l.flushTable m)
    lockExclusive no .shared
    call (.publishFlush (l.flushTable m))
    unlockExclusive no .shared

def flushTables (no : ℕ) : ℕ → Program V Unit
  | 0 => pure ()
  | pending + 1 => do
    flushFront no
    flushTables no pending

def flush (no : ℕ) : Program V Unit := do
  lockExclusive no .maintenance
  lockShared no .shared
  let l ← call .tree
  unlockShared no .shared
  flushTables no l.roMemTables.length
  unlockExclusive no .maintenance

def removeFiles : List Bytes → Program V Unit
  | [] => pure ()
  | path :: paths => do
    if ← call (.remove path) then throw .file
    removeFiles paths

/-- Every table is opened, its records are read through the merge, and the strategy gives some of them
to the builder. -/
def compact (no : ℕ) (strategy : List (Record V) → List (Record V)) : Program V Unit := do
  lockExclusive no .maintenance
  let l ← call .tree
  ios l.ssTables.length
  ios l.mergedRecords.length
  buildTable (l.compactTable strategy)
  lockExclusive no .shared
  call (.publishCompact (l.compactTable strategy))
  unlockExclusive no .shared
  removeFiles l.filesToDelete
  unlockExclusive no .maintenance

end Maintenance

inductive Call (V : Type)
  | put (key : Bytes) (value : V)
  | putSeq (r : Record V)
  | get (key : Bytes)
  | flush
  | compact (strategy : List (Record V) → List (Record V))

structure Caller (V : Type) where
  no : ℕ
  call : Call V

inductive Answer (V : Type)
  | seqNo (n : ℕ)
  | accepted (b : Bool)
  | value (v : Option V)
  | done
deriving DecidableEq

def program (c : Caller V) : Program V (Answer V) :=
  match c.call with
  | .put key value => do
    let n ← put c.no key value
    pure (.seqNo n)
  | .putSeq r => do
    let b ← putSeq c.no r
    pure (.accepted b)
  | .get key => do
    let v ← get c.no key
    pure (.value v)
  | .flush => do
    flush c.no
    pure .done
  | .compact strategy => do
    compact c.no strategy
    pure .done

abbrev CallPool (V : Type) [LinearOrder V] := Pool (SharedLsm V) (Caller V) (Res (V := V)) Wait Exception (Answer V)

/-- A call comes and runs to its first wait, or one that waits goes on. -/
inductive Action (V : Type)
  | call (c : Call V)
  | resume (i : ℕ)

def start (dir : Dir Bytes (List (Record V))) (faults : List Bool) : CallPool V :=
  { shared :=
      { lsm := Lsm.init dir
        mutex := fun _ => .unlocked
        faults
        putting := []
        overlapped := false
        drawn := []
        entered := []
        tabled := [] }
    tasks := [] }

def step (o : Options) (p : CallPool V) : Action V → Option (CallPool V)
  | .call c => some (p.launch (kernel o) program p.shared ⟨p.tasks.length, c⟩)
  | .resume i => Pool.step (kernel o) program p (.resume i)

end SharedLsm

end StructureDb
