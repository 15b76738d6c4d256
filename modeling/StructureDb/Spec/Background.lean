import StructureDb.Lib.Machine
import StructureDb.Spec.Lsm

/-! A tree in use, seen from outside as calls that run to their end, and step by
step: puts interleaved with the steps of the one background job that holds
`maintenance_mutex_`, and restarts that replay the logged puts. -/

namespace StructureDb

/-- How far the holder of `maintenance_mutex_` has come. -/
inductive Job (V : Type)
  | idle
  -- `Flush` at the head of its loop, then with the file written but not published
  | flush (pending : ℕ)
  | flushWritten (pending : ℕ) (t : SSTable V)
  -- `Compact` with its merge opened, with the new file written, and while old paths go
  | compact (paths : List Bytes) (t : SSTable V)
  | compactWritten (paths : List Bytes) (t : SSTable V)
  | remove (paths : List Bytes)

inductive Action (V : Type)
  | put (key : Bytes) (value : V)
  | beginFlush
  | beginCompact
  | advance
  | restart

variable {V : Type} [LinearOrder V]

namespace Lsm

inductive Call (V : Type)
  | put (key : Bytes) (value : V)
  | flush
  | compact (strategy : List (Record V) → List (Record V))

def call (o : Options) (l : Lsm V) : Call V → Lsm V
  | .put key value => (l.put o key value).1
  | .flush => l.flush
  | .compact strategy => l.compact strategy

def calls (o : Options) (l : Lsm V) (cs : List (Call V)) : Lsm V := cs.foldl (call o) l

end Lsm

structure Served (V : Type) [LinearOrder V] where
  lsm : Lsm V
  job : Job V
  log : List (Record V)

namespace Served

def start (dir : Dir Bytes (List (Record V))) : Served V := ⟨Lsm.init dir, .idle, []⟩

def copyRows (input : List (Record V)) : List (Record V) := input

def advance (s : Served V) : Option (Served V) :=
  match s.job with
  | .idle => none
  | .flush 0 => some { s with job := .idle }
  | .flush (pending + 1) =>
    match s.lsm.roMemTables with
    | [] => none
    | m :: _ =>
      let t := s.lsm.flushTable m
      some { s with lsm := s.lsm.writeTable t, job := .flushWritten pending t }
  | .flushWritten pending t => some { s with lsm := s.lsm.publishFlush t, job := .flush pending }
  | .compact paths t => some { s with lsm := s.lsm.writeTable t, job := .compactWritten paths t }
  | .compactWritten paths t => some { s with lsm := s.lsm.publishCompact t, job := .remove paths }
  | .remove [] => some { s with job := .idle }
  | .remove (path :: paths) => some { s with lsm := s.lsm.removeFiles [path], job := .remove paths }

def step (o : Options) (s : Served V) : Action V → Option (Served V)
  | .put key value =>
    let (lsm, seqNo) := s.lsm.put o key value
    some { s with lsm, log := s.log ++ [⟨key, seqNo, value⟩] }
  | .beginFlush =>
    match s.job with
    | .idle => some { s with job := .flush s.lsm.roMemTables.length }
    | _ => none
  | .beginCompact =>
    match s.job with
    | .idle => some { s with job := .compact s.lsm.filesToDelete (s.lsm.compactTable copyRows) }
    | _ => none
  | .advance => s.advance
  | .restart => some { s with lsm := (Lsm.init s.lsm.dir).replay o s.log, job := .idle }

end Served

end StructureDb
