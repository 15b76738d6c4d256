import StructureDb.Lib.Machine
import StructureDb.Lib.TxMap
import StructureDb.Spec.Database

/-! A database with its clients. Every `Begin` call is known by a label that survives
restarts; `hist` is what the clients did, newest first, and `written` the rows
they wrote. The steps are the effects of requests once their row lock is granted,
and the background jobs. -/

namespace StructureDb

abbrev Label := ℕ

/-- What clients did, on keys of storages; the payload of a delete is `none`. -/
abbrev HistEvent := TxMap.Event Label (Bytes × Bytes) (Option Bytes)

inductive Op
  | begin (h : Label)
  | upsert (h : Label) (id key value : Bytes)
  | delete (h : Label) (id key : Bytes)
  -- the rest of a `Delete` that had found the key and then waited for its lock
  | deleteFound (h : Label) (id key : Bytes)
  | commit (h : Label)
  | rollback (h : Label)
  | addStorage (id : Bytes)
  | flush
  | compact (id : Bytes)
  | clean
  | restart
deriving DecidableEq

def Op.label : Op → Option Label
  | .begin h => some h
  | .upsert h _ _ _ => some h
  | .delete h _ _ => some h
  | .deleteFound h _ _ => some h
  | .commit h => some h
  | .rollback h => some h
  | _ => none

structure World where
  db : Db
  begun : List (Label × TransactionId)
  hist : List HistEvent
  written : List (Label × Bytes × Row)

/-- The transaction a label may use: `Session::Start` checks that it is started. -/
def txOf (s : TxStorage) (begun : List (Label × TransactionId)) (h : Label) : Option TransactionId :=
  match begun.lookup h with
  | none => none
  | some t => if s.isStarted t then some t else none

namespace World

def start (o : Options) : World := ⟨Db.init o (fun _ => none) Dir.empty, [], [], []⟩

def tx (w : World) (h : Label) : Option TransactionId := txOf w.db.txStorage w.begun h

def writeRow (o : Options) (w : World) (h : Label) (id key : Bytes) (value : TransactionalValue) : Option World :=
  match w.db.writeRow o id key value with
  | none => none
  | some (db, seqNo) =>
    some { w with
      db
      hist := .write h (id, key) value.payload :: w.hist
      written := (h, id, ⟨key, seqNo, value⟩) :: w.written }

def step (o : Options) (w : World) : Op → Option World
  | .begin h =>
    if h ∈ w.begun.map Prod.fst then none
    else
      let (db, t) := w.db.begin
      some { w with db, begun := (h, t) :: w.begun }
  | .upsert h id key value =>
    match w.tx h with
    | none => none
    | some t => w.writeRow o h id key ⟨t, false, false, value⟩
  | .delete h id key =>
    match w.tx h with
    | none => none
    | some t =>
      if w.db.lookup t id key = none then some w
      else w.writeRow o h id key ⟨t, true, false, []⟩
  | .deleteFound h id key =>
    match w.tx h with
    | none => none
    | some t => w.writeRow o h id key ⟨t, true, false, []⟩
  | .commit h =>
    match w.tx h with
    | none => none
    | some t => some { w with db := w.db.commit t, hist := .commit h :: w.hist }
  | .rollback h =>
    match w.tx h with
    | none => none
    | some t => some { w with db := w.db.rollback t, hist := .rollback h :: w.hist }
  | .addStorage id =>
    match w.db.addStorage id with
    | none => none
    | some db => some { w with db }
  | .flush => some { w with db := w.db.flush }
  | .compact id => some { w with db := w.db.compact id }
  | .clean => some { w with db := w.db.clean }
  | .restart => some { w with db := w.db.restart o }

def rowCalls (id key : Bytes) (value : TransactionalValue) : List Db.Op := [.lock value.tx key, .put id key value]

/-- The operations of the database that a request comes to. -/
def calls (w : World) : Op → List Db.Op
  | .begin _ => [.begin]
  | .upsert h id key value => (w.tx h).elim [] fun t => rowCalls id key ⟨t, false, false, value⟩
  | .delete h id key =>
    (w.tx h).elim [] fun t => if w.db.lookup t id key = none then [] else rowCalls id key ⟨t, true, false, []⟩
  | .deleteFound h id key => (w.tx h).elim [] fun t => rowCalls id key ⟨t, true, false, []⟩
  | .commit h => (w.tx h).elim [] fun t => [.commit t]
  | .rollback h => (w.tx h).elim [] fun t => [.rollback t]
  | .addStorage id => [.addStorage id]
  | .flush => [.flush]
  | .compact id => [.compact id]
  | .clean => [.clean]
  | .restart => [.restart]

end World

end StructureDb
