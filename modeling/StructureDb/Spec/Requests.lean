import StructureDb.Spec.World

/-! The requests of clients, which name tables, and the background jobs, as the effects
they have in the state that serves them. A request without a transaction begins
one and commits it at its end: here it is a `begin`, the request and a `commit`,
or the `begin` alone where the table is unknown. -/

namespace StructureDb

namespace Catalog

/-- The row `AddStorage` writes for a table with the new id; `none` where it throws. -/
def addStorage (db : Db) (tx : TransactionId) (name id : Bytes) : Option Bytes :=
  if name ∈ internalTables then none
  else
    match db.getTableInfo tx name with
    | none => some (TableInfo.toBytes ⟨false, id⟩)
    | some info => if info.dropped then some (TableInfo.toBytes ⟨false, id⟩) else none

/-- The row `DeleteStorage` writes; `none` where it throws or there is nothing to drop. -/
def deleteStorage (db : Db) (tx : TransactionId) (name : Bytes) : Option Bytes :=
  if name ∈ internalTables then none
  else
    match db.getTableInfo tx name with
    | none => none
    | some info => if info.dropped then none else some (TableInfo.toBytes { info with dropped := true })

end Catalog

inductive Request
  | begin (h : Label)
  -- `id` is the uuid the catalog draws
  | createTable (h : Label) (name id : Bytes)
  | dropTable (h : Label) (name : Bytes)
  | upsert (h : Label) (table key value : Bytes)
  | delete (h : Label) (table key : Bytes)
  | commit (h : Label)
  | flush
  | compaction (h : Label)
  | clean
deriving DecidableEq

namespace Request

def compactOps (db : Db) (tx : TransactionId) : List Bytes → List Op
  | [] => []
  | name :: rest =>
    match db.getTable tx name with
    | none => compactOps db tx rest
    | some id => .compact id :: compactOps (db.compact id) tx rest

/-- The effects of a request; a request that fails has none. -/
def ops (w : World) : Request → List Op
  | .begin h => [.begin h]
  | .createTable h name id =>
    match (w.tx h).bind fun t => Catalog.addStorage w.db t name id with
    | none => []
    | some info => [.upsert h kSysTables name info, .addStorage id]
  | .dropTable h name =>
    match (w.tx h).bind fun t => Catalog.deleteStorage w.db t name with
    | none => []
    | some info => [.upsert h kSysTables name info]
  | .upsert h table key value =>
    match (w.tx h).bind fun t => w.db.getTable t table with
    | none => []
    | some id => [.upsert h id key value]
  | .delete h table key =>
    match (w.tx h).bind fun t => w.db.getTable t table with
    | none => []
    | some id => [.delete h id key]
  | .commit h => if w.tx h = none then [] else [.commit h]
  | .flush => [.flush]
  | .compaction h =>
    let (db, t) := w.db.begin
    .begin h :: compactOps db t ((db.scan t kSysTables none none).map Prod.fst)
  | .clean => [.clean]

def step (o : Options) (w : World) (r : Request) : Option World := Machine.run (World.step o) w (r.ops w)

end Request

def World.lookup (w : World) (h : Label) (table key : Bytes) : Option Bytes :=
  match w.tx h with
  | none => none
  | some t =>
    match w.db.getTable t table with
    | none => none
    | some id => w.db.lookup t id key

end StructureDb
