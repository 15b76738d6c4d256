import StructureDb.Spec.Cli
import StructureDb.Spec.Requests

/-! The clients of the database: sessions of the CLI, which execute commands in their `Context`. A program that uses
the client library does the same: `WithTransaction` is a `BEGIN`, the calls of the callback, and then a `COMMIT`, or a
`ROLLBACK` where the callback throws. A command goes under the transaction of the context if there is one; otherwise
the server begins a transaction for it and commits it at the end, unless the request fails. The transaction service
has no other calls than `Begin` and `Commit`, and `Transaction::Rollback` of the library is empty: nothing is sent. -/

namespace StructureDb

structure Clients where
  world : World
  -- the transaction of each context
  tx : ℕ → Option Label
  -- those on which `Rollback` was called
  rolledBack : List Label

namespace Clients

inductive Action
  -- `fresh` stands for the `Begin` call that the command makes, `id` is the uuid the catalog draws
  | execute (client : ℕ) (command : Cli.Command) (fresh : Label) (id : Bytes)
  | flush
  | compaction (fresh : Label)
  | clean
deriving DecidableEq

def start (o : Options) : Clients := ⟨World.start o, fun _ => none, []⟩

/-- The effects of a request on a table under a transaction; `none` where it fails. -/
def requestOps (w : World) (h : Label) (id : Bytes) : Cli.Command → Option (List Op)
  | .createTable tableName => nonempty ((Request.createTable h tableName id).ops w)
  | .dropTable tableName => nonempty ((Request.dropTable h tableName).ops w)
  | .upsert tableName key value => nonempty ((Request.upsert h tableName key value).ops w)
  | .delete tableName key => nonempty ((Request.delete h tableName key).ops w)
  | .lookup tableName _ | .scan tableName _ _ => (w.tx h).bind fun t => (w.db.getTable t tableName).map fun _ => []
  | .begin | .commit | .rollback => none
where
  nonempty (ops : List Op) : Option (List Op) := if ops.isEmpty then none else some ops

def autocommitOps (w : World) (fresh : Label) (id : Bytes) (command : Cli.Command) : List Op :=
  let begun := { w with db := w.db.begin.1, begun := (fresh, w.db.begin.2) :: w.begun }
  .begin fresh :: match requestOps begun fresh id command with
    | none => []
    | some ops => ops ++ [.commit fresh]

def ops (s : Clients) (client : ℕ) (fresh : Label) (id : Bytes) : Cli.Command → List Op
  | .begin => if s.tx client = none then [.begin fresh] else []
  | .commit => (s.tx client).elim [] fun h => (Request.commit h).ops s.world
  | .rollback => []
  | command =>
    match s.tx client with
    | some h => (requestOps s.world h id command).getD []
    | none => autocommitOps s.world fresh id command

/-- What a command does to the context; `COMMIT` leaves it where the call throws. -/
def setContext (s : Clients) (client : ℕ) (fresh : Label) : Cli.Command → Clients
  | .begin => if s.tx client = none then { s with tx := Function.update s.tx client (some fresh) } else s
  | .commit =>
    match s.tx client with
    | none => s
    | some h => if s.world.tx h = none then s else { s with tx := Function.update s.tx client none }
  | .rollback =>
    match s.tx client with
    | none => s
    | some h => { s with tx := Function.update s.tx client none, rolledBack := h :: s.rolledBack }
  | _ => s

def step (o : Options) (s : Clients) : Action → Option Clients
  | .execute client command fresh id =>
    (Machine.run (World.step o) s.world (s.ops client fresh id command)).map fun world =>
      { s.setContext client fresh command with world }
  | .flush => (Request.step o s.world .flush).map fun world => { s with world }
  | .compaction fresh => (Request.step o s.world (.compaction fresh)).map fun world => { s with world }
  | .clean => (Request.step o s.world .clean).map fun world => { s with world }

end Clients

end StructureDb
