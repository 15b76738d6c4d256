import StructureDb.Spec.Requests
import StructureDb.Spec.Service

/-! The `sys_tables` view, the table a session opens by its name, and the histories in which tables are created and
dropped. -/

namespace StructureDb

namespace SysTables

variable (db : Db) (tx : TransactionId)

def lookup (key : Bytes) : Option Bytes := db.getStorageId tx key

/-- `Catalog::Scan`: the id of every row it gets, whatever the status in it. -/
def scan (lowerBound upperBound : Option Bytes) : List (Bytes × Bytes) :=
  (db.scan tx kSysTables lowerBound upperBound).map fun row => (row.1, (TableInfo.parse row.2).id)

end SysTables

/-- `Session::GetTable`; `none` is the null pointer, and `storages.at` may throw. -/
def Session.getTable (db : Db) (tx : TransactionId) (name : Bytes) : Except Server.Exception (Option Service.Table) :=
  if name = kSysTables then .ok (some .sysTables)
  else if name = kSysTransactions then .ok (some .sysTransactions)
  else
    match db.getStorageId tx name with
    | none => .ok none
    | some id => if (db.storages id).isSome then .ok (some (.transactional id)) else .error .outOfRange

namespace Catalog

/-- What sessions do. A `CreateTable` or `DropTable` that waits for the lock of its row goes on with what it read
before, and `id` is the one it draws or had read. -/
inductive Op
  | request (r : Request)
  | createFound (h : Label) (name id : Bytes)
  | dropFound (h : Label) (name id : Bytes)
  | rollback (h : Label)
deriving DecidableEq

def Op.ops (w : World) : Op → List StructureDb.Op
  | .request r => r.ops w
  | .createFound h name id =>
    if name ∈ internalTables then [] else [.upsert h kSysTables name (TableInfo.toBytes ⟨false, id⟩), .addStorage id]
  | .dropFound h name id =>
    if name ∈ internalTables then [] else [.upsert h kSysTables name (TableInfo.toBytes ⟨true, id⟩)]
  | .rollback h => [.rollback h]

def step (o : Options) (w : World) (op : Op) : Option World := Machine.run (World.step o) w (op.ops w)

end Catalog

end StructureDb
