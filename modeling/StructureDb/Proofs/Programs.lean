import StructureDb.Proofs.Sessions
import StructureDb.Spec.Service

/-! Which operations the threads of a process are made of: a thread reads, it maintains storages
under its own number, and it locks, writes and ends for its own transaction only. -/

namespace StructureDb.Service

open Coroutine

variable {A : Op → Prop} {no : ℕ} {tx : TransactionId} {id key name : Bytes}

theorem all_call {op : Op} (h : A op) : (call op).All A := Coro.all_perform h

theorem all_lift {α : Type} {c : Server.Program α} (h : c.All fun op => A (.server op)) :
    (lift c).All A := Coro.All.embed h

structure Reads (A : Op → Prop) : Prop where
  server : Server.Reads fun op => A (.server op)
  getStatus : ∀ tx, A (.getStatus tx)
  scanRange : ∀ id range, A (.scanRange id range)

namespace Reads

theorem io (h : Reads A) : Service.io.All A := all_call h.server.io

theorem getStorageId (h : Reads A) (tx : TransactionId) (name : Bytes) :
    (lift (Server.getStorageId tx name)).All A := by
  refine all_lift ((h.server.getTableInfo tx name).bind fun info => ?_)
  cases info <;> trivial

theorem getTable (h : Reads A) (tx : TransactionId) (name : Bytes) : (getTable tx name).All A := by
  unfold Service.getTable
  split_ifs
  · trivial
  · trivial
  · refine (h.getStorageId tx name).bind fun id => ?_
    cases id with
    | none => trivial
    | some id =>
      refine (all_call (h.server.hasStorage id)).bind fun b => ?_
      cases b <;> trivial

theorem listed (h : Reads A) (tx : TransactionId) (v : TransactionalValue) : (listed tx v).All A := by
  unfold Service.listed
  split_ifs
  · trivial
  · exact all_call (h.server.isCommited v.tx)

theorem scanRows (h : Reads A) (tx : TransactionId) (result : List (Bytes × Bytes)) (rows : List Row) :
    (scanRows tx result rows).All A := by
  induction rows generalizing result with
  | nil => trivial
  | cons row rest ih =>
    refine h.io.bind fun _ => (h.listed tx row.value).bind fun found => ?_
    split_ifs
    · exact ih result
    · exact ih result
    · exact ih _
    · exact ih result

theorem scan (h : Reads A) (tx : TransactionId) (id : Bytes) (range : ScanRange) : (scan tx id range).All A :=
  (all_call (h.scanRange id range)).bind fun rows => h.io.bind fun _ => h.scanRows tx [] rows

theorem scanCatalog (h : Reads A) (tx : TransactionId) (range : ScanRange) : (scanCatalog tx range).All A :=
  (h.scan tx kSysTables range).bind fun _ => trivial

theorem tableLookup (h : Reads A) (tx : TransactionId) (key : Bytes) (table : Table) : (table.lookup tx key).All A := by
  cases table with
  | sysTables => exact (h.getStorageId tx key).bind fun _ => trivial
  | sysTransactions =>
    unfold Table.lookup
    cases TransactionId.fromString key with
    | none => trivial
    | some n =>
      dsimp only
      split_ifs
      · trivial
      · exact (all_call (h.getStatus _)).bind fun _ => trivial
  | transactional id => exact (all_lift (h.server.lookup tx id key)).bind fun _ => trivial

theorem tableScan (h : Reads A) (tx : TransactionId) (range : ScanRange) (table : Table) :
    (table.scan tx range).All A := by
  cases table with
  | sysTables => exact h.scanCatalog tx range
  | sysTransactions => trivial
  | transactional id => exact h.scan tx id range

theorem compactRows (h : Reads A) (last : Option Bytes) (rows : List Row) : (compactRows last rows).All A := by
  induction rows generalizing last with
  | nil => trivial
  | cons row rest ih =>
    refine h.io.bind fun _ => ?_
    split
    · exact ih last
    · refine (all_call (h.getStatus _)).bind fun status => ?_
      split_ifs
      · exact ih last
      · exact h.io.bind fun _ => (ih (some row.key)).bind fun _ => trivial
      · exact ih last

end Reads

structure Maintains (A : Op → Prop) (no : ℕ) : Prop extends Reads A where
  tree : ∀ id, A (.tree id)
  lock : ∀ id, A (.lockMaintenance no id)
  unlock : ∀ id, A (.unlockMaintenance no id)
  writeTable : ∀ id table, A (.writeTable no id table)
  publishFlush : ∀ id table, A (.publishFlush no id table)
  publishCompact : ∀ id table, A (.publishCompact no id table)
  remove : ∀ id path, A (.remove no id path)

namespace Maintains

theorem removeFiles (h : Maintains A no) (id : Bytes) (paths : List Bytes) : (removeFiles no id paths).All A := by
  induction paths with
  | nil => trivial
  | cons path paths ih => exact (all_call (h.remove id path)).bind fun _ => ih

theorem onTree (h : Maintains A no) (id : Bytes) {body : Lsm TransactionalValue → Program Unit}
    (hbody : ∀ l, (body l).All A) : (onTree id body).All A := by
  refine (all_call (h.tree id)).bind fun l => ?_
  cases l with
  | none => trivial
  | some l => exact hbody l

theorem maintain (h : Maintains A no) (id : Bytes) {body : Lsm TransactionalValue → Program Unit}
    (hbody : ∀ l, (body l).All A) : (maintain no id body).All A :=
  (all_call (h.lock id)).bind fun _ => (h.onTree id hbody).bind fun _ => all_call (h.unlock id)

theorem compactTree (h : Maintains A no) (id : Bytes) (l : Lsm TransactionalValue) : (compactTree no id l).All A :=
  h.io.bind fun _ => (h.compactRows none _).bind fun _ => (all_call (h.writeTable id _)).bind fun _ =>
    (all_call (h.publishCompact id _)).bind fun _ => h.removeFiles id _

theorem flushFront (h : Maintains A no) (id : Bytes) (l : Lsm TransactionalValue) : (flushFront no id l).All A := by
  unfold Service.flushFront
  cases l.roMemTables with
  | nil => trivial
  | cons m rest => exact (all_call (h.writeTable id _)).bind fun _ => all_call (h.publishFlush id _)

theorem flushTables (h : Maintains A no) (id : Bytes) (pending : ℕ) : (flushTables no id pending).All A := by
  induction pending with
  | zero => trivial
  | succ pending ih => exact (h.onTree id (h.flushFront id)).bind fun _ => ih

theorem flushAll (h : Maintains A no) (ids : List Bytes) : (flushAll no ids).All A := by
  induction ids with
  | nil => trivial
  | cons id ids ih => exact (h.maintain id fun _ => h.flushTables id _).bind fun _ => ih

theorem tableCompact (h : Maintains A no) (table : Table) : (table.compact no).All A := by
  cases table with
  | sysTables => trivial
  | sysTransactions => trivial
  | transactional id => exact h.maintain id (h.compactTree id)

theorem compactTables (h : Maintains A no) (tx : TransactionId) (names : List Bytes) :
    (compactTables no tx names).All A := by
  induction names with
  | nil => trivial
  | cons name rest ih =>
    refine Coro.All.bind ((h.getTable tx name).bind fun table => ?_) fun _ => ih
    cases table with
    | none => trivial
    | some table => exact h.tableCompact table

theorem compactionStep (h : Maintains A no) (tx : TransactionId) : (compactionStep no tx).All A :=
  (h.scanCatalog tx .fullScan).bind fun _ => h.compactTables tx _

end Maintains

structure WritesFor (A : Op → Prop) (tx : TransactionId) : Prop extends Reads A where
  row : ∀ id key, Server.WritesRow (fun op => A (.server op)) tx id key

namespace WritesFor

theorem tableUpsert (h : WritesFor A tx) (key value : Bytes) (table : Table) : (table.upsert tx key value).All A := by
  cases table with
  | sysTables => trivial
  | sysTransactions => trivial
  | transactional id => exact all_lift ((h.row id key).upsert value)

theorem tableDelete (h : WritesFor A tx) (key : Bytes) (table : Table) : (table.delete tx key).All A := by
  cases table with
  | sysTables => trivial
  | sysTransactions => trivial
  | transactional id => exact all_lift (h.row id key).delete

theorem createTable (h : WritesFor A tx) (hdir : A (.createDirectory id)) (hnew : A (.server (.tryEmplace id))) :
    (createTable tx name id).All A :=
  (all_lift ((h.row kSysTables name).addStorage id)).bind fun _ => (all_call hdir).bind fun _ => h.io.bind fun _ =>
    all_call hnew

theorem dropTable (h : WritesFor A tx) : (lift (Server.dropTable tx name)).All A :=
  all_lift ((h.row kSysTables name).deleteStorage.handle fun _ => trivial)

end WritesFor

theorem all_withTable (h : Reads A) {body : Table → Program Response} (hbody : ∀ table, (body table).All A) :
    (withTable tx name body).All A := by
  refine (h.getTable tx name).bind fun table => ?_
  cases table with
  | none => trivial
  | some table => exact hbody table

def Request.ends : Request → Bool
  | .begin => false
  | .commit _ => true
  | .compactTable _ _ => false
  | .compaction => false
  | r => r.tx.isNone

def Request.maintains : Request → Bool
  | .compactTable _ _ => true
  | .compaction => true
  | _ => false

structure Handles (A : Op → Prop) (no : ℕ) (tx : TransactionId) (request : Request) : Prop where
  reads : Reads A
  writes : request.mutates = true → WritesFor A tx
  maintains : request.maintains = true → Maintains A no
  commit : request.ends = true → (lift (Server.commit tx)).All A
  creates : ∀ id, request.uuid = some id → A (.createDirectory id) ∧ A (.server (.tryEmplace id))

theorem all_finish {carried : Option TransactionId} (h : carried.isNone = true → (lift (Server.commit tx)).All A)
    {response : Response} : (finish carried tx >>= fun _ => (pure response : Program Response)).All A := by
  cases carried with
  | none => exact (h rfl).bind fun _ => trivial
  | some _ => trivial

theorem Handles.body {request : Request} (h : Handles A no tx request) : (body no tx request).All A := by
  have hcommit := h.commit
  cases request with
  | begin => trivial
  | commit carried => exact (hcommit rfl).bind fun _ => trivial
  | upsert carried table key value =>
    exact all_withTable h.reads fun t => ((h.writes rfl).tableUpsert key value t).bind fun _ => all_finish hcommit
  | lookup carried table key =>
    exact all_withTable h.reads fun t => (h.reads.tableLookup tx key t).bind fun _ => all_finish hcommit
  | delete carried table key =>
    exact all_withTable h.reads fun t => ((h.writes rfl).tableDelete key t).bind fun _ => all_finish hcommit
  | createTable carried name id =>
    obtain ⟨hdir, hnew⟩ := h.creates id rfl
    exact ((h.writes rfl).createTable hdir hnew).bind fun _ => all_finish hcommit
  | dropTable carried name => exact (h.writes rfl).dropTable.bind fun _ => all_finish hcommit
  | scan carried table lowerBound upperBound =>
    exact all_withTable h.reads fun t => (h.reads.tableScan tx _ t).bind fun _ => all_finish hcommit
  | compactTable carried table =>
    exact all_withTable h.reads fun t => ((h.maintains rfl).tableCompact t).bind fun _ => trivial
  | compaction => exact ((h.maintains rfl).compactionStep tx).bind fun _ => trivial

end StructureDb.Service
