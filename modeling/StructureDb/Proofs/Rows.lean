import StructureDb.Proofs.Locks
import StructureDb.Proofs.DbSteps

/-! The versions of a key in a database, newest first, and what each step does to
them while the trees are ordered. -/

namespace StructureDb

namespace Db

variable {o : Options}

def memRows (db : Db) (id key : Bytes) : List Row :=
  match db.storages id with
  | none => []
  | some l => l.memRecords.filter fun row => row.key = key

def ssRows (db : Db) (id key : Bytes) : List Row :=
  match db.storages id with
  | none => []
  | some l => l.ssRecords.filter fun row => row.key = key

def rows (db : Db) (id key : Bytes) : List Row := db.memRows id key ++ db.ssRows id key

def Ordered (db : Db) : Prop := ∀ id l, db.storages id = some l → l.Ordered

theorem rows_of_some {db : Db} {id : Bytes} {l : Lsm TransactionalValue} (hl : db.storages id = some l) (key : Bytes) :
    db.rows id key = l.records.filter fun row => row.key = key := by
  rw [rows, memRows, ssRows, hl, l.records_eq, List.filter_append]

theorem rows_of_none {db : Db} {id : Bytes} (hl : db.storages id = none) (key : Bytes) : db.rows id key = [] := by
  rw [rows, memRows, ssRows, hl]
  rfl

theorem lookup_eq_rows {db : Db} (h : db.Ordered) (t : TransactionId) (id key : Bytes) :
    db.lookup t id key =
      (TransactionalTable.firstVisible db.txStorage t (db.rows id key)).bind fun row => row.value.payload := by
  unfold lookup
  rcases hl : db.storages id with _ | l
  · rw [rows_of_none hl]
    rfl
  · dsimp only
    rw [rows_of_some hl, TransactionalTable.lookup, TransactionalTable.lookupRows_eq,
      Lsm.scanKey_eq_filter (h id l hl).sorted]

/-- A put adds its row above the others of its key. -/
theorem engineUpsert_spec {db db' : Db} {id key : Bytes} {value : TransactionalValue} {seqNo : ℕ} (h : db.Ordered)
    (he : db.engineUpsert o id key value = some (db', seqNo)) :
    db'.Ordered ∧ db'.txStorage = db.txStorage ∧
      ∀ id' key', db'.rows id' key' =
        if id' = id ∧ key' = key then ⟨key, seqNo, value⟩ :: db.rows id' key' else db.rows id' key' := by
  have hord : db'.Ordered := engineUpsert_inv (P := fun _ => Lsm.Ordered) he h fun l hl _ =>
    Lsm.put_ordered o (h id l hl) key value
  obtain ⟨l, hl, rfl, hdb⟩ := engineUpsert_cases he
  have hlo := h id l hl
  refine ⟨hord, by rw [hdb], ?_⟩
  intro id' key'
  by_cases hid : id' = id
  · subst hid
    have hnew : db'.storages id' = some (l.put o key value).1 := by
      rw [hdb]
      exact setStorage_self ..
    rw [rows_of_some hnew, rows_of_some hl]
    refine (Lsm.doPut_filter o { l with nextSeqNo := l.nextSeqNo + 1 } l.nextSeqNo key value hlo le_rfl key').trans ?_
    by_cases hk : key' = key
    · rw [if_pos hk.symm, if_pos ⟨rfl, hk⟩]
      rfl
    · rw [if_neg (Ne.symm hk), if_neg fun hc => hk hc.2]
      rfl
  · have hold : db'.storages id' = db.storages id' := by
      rw [hdb]
      exact setStorage_of_ne _ _ hid
    rw [if_neg fun hc => hid hc.1]
    unfold rows memRows ssRows
    rw [hold]

theorem flush_ordered {db : Db} (h : db.Ordered) : db.flush.Ordered :=
  flush_inv (P := fun _ => Lsm.Ordered) fun id m hm => Lsm.flush_ordered (h id m hm)

theorem flush_rows (db : Db) (id key : Bytes) : db.flush.rows id key = db.rows id key := by
  rcases hl : db.storages id with _ | l
  · have hn : db.flush.storages id = none := by simp [flush, hl]
    rw [rows_of_none hl, rows_of_none hn]
  · have hs : db.flush.storages id = some l.flush := by simp [flush, hl]
    rw [rows_of_some hl, rows_of_some hs, Lsm.records, Lsm.flush_levels, Lsm.records]

theorem addStorage_spec {db db' : Db} {id : Bytes} (h : db.Ordered) (hs : db.addStorage id = some db') :
    db'.Ordered ∧ db'.txStorage = db.txStorage ∧ ∀ id' key, db'.rows id' key = db.rows id' key := by
  have hord : db'.Ordered := addStorage_inv (P := fun _ => Lsm.Ordered) h hs (LevelsOk.nil _).empty_cons
  obtain ⟨-, hnone, rfl⟩ := addStorage_cases hs
  refine ⟨hord, rfl, ?_⟩
  intro id' key
  by_cases hid : id' = id
  · subst hid
    rw [rows_of_none hnone, rows_of_some (setStorage_self ..)]
    rfl
  · unfold rows memRows ssRows
    rw [setStorage_of_ne _ _ hid]

theorem compact_ordered {db : Db} (h : db.Ordered) (id : Bytes) : (db.compact id).Ordered :=
  compact_inv (P := fun _ => Lsm.Ordered) h fun l hl =>
    Lsm.compact_ordered (h id l hl) (TransactionalTable.compactRows_strategyOk _)

theorem compact_txStorage (db : Db) (id : Bytes) : (db.compact id).txStorage = db.txStorage := by
  unfold Db.compact
  split <;> rfl

/-- A compaction leaves of the rows in tables the first that it does not skip. -/
theorem compact_rows {db : Db} (h : db.Ordered) (id id' key : Bytes) :
    (db.compact id).rows id' key =
      if id' = id then db.memRows id' key ++
        ((db.ssRows id' key).find? (TransactionalTable.kept db.txStorage)).toList.map
          (TransactionalTable.freezeRow db.txStorage)
      else db.rows id' key := by
  by_cases hid : id' = id
  · subst hid
    rw [if_pos rfl]
    rcases hl : db.storages id' with _ | l
    · have hc : db.compact id' = db := by simp only [Db.compact, hl]
      rw [hc, rows_of_none hl, memRows, ssRows, hl]
      rfl
    · have hlo := h id' l hl
      have hc : (db.compact id').storages id' = some (TransactionalTable.compact db.txStorage l) := by
        simp only [Db.compact, hl, setStorage_self]
      rw [rows_of_some hc, memRows, ssRows, hl, TransactionalTable.compact, Lsm.compact_records, List.filter_append,
        TransactionalTable.compactRows_filter _ (Lsm.mergedRecords_sorted hlo.ssTables_sorted),
        hlo.mergedRecords_filter]
  · rw [if_neg hid]
    have hsame : (db.compact id).storages id' = db.storages id' := by
      unfold Db.compact
      split
      · rfl
      · exact setStorage_of_ne _ _ hid
    unfold rows memRows ssRows
    rw [hsame]

end Db

end StructureDb
