import StructureDb.Spec.World
import StructureDb.Proofs.TableRows
import StructureDb.Proofs.Restart

/-! What the steps of a database do to its storages. A property of trees that every
tree operation keeps holds for every storage of every reachable database. -/

namespace StructureDb

/-- The logged records of one storage, in the order of the log. -/
def logOf (id : Bytes) (events : List Event) : List Row :=
  events.filterMap fun
    | .upsert id' seqNo key value => if id' = id then some ⟨key, seqNo, value⟩ else none
    | .commit _ => none

def commitsOf (events : List Event) : List TransactionId :=
  events.filterMap fun
    | .upsert _ _ _ _ => none
    | .commit tx => some tx

theorem logOf_append (id : Bytes) (es fs : List Event) : logOf id (es ++ fs) = logOf id es ++ logOf id fs :=
  List.filterMap_append

theorem logOf_singleton (id id' : Bytes) (seqNo : ℕ) (key : Bytes) (value : TransactionalValue) :
    logOf id' [.upsert id seqNo key value] = if id = id' then [⟨key, seqNo, value⟩] else [] := by
  unfold logOf
  split_ifs with h <;> simp [h]

theorem logOf_cons_self (id : Bytes) (seqNo : ℕ) (key : Bytes) (value : TransactionalValue) (es : List Event) :
    logOf id (.upsert id seqNo key value :: es) = ⟨key, seqNo, value⟩ :: logOf id es := by
  simp [logOf]

theorem logOf_cons_of_ne {id id' : Bytes} (h : id' ≠ id) (seqNo : ℕ) (key : Bytes) (value : TransactionalValue)
    (es : List Event) : logOf id (.upsert id' seqNo key value :: es) = logOf id es := by
  simp [logOf, h]

theorem mem_commitsOf {tx : TransactionId} {es : List Event} : tx ∈ commitsOf es ↔ .commit tx ∈ es := by
  rw [commitsOf, List.mem_filterMap]
  constructor
  · rintro ⟨e, he, h⟩
    cases e with
    | upsert id seqNo key value => cases h
    | commit t => exact Option.some.inj h ▸ he
  · exact fun h => ⟨_, h, rfl⟩

theorem mem_logOf {id : Bytes} {row : Row} {es : List Event} :
    row ∈ logOf id es ↔ .upsert id row.seqNo row.key row.value ∈ es := by
  rw [logOf, List.mem_filterMap]
  constructor
  · rintro ⟨e, he, h⟩
    cases e with
    | upsert id' seqNo key value =>
      simp only [Option.ite_none_right_eq_some, Option.some.injEq] at h
      obtain ⟨rfl, rfl⟩ := h
      exact he
    | commit t => cases h
  · exact fun h => ⟨_, h, by simp⟩

namespace Db

variable {o : Options}

@[simp] theorem setStorage_self (db : Db) (id : Bytes) (l : Lsm TransactionalValue) :
    (db.setStorage id l).storages id = some l := Function.update_self ..

theorem setStorage_of_ne (db : Db) {id id' : Bytes} (l : Lsm TransactionalValue) (h : id' ≠ id) :
    (db.setStorage id l).storages id' = db.storages id' := Function.update_of_ne h ..

theorem setStorage_isSome (db : Db) {id id' : Bytes} (l : Lsm TransactionalValue) :
    ((db.setStorage id l).storages id').isSome = true ↔ id' = id ∨ (db.storages id').isSome = true := by
  by_cases h : id' = id
  · subst h
    simp
  · rw [setStorage_of_ne _ _ h, or_iff_right h]

/-- Recovery of one storage is the replay of its own records. -/
theorem foldl_apply_storages (es : List Event) (db : Db) (id : Bytes) :
    (es.foldl (apply o) db).storages id =
      if logOf id es = [] then db.storages id
      else some (((db.storages id).getD (Lsm.init Dir.empty)).replay o (logOf id es)) := by
  induction es generalizing db with
  | nil => rfl
  | cons e es ih =>
    rw [List.foldl_cons, ih]
    cases e with
    | commit tx => rfl
    | upsert id' seqNo key value =>
      by_cases hid : id' = id
      · subst hid
        simp only [logOf_cons_self, apply, setStorage_self, Option.getD_some, reduceCtorEq, if_false]
        split_ifs with h
        · rw [h]
          rfl
        · rfl
      · simp only [logOf_cons_of_ne hid, apply, setStorage_of_ne _ _ (Ne.symm hid)]

theorem foldl_apply_txStorage (es : List Event) (db : Db) :
    (es.foldl (apply o) db).txStorage = (commitsOf es).foldl TxStorage.recoverFromLog db.txStorage := by
  induction es generalizing db with
  | nil => rfl
  | cons e es ih =>
    rw [List.foldl_cons, ih]
    cases e <;> rfl

theorem init_storages (dirs : Bytes → Option (Dir Bytes (List Row))) (wal : Dir Bytes (List Event)) (id : Bytes) :
    (init o dirs wal).storages id =
      if logOf id (Wal.events wal) = [] then openStorages dirs id
      else some (((openStorages dirs id).getD (Lsm.init Dir.empty)).replay o (logOf id (Wal.events wal))) :=
  foldl_apply_storages _ _ id

theorem init_txStorage (dirs : Bytes → Option (Dir Bytes (List Row))) (wal : Dir Bytes (List Event)) :
    (init o dirs wal).txStorage = (commitsOf (Wal.events wal)).foldl TxStorage.recoverFromLog TxStorage.empty :=
  foldl_apply_txStorage _ _

/-- What holds of all storages and of the new contents of one. -/
theorem storages_update_inv {P : Bytes → Lsm TransactionalValue → Prop} {f : Bytes → Option (Lsm TransactionalValue)}
    {id : Bytes} {m : Lsm TransactionalValue} (h : ∀ id l, f id = some l → P id l) (hm : P id m) :
    ∀ id' l, Function.update f id (some m) id' = some l → P id' l := by
  refine (Function.forall_update_iff f fun id' o => ∀ l, o = some l → P id' l).mpr ⟨?_, fun id' _ => h id'⟩
  intro l hl
  rw [← Option.some.inj hl]
  exact hm

theorem setStorage_inv {P : Bytes → Lsm TransactionalValue → Prop} {db : Db} {id : Bytes}
    {m : Lsm TransactionalValue} (h : ∀ id l, db.storages id = some l → P id l) (hm : P id m) :
    ∀ id' l, (db.setStorage id m).storages id' = some l → P id' l := storages_update_inv h hm

theorem addStorage_cases {db db' : Db} {id : Bytes} (ha : db.addStorage id = some db') :
    id ∉ internalTables ∧ db.storages id = none ∧ db' = db.setStorage id (Lsm.init Dir.empty) := by
  unfold addStorage at ha
  split_ifs at ha with hc
  obtain ⟨hid, hnone⟩ := not_or.mp hc
  exact ⟨hid, Option.not_isSome_iff_eq_none.mp hnone, (Option.some.inj ha).symm⟩

/-- A restart opens a tree on the files that are left and replays its records. -/
theorem restart_cases {db : Db} {id : Bytes} {l : Lsm TransactionalValue} (hl : (db.restart o).storages id = some l) :
    ∃ m, (m = Lsm.init Dir.empty ∨ ∃ k, db.storages id = some k ∧ m = Lsm.init k.dir) ∧
      l = m.replay o (logOf id (Wal.events db.wal.dir)) := by
  have hopen : ∀ m, openStorages db.dirs id = some m →
      m = Lsm.init Dir.empty ∨ ∃ k, db.storages id = some k ∧ m = Lsm.init k.dir := by
    intro m hm
    unfold openStorages dirs at hm
    rcases hs : db.storages id with _ | k <;> rw [hs] at hm <;> split_ifs at hm
    · exact Or.inl (Option.some.inj hm).symm
    · cases hm
    · exact Or.inr ⟨k, rfl, (Option.some.inj hm).symm⟩
    · exact Or.inr ⟨k, rfl, (Option.some.inj hm).symm⟩
  rw [restart, init_storages] at hl
  split_ifs at hl with hlog
  · exact ⟨l, hopen l hl, by rw [hlog]; rfl⟩
  · refine ⟨_, ?_, (Option.some.inj hl).symm⟩
    rcases ho : openStorages db.dirs id with _ | m
    · exact Or.inl rfl
    · exact hopen m ho

/-- An upsert puts into its tree and then logs the record. -/
theorem engineUpsert_cases {db db' : Db} {id key : Bytes} {value : TransactionalValue} {seqNo : ℕ}
    (he : db.engineUpsert o id key value = some (db', seqNo)) :
    ∃ l, db.storages id = some l ∧ seqNo = l.nextSeqNo ∧
      db' = ⟨(db.setStorage id (l.put o key value).1).storages, db.txStorage,
        db.wal.write (.upsert id seqNo key value)⟩ := by
  unfold engineUpsert at he
  rcases hl : db.storages id with _ | l <;> simp only [hl] at he
  · cases he
  · cases he
    exact ⟨l, rfl, rfl, rfl⟩

section StorageInv

variable {P : Bytes → Lsm TransactionalValue → Prop} {db db' : Db} {id : Bytes}

theorem engineUpsert_inv {key : Bytes} {value : TransactionalValue} {seqNo : ℕ}
    (he : db.engineUpsert o id key value = some (db', seqNo)) (h : ∀ id l, db.storages id = some l → P id l)
    (hput : ∀ l, db.storages id = some l → seqNo = l.nextSeqNo → P id (l.put o key value).1) :
    ∀ id l, db'.storages id = some l → P id l := by
  obtain ⟨l, hl, hseq, rfl⟩ := engineUpsert_cases he
  exact setStorage_inv h (hput l hl hseq)

theorem addStorage_inv (h : ∀ id l, db.storages id = some l → P id l) (ha : db.addStorage id = some db')
    (hempty : P id (Lsm.init Dir.empty)) : ∀ id l, db'.storages id = some l → P id l := by
  obtain ⟨-, -, rfl⟩ := addStorage_cases ha
  exact setStorage_inv h hempty

theorem flush_inv (h : ∀ id l, db.storages id = some l → P id l.flush) :
    ∀ id l, db.flush.storages id = some l → P id l := by
  intro id l hl
  obtain ⟨m, hm, rfl⟩ := Option.map_eq_some_iff.mp hl
  exact h id m hm

theorem compact_inv (h : ∀ id l, db.storages id = some l → P id l)
    (hc : ∀ l, db.storages id = some l → P id (TransactionalTable.compact db.txStorage l)) :
    ∀ id' l, (db.compact id).storages id' = some l → P id' l := by
  unfold Db.compact
  split
  · exact h
  · rename_i l hl
    exact setStorage_inv h (hc l hl)

end StorageInv

/-- A property of trees that every operation on a tree keeps. -/
structure TreeInv (o : Options) (P : Lsm TransactionalValue → Prop) : Prop where
  empty : P (Lsm.init Dir.empty)
  put : ∀ l key value, P l → P (l.put o key value).1
  putSeq : ∀ l seqNo key value, P l → P (l.putSeq o seqNo key value).1
  flush : ∀ l, P l → P l.flush
  compact : ∀ s l, P l → P (TransactionalTable.compact s l)
  reopen : ∀ l, P l → P (Lsm.init l.dir)

variable {P : Lsm TransactionalValue → Prop}

theorem TreeInv.replay (hP : TreeInv o P) (log : List Row) {l : Lsm TransactionalValue} (h : P l) :
    P (l.replay o log) := by
  induction log generalizing l with
  | nil => exact h
  | cons r log ih => exact ih (hP.putSeq l _ _ _ h)

theorem TreeInv.restart (hP : TreeInv o P) {db : Db} (h : ∀ id l, db.storages id = some l → P l) (id : Bytes)
    (l : Lsm TransactionalValue) (hl : (db.restart o).storages id = some l) : P l := by
  obtain ⟨m, hm, rfl⟩ := restart_cases hl
  refine hP.replay _ ?_
  rcases hm with rfl | ⟨k, hk, rfl⟩
  · exact hP.empty
  · exact hP.reopen k (h id k hk)

theorem TreeInv.step (hP : TreeInv o P) {db db' : Db} {op : Op} (h : ∀ id l, db.storages id = some l → P l)
    (hs : db.step o op = some db') : ∀ id l, db'.storages id = some l → P l := by
  cases op with
  | begin =>
    cases hs
    exact h
  | commit tx =>
    cases hs
    exact h
  | rollback tx =>
    cases hs
    exact h
  | lock tx key =>
    obtain ⟨s, -, rfl⟩ := Option.map_eq_some_iff.mp hs
    exact h
  | put id key value =>
    obtain ⟨⟨db1, n⟩, he, rfl⟩ := Option.map_eq_some_iff.mp hs
    exact engineUpsert_inv (P := fun _ => P) he h fun m hm _ => hP.put m key value (h id m hm)
  | addStorage id =>
    exact addStorage_inv (P := fun _ => P) h hs hP.empty
  | flush =>
    cases hs
    exact flush_inv (P := fun _ => P) fun id m hm => hP.flush m (h id m hm)
  | compact id =>
    cases hs
    exact compact_inv (P := fun _ => P) h fun m hm => hP.compact _ m (h id m hm)
  | clean =>
    cases hs
    exact h
  | restart =>
    cases hs
    exact hP.restart h

end Db

def Op.version (t : TransactionId) : Op → Option (Label × Bytes × Bytes × TransactionalValue)
  | .upsert h id key value => some (h, id, key, ⟨t, false, false, value⟩)
  | .delete h id key => some (h, id, key, ⟨t, true, false, []⟩)
  | .deleteFound h id key => some (h, id, key, ⟨t, true, false, []⟩)
  | _ => none

theorem Op.version_spec {op : Op} {t : TransactionId} {h : Label} {id key : Bytes} {value : TransactionalValue}
    (hv : op.version t = some (h, id, key, value)) :
    op.label = some h ∧ value.tx = t ∧ value.isFrozen = false := by
  cases op <;> cases hv <;> exact ⟨rfl, rfl, rfl⟩

def Op.FitsPage : Op → Prop
  | .upsert _ id key value => (Event.upsert id 0 key ⟨0, false, false, value⟩).size ≤ kWalPageSize
  | .delete _ id key => (Event.upsert id 0 key ⟨0, true, false, []⟩).size ≤ kWalPageSize
  | .deleteFound _ id key => (Event.upsert id 0 key ⟨0, true, false, []⟩).size ≤ kWalPageSize
  | _ => True

instance : (op : Op) → Decidable op.FitsPage
  | .upsert _ _ _ _ | .delete _ _ _ | .deleteFound _ _ _ => inferInstanceAs (Decidable (_ ≤ _))
  | .begin _ | .commit _ | .rollback _ | .addStorage _ | .flush | .compact _ | .clean | .restart => isTrue trivial

theorem Op.FitsPage.size_le {op : Op} (hf : op.FitsPage) {t : TransactionId} {h : Label} {id key : Bytes}
    {value : TransactionalValue} (hv : op.version t = some (h, id, key, value)) (seqNo : ℕ) :
    (Event.upsert id seqNo key value).size ≤ kWalPageSize := by
  cases op <;> cases hv <;> exact hf

namespace World

variable {o : Options}

/-- A write takes its lock and then puts the row. -/
theorem writeRow_cases {w w' : World} {h : Label} {id key : Bytes} {value : TransactionalValue}
    (hs : w.writeRow o h id key value = some w') :
    ∃ txStorage db seqNo, w.db.txStorage.acquireRowLock value.tx key = some txStorage ∧
      Db.engineUpsert o { w.db with txStorage } id key value = some (db, seqNo) ∧
      w' = { w with
        db, hist := .write h (id, key) value.payload :: w.hist
        written := (h, id, ⟨key, seqNo, value⟩) :: w.written } := by
  unfold writeRow Db.writeRow at hs
  rcases hl : w.db.txStorage.acquireRowLock value.tx key with _ | txStorage <;> simp only [hl] at hs
  · cases hs
  · rcases he : Db.engineUpsert o { w.db with txStorage } id key value with _ | ⟨db, seqNo⟩ <;> simp only [he] at hs
    · cases hs
    · cases hs
      exact ⟨txStorage, db, seqNo, rfl, he, rfl⟩

theorem writeRow_db {w w' : World} {h : Label} {id key : Bytes} {value : TransactionalValue}
    (hs : w.writeRow o h id key value = some w') :
    Machine.run (Db.step o) w.db (rowCalls id key value) = some w'.db := by
  obtain ⟨txStorage, db, seqNo, hl, he, rfl⟩ := writeRow_cases hs
  refine Machine.run_cons.mpr ⟨{ w.db with txStorage }, ?_, Machine.run_cons.mpr ⟨db, ?_, rfl⟩⟩
  · rw [Db.step, hl]
    rfl
  · rw [Db.step, he]
    rfl

inductive Effect (o : Options) (w : World) : Op → World → Prop
  | begin {h : Label} (fresh : h ∉ w.begun.map Prod.fst) :
      Effect o w (.begin h) { w with db := w.db.begin.1, begun := (h, w.db.txStorage.nextTxId) :: w.begun }
  | write {op : Op} {h : Label} {t : TransactionId} {id key : Bytes} {value : TransactionalValue} {w' : World}
      (version : op.version t = some (h, id, key, value)) (tx : w.tx h = some t)
      (found : op = .delete h id key → w.db.lookup t id key ≠ none)
      (written : w.writeRow o h id key value = some w') : Effect o w op w'
  | absent {h : Label} {t : TransactionId} {id key : Bytes} (tx : w.tx h = some t)
      (gone : w.db.lookup t id key = none) : Effect o w (.delete h id key) w
  | commit {h : Label} {t : TransactionId} (tx : w.tx h = some t) :
      Effect o w (.commit h) { w with db := w.db.commit t, hist := .commit h :: w.hist }
  | rollback {h : Label} {t : TransactionId} (tx : w.tx h = some t) :
      Effect o w (.rollback h) { w with db := w.db.rollback t, hist := .rollback h :: w.hist }
  | addStorage {id : Bytes} {db : Db} (added : w.db.addStorage id = some db) : Effect o w (.addStorage id) { w with db }
  | flush : Effect o w .flush { w with db := w.db.flush }
  | compact (id : Bytes) : Effect o w (.compact id) { w with db := w.db.compact id }
  | clean : Effect o w .clean { w with db := w.db.clean }
  | restart : Effect o w .restart { w with db := w.db.restart o }

theorem step_effect {w w' : World} {op : Op} (hs : w.step o op = some w') : Effect o w op w' := by
  cases op with
  | begin h =>
    simp only [step] at hs
    split_ifs at hs with hh
    cases hs
    exact .begin hh
  | upsert h id key value =>
    simp only [step] at hs
    split at hs
    · cases hs
    · rename_i t ht
      exact .write rfl ht (by simp) hs
  | delete h id key =>
    simp only [step] at hs
    split at hs
    · cases hs
    · rename_i t ht
      split_ifs at hs with hl
      · cases hs
        exact .absent ht hl
      · exact .write rfl ht (fun _ => hl) hs
  | deleteFound h id key =>
    simp only [step] at hs
    split at hs
    · cases hs
    · rename_i t ht
      exact .write rfl ht (by simp) hs
  | commit h =>
    simp only [step] at hs
    split at hs
    · cases hs
    · rename_i t ht
      cases hs
      exact .commit ht
  | rollback h =>
    simp only [step] at hs
    split at hs
    · cases hs
    · rename_i t ht
      cases hs
      exact .rollback ht
  | addStorage id =>
    simp only [step] at hs
    split at hs
    · cases hs
    · rename_i db hdb
      cases hs
      exact .addStorage hdb
  | flush =>
    cases hs
    exact .flush
  | compact id =>
    cases hs
    exact .compact id
  | clean =>
    cases hs
    exact .clean
  | restart =>
    cases hs
    exact .restart

theorem Effect.step {w w' : World} {op : Op} (he : Effect o w op w') : w.step o op = some w' := by
  cases he with
  | begin hh => exact if_neg hh
  | write hv ht hf hs =>
    cases op with
    | upsert h id key value =>
      cases hv
      simp only [World.step, ht, hs]
    | delete h id key =>
      cases hv
      simp only [World.step, ht, if_neg (hf rfl), hs]
    | deleteFound h id key =>
      cases hv
      simp only [World.step, ht, hs]
    | _ => cases hv
  | absent ht hl => simp only [World.step, ht, if_pos hl]
  | commit ht => simp only [World.step, ht]
  | rollback ht => simp only [World.step, ht]
  | addStorage hdb => simp only [World.step, hdb]
  | flush => rfl
  | compact id => rfl
  | clean => rfl
  | restart => rfl

theorem Effect.calls {w w' : World} {op : Op} (he : Effect o w op w') :
    Machine.run (Db.step o) w.db (w.calls op) = some w'.db := by
  cases he with
  | write hv ht hf hs =>
    have hdb := writeRow_db hs
    cases op with
    | upsert h id key value =>
      cases hv
      rwa [World.calls, ht]
    | delete h id key =>
      cases hv
      rw [World.calls, ht, Option.elim_some, if_neg (hf rfl)]
      exact hdb
    | deleteFound h id key =>
      cases hv
      rwa [World.calls, ht]
    | _ => cases hv
  | absent ht hl =>
    rw [World.calls, ht, Option.elim_some, if_pos hl]
    rfl
  | commit ht | rollback ht =>
    rw [World.calls, ht]
    rfl
  | addStorage hdb => exact Machine.run_cons.mpr ⟨_, hdb, rfl⟩
  | begin | flush | compact | clean | restart => rfl

theorem start_storages {id : Bytes} {l : Lsm TransactionalValue} (hl : (start o).db.storages id = some l) :
    l = Lsm.init Dir.empty := by
  have hopen : Db.openStorages (fun _ => none) id = some l := hl
  unfold Db.openStorages at hopen
  split_ifs at hopen
  · exact (Option.some.inj hopen).symm
  · cases hopen

/-- An invariant of the database steps is one of the world. -/
theorem run_db_inv {I : Db → Prop} (hstart : I (start o).db)
    (hstep : ∀ db op db', I db → db.step o op = some db' → I db') {ops : List Op} {w : World}
    (hr : Machine.run (step o) (start o) ops = some w) : I w.db := by
  refine Machine.run_inv (G := fun _ _ => True) (P := fun _ w => I w.db) hstart ?_
    (Machine.guarded_of_forall (fun _ _ _ => trivial) _) hr
  intro _ v op v' hv _ hs
  refine Machine.run_inv (G := fun _ _ => True) (P := fun _ db => I db) hv ?_
    (Machine.guarded_of_forall (fun _ _ _ => trivial) _) (step_effect hs).calls
  intro _ db dbOp db' hdb _ hs
  exact hstep db dbOp db' hdb hs

theorem run_tree_inv {P : Lsm TransactionalValue → Prop} (hP : Db.TreeInv o P) {ops : List Op} {w : World}
    (hr : Machine.run (step o) (start o) ops = some w) : ∀ id l, w.db.storages id = some l → P l := by
  refine run_db_inv (I := fun db => ∀ id l, db.storages id = some l → P l) ?_ ?_ hr
  · intro id l hl
    rw [start_storages hl]
    exact hP.empty
  · intro db op db' h hs
    exact hP.step h hs

end World

end StructureDb
