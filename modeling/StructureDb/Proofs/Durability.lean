import StructureDb.Spec.Requests
import StructureDb.Proofs.Isolation
import StructureDb.Proofs.Reopened
import StructureDb.Proofs.Within

/-! Committed data across a crash. A version that everybody reads is read again after
the restart if it is frozen, or if the commit event of its transaction is still in
the log; and the reader must not be given the id of a transaction that was in
flight. The steps keep this as long as they are secure. -/

namespace StructureDb

namespace Db

def CommitStays (db : Db) (tx : TransactionId) : Prop :=
  ∃ f ∈ db.wal.dir.files, f.1 ∉ db.obsoleteSegments ∧ .commit tx ∈ f.2

instance (db : Db) (tx : TransactionId) : Decidable (db.CommitStays tx) :=
  inferInstanceAs (Decidable (∃ f ∈ db.wal.dir.files, f.1 ∉ db.obsoleteSegments ∧ .commit tx ∈ f.2))

/-- Not the first id after a restart: some commit event has this id or a greater one, or the id is neither the
initial one nor next to one that has committed. -/
def NotReissued (db : Db) (tx : TransactionId) : Prop :=
  (∃ c ∈ commitsOf (Wal.events db.wal.dir), tx ≤ c) ∨
    tx ≠ TxStorage.kInitialTxId ∧ ∀ c ∈ commitsOf (Wal.events db.wal.dir), tx ≠ c + 1

instance (db : Db) (tx : TransactionId) : Decidable (db.NotReissued tx) := inferInstanceAs (Decidable (_ ∨ _))

theorem Durable.nextTxId_ne {o : Options} {db : Db} {events : List Event} (h : db.Durable events)
    (hno : db.wal.currentSegmentNo < 10000) {tx : TransactionId} (hn : db.NotReissued tx) :
    tx ≠ (db.restart o).txStorage.nextTxId := by
  intro he
  have hnext := h.restart_nextTxId (o := o) hno
  obtain ⟨hinit, hlt⟩ := (hnext _).mp le_rfl
  rw [← he] at hinit hlt
  unfold NotReissued at hn
  simp only [h.wal_events hno, mem_commitsOf] at hn
  rcases hn with ⟨c, hc, hle⟩ | ⟨hne, hsucc⟩
  · exact absurd (hlt c hc) (not_lt.mpr hle)
  -- otherwise the recovered id would be smaller
  · have hpos : TxStorage.kInitialTxId < tx := lt_of_le_of_ne hinit hne.symm
    have hle := (hnext (tx - 1)).mpr ⟨Nat.le_sub_one_of_lt hpos, fun c hc =>
      Nat.lt_sub_of_add_lt (lt_of_le_of_ne (hlt c hc) (hsucc c hc).symm)⟩
    rw [← he] at hle
    exact absurd hle (not_le.mpr (Nat.sub_one_lt (Nat.ne_zero_of_lt hpos)))

end Db

namespace World

variable {o : Options}

def touched (w : World) : List (Bytes × Bytes) := w.written.map fun p => (p.2.1, p.2.2.key)

def Secure (w : World) : Op → Prop
  | .flush => ∀ k ∈ w.touched, ∀ l ∈ w.db.storages k.1, l.FlushSafe
  | .compact id => w.db.CompactHarmless id ∧ w.db.Careful (.compact id)
  | .clean => w.db.Careful .clean ∧ ∀ k ∈ w.touched, ∀ row ∈ (w.db.rows k.1 k.2).find? w.db.txStorage.seen,
      row.value.isFrozen = true ∨ w.db.CommitStays row.value.tx
  | .restart => False
  | op => op.FitsPage

instance (w : World) : (op : Op) → Decidable (w.Secure op)
  | .flush => inferInstanceAs (Decidable (∀ k ∈ w.touched, ∀ l ∈ w.db.storages k.1, l.FlushSafe))
  | .compact id => inferInstanceAs (Decidable (w.db.CompactHarmless id ∧ w.db.Careful (.compact id)))
  | .clean => inferInstanceAs (Decidable (w.db.Careful .clean ∧ ∀ k ∈ w.touched,
      ∀ row ∈ (w.db.rows k.1 k.2).find? w.db.txStorage.seen,
        row.value.isFrozen = true ∨ w.db.CommitStays row.value.tx))
  | .restart => isFalse id
  | .begin h => inferInstanceAs (Decidable (Op.begin h).FitsPage)
  | .upsert h id key value => inferInstanceAs (Decidable (Op.upsert h id key value).FitsPage)
  | .delete h id key => inferInstanceAs (Decidable (Op.delete h id key).FitsPage)
  | .deleteFound h id key => inferInstanceAs (Decidable (Op.deleteFound h id key).FitsPage)
  | .commit h => inferInstanceAs (Decidable (Op.commit h).FitsPage)
  | .rollback h => inferInstanceAs (Decidable (Op.rollback h).FitsPage)
  | .addStorage id => inferInstanceAs (Decidable (Op.addStorage id).FitsPage)

def CrashSafe (w : World) : Prop :=
  w.db.Careful .restart ∧ ∀ k ∈ w.touched, ∀ row ∈ w.db.rows k.1 k.2, w.db.NotReissued row.value.tx

instance (w : World) : Decidable w.CrashSafe := inferInstanceAs (Decidable (_ ∧ _))

structure Kept (w : World) (events : List Event) : Prop where
  inv : w.Inv
  durable : w.db.Durable events
  numbered : ∀ id l, w.db.storages id = some l → l.Numbered
  touched : ∀ id l, w.db.storages id = some l → l.Within fun row => (id, row.key) ∈ w.touched
  commits : ∀ t, .commit t ∈ events → w.db.txStorage.isCommited t = true ∧ t < w.db.txStorage.nextTxId
  seen : ∀ id key row, (w.db.rows id key).find? w.db.txStorage.seen = some row →
    row.value.isFrozen = true ∨ .commit row.value.tx ∈ events

theorem Secure.calm {w : World} {op : Op} (h : w.Secure op) : w.Calm op := by
  cases op with
  | compact id => exact h.1
  | restart => exact h
  | _ => trivial

theorem start_kept (o : Options) : (start o).Kept [] := by
  refine ⟨start_inv o, Db.start_durable o, ?_, ?_, by simp, ?_⟩
  · intro id l hl
    rw [start_storages hl]
    exact Lsm.numbered_empty
  · intro id l hl
    rw [start_storages hl]
    exact Lsm.within_empty
  · intro id key row hrow
    rw [start_rows] at hrow
    cases hrow

namespace Kept

variable {w w' : World} {events : List Event}

theorem mem_touched (h : w.Kept events) {id key : Bytes} {row : Row} (hrow : row ∈ w.db.rows id key) :
    (id, key) ∈ w.touched := by
  rcases hl : w.db.storages id with _ | l
  · rw [Db.rows_of_none hl] at hrow
    cases hrow
  · rw [Db.rows_of_some hl, List.mem_filter, decide_eq_true_eq] at hrow
    obtain ⟨hrow, rfl⟩ := hrow
    exact (h.touched id l hl).records row hrow

/-- A storage that was never written to has nothing to flush. -/
theorem flushSafe (h : w.Kept events) (hs : w.Secure .flush) {id : Bytes} {l : Lsm TransactionalValue}
    (hl : w.db.storages id = some l) : l.FlushSafe := by
  rcases hro : l.roMemTables with _ | ⟨m, rest⟩
  · exact Or.inl hro
  · have hm : m ∈ l.roMemTables := by rw [hro]; exact List.mem_cons_self
    obtain ⟨row, hrow⟩ := List.exists_mem_of_ne_nil _ ((h.durable.trees id l hl).frozen m hm)
    have hrec : row ∈ l.records :=
      List.mem_flatten.mpr ⟨m.impl, Lsm.mem_levels.mpr (Or.inr (Or.inl ⟨m, hm, rfl⟩)), hrow⟩
    exact hs _ ((h.touched id l hl).records row hrec) l hl

theorem begin (hw : w.Kept events) {h : Label} (hi : World.Inv
    { w with db := w.db.begin.1, begun := (h, w.db.txStorage.nextTxId) :: w.begun }) :
    Kept { w with db := w.db.begin.1, begun := (h, w.db.txStorage.nextTxId) :: w.begun } events := by
  refine ⟨hi, hw.durable.congr rfl rfl, hw.numbered, hw.touched, ?_, ?_⟩
  · intro t ht
    obtain ⟨hc, hlt⟩ := hw.commits t ht
    refine ⟨?_, hlt.trans (Nat.lt_succ_self _)⟩
    rw [TxStorage.isCommited_iff] at hc ⊢
    exact (TxStorage.begin_txStatus_of_ne hlt.ne).trans hc
  · intro id key row hrow
    refine hw.seen id key row ?_
    rw [← hrow]
    refine List.find?_congr fun r hr => (TxStorage.seen_congr ?_).symm
    exact TxStorage.begin_txStatus_of_ne (hw.inv.refines.bounded id key r hr).ne

theorem write (hw : w.Kept events) {h : Label} {t : TransactionId} {id key : Bytes} {value : TransactionalValue}
    (ht : w.tx h = some t) (hv : value.tx = t) (hf : value.isFrozen = false)
    (hsize : ∀ n, (Event.upsert id n key value).size ≤ kWalPageSize) (hs : w.writeRow o h id key value = some w')
    (hi : w'.Inv) :
    ∃ seqNo, w'.Kept (events ++ [.upsert id seqNo key value]) := by
  obtain ⟨txStorage, db, seqNo, hl, hu, rfl⟩ := writeRow_cases hs
  obtain ⟨-, hnext, hstatus, -⟩ := TxStorage.acquireRowLock_spec hl
  have hord : Db.Ordered { w.db with txStorage } := hw.inv.ordered
  have hdur : Db.Durable { w.db with txStorage } events := hw.durable.congr rfl rfl
  obtain ⟨-, htx, hrows⟩ := Db.engineUpsert_spec hord hu
  have hseen : txStorage.seen = w.db.txStorage.seen := funext fun row => TxStorage.seen_congr (by rw [hstatus])
  refine ⟨seqNo, hi, hdur.put (hsize seqNo) hu, ?_, ?_, ?_, ?_⟩
  · exact Db.engineUpsert_inv (P := fun _ => Lsm.Numbered) hu hw.numbered fun l hl _ =>
      (hw.numbered id l hl).put o key value
  · have hold : ∀ id' m, w.db.storages id' = some m →
        m.Within fun row => (id', row.key) ∈ (id, key) :: w.touched := fun id' m hm =>
      (hw.touched id' m hm).mono fun _ => List.mem_cons_of_mem _
    exact Db.engineUpsert_inv (P := fun id' m => m.Within fun row => (id', row.key) ∈ (id, key) :: w.touched) hu hold
      fun l hl _ => (hold id l hl).put o key value List.mem_cons_self
  · intro t' ht'
    have ht' : .commit t' ∈ events := by simpa using ht'
    obtain ⟨hc, hlt⟩ := hw.commits t' ht'
    dsimp only
    rw [htx, TxStorage.isCommited, hstatus, hnext]
    exact ⟨hc, hlt⟩
  · intro id' key' row hrow
    dsimp only at hrow
    rw [hrows, htx] at hrow
    have hnew : txStorage.seen ⟨key, seqNo, value⟩ = false := by
      rw [hseen, TxStorage.seen, hf, hv, TxStorage.not_committed_of_started (txOf_eq_some.mp ht).2]
      rfl
    have hrow' : (w.db.rows id' key').find? w.db.txStorage.seen = some row := by
      rw [← hrow, hseen]
      split_ifs
      · rw [List.find?_cons_of_neg (by rw [← hseen, hnew]; simp)]
        rfl
      · rfl
    exact (hw.seen id' key' row hrow').imp_right fun hm => List.mem_append_left _ hm

theorem commit (hw : w.Kept events) {h : Label} {t : TransactionId} (ht : w.tx h = some t)
    (hi : World.Inv { w with db := w.db.commit t, hist := .commit h :: w.hist }) :
    Kept { w with db := w.db.commit t, hist := .commit h :: w.hist } (events ++ [.commit t]) := by
  refine ⟨hi, hw.durable.commit t, hw.numbered, hw.touched, ?_, ?_⟩
  · intro t' ht'
    dsimp only [Db.commit]
    rw [TxStorage.isCommited_iff, TxStorage.releaseAllLocks_txStatus]
    by_cases he : t' = t
    · rw [he, TxStorage.setStatus_txStatus_self]
      exact ⟨rfl, hw.inv.refines.tx_lt ht⟩
    · have ht' : .commit t' ∈ events := by simpa [he] using ht'
      rw [TxStorage.setStatus_txStatus_of_ne _ he]
      exact ⟨TxStorage.isCommited_iff.mp (hw.commits t' ht').1, (hw.commits t' ht').2⟩
  · intro id key row hrow
    dsimp only [Db.commit] at hrow
    rw [funext Refines.seen_commit] at hrow
    have hrow : (w.db.rows id key).find? (fun row => TransactionalTable.visible w.db.txStorage t row.value) =
        some row := hrow
    by_cases hown : row.value.tx = t
    · rw [hown]
      exact Or.inr (List.mem_append_right _ (List.mem_singleton.mpr rfl))
    -- the first version that `t` reads is not its own, so it is the first that everybody reads
    · have hseen : w.db.txStorage.seen row = true := by
        have hvis := List.find?_some hrow
        rw [TxStorage.visible_eq] at hvis
        simpa [hown] using hvis
      have hfirst : (w.db.rows id key).find? w.db.txStorage.seen = some row := by
        rw [← hrow]
        refine FirstOf.find?_eq_of_first ?_ ?_
        · intro r _ hr
          rw [TxStorage.visible_eq, hr, Bool.true_or]
        · intro r hr
          rwa [← Option.some.inj (hrow.symm.trans hr)]
      exact (hw.seen id key row hfirst).imp_right fun hm => List.mem_append_left _ hm

theorem rollback (hw : w.Kept events) {h : Label} {t : TransactionId} (ht : w.tx h = some t)
    (hi : World.Inv { w with db := w.db.rollback t, hist := .rollback h :: w.hist }) :
    Kept { w with db := w.db.rollback t, hist := .rollback h :: w.hist } events := by
  have hstarted := (txOf_eq_some.mp ht).2
  refine ⟨hi, hw.durable.congr rfl rfl, hw.numbered, hw.touched, ?_, ?_⟩
  · intro t' ht'
    obtain ⟨hc, hlt⟩ := hw.commits t' ht'
    have hne : t' ≠ t := by
      rintro rfl
      rw [TxStorage.not_committed_of_started hstarted] at hc
      cases hc
    refine ⟨?_, hlt⟩
    rw [TxStorage.isCommited_iff] at hc ⊢
    exact (TxStorage.setStatus_txStatus_of_ne _ hne).trans hc
  · intro id key row hrow
    refine hw.seen id key row ?_
    rw [← Refines.seen_rollback hstarted]
    exact hrow

theorem addStorage (hw : w.Kept events) {id : Bytes} {db : Db} (hdb : w.db.addStorage id = some db)
    (hi : World.Inv { w with db }) : Kept { w with db } events := by
  obtain ⟨-, htx, hrows⟩ := Db.addStorage_spec hw.inv.ordered hdb
  refine ⟨hi, hw.durable.addStorage hdb,
    Db.addStorage_inv (P := fun _ => Lsm.Numbered) hw.numbered hdb Lsm.numbered_empty,
    Db.addStorage_inv (P := fun id' m => m.Within fun row => (id', row.key) ∈ w.touched) hw.touched hdb
      Lsm.within_empty, ?_, ?_⟩
  · dsimp only
    rw [htx]
    exact hw.commits
  · intro id' key row hrow
    dsimp only at hrow
    rw [htx, hrows] at hrow
    exact hw.seen id' key row hrow

theorem flush (hw : w.Kept events) (hs : w.Secure .flush) (hi : World.Inv { w with db := w.db.flush }) :
    Kept { w with db := w.db.flush } events := by
  refine ⟨hi, hw.durable.flush, ?_, ?_, hw.commits, ?_⟩
  · exact Db.flush_inv (P := fun _ => Lsm.Numbered) fun id m hm => (hw.numbered id m hm).flush (hw.flushSafe hs hm)
  · exact Db.flush_inv (P := fun id' m => m.Within fun row => (id', row.key) ∈ w.touched)
      fun id m hm => (hw.touched id m hm).flush
  · intro id key row hrow
    dsimp only at hrow
    rw [Db.flush_rows] at hrow
    exact hw.seen id key row hrow

theorem compact (hw : w.Kept events) {id : Bytes} (hs : w.Secure (.compact id))
    (hi : World.Inv { w with db := w.db.compact id }) : Kept { w with db := w.db.compact id } events := by
  have hrows := Db.compact_rows hw.inv.ordered id
  refine ⟨hi, hw.durable.compact hs.2, ?_, ?_, ?_, ?_⟩
  · exact Db.compact_inv (P := fun _ => Lsm.Numbered) hw.numbered fun l hl => (hw.numbered id l hl).compact _
  · refine Db.compact_inv (P := fun id' m => m.Within fun row => (id', row.key) ∈ w.touched) hw.touched fun l hl => ?_
    refine (hw.touched id l hl).compact ?_
    intro rows hall row hrow
    obtain ⟨old, hold, rfl⟩ := TransactionalTable.mem_compactRows hrow
    rw [TransactionalTable.freezeRow_key]
    exact hall old hold
  · dsimp only
    rw [Db.compact_txStorage]
    exact hw.commits
  · intro id' key row hrow
    dsimp only at hrow
    rw [Db.compact_txStorage, hrows] at hrow
    split_ifs at hrow
    · rcases afterCompact_seen hrow with hf | hrow
      · exact Or.inl hf
      · exact hw.seen id' key row hrow
    · exact hw.seen id' key row hrow

theorem clean (hw : w.Kept events) (hs : w.Secure .clean) (hi : World.Inv { w with db := w.db.clean }) :
    ∃ events', Kept { w with db := w.db.clean } events' := by
  obtain ⟨events', hdur, hsub⟩ := hw.durable.clean hs.1
  refine ⟨events', hi, hdur, hw.numbered, hw.touched, fun t ht => hw.commits t (hsub _ ht), ?_⟩
  intro id key row hrow
  have htouched := hw.mem_touched (List.mem_of_find?_eq_some hrow)
  refine (hs.2 _ htouched row hrow).imp_right ?_
  rintro ⟨f, hf, hstays, he⟩
  exact hdur.mem_events.mpr ⟨f, Dir.mem_unlinkAll.mpr ⟨hf, hstays⟩, he⟩

end Kept

theorem Effect.kept {w w' : World} {op : Op} {events : List Event} (he : Effect o w op w') (hw : w.Kept events)
    (hs : w.Secure op) : ∃ events', w'.Kept events' := by
  have hi := he.inv hw.inv hs.calm
  cases he with
  | begin hh => exact ⟨events, hw.begin hi⟩
  | write hv ht _ hrow =>
    obtain ⟨-, htx, hf⟩ := Op.version_spec hv
    have hfits : op.FitsPage := by cases op <;> cases hv <;> exact hs
    obtain ⟨seqNo, hk⟩ := hw.write ht htx hf (hfits.size_le hv) hrow hi
    exact ⟨_, hk⟩
  | absent => exact ⟨events, hw⟩
  | commit ht => exact ⟨_, hw.commit ht hi⟩
  | rollback ht => exact ⟨events, hw.rollback ht hi⟩
  | addStorage hdb => exact ⟨events, hw.addStorage hdb hi⟩
  | flush => exact ⟨events, hw.flush hs hi⟩
  | compact id => exact ⟨events, hw.compact hs hi⟩
  | clean => exact hw.clean hs hi
  | restart => exact hs.elim

theorem Kept.run {w w' : World} {ops : List Op} (hw : ∃ events, w.Kept events)
    (hg : Machine.Guarded (step o) Secure w ops) (hr : Machine.run (step o) w ops = some w') :
    ∃ events, w'.Kept events :=
  Machine.run_inv (P := fun _ w => ∃ events, w.Kept events) hw
    (fun _ _ _ _ ⟨_, hv⟩ hs hstep => (step_effect hstep).kept hv hs) hg hr

/-- After a crash a new transaction looks up what is committed. -/
theorem Kept.lookup_restart {w : World} {events : List Event} (hw : w.Kept events) (hc : w.CrashSafe) (id key : Bytes) :
    (w.db.restart o).begin.1.lookup (w.db.restart o).begin.2 id key = (TxMap.committed (id, key) w.hist).join := by
  have hno : w.db.wal.currentSegmentNo < 10000 := hc.1
  obtain ⟨hord, hrows⟩ := hw.durable.restart_rows (o := o) hno hw.inv.ordered hw.numbered
  have hord' : (w.db.restart o).begin.1.Ordered := hord
  have hrows' : (w.db.restart o).begin.1.rows id key = w.db.rows id key := hrows id key
  have hforeign : ∀ row ∈ w.db.rows id key, row.value.tx ≠ (w.db.restart o).txStorage.nextTxId := fun row hrow =>
    hw.durable.nextTxId_ne hno (hc.2 _ (hw.mem_touched hrow) row hrow)
  have hseen : ∀ row ∈ w.db.rows id key, (w.db.restart o).txStorage.begin.1.seen row = true ↔
      row.value.isFrozen = true ∨ .commit row.value.tx ∈ events := by
    intro row hrow
    rw [TxStorage.seen_congr (TxStorage.begin_txStatus_of_ne (hforeign row hrow)), TxStorage.seen, Bool.or_eq_true,
      TxStorage.isCommited_iff, hw.durable.restart_txStatus hno]
    simp
  rw [Db.lookup_eq_rows hord', hrows', ← hw.inv.refines.committed id key]
  have hfirst : (w.db.rows id key).find? (w.db.restart o).txStorage.begin.1.seen =
      (w.db.rows id key).find? w.db.txStorage.seen := by
    refine FirstOf.find?_eq_of_first ?_ ?_
    · intro row hrow hs
      rw [TxStorage.seen, Bool.or_eq_true]
      exact ((hseen row hrow).mp hs).imp_right fun he => (hw.commits _ he).1
    · intro row hrow
      exact (hseen row (List.mem_of_find?_eq_some hrow)).mpr (hw.seen id key row hrow)
  rw [← hfirst]
  exact congrArg (fun r => Option.bind r _) (Refines.firstVisible_of_foreign hforeign)

end World

def committedTable (hist : List HistEvent) (name : Bytes) : Option Bytes :=
  if name = kSysTables ∨ name = kSysTransactions then none
  else
    match (TxMap.committed (kSysTables, name) hist).join.map TableInfo.parse with
    | none => none
    | some info => if info.dropped then none else some info.id

def committedValue (hist : List HistEvent) (table key : Bytes) : Option Bytes :=
  match committedTable hist table with
  | none => none
  | some id => (TxMap.committed (id, key) hist).join

namespace Request

variable {o : Options}

theorem run_compactOps (names : List Bytes) (w : World) (tx : TransactionId) :
    Machine.run (World.step o) w (compactOps w.db tx names) = some { w with db := w.db.compactTables tx names } := by
  induction names generalizing w with
  | nil => rfl
  | cons name names ih =>
    rw [compactOps, Db.compactTables]
    rcases w.db.getTable tx name with _ | id
    · exact ih w
    · exact ih { w with db := w.db.compact id }

/-- The compaction job does what `Compaction::Step` does. -/
theorem step_compaction {w : World} {h : Label} (hh : h ∉ w.begun.map Prod.fst) :
    step o w (.compaction h) =
      some { w with db := w.db.compactionStep.1, begun := (h, w.db.compactionStep.2) :: w.begun } :=
  Machine.run_cons.mpr ⟨_, if_neg hh, run_compactOps _ _ _⟩

def Secure (o : Options) (w : World) (r : Request) : Prop := Machine.Guarded (World.step o) World.Secure w (r.ops w)

instance (o : Options) (w : World) (r : Request) : Decidable (r.Secure o w) :=
  inferInstanceAs (Decidable (Machine.Guarded ..))

theorem run_kept {rs : List Request} {w : World} (hg : Machine.Guarded (step o) (fun w r => r.Secure o w) (.start o) rs)
    (hr : Machine.run (step o) (.start o) rs = some w) : ∃ events, w.Kept events :=
  Machine.run_inv (P := fun _ w => ∃ events, w.Kept events) ⟨[], World.start_kept o⟩
    (fun _ _ _ _ hv hs hstep => World.Kept.run hv hs hstep) hg hr

end Request

end StructureDb
