import StructureDb.Proofs.ByteDatabase
import StructureDb.Proofs.Visibility
import StructureDb.Proofs.Refinement
import StructureDb.Proofs.WalSteps
import StructureDb.Proofs.Within

/-! Where the versions come from. As long as `Begin` hands out no id twice, every version
of a storage, of its files and of the log belongs to one `Begin` call, and what a
transaction is shown is its own or committed; also after any number of restarts. -/

namespace StructureDb

namespace World

open TransactionalTable

variable {o : Options} {w w' : World} {op : Op}

def Committed (w : World) (t : TransactionId) : Prop := ∃ g, (g, t) ∈ w.begun ∧ .commit g ∈ w.hist

theorem Committed.mono {t : TransactionId} (h : w.Committed t) (hb : w.begun ⊆ w'.begun) (hh : w.hist ⊆ w'.hist) :
    w'.Committed t :=
  let ⟨g, hg, hc⟩ := h
  ⟨g, hb hg, hh hc⟩

/-- Every version and every commit, in memory or in a file, is the doing of one `Begin` call. -/
structure Traced (w : World) : Prop where
  ids : (w.begun.map Prod.snd).Nodup
  stored : ∀ id l, w.db.storages id = some l → l.Within fun row => ∃ g, (g, id, row) ∈ w.written
  logged : ∀ id row, .upsert id row.seqNo row.key row.value ∈ Wal.events w.db.wal.dir →
    ∃ g, (g, id, row) ∈ w.written
  written : ∀ g id row, (g, id, row) ∈ w.written → row.value.isFrozen = false ∧ (g, row.value.tx) ∈ w.begun
  committed : ∀ t, w.db.txStorage.isCommited t = true → w.Committed t
  loggedCommit : ∀ t, .commit t ∈ Wal.events w.db.wal.dir → w.Committed t

/-- `Begin` hands out an id that was not handed out before; and there is no compaction. -/
def FreshId (w : World) : Op → Prop
  | .begin _ => w.db.txStorage.nextTxId ∉ w.begun.map Prod.snd
  | .compact _ => False
  | _ => True

instance (w : World) : (op : Op) → Decidable (w.FreshId op)
  | .begin _ => inferInstanceAs (Decidable (_ ∉ _))
  | .compact _ => isFalse id
  | .upsert _ _ _ _ | .delete _ _ _ | .deleteFound _ _ _ | .commit _ | .rollback _ | .addStorage _ | .flush | .clean
  | .restart => isTrue trivial

theorem start_traced (o : Options) : (start o).Traced := by
  have hempty : ∀ e, e ∉ Wal.events (start o).db.wal.dir := by
    intro e he
    have hm : e ∈ Wal.events Dir.empty := Wal.mem_events_init he
    cases hm
  refine ⟨List.nodup_nil, ?_, ?_, ?_, ?_, ?_⟩
  · intro id l hl
    rw [start_storages hl]
    exact Lsm.within_empty
  · intro id row hm
    exact absurd hm (hempty _)
  · intro g id row hm
    cases hm
  · intro t ht
    cases ht
  · intro t hm
    exact absurd hm (hempty _)

theorem tx_mem {h : Label} {t : TransactionId} (ht : w.tx h = some t) : (h, t) ∈ w.begun :=
  mem_of_lookup (txOf_eq_some.mp ht).1

theorem Traced.begin (hw : w.Traced) {h : Label} (hid : w.db.txStorage.nextTxId ∉ w.begun.map Prod.snd) :
    Traced { w with db := w.db.begin.1, begun := (h, w.db.txStorage.nextTxId) :: w.begun } := by
  have hb := List.subset_cons_self (h, w.db.txStorage.nextTxId) w.begun
  refine ⟨List.nodup_cons.mpr ⟨hid, hw.ids⟩, hw.stored, hw.logged, ?_, ?_,
    fun t ht => (hw.loggedCommit t ht).mono hb (List.Subset.refl _)⟩
  · intro g id row hm
    obtain ⟨h1, h2⟩ := hw.written g id row hm
    exact ⟨h1, List.mem_cons_of_mem _ h2⟩
  · intro t ht
    refine (hw.committed t ?_).mono hb (List.Subset.refl _)
    rw [TxStorage.isCommited_iff] at ht ⊢
    by_cases he : t = w.db.txStorage.nextTxId
    · have hself := TxStorage.begin_txStatus_self w.db.txStorage
      rw [he] at ht
      exact absurd (hself.symm.trans ht) (by simp)
    · exact (TxStorage.begin_txStatus_of_ne he).symm.trans ht

theorem Traced.write (hw : w.Traced) {h : Label} {id key : Bytes} {value : TransactionalValue}
    (ht : w.tx h = some value.tx) (hf : value.isFrozen = false) (hs : w.writeRow o h id key value = some w') :
    w'.Traced := by
  obtain ⟨s, db, n, hl, hu, rfl⟩ := writeRow_cases hs
  have hstored : ∀ id' m, db.storages id' = some m → m.Within fun row =>
      ∃ g, (g, id', row) ∈ (h, id, (⟨key, n, value⟩ : Row)) :: w.written := by
    have hold : ∀ id' m, w.db.storages id' = some m → m.Within fun row =>
        ∃ g, (g, id', row) ∈ (h, id, (⟨key, n, value⟩ : Row)) :: w.written := fun id' m hm =>
      (hw.stored id' m hm).mono fun row ⟨g, hg⟩ => ⟨g, List.mem_cons_of_mem _ hg⟩
    refine Db.engineUpsert_inv hu hold fun l hl hn => ?_
    exact (hold id l hl).put o key value ⟨h, hn ▸ List.mem_cons_self⟩
  obtain ⟨l, hid, rfl, rfl⟩ := Db.engineUpsert_cases hu
  have hstatus := (TxStorage.acquireRowLock_spec hl).2.2.1
  have hmem := tx_mem ht
  have hh := List.subset_cons_self (.write h (id, key) value.payload) w.hist
  refine ⟨hw.ids, hstored, ?_, ?_, ?_, ?_⟩
  · rintro id' ⟨k, n, v⟩ hm
    rcases Wal.mem_events_write hm with he | hm
    · cases Event.mem_readable he
      exact ⟨h, List.mem_cons_self⟩
    · obtain ⟨g, hg⟩ := hw.logged id' ⟨k, n, v⟩ hm
      exact ⟨g, List.mem_cons_of_mem _ hg⟩
  · intro g id' row hm
    rcases List.mem_cons.mp hm with he | hm
    · cases he
      exact ⟨hf, hmem⟩
    · exact hw.written g id' row hm
  · intro t hc
    refine (hw.committed t ?_).mono (List.Subset.refl _) hh
    rw [TxStorage.isCommited_iff] at hc ⊢
    rw [← hstatus]
    exact hc
  · intro t hm
    rcases Wal.mem_events_write hm with he | hm
    · cases Event.mem_readable he
    · exact (hw.loggedCommit t hm).mono (List.Subset.refl _) hh

theorem Traced.commit (hw : w.Traced) {h : Label} {t : TransactionId} (ht : w.tx h = some t) :
    Traced { w with db := w.db.commit t, hist := .commit h :: w.hist } := by
  have hmem := tx_mem ht
  have hh := List.subset_cons_self (.commit h) w.hist
  refine ⟨hw.ids, hw.stored, ?_, hw.written, ?_, ?_⟩
  · intro id row hm
    rcases Wal.mem_events_write hm with he | hm
    · cases Event.mem_readable he
    · exact hw.logged id row hm
  · intro t' hc
    by_cases hte : t' = t
    · exact ⟨h, hte ▸ hmem, List.mem_cons_self⟩
    · refine (hw.committed t' ?_).mono (List.Subset.refl _) hh
      rw [TxStorage.isCommited_iff] at hc ⊢
      exact (TxStorage.setStatus_txStatus_of_ne _ hte).symm.trans hc
  · intro t' hm
    rcases Wal.mem_events_write hm with he | hm
    · cases Event.mem_readable he
      exact ⟨h, hmem, List.mem_cons_self⟩
    · exact (hw.loggedCommit t' hm).mono (List.Subset.refl _) hh

theorem Traced.rollback (hw : w.Traced) {h : Label} {t : TransactionId} :
    Traced { w with db := w.db.rollback t, hist := .rollback h :: w.hist } := by
  have hh := List.subset_cons_self (.rollback h) w.hist
  refine ⟨hw.ids, hw.stored, hw.logged, hw.written, ?_,
    fun t' hm => (hw.loggedCommit t' hm).mono (List.Subset.refl _) hh⟩
  intro t' hc
  refine (hw.committed t' ?_).mono (List.Subset.refl _) hh
  rw [TxStorage.isCommited_iff] at hc ⊢
  by_cases hte : t' = t
  · rw [hte] at hc
    exact absurd ((TxStorage.setStatus_txStatus_self ..).symm.trans hc) (by simp)
  · exact (TxStorage.setStatus_txStatus_of_ne _ hte).symm.trans hc

/-- A restart takes nothing that is not in the files. -/
theorem Traced.restart (hw : w.Traced) : Traced { w with db := w.db.restart o } := by
  refine ⟨hw.ids, ?_, ?_, hw.written, ?_, ?_⟩
  · intro id l hl
    obtain ⟨m, hm, rfl⟩ := Db.restart_cases hl
    have hopen : m.Within fun row => ∃ g, (g, id, row) ∈ w.written := by
      rcases hm with rfl | ⟨k, hk, rfl⟩
      · exact Lsm.within_empty
      · exact Lsm.within_reopen (hw.stored id k hk).files
    exact hopen.replay o fun row hrow => hw.logged id row (mem_logOf.mp hrow)
  · intro id row hm
    exact hw.logged id row (Wal.mem_events_init hm)
  · intro t hc
    rw [TxStorage.isCommited_iff, Db.restart, Db.init_txStorage, TxStorage.foldl_recoverFromLog_txStatus] at hc
    split_ifs at hc with hm
    · exact hw.loggedCommit t (mem_commitsOf.mp hm)
    · cases hc
  · intro t hm
    exact hw.loggedCommit t (Wal.mem_events_init hm)

theorem Traced.addStorage (hw : w.Traced) {id : Bytes} {db : Db} (hdb : w.db.addStorage id = some db) :
    Traced { w with db } := by
  have hstored := Db.addStorage_inv (P := fun id' m => m.Within fun row => ∃ g, (g, id', row) ∈ w.written)
    hw.stored hdb Lsm.within_empty
  obtain ⟨-, -, rfl⟩ := Db.addStorage_cases hdb
  exact ⟨hw.ids, hstored, hw.logged, hw.written, hw.committed, hw.loggedCommit⟩

theorem Effect.traced (he : Effect o w op w') (hw : w.Traced) (hg : w.FreshId op) : w'.Traced := by
  cases he with
  | begin => exact hw.begin hg
  | write hv ht _ hs =>
    obtain ⟨-, rfl, hf⟩ := Op.version_spec hv
    exact hw.write ht hf hs
  | absent => exact hw
  | commit ht => exact hw.commit ht
  | rollback => exact hw.rollback
  | addStorage hdb => exact hw.addStorage hdb
  | flush =>
    refine ⟨hw.ids, ?_, hw.logged, hw.written, hw.committed, hw.loggedCommit⟩
    exact Db.flush_inv (P := fun id' m => m.Within fun row => ∃ g, (g, id', row) ∈ w.written)
      fun id m hm => (hw.stored id m hm).flush
  | compact => exact hg.elim
  | clean =>
    exact ⟨hw.ids, hw.stored, fun id row hm => hw.logged id row (Wal.mem_events_unlinkAll hm), hw.written, hw.committed,
      fun t hm => hw.loggedCommit t (Wal.mem_events_unlinkAll hm)⟩
  | restart => exact hw.restart

def Shows (w : World) (t : TransactionId) (id : Bytes) (row : Row) : Prop :=
  ∃ l, w.db.storages id = some l ∧ row ∈ l.records ∧ visible w.db.txStorage t row.value = true

theorem Traced.shows (hw : w.Traced) {h : Label} {t : TransactionId} (ht : w.tx h = some t) {id : Bytes} {row : Row}
    (hs : w.Shows t id row) :
    (∃ g, (g, id, row) ∈ w.written) ∧ ∀ g, (g, id, row) ∈ w.written → g = h ∨ .commit g ∈ w.hist := by
  obtain ⟨l, hl, hrow, hv⟩ := hs
  refine ⟨(hw.stored id l hl).records row hrow, ?_⟩
  intro g hg
  obtain ⟨hf, hgtx⟩ := hw.written g id row hg
  have huniq : ∀ {g'}, (g', row.value.tx) ∈ w.begun → g = g' := by
    intro g' hg'
    exact (Prod.mk.inj (List.inj_on_of_nodup_map hw.ids hgtx hg' rfl)).1
  rw [visible, hf, Bool.false_or, Bool.or_eq_true, beq_iff_eq] at hv
  rcases hv with hv | hv
  · left
    exact huniq (hv ▸ tx_mem ht)
  · right
    obtain ⟨g', hg', hc⟩ := hw.committed _ hv
    rw [huniq hg']
    exact hc

theorem Traced.reads (hw : w.Traced) (htidy : ∀ id l, w.db.storages id = some l → l.Tidy) {h : Label}
    {t : TransactionId} (ht : w.tx h = some t) (id : Bytes) :
    (∀ row, w.Shows t id row →
      (∃ g, (g, id, row) ∈ w.written) ∧ ∀ g, (g, id, row) ∈ w.written → g = h ∨ .commit g ∈ w.hist) ∧
    (∀ key value, w.db.lookup t id key = some value →
      ∃ row, w.Shows t id row ∧ row.key = key ∧ row.value.payload = some value) ∧
    ∀ lowerBound upperBound key value, (key, value) ∈ w.db.scan t id lowerBound upperBound →
      ∃ row, w.Shows t id row ∧ row.key = key ∧ row.value.payload = some value := by
  refine ⟨fun row hs => hw.shows ht hs, ?_⟩
  rcases hl : w.db.storages id with _ | l <;> simp only [Db.lookup, Db.scan, hl]
  · exact ⟨by simp, by simp⟩
  have htidy := htidy id l hl
  refine ⟨?_, ?_⟩
  · intro key value hv
    rw [TransactionalTable.lookup, lookupRows_eq, Option.bind_eq_some_iff] at hv
    obtain ⟨row, hrow, hp⟩ := hv
    have hmem := List.mem_of_find?_eq_some hrow
    rw [Lsm.scanKey_eq_filter htidy.levels, List.mem_filter, decide_eq_true_eq] at hmem
    have hvis := List.find?_some (p := fun row : Row => visible w.db.txStorage t row.value) hrow
    exact ⟨row, ⟨l, hl, hmem.1, hvis⟩, hmem.2, hp⟩
  · intro lowerBound upperBound key value hv
    obtain ⟨-, row, hrow, rfl⟩ := (mem_scan _ t key htidy.levels lowerBound upperBound value).mp hv
    have hret := List.find?_some hrow
    have hmem := (Lsm.scanRange_perm htidy.levels _).mem_iff.mp (List.mem_of_find?_eq_some hrow)
    rw [List.mem_filter, ScanRange.contains_only, decide_eq_true_eq] at hmem
    have hd : row.value.isDeleted = false := by
      rw [returned, Bool.and_eq_true, Bool.not_eq_true_eq_eq_false] at hret
      exact hret.2
    exact ⟨row, ⟨l, hl, hmem.1, returned_visible _ t hret⟩, hmem.2, payload_of_not_deleted hd⟩

theorem freshId_of_shows {b : ByteWorld} (h : b.Shows w) (hfresh : b.world.FreshId op) : w.FreshId op := by
  rw [h.world] at hfresh
  cases op <;> exact hfresh

end World

end StructureDb
