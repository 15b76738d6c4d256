import StructureDb.Spec.Ledger
import StructureDb.Proofs.DbRecovery
import StructureDb.Proofs.Within

/-! Sequence numbers over whole lives of a database. While it stays recoverable, no
number of an acknowledged upsert is issued again, and a recovery skips only records
whose number is persistent. -/

namespace StructureDb

open TransactionalTable

namespace Lsm

/-- The next number is the same, and the numbers that became persistent are in tables. -/
def Advances (l l' : Lsm TransactionalValue) : Prop :=
  l'.nextSeqNo = l.nextSeqNo ∧
    ∀ n, l.maxPersistentSeqNo < n → n ≤ l'.maxPersistentSeqNo → ∃ r ∈ l'.ssRecords, r.seqNo = n

variable {l l' : Lsm TransactionalValue} {log : List Row}

theorem advances_of_eq (hn : l'.nextSeqNo = l.nextSeqNo) (hp : l'.maxPersistentSeqNo = l.maxPersistentSeqNo) :
    l.Advances l' := by
  refine ⟨hn, ?_⟩
  intro n h1 h2
  omega

theorem Recoverable.advances_flush (h : l.Recoverable log) : l.Advances l.flush := by
  have hf := h.flush
  refine ⟨flush_nextSeqNo l, ?_⟩
  intro n h1 h2
  have hnext := h.next
  have hnext' := hf.next
  rw [flush_nextSeqNo] at hnext'
  -- the record with this number was in memory, and what is there now is newer
  obtain ⟨r, hr, rfl⟩ := h.consecutive.exists (m := n) (by omega) (by omega)
  have hmem := h.inMemory.mem_iff.mpr hr
  have hrec : r ∈ l.flush.records := by
    rw [records, flush_levels, ← records, records_eq]
    exact List.mem_append_left _ hmem
  rw [records_eq] at hrec
  rcases List.mem_append.mp hrec with hrec | hrec
  · have := (hf.bounds r hrec).1
    omega
  · exact ⟨r, hrec, rfl⟩

end Lsm

namespace Db

variable {o : Options} {db : Db} {events : List Event}

/-- What is skipped for a storage is what its tree refuses. -/
theorem mem_skippedEvents {id : Bytes} {row : Row} {es : List Event} (h : (id, row) ∈ db.skippedEvents o es) :
    row ∈ Lsm.refused o ((db.storages id).getD (Lsm.init Dir.empty)) (logOf id es) := by
  induction es generalizing db with
  | nil => cases h
  | cons e es ih =>
    cases e with
    | commit tx =>
      simp only [skippedEvents] at h
      exact @ih (db.apply o (.commit tx)) h
    | upsert id' seqNo key value =>
      by_cases hid : id' = id
      · subst hid
        simp only [skippedEvents] at h
        rw [logOf_cons_self, Lsm.refused]
        dsimp only
        split_ifs at h ⊢
        · have := ih h
          simpa [apply] using this
        · rcases List.mem_cons.mp h with he | h
          · rw [(Prod.mk.inj he).2]
            exact List.mem_cons_self
          · have := ih h
            exact List.mem_cons_of_mem _ (by simpa [apply] using this)
      · have hrest : (id, row) ∈ skippedEvents o (db.apply o (.upsert id' seqNo key value)) es := by
          simp only [skippedEvents] at h
          split_ifs at h
          · exact h
          · rcases List.mem_cons.mp h with he | h
            · exact absurd (Prod.mk.inj he).1.symm hid
            · exact h
        have := ih hrest
        rw [logOf_cons_of_ne hid]
        simpa [apply, setStorage_of_ne _ _ (Ne.symm hid)] using this

end Db

namespace Ledger

/-- A record, as far as a compaction leaves it alone. -/
def Version (acked : List (Bytes × Row)) (id : Bytes) (r : Row) : Prop :=
  ∃ row, (id, row) ∈ acked ∧ r.key = row.key ∧ r.seqNo = row.seqNo ∧ r.value.payload = row.value.payload

structure Inv (j : Ledger) (events : List Event) : Prop where
  durable : j.db.Durable events
  logged : ∀ id, ∀ row ∈ logOf id events, (id, row) ∈ j.acked
  bound : ∀ id row, (id, row) ∈ j.acked → ∃ l, j.db.storages id = some l ∧ row.seqNo < l.nextSeqNo
  distinct : (j.acked.map fun a => (a.1, a.2.seqNo)).Nodup
  persistent : ∀ id row l, (id, row) ∈ j.acked → j.db.storages id = some l → row.seqNo ≤ l.maxPersistentSeqNo →
    (id, row.seqNo) ∈ j.persisted
  skipped : ∀ a ∈ j.skipped, (a.1, a.2.seqNo) ∈ j.persisted
  stored : ∀ id l, j.db.storages id = some l → l.Within (Version j.acked id)

variable {o : Options} {j j' : Ledger} {events events' : List Event}

theorem start_inv (o : Options) : (start o).Inv [] := by
  refine ⟨Db.start_durable o, by simp [logOf], by simp [start], by simp [start], by simp [start], by simp [start], ?_⟩
  intro id l hl
  rw [World.start_storages (o := o) hl]
  exact Lsm.within_empty

theorem Inv.frame (h : j.Inv events) {db : Db} (skipped : List (Bytes × Row)) (hd : db.Durable events')
    (hlog : ∀ id, logOf id events' ⊆ logOf id events)
    (hadv : ∀ id l, j.db.storages id = some l → ∃ l', db.storages id = some l' ∧ l.Advances l')
    (hstored : ∀ id l, db.storages id = some l → l.Within (Version j.acked id))
    (hskip : ∀ a ∈ skipped, (a.1, a.2.seqNo) ∈ j.persisted) :
    Inv { j with db, skipped := skipped ++ j.skipped }.record events' := by
  refine ⟨hd, ?_, ?_, h.distinct, ?_, ?_, hstored⟩
  · intro id row hrow
    exact h.logged id row (hlog id hrow)
  · intro id row hm
    obtain ⟨l, hl, hlt⟩ := h.bound id row hm
    obtain ⟨l', hl', hn, -⟩ := hadv id l hl
    exact ⟨l', hl', by omega⟩
  · intro id row l' hm hl' hle
    obtain ⟨l, hl, -⟩ := h.bound id row hm
    obtain ⟨l'', hl'', hn, hnew⟩ := hadv id l hl
    obtain rfl := Option.some.inj (hl'.symm.trans hl'')
    by_cases hold : row.seqNo ≤ l.maxPersistentSeqNo
    · exact List.mem_append_right _ (h.persistent id row l hm hl hold)
    · obtain ⟨r, hr, he⟩ := hnew row.seqNo (by omega) hle
      refine List.mem_append_left _ (List.mem_map.mpr ⟨(id, row), List.mem_filter.mpr ⟨hm, ?_⟩, rfl⟩)
      rw [← he]
      exact Db.inTable_of_mem hl' hr
  · intro a ha
    rcases List.mem_append.mp ha with ha | ha
    · exact List.mem_append_right _ (hskip a ha)
    · exact List.mem_append_right _ (h.skipped a ha)

theorem Inv.keep (h : j.Inv events) {db : Db} (hd : db.Durable events')
    (hlog : ∀ id, logOf id events' ⊆ logOf id events) (hs : db.storages = j.db.storages) :
    Inv { j with db }.record events' := by
  refine h.frame [] hd hlog ?_ (hs ▸ h.stored) (by simp)
  rw [hs]
  exact fun id l hl => ⟨l, hl, Lsm.advances_of_eq rfl rfl⟩

theorem Inv.put (h : j.Inv events) {id key : Bytes} {value : TransactionalValue} {db : Db} {seqNo : ℕ}
    (hsize : (Event.upsert id seqNo key value).size ≤ kWalPageSize)
    (he : j.db.engineUpsert o id key value = some (db, seqNo)) :
    Inv { j with db, acked := (id, ⟨key, seqNo, value⟩) :: j.acked }.record (events ++
      [.upsert id seqNo key value]) := by
  have hd := h.durable.put hsize he
  obtain ⟨l, hl, rfl, rfl⟩ := Db.engineUpsert_cases he
  have hself : (j.db.setStorage id (l.put o key value).1).storages id = some (l.put o key value).1 :=
    Db.setStorage_self ..
  have hother : ∀ {id'}, id' ≠ id → (j.db.setStorage id (l.put o key value).1).storages id' = j.db.storages id' :=
    fun hne => Db.setStorage_of_ne _ _ hne
  have hnext : (l.put o key value).1.nextSeqNo = l.nextSeqNo + 1 := Lsm.doPut_nextSeqNo ..
  have hmax : (l.put o key value).1.maxPersistentSeqNo = l.maxPersistentSeqNo := Lsm.doPut_maxPersistentSeqNo ..
  have hlt : l.maxPersistentSeqNo < l.nextSeqNo := by
    have := (h.durable.trees id l hl).next
    omega
  constructor
  case durable => exact hd
  case logged =>
    intro id' row hrow
    rw [logOf_append, logOf_singleton] at hrow
    rcases List.mem_append.mp hrow with hrow | hrow
    · exact List.mem_cons_of_mem _ (h.logged id' row hrow)
    · split_ifs at hrow with hid
      · rw [← hid, List.mem_singleton.mp hrow]
        exact List.mem_cons_self
      · cases hrow
  case bound =>
    intro id' row hm
    rcases List.mem_cons.mp hm with hm | hm
    · obtain ⟨rfl, rfl⟩ := Prod.mk.inj hm
      exact ⟨_, hself, by rw [hnext]; exact Nat.lt_succ_self _⟩
    · obtain ⟨m, hml, hb⟩ := h.bound id' row hm
      by_cases hid : id' = id
      · subst hid
        obtain rfl := Option.some.inj (hml.symm.trans hl)
        exact ⟨_, hself, by rw [hnext]; omega⟩
      · exact ⟨m, (hother hid).trans hml, hb⟩
  case distinct =>
    refine List.nodup_cons.mpr ⟨?_, h.distinct⟩
    intro hm
    obtain ⟨⟨id', row⟩, ha, he⟩ := List.mem_map.mp hm
    obtain ⟨rfl, hseq⟩ := Prod.mk.inj he
    obtain ⟨m, hml, hb⟩ := h.bound _ row ha
    obtain rfl := Option.some.inj (hml.symm.trans hl)
    simp only at hseq
    omega
  case persistent =>
    intro id' row m hm hml hle
    refine List.mem_append_right _ ?_
    by_cases hid : id' = id
    · subst hid
      obtain rfl := Option.some.inj (hml.symm.trans hself)
      rw [hmax] at hle
      rcases List.mem_cons.mp hm with hm | hm
      · obtain ⟨-, rfl⟩ := Prod.mk.inj hm
        simp only at hle
        omega
      · exact h.persistent id' row l hm hl hle
    · rcases List.mem_cons.mp hm with hm | hm
      · exact absurd (Prod.mk.inj hm).1 hid
      · exact h.persistent id' row m hm ((hother hid).symm.trans hml) hle
  case skipped => exact fun a ha => List.mem_append_right _ (h.skipped a ha)
  case stored =>
    have hmono : ∀ id' r, Version j.acked id' r → Version ((id, ⟨key, l.nextSeqNo, value⟩) :: j.acked) id' r :=
      fun id' r ⟨row, hm, hv⟩ => ⟨row, List.mem_cons_of_mem _ hm, hv⟩
    refine Db.setStorage_inv
      (P := fun id' m => m.Within (Version ((id, ⟨key, l.nextSeqNo, value⟩) :: j.acked) id')) ?_ ?_
    · intro id' m hm
      exact (h.stored id' m hm).mono (hmono id')
    · exact ((h.stored id l hl).mono (hmono id)).put o key value ⟨_, List.mem_cons_self, rfl, rfl, rfl⟩

theorem Inv.restart (h : j.Inv events) (hno : j.db.wal.currentSegmentNo < 10000) :
    Inv { j with db := j.db.restart o, skipped := j.db.skippedByRestart o ++ j.skipped }.record events := by
  have hstorages := h.durable.restart_storages (o := o) hno
  refine h.frame _ (h.durable.restart hno) (fun _ => List.Subset.refl _) ?_ ?_ ?_
  · intro id l hl
    obtain ⟨-, hp, hn, -⟩ := (h.durable.trees id l hl).restart o
    exact ⟨_, by rw [hstorages, hl]; rfl, Lsm.advances_of_eq hn hp⟩
  · intro id l hl
    rw [hstorages] at hl
    obtain ⟨m, hm, rfl⟩ := Option.map_eq_some_iff.mp hl
    refine (Lsm.within_reopen (h.stored id m hm).files).replay o ?_
    exact fun row hrow => ⟨row, h.logged id row hrow, rfl, rfl, rfl⟩
  · rintro ⟨id, row⟩ ha
    have href := Db.mem_skippedEvents ha
    rw [h.durable.wal_events hno] at href
    have hlog := Lsm.mem_of_refused href
    obtain ⟨l, hl⟩ := Option.isSome_iff_exists.mp (h.durable.known id (List.ne_nil_of_mem hlog))
    simp only [h.durable.openStorages hl, Option.getD_some] at href
    obtain ⟨-, -, -, hle⟩ := (h.durable.trees id l hl).restart o
    exact h.persistent id row l (h.logged id row hlog) hl (hle row href)

theorem advances_setStorage {db : Db} {id : Bytes} {m : Lsm TransactionalValue}
    (hm : ∀ l, db.storages id = some l → l.Advances m) :
    ∀ id' l, db.storages id' = some l → ∃ l', (db.setStorage id m).storages id' = some l' ∧ l.Advances l' := by
  intro id' l hl
  by_cases hid : id' = id
  · subst hid
    exact ⟨m, Db.setStorage_self .., hm l hl⟩
  · exact ⟨l, (Db.setStorage_of_ne _ _ hid).trans hl, Lsm.advances_of_eq rfl rfl⟩

theorem Inv.flush (h : j.Inv events) : Inv { j with db := j.db.flush }.record events := by
  refine h.frame [] h.durable.flush (fun _ => List.Subset.refl _) ?_ ?_ (by simp)
  · intro id l hl
    exact ⟨l.flush, Option.map_eq_some_iff.mpr ⟨l, hl, rfl⟩, (h.durable.trees id l hl).advances_flush⟩
  · exact Db.flush_inv (P := fun id m => m.Within (Version j.acked id)) fun id m hm => (h.stored id m hm).flush

theorem Inv.compact (h : j.Inv events) {id : Bytes} (hc : j.db.Careful (.compact id)) :
    Inv { j with db := j.db.compact id }.record events := by
  have hd := h.durable.compact hc
  unfold Db.compact at hd ⊢
  rcases hl : j.db.storages id with _ | l <;> simp only [hl] at hd ⊢
  · exact h.keep hd (fun _ => List.Subset.refl _) rfl
  · refine h.frame [] hd (fun _ => List.Subset.refl _) ?_ ?_ (by simp)
    · refine advances_setStorage fun m hm => ?_
      rw [← Option.some.inj (hl.symm.trans hm)]
      exact Lsm.advances_of_eq rfl rfl
    · refine Db.setStorage_inv (P := fun id' m => m.Within (Version j.acked id')) h.stored ?_
      refine (h.stored id l hl).compact ?_
      intro rows hrows r hr
      obtain ⟨old, hold, rfl⟩ := mem_compactRows hr
      obtain ⟨row, hm, h1, h2, h3⟩ := hrows old hold
      exact ⟨row, hm, by simpa using h1, by simpa using h2, by simpa using h3⟩

theorem Inv.addStorage (h : j.Inv events) {id : Bytes} {db : Db} (ha : j.db.addStorage id = some db) :
    Inv { j with db }.record events := by
  have hd := h.durable.addStorage ha
  have hstored := Db.addStorage_inv (P := fun id m => m.Within (Version j.acked id)) h.stored ha Lsm.within_empty
  obtain ⟨-, hnone, rfl⟩ := Db.addStorage_cases ha
  refine h.frame [] hd (fun _ => List.Subset.refl _) ?_ hstored (by simp)
  refine advances_setStorage fun l hl => ?_
  rw [hnone] at hl
  cases hl

theorem Inv.step {op : Db.Op} (h : j.Inv events) (hc : j.db.Careful op) (hs : j.step o op = some j') :
    ∃ events', j'.Inv events' := by
  cases op with
  | put id key value =>
    simp only [Ledger.step] at hs
    rcases he : j.db.engineUpsert o id key value with _ | ⟨db, n⟩ <;> simp only [he] at hs
    · cases hs
    · cases hs
      have hsize : (Event.upsert id n key value).size ≤ kWalPageSize := hc
      exact ⟨_, h.put hsize he⟩
  | restart =>
    cases hs
    exact ⟨_, h.restart hc⟩
  | flush =>
    cases hs
    exact ⟨_, h.flush⟩
  | compact id =>
    cases hs
    exact ⟨_, h.compact hc⟩
  | addStorage id =>
    simp only [Ledger.step, Db.step] at hs
    rcases ha : j.db.addStorage id with _ | db <;> simp only [ha] at hs
    · cases hs
    · cases hs
      exact ⟨_, h.addStorage ha⟩
  | begin =>
    cases hs
    exact ⟨_, h.keep (h.durable.congr rfl rfl) (fun _ => List.Subset.refl _) rfl⟩
  | rollback tx =>
    cases hs
    exact ⟨_, h.keep (h.durable.congr rfl rfl) (fun _ => List.Subset.refl _) rfl⟩
  | lock tx key =>
    simp only [Ledger.step, Db.step] at hs
    rcases hl : j.db.txStorage.acquireRowLock tx key with _ | s <;> simp only [hl] at hs
    · cases hs
    · cases hs
      exact ⟨_, h.keep (h.durable.congr rfl rfl) (fun _ => List.Subset.refl _) rfl⟩
  | commit tx =>
    cases hs
    refine ⟨_, h.keep (h.durable.commit tx) ?_ rfl⟩
    intro id row hrow
    rw [logOf_append] at hrow
    simpa [logOf] using hrow
  | clean =>
    cases hs
    obtain ⟨events', hd, hsub⟩ := h.durable.clean hc
    refine ⟨events', h.keep hd ?_ rfl⟩
    exact fun id row hrow => mem_logOf.mpr (hsub _ (mem_logOf.mp hrow))

/-- No number of an acknowledged upsert is issued again, a recovery skips only records whose number has been in a
table, and the record that a storage holds under a number is the one that was acknowledged with it. -/
theorem run_numbers (o : Options) (ops : List Db.Op)
    (hg : Machine.Guarded (step o) (fun j op => j.db.Careful op) (start o) ops) (j : Ledger)
    (hr : Machine.run (step o) (start o) ops = some j) :
    (j.acked.map fun a => (a.1, a.2.seqNo)).Nodup ∧
      (∀ a ∈ j.skipped, (a.1, a.2.seqNo) ∈ j.persisted) ∧
      ∀ id l, j.db.storages id = some l → ∀ r ∈ l.records, Version j.acked id r := by
  obtain ⟨events, h⟩ := Machine.run_inv (P := fun _ j => ∃ events, j.Inv events) ⟨[], start_inv o⟩
    (fun _ _ _ _ ⟨_, h⟩ hc hs => h.step hc hs) hg hr
  exact ⟨h.distinct, h.skipped, fun id l hl => (h.stored id l hl).records⟩

/-- Flush, compaction of a committed row, cleaning and a restart between two upserts. -/
theorem run_numbers_two_upserts :
    ∃ j, Machine.run (step ⟨0⟩) (start ⟨0⟩)
        [.addStorage [84], .begin, .put [84] [1] ⟨10, false, false, [5]⟩, .commit 10, .flush, .restart, .compact [84],
          .clean, .put [84] [2] ⟨11, false, false, [6]⟩, .restart, .put [84] [3] ⟨11, false, false, [7]⟩] =
            some j ∧
      j.acked.map (fun a => (a.1, a.2.seqNo)) = [([84], 3), ([84], 2), ([84], 1)] ∧
      (j.acked.map fun a => (a.1, a.2.seqNo)).Nodup := by
  refine Machine.exists_run_of
    (T := fun j => j.acked.map (fun a => (a.1, a.2.seqNo)) = [([84], 3), ([84], 2), ([84], 1)]) (by decide) ?_
  intro j hj hacked
  exact ⟨hacked, (run_numbers ⟨0⟩ _ (by decide) j hj).1⟩

/-- The compaction drops the only row of the tables, the cleaner its event: the next upsert is skipped by recovery,
never having been in a table, and the one after it gets a number that was acknowledged before. -/
theorem restart_reissues_number :
    ∃ j, Machine.run (step ⟨0⟩) (start ⟨0⟩)
        [.addStorage [84], .put [84] [1] ⟨10, false, false, [5]⟩, .flush, .restart, .compact [84], .clean,
          .put [84] [2] ⟨10, false, false, [6]⟩, .restart, .put [84] [3] ⟨10, false, false, [7]⟩] = some j ∧
      j.acked.map (fun a => (a.1, a.2.seqNo)) = [([84], 1), ([84], 2), ([84], 1)] ∧
      ([84], ⟨[2], 2, ⟨10, false, false, [6]⟩⟩) ∈ j.skipped ∧ ([84], 2) ∉ j.persisted := by
  exact Machine.exists_run (by decide)

end Ledger

end StructureDb
