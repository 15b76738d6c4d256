import StructureDb.Proofs.Rebuild

/-! What the cleaner leaves in the log. Every event of a removed segment is in a table, so an
acknowledged upsert is in a table or in the log, unless it was written to a segment that
had already been removed while it was open. -/

namespace StructureDb

namespace Wal

variable {w : Wal} {e : Event}

def Named (dir : Dir Bytes (List Event)) : Prop := ∀ f ∈ dir.files, ∃ n, f.1 = walName n

theorem Named.append {dir : Dir Bytes (List Event)} (h : Named dir) (n : Bytes) (g : List Event → List Event) :
    Named (dir.modify n g) := by
  intro f hf
  rcases Dir.mem_modify.mp hf with ⟨hf, -⟩ | ⟨es, hes, rfl⟩
  · exact h f hf
  · have hn := h (n, es) hes
    exact hn

theorem Named.touch {dir : Dir Bytes (List Event)} (h : Named dir) (n : ℕ) : Named (dir.touch (walName n) []) := by
  intro f hf
  rcases Dir.mem_touch.mp hf with hf | ⟨-, rfl⟩
  · exact h f hf
  · exact ⟨n, rfl⟩

theorem Named.write (h : Named w.dir) (e : Event) : Named (w.write e).dir := by
  obtain ⟨-, hw⟩ | ⟨-, hw⟩ := write_cases w e <;> rw [hw]
  · exact h.append _ _
  · exact (h.touch _).append _ _

end Wal

namespace Engines

variable {o : Options} {s s' : Engines} {op : Op}

/-- An upsert that fits in a page is written to a segment that is linked. -/
def SegmentLinked (s : Engines) : Op → Prop
  | .upsert id key value =>
    match s.db.storages id with
    | none => True
    | some l => s.db.wal.Linked (.upsert id l.nextSeqNo key value)
  | _ => True

instance (s : Engines) : (op : Op) → Decidable (s.SegmentLinked op)
  | .upsert id key value =>
    match h : s.db.storages id with
    | none => isTrue (by rw [SegmentLinked, h]; trivial)
    | some l => decidable_of_iff (s.db.wal.Linked (.upsert id l.nextSeqNo key value)) (by rw [SegmentLinked, h])
  | .create _ | .flush _ | .clean | .crash => isTrue trivial

structure Kept (s : Engines) : Prop where
  trees : ∀ id l, s.db.storages id = some l → l.Complete (s.ackedOf id)
  known : ∀ id row, (id, row) ∈ s.acked → (s.db.storages id).isSome = true
  named : Wal.Named s.db.wal.dir
  logged : ∀ id seqNo key value, .upsert id seqNo key value ∈ Wal.events s.db.wal.dir →
    (id, ⟨key, seqNo, value⟩) ∈ s.acked
  safe : ∀ id row, (id, row) ∈ s.acked → (∃ l, s.db.storages id = some l ∧ row ∈ l.ssRecords) ∨
    .upsert id row.seqNo row.key row.value ∈ Wal.events s.db.wal.dir

theorem start_kept (o : Options) : (start o).Kept := by
  refine ⟨?_, by simp [start], ?_, ?_, by simp [start]⟩
  · intro id l hl
    rw [World.start_storages (o := o) hl]
    exact Lsm.Complete.empty
  · intro f hf
    have hf : f ∈ [(walName 0, [])] := hf
    exact ⟨0, by rw [List.mem_singleton.mp hf]⟩
  · intro id seqNo key value he
    obtain ⟨f, hf, he⟩ := Wal.mem_events.mp he
    have hf : f ∈ [(walName 0, [])] := hf
    rw [List.mem_singleton.mp hf] at he
    cases he

theorem Kept.create (h : s.Kept) {id : Bytes} {db : Db} (ha : s.db.addStorage id = some db) :
    Kept { s with db } := by
  obtain ⟨-, hnone, rfl⟩ := Db.addStorage_cases ha
  have hempty : s.ackedOf id = [] := by
    rw [List.eq_nil_iff_forall_not_mem]
    intro row hrow
    have hsome := h.known id row (mem_ackedOf.mp hrow)
    rw [hnone] at hsome
    cases hsome
  refine ⟨?_, ?_, h.named, h.logged, ?_⟩
  · refine Db.setStorage_inv (P := fun id l => l.Complete (s.ackedOf id)) h.trees ?_
    rw [hempty]
    exact Lsm.Complete.empty
  · intro id' row hrow
    exact (Db.setStorage_isSome _ _).mpr (Or.inr (h.known id' row hrow))
  · intro id' row hrow
    refine (h.safe id' row hrow).imp_left ?_
    rintro ⟨l, hl, hmem⟩
    refine ⟨l, (Db.setStorage_of_ne _ _ ?_).trans hl, hmem⟩
    rintro rfl
    rw [hnone] at hl
    cases hl

theorem Kept.upsert (h : s.Kept) {id key : Bytes} {value : TransactionalValue} {db : Db} {seqNo : ℕ}
    (hl : s.SegmentLinked (.upsert id key value)) (he : s.db.engineUpsert o id key value = some (db, seqNo)) :
    Kept { s with db, acked := s.acked ++ [(id, ⟨key, seqNo, value⟩)] } := by
  obtain ⟨l, hid, rfl, rfl⟩ := Db.engineUpsert_cases he
  rw [SegmentLinked, hid] at hl
  obtain ⟨hnew, hold⟩ := Wal.write_delivers hl
  have hss : (l.put o key value).1.ssTables = l.ssTables := Lsm.doPut_ssTables ..
  refine ⟨?_, ?_, h.named.write _, ?_, ?_⟩
  · intro id' m hm
    rw [ackedOf_append]
    by_cases heq : id' = id
    · subst heq
      rw [if_pos rfl, ← Option.some.inj ((Db.setStorage_self ..).symm.trans hm)]
      exact (h.trees id' l hid).put o key value
    · rw [if_neg (Ne.symm heq), List.append_nil]
      exact h.trees id' m ((Db.setStorage_of_ne _ _ heq).symm.trans hm)
  · intro id' row hrow
    refine (Db.setStorage_isSome _ _).mpr ?_
    rcases List.mem_append.mp hrow with hrow | hrow
    · exact Or.inr (h.known id' row hrow)
    · exact Or.inl (Prod.mk.inj (List.mem_singleton.mp hrow)).1
  · intro id' n k v hmem
    rcases Wal.mem_events_write hmem with hnew | hmem
    · cases Event.mem_readable hnew
      exact List.mem_append_right _ (List.mem_singleton.mpr rfl)
    · exact List.mem_append_left _ (h.logged id' n k v hmem)
  · intro id' row hrow
    rcases List.mem_append.mp hrow with hrow | hrow
    · rcases h.safe id' row hrow with ⟨m, hm, hmem⟩ | hmem
      · left
        by_cases heq : id' = id
        · subst heq
          obtain rfl := Option.some.inj (hm.symm.trans hid)
          exact ⟨_, Db.setStorage_self .., by rw [Lsm.ssRecords, hss]; exact hmem⟩
        · exact ⟨m, (Db.setStorage_of_ne _ _ heq).trans hm, hmem⟩
      · exact Or.inr (hold _ hmem)
    · obtain ⟨rfl, rfl⟩ := Prod.mk.inj (List.mem_singleton.mp hrow)
      exact Or.inr hnew

theorem Kept.flush (h : s.Kept) {id : Bytes} {db : Db} (hf : s.db.flushStorage id = some db) : Kept { s with db } := by
  unfold Db.flushStorage at hf
  rcases hl : s.db.storages id with _ | l <;> simp only [hl] at hf
  · cases hf
  · cases hf
    refine ⟨Db.setStorage_inv (P := fun id l => l.Complete (s.ackedOf id)) h.trees (h.trees id l hl).flush, ?_, h.named,
      h.logged, ?_⟩
    · intro id' row hrow
      exact (Db.setStorage_isSome _ _).mpr (Or.inr (h.known id' row hrow))
    · intro id' row hrow
      refine (h.safe id' row hrow).imp_left ?_
      rintro ⟨m, hm, hmem⟩
      by_cases heq : id' = id
      · subst heq
        obtain rfl := Option.some.inj (hm.symm.trans hl)
        exact ⟨_, Db.setStorage_self .., Lsm.mem_ssRecords_flush hmem⟩
      · exact ⟨m, (Db.setStorage_of_ne _ _ heq).trans hm, hmem⟩

/-- Everything in a removed segment is in a table. -/
theorem Kept.mem_ssRecords (h : s.Kept) {f : Bytes × List Event} (hf : f ∈ s.db.wal.dir.files)
    (hobs : f.1 ∈ s.db.obsoleteSegments) {id : Bytes} {row : Row}
    (he : .upsert id row.seqNo row.key row.value ∈ f.2) : ∃ l, s.db.storages id = some l ∧ row ∈ l.ssRecords := by
  have hall : ∀ e ∈ f.2, (s.db.isPersistent e).isSome = true := by
    intro e he
    cases e with
    | upsert id seqNo key value =>
      rw [Db.isPersistent, Option.isSome_map]
      exact h.known id _ (h.logged id seqNo key value (Wal.mem_events.mpr ⟨f, hf, he⟩))
    | commit tx => rfl
  have hacc : s.db.accumulatePersistence none f.2 = some true := by
    obtain ⟨g, hg, hname⟩ := List.mem_map.mp hobs
    obtain ⟨hg, hacc⟩ := List.mem_filter.mp hg
    have hgf := Dir.mem_listing.mp hg
    obtain ⟨n, hn⟩ := h.named g hgf
    rw [hn, getSegmentNoFromName_walName, Int.toNat_natCast, ← hn] at hname
    have hfile : (g.1, f.2) ∈ s.db.wal.dir.files := hname ▸ hf
    rw [Dir.unique hfile hgf]
    exact of_decide_eq_true hacc
  have hp := (Db.isPersistent_of_accumulate hall hacc).2 _ he
  have hrow := h.logged id _ _ _ (Wal.mem_events.mpr ⟨f, hf, he⟩)
  obtain ⟨l, hl⟩ := Option.isSome_iff_exists.mp (h.known id _ hrow)
  rw [Db.isPersistent, hl] at hp
  refine ⟨l, hl, (h.trees id l hl).mem_ssRecords_of_le (mem_ackedOf.mpr hrow) ?_⟩
  simpa using hp

theorem Kept.clean (h : s.Kept) : Kept { s with db := s.db.clean } := by
  refine ⟨h.trees, h.known, fun f hf => h.named f (Dir.mem_unlinkAll.mp hf).1,
    fun id n k v he => h.logged id n k v (Wal.mem_events_unlinkAll he), ?_⟩
  intro id row hrow
  rcases h.safe id row hrow with hin | he
  · exact Or.inl hin
  · obtain ⟨f, hf, he⟩ := Wal.mem_events.mp he
    by_cases hobs : f.1 ∈ s.db.obsoleteSegments
    · exact Or.inl (h.mem_ssRecords hf hobs he)
    · exact Or.inr (Wal.mem_events.mpr ⟨f, Dir.mem_unlinkAll.mpr ⟨hf, hobs⟩, he⟩)

theorem Kept.step (h : s.Kept) (hg : s.SegmentLinked op) (hc : op ≠ .crash) (hs : s.step o op = some s') : s'.Kept := by
  cases step_cases hs with
  | create hadd => exact h.create hadd
  | upsert hput => exact h.upsert hg hput
  | flush hflush => exact h.flush hflush
  | clean => exact h.clean
  | crash => exact absurd rfl hc

/-- What is not in a table when the database crashes is read from the log. -/
theorem run_delivers (o : Options) (ops : List Op) (hcrash : .crash ∉ ops)
    (hg : Machine.Guarded (step o) SegmentLinked (start o) ops) (s : Engines)
    (hr : Machine.run (step o) (start o) ops = some s) (id : Bytes) (row : Row) (hack : (id, row) ∈ s.acked)
    (hmem : s.db.inTable id row.seqNo = false) :
    .upsert id row.seqNo row.key row.value ∈ Wal.events s.db.wal.dir := by
  have h : s.Kept := by
    refine Machine.run_inv (P := fun tr s => .crash ∉ tr → s.Kept) (fun _ => start_kept o) ?_ hg hr hcrash
    intro tr s op s' h hc hs hn
    rw [List.mem_append, List.mem_singleton, not_or] at hn
    exact (h hn.1).step hc (Ne.symm hn.2) hs
  refine (h.safe id row hack).resolve_left ?_
  rintro ⟨l, hl, hrow⟩
  rw [Db.inTable_of_mem hl hrow] at hmem
  cases hmem

/-- The cleaner runs between two upserts and again after the second. -/
theorem run_delivers_second_upsert :
    ∃ s, Machine.run (step ⟨0⟩) (start ⟨0⟩)
        [.create [84], .create [85], .upsert [85] [9] ⟨10, false, false, []⟩,
          .upsert [84] [1] ⟨10, false, false, [5]⟩, .flush [84], .clean,
          .upsert [84] [2] ⟨10, false, false, [6]⟩, .clean] = some s ∧
      ([84], ⟨[2], 2, ⟨10, false, false, [6]⟩⟩) ∈ s.acked ∧ s.db.inTable [84] 2 = false ∧
      .upsert [84] 2 [2] ⟨10, false, false, [6]⟩ ∈ Wal.events s.db.wal.dir := by
  refine Machine.exists_run_of (T := fun s => ([84], ⟨[2], 2, ⟨10, false, false, [6]⟩⟩) ∈ s.acked ∧
    s.db.inTable [84] 2 = false) (by decide) ?_
  intro s hs hp
  obtain ⟨hack, hmem⟩ := hp
  exact ⟨hack, hmem, run_delivers ⟨0⟩ _ (by decide) (by decide) s hs [84] _ hack hmem⟩

/-- The cleaner removes the segment that is open, and the next upsert goes to the removed file. -/
theorem clean_drops_later_upsert :
    ∃ s, Machine.run (step ⟨0⟩) (start ⟨0⟩)
        [.create [84], .upsert [84] [1] ⟨10, false, false, [5]⟩, .flush [84], .clean,
          .upsert [84] [2] ⟨10, false, false, [6]⟩] = some s ∧
      ([84], ⟨[2], 2, ⟨10, false, false, [6]⟩⟩) ∈ s.acked ∧ s.db.inTable [84] 2 = false ∧
      .upsert [84] 2 [2] ⟨10, false, false, [6]⟩ ∉ Wal.events s.db.wal.dir := by
  exact Machine.exists_run (by decide)

end Engines

end StructureDb
