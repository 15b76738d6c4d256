import StructureDb.Spec.Ledger
import StructureDb.Proofs.Recovery
import StructureDb.Proofs.WalSteps

/-! A database that can be recovered: every tree from its files and its records in the
log, and the log from its segments. The steps keep that as long as the events fit in
a page, a compaction keeps the newest record of its tables, the cleaner leaves the
open segment and the segment numbers have four digits. -/

namespace StructureDb

open TransactionalTable

namespace Db

variable {o : Options} {db db' : Db} {events : List Event}

structure Durable (db : Db) (events : List Event) : Prop where
  tidy : ∀ id l, db.storages id = some l → l.Tidy
  catalog : (db.storages kSysTables).isSome = true
  internal : ∀ id ∈ internalTables, id ≠ kSysTables → db.storages id = none
  known : ∀ id, logOf id events ≠ [] → (db.storages id).isSome = true
  trees : ∀ id l, db.storages id = some l → l.Recoverable (logOf id events)
  segments : ∃ old last, Wal.Segments db.wal.dir db.wal.currentSegmentNo old last ∧ Wal.written old last = events

def Careful (db : Db) : Op → Prop
  | .compact id =>
    match db.storages id with
    | none => True
    | some l => KeepsNewest db.txStorage l
  | .clean => walName db.wal.currentSegmentNo ∉ db.obsoleteSegments
  | .restart => db.wal.currentSegmentNo < 10000
  | .put id key value => (Event.upsert id 0 key value).size ≤ kWalPageSize
  | _ => True

instance (db : Db) : (op : Op) → Decidable (db.Careful op)
  | .compact id =>
    match h : db.storages id with
    | none => isTrue (by rw [Careful, h]; trivial)
    | some l => decidable_of_iff (KeepsNewest db.txStorage l) (by rw [Careful, h])
  | .clean => instDecidableNot
  | .restart => Nat.decLt _ _
  | .put _ _ _ => Nat.decLe _ _
  | .begin | .commit _ | .rollback _ | .lock _ _ | .addStorage _ | .flush => isTrue trivial

theorem start_durable (o : Options) : Durable (init o (fun _ => none) Dir.empty) [] := by
  have hinit : ∀ {id l}, (init o (fun _ => none) Dir.empty).storages id = some l → l = Lsm.init Dir.empty :=
    World.start_storages (o := o)
  refine ⟨?_, rfl, ?_, ?_, ?_, [], [], Wal.Segments.start _, rfl⟩
  · intro id l hl
    rw [hinit hl]
    exact (Lsm.treeInv_tidy o).empty
  · intro id hid hne
    exact (if_neg hne).trans (if_pos hid)
  · intro id hne
    exact absurd rfl hne
  · intro id l hl
    rw [hinit hl]
    exact Lsm.Recoverable.empty

theorem Durable.congr (h : db.Durable events) (hs : db'.storages = db.storages) (hw : db'.wal = db.wal) :
    db'.Durable events :=
  ⟨hs ▸ h.tidy, hs ▸ h.catalog, hs ▸ h.internal, hs ▸ h.known, hs ▸ h.trees, hw ▸ h.segments⟩

theorem Durable.not_internal (h : db.Durable events) {id : Bytes} {l : Lsm TransactionalValue}
    (hl : db.storages id = some l) : id = kSysTables ∨ id ∉ internalTables := by
  by_contra hc
  obtain ⟨hne, hid⟩ := not_or.mp hc
  rw [h.internal id (not_not.mp hid) hne] at hl
  cases hl

/-- A change of one tree and of its part of the log. -/
theorem Durable.update (h : db.Durable events) {id : Bytes} {l : Lsm TransactionalValue} {wal : Wal}
    {events' : List Event} (hid : id = kSysTables ∨ id ∉ internalTables) (ht : l.Tidy)
    (hr : l.Recoverable (logOf id events')) (hlog : ∀ id', id' ≠ id → logOf id' events' = logOf id' events)
    (hseg : ∃ old last, Wal.Segments wal.dir wal.currentSegmentNo old last ∧ Wal.written old last = events') :
    Durable { db.setStorage id l with wal } events' := by
  have hsome : ∀ {id'}, id' = id ∨ (db.storages id').isSome = true →
      ((db.setStorage id l).storages id').isSome = true := (setStorage_isSome _ _).mpr
  refine ⟨setStorage_inv (P := fun _ => Lsm.Tidy) h.tidy ht, hsome (Or.inr h.catalog), ?_, ?_, ?_, hseg⟩
  · intro id' hid' hne
    have hne' : id' ≠ id := by
      rintro rfl
      exact hid.elim hne fun hn => hn hid'
    exact (setStorage_of_ne _ _ hne').trans (h.internal id' hid' hne)
  · intro id' hne
    by_cases hid' : id' = id
    · exact hsome (Or.inl hid')
    · rw [hlog id' hid'] at hne
      exact hsome (Or.inr (h.known id' hne))
  · intro id' m hm
    by_cases hid' : id' = id
    · subst hid'
      have hm' : some l = some m := (setStorage_self ..).symm.trans hm
      rw [← Option.some.inj hm']
      exact hr
    · rw [hlog id' hid']
      exact h.trees id' m ((setStorage_of_ne _ _ hid').symm.trans hm)

theorem Durable.put (h : db.Durable events) {id key : Bytes} {value : TransactionalValue} {seqNo : ℕ}
    (hsize : (Event.upsert id seqNo key value).size ≤ kWalPageSize)
    (he : db.engineUpsert o id key value = some (db', seqNo)) :
    db'.Durable (events ++ [.upsert id seqNo key value]) := by
  obtain ⟨l, hl, rfl, rfl⟩ := engineUpsert_cases he
  obtain ⟨old, last, hseg, hev⟩ := h.segments
  obtain ⟨old', last', hseg', hev'⟩ := hseg.write (.upsert id l.nextSeqNo key value)
  refine h.update (h.not_internal hl) ((Lsm.treeInv_tidy o).put l key value (h.tidy id l hl)) ?_ ?_
    ⟨old', last', hseg', by rw [hev', hev, Event.readable_of_le hsize]⟩
  · rw [logOf_append, logOf_singleton, if_pos rfl]
    exact (h.trees id l hl).put o key value
  · intro id' hne
    rw [logOf_append, logOf_singleton, if_neg (Ne.symm hne), List.append_nil]

theorem Durable.commit (h : db.Durable events) (tx : TransactionId) :
    (db.commit tx).Durable (events ++ [.commit tx]) := by
  obtain ⟨old, last, hseg, hev⟩ := h.segments
  have hlog : ∀ id, logOf id (events ++ [.commit tx]) = logOf id events :=
    fun id => (logOf_append ..).trans (List.append_nil _)
  obtain ⟨old', last', hseg', hev'⟩ := hseg.write (.commit tx)
  refine ⟨h.tidy, h.catalog, h.internal, ?_, ?_, old', last', hseg', by rw [hev', hev, Event.readable_commit]⟩
  · intro id hne
    rw [hlog] at hne
    exact h.known id hne
  · intro id l hl
    rw [hlog]
    exact h.trees id l hl

theorem Durable.addStorage (h : db.Durable events) {id : Bytes} (ha : db.addStorage id = some db') :
    db'.Durable events := by
  obtain ⟨hint, hnone, rfl⟩ := addStorage_cases ha
  have hlog : logOf id events = [] := by
    by_contra hne
    have hknown := h.known id hne
    rw [hnone] at hknown
    cases hknown
  refine h.update (Or.inr hint) (Lsm.treeInv_tidy ⟨0⟩).empty ?_ (fun _ _ => rfl) h.segments
  rw [hlog]
  exact Lsm.Recoverable.empty

theorem Durable.flush (h : db.Durable events) : db.flush.Durable events := by
  have hsome : ∀ id, (db.flush.storages id).isSome = (db.storages id).isSome := by simp [Db.flush]
  refine ⟨?_, (hsome _).trans h.catalog, ?_, fun id hne => (hsome id).trans (h.known id hne), ?_, h.segments⟩
  · exact flush_inv (P := fun _ => Lsm.Tidy) fun id m hm => (h.tidy id m hm).flush
  · intro id hid hne
    exact Option.map_eq_none_iff.mpr (h.internal id hid hne)
  · exact flush_inv (P := fun id l => l.Recoverable (logOf id events)) fun id m hm => (h.trees id m hm).flush

theorem Durable.compact (h : db.Durable events) {id : Bytes} (hc : db.Careful (.compact id)) :
    (db.compact id).Durable events := by
  unfold Careful at hc
  unfold Db.compact
  rcases hl : db.storages id with _ | l <;> simp only [hl] at hc ⊢
  · exact h
  · have ht := h.tidy id l hl
    exact h.update (h.not_internal hl) ((Lsm.treeInv_tidy ⟨0⟩).compact _ l ht)
      (compact_recoverable (h.trees id l hl) ht.tables hc) (fun _ _ => rfl) h.segments

section Clean

/-- A segment the cleaner removes holds persistent events only. -/
theorem isPersistent_of_accumulate {acc : Option Bool} {es : List Event}
    (hk : ∀ e ∈ es, (db.isPersistent e).isSome = true) (ha : db.accumulatePersistence acc es = some true) :
    acc ≠ some false ∧ ∀ e ∈ es, db.isPersistent e = some true := by
  induction es generalizing acc with
  | nil =>
    rw [accumulatePersistence] at ha
    simp [ha]
  | cons e es ih =>
    obtain ⟨hke, hkes⟩ := List.forall_mem_cons.mp hk
    obtain ⟨p, hp⟩ := Option.isSome_iff_exists.mp hke
    simp only [accumulatePersistence, hp] at ha
    obtain ⟨hacc, hes⟩ := ih hkes ha
    have hand : (acc.getD true && p) = true := by simpa using hacc
    rw [Bool.and_eq_true] at hand
    refine ⟨?_, List.forall_mem_cons.mpr ⟨by rw [hp, hand.2], hes⟩⟩
    rintro rfl
    exact absurd hand.1 (by simp)

theorem Durable.isPersistent_isSome (h : db.Durable events) : ∀ e ∈ events, (db.isPersistent e).isSome = true := by
  intro e he
  cases e with
  | upsert id seqNo key value =>
    have hmem : (⟨key, seqNo, value⟩ : Row) ∈ logOf id events := mem_logOf.mpr he
    rw [isPersistent, Option.isSome_map]
    exact h.known id (List.ne_nil_of_mem hmem)
  | commit tx => rfl

theorem pending_of_persistent {id : Bytes} {l : Lsm TransactionalValue} (hl : db.storages id = some l) {es : List Event}
    (hes : ∀ e ∈ es, db.isPersistent e = some true) : l.pending (logOf id es) = [] := by
  rw [Lsm.pending, List.filter_eq_nil_iff]
  intro row hrow
  have hp := hes _ (mem_logOf.mp hrow)
  rw [isPersistent, hl] at hp
  simpa using hp

/-- Leaving out segments without pending records leaves the pending records. -/
theorem pending_filter (id : Bytes) (l : Lsm TransactionalValue) (p : ℕ × List Event → Bool)
    {old : List (ℕ × List Event)} (hold : ∀ seg ∈ old, p seg = false → l.pending (logOf id seg.2) = []) :
    l.pending (logOf id ((old.filter p).flatMap Prod.snd)) = l.pending (logOf id (old.flatMap Prod.snd)) := by
  induction old with
  | nil => rfl
  | cons seg old ih =>
    obtain ⟨hseg, hold⟩ := List.forall_mem_cons.mp hold
    rw [List.flatMap_cons, logOf_append, Lsm.pending_append, ← ih hold]
    rcases hp : p seg with _ | _
    · rw [List.filter_cons_of_neg (by simp [hp]), hseg hp, List.nil_append]
    · rw [List.filter_cons_of_pos hp, List.flatMap_cons, logOf_append, Lsm.pending_append]

theorem Durable.clean (h : db.Durable events) (hc : db.Careful .clean) :
    ∃ events', db.clean.Durable events' ∧ ∀ e ∈ events', e ∈ events := by
  obtain ⟨old, last, hseg, rfl⟩ := h.segments
  have hin : ∀ seg ∈ old, ∀ e ∈ seg.2, e ∈ Wal.written old last := fun seg hs e he =>
    List.mem_append_left _ (List.mem_flatMap.mpr ⟨seg, hs, he⟩)
  have hobs : ∀ seg ∈ old, walName seg.1 ∈ db.obsoleteSegments → ∀ e ∈ seg.2, db.isPersistent e = some true := by
    intro seg hs hm
    obtain ⟨f, hf, hname⟩ := List.mem_map.mp hm
    obtain ⟨hf, hacc⟩ := List.mem_filter.mp hf
    have hfile := Dir.mem_listing.mp hf
    obtain ⟨seg', hs', rfl⟩ := List.mem_map.mp ((hseg.files f).mp hfile)
    have hfile' : (walName seg.1, seg.2) ∈ db.wal.dir.files :=
      (hseg.files _).mpr (List.mem_map.mpr ⟨seg, List.mem_append_left _ hs, rfl⟩)
    rw [getSegmentNoFromName_walName, Int.toNat_natCast] at hname
    rw [← hname] at hfile'
    rw [decide_eq_true_eq, Dir.unique hfile hfile'] at hacc
    exact (isPersistent_of_accumulate (fun e he => h.isPersistent_isSome e (hin seg hs e he)) hacc).2
  have hsub : ∀ e ∈ Wal.written (old.filter fun seg => walName seg.1 ∉ db.obsoleteSegments) last,
      e ∈ Wal.written old last := by
    intro e he
    rcases List.mem_append.mp he with he | he
    · obtain ⟨seg, hs, he⟩ := List.mem_flatMap.mp he
      exact hin seg (List.mem_filter.mp hs).1 e he
    · exact List.mem_append_right _ he
  refine ⟨_, ⟨h.tidy, h.catalog, h.internal, ?_, ?_, _, last, hseg.unlinkAll hc, rfl⟩, hsub⟩
  · intro id hne
    obtain ⟨row, hrow⟩ := List.exists_mem_of_ne_nil _ hne
    exact h.known id (List.ne_nil_of_mem (mem_logOf.mpr (hsub _ (mem_logOf.mp hrow))))
  · intro id l hl
    refine (h.trees id l hl).congr ?_
    rw [Wal.written, Wal.written, logOf_append, logOf_append, Lsm.pending_append, Lsm.pending_append]
    congr 1
    refine pending_filter id l _ ?_
    intro seg hs hp
    exact pending_of_persistent hl (hobs seg hs (by simpa using hp))

end Clean

theorem Durable.wal_events (h : db.Durable events) (hno : db.wal.currentSegmentNo < 10000) :
    Wal.events db.wal.dir = events := by
  obtain ⟨old, last, hseg, hev⟩ := h.segments
  rw [hseg.events hno, hev]

theorem Durable.openStorages (h : db.Durable events) {id : Bytes} {l : Lsm TransactionalValue}
    (hl : db.storages id = some l) : openStorages db.dirs id = some (Lsm.init l.dir) := by
  unfold Db.openStorages dirs
  rcases h.not_internal hl with hid | hid
  · rw [if_pos hid, hl]
    rfl
  · rw [if_neg hid, hl]
    split_ifs <;> rfl

/-- A storage is recovered from its own files and its own records in the log that is found. -/
theorem Durable.init_storages (h : db.Durable events) {id : Bytes} {l : Lsm TransactionalValue}
    (hl : db.storages id = some l) (log : Dir Bytes (List Event)) :
    (init o db.dirs log).storages id = some ((Lsm.init l.dir).replay o (logOf id (Wal.events log))) := by
  rw [Db.init_storages, h.openStorages hl]
  split_ifs with hlog
  · rw [hlog]
    rfl
  · rfl

/-- A restart recovers the storages there are, each from its own files and records. -/
theorem Durable.restart_storages (h : db.Durable events) (hno : db.wal.currentSegmentNo < 10000) (id : Bytes) :
    (db.restart o).storages id = (db.storages id).map fun l => (Lsm.init l.dir).replay o (logOf id events) := by
  rcases hl : db.storages id with _ | l
  · rw [restart, Db.init_storages, h.wal_events hno]
    have hlog : logOf id events = [] := by
      by_contra hne
      have := h.known id hne
      rw [hl] at this
      cases this
    have hne : id ≠ kSysTables := by
      rintro rfl
      have := h.catalog
      rw [hl] at this
      cases this
    rw [if_pos hlog, Db.openStorages, if_neg hne, dirs, hl]
    split_ifs <;> rfl
  · rw [restart, h.init_storages hl, h.wal_events hno]
    rfl

theorem Durable.restart (h : db.Durable events) (hno : db.wal.currentSegmentNo < 10000) :
    (db.restart o).Durable events := by
  obtain ⟨old, last, hseg, hev⟩ := h.segments
  have hstorages := h.restart_storages (o := o) hno
  have hsome : ∀ id, ((db.restart o).storages id).isSome = (db.storages id).isSome := by
    intro id
    rw [hstorages, Option.isSome_map]
  refine ⟨(Lsm.treeInv_tidy o).restart h.tidy, (hsome _).trans h.catalog, ?_,
    fun id hne => (hsome id).trans (h.known id hne), ?_, _, [], hseg.init hno, ?_⟩
  · intro id hid hne
    rw [hstorages, h.internal id hid hne]
    rfl
  · intro id l hl
    rw [hstorages] at hl
    obtain ⟨m, hm, rfl⟩ := Option.map_eq_some_iff.mp hl
    exact ((h.trees id m hm).restart o).1
  · rw [← hev]
    simp [Wal.written]

theorem inTable_of_mem {id : Bytes} {l : Lsm TransactionalValue} (hl : db.storages id = some l) {r : Row}
    (hr : r ∈ l.ssRecords) : db.inTable id r.seqNo = true := by
  obtain ⟨t, ht, hr⟩ := Lsm.mem_ssRecords.mp hr
  simp only [inTable, hl, List.any_eq_true, decide_eq_true_eq]
  exact ⟨t, ht, r, hr, rfl⟩

end Db

end StructureDb
