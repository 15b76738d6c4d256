import StructureDb.Proofs.Contents
import StructureDb.Proofs.Recovery

/-! What holds of a tree in use in every state, restarts included: the levels are sorted, no mem table
holds a record twice, and the number of the next put is a new one. -/

namespace StructureDb

variable {V : Type} [LinearOrder V]

namespace Lsm

/-- No mem table holds a record twice, and the next number is a new one. -/
structure Readable (l : Lsm V) : Prop extends Tidy l where
  active : l.memTable.impl.Pairwise (· < ·)
  frozen : ∀ t ∈ l.roMemTables, t.impl.Pairwise (· < ·)
  bound : ∀ r ∈ l.records, r.seqNo < l.nextSeqNo

namespace Readable

variable {l : Lsm V}

theorem init {dir : Dir Bytes (List (Record V))} (h : (init dir).Tidy) : (init dir).Readable := by
  refine ⟨h, List.Pairwise.nil, fun t ht => absurd ht List.not_mem_nil, ?_⟩
  intro r hr
  rw [records_eq, List.mem_append, mem_ssRecords] at hr
  rcases hr with hr | ⟨t, ht, hr⟩
  · cases hr
  · obtain ⟨f, hf, rfl⟩ := List.mem_map.mp ht
    exact Nat.lt_succ_of_le (init_maxPersistentSeqNo_le.mp le_rfl f (Dir.mem_listing.mp hf) r hr)

theorem put (h : l.Readable) (o : Options) (key : Bytes) (value : V) : (l.put o key value).1.Readable := by
  have hnew : ∀ r ∈ l.memTable.impl, r.seqNo < l.nextSeqNo :=
    fun r hr => h.bound r (List.mem_flatten.mpr ⟨_, mem_levels.mpr (Or.inl rfl), hr⟩)
  have hlt : (l.memTable.put ⟨key, l.nextSeqNo, value⟩).impl.Pairwise (· < ·) := by
    have hperm := List.perm_orderedInsert (· ≤ ·) (⟨key, l.nextSeqNo, value⟩ : Record V) l.memTable.impl
    have hnodup : (l.memTable.put ⟨key, l.nextSeqNo, value⟩).impl.Nodup := by
      refine hperm.nodup_iff.mpr (List.nodup_cons.mpr ⟨fun hr => absurd (hnew _ hr) (lt_irrefl _), ?_⟩)
      exact h.active.imp fun hlt => hlt.ne
    exact ((l.memTable.put _).sorted.and hnodup).imp fun hle => lt_of_le_of_ne hle.1 hle.2
  have hbound : ∀ r ∈ (l.put o key value).1.records, r.seqNo < (l.put o key value).1.nextSeqNo := by
    intro r hr
    rw [show (l.put o key value).1.nextSeqNo = l.nextSeqNo + 1 from doPut_nextSeqNo ..]
    rcases List.mem_cons.mp ((doPut_records_perm ..).mem_iff.mp hr) with rfl | hr
    · exact Nat.lt_succ_self _
    · exact (h.bound r hr).trans (Nat.lt_succ_self _)
  refine ⟨h.toTidy.congr (doPut_ssTables ..) (doPut_dir ..), ?_, ?_, hbound⟩
  · simp only [Lsm.put, doPut]
    split_ifs
    · exact List.Pairwise.nil
    · exact hlt
  · simp only [Lsm.put, doPut]
    split_ifs
    · intro t ht
      rcases List.mem_append.mp ht with ht | ht
      · exact h.frozen t ht
      · rw [List.mem_singleton.mp ht]
        exact hlt
    · exact h.frozen

theorem replay (h : l.Readable) (o : Options) (log : List (Record V)) : (l.replay o log).Readable := by
  induction log generalizing l with
  | nil => exact h
  | cons r log ih =>
    refine ih (l := (l.putSeq o r.seqNo r.key r.value).1) ?_
    by_cases hseq : r.seqNo = l.nextSeqNo
    · rw [hseq, putSeq_next]
      exact h.put o r.key r.value
    · rw [putSeq, if_pos hseq]
      exact h

theorem withDir (h : l.Readable) {dir : Dir Bytes (List (Record V))}
    (hdir : ∀ f ∈ dir.files, f ∈ l.dir.files ∨ f.2.Pairwise (· ≤ ·)) : ({ l with dir } : Lsm V).Readable :=
  ⟨⟨h.tables, fun f hf => (hdir f hf).elim (h.files f) id⟩, h.active, h.frozen, h.bound⟩

theorem publishFlush (h : l.Readable) {t : MemTable V} {rest : List (MemTable V)} {u : SSTable V}
    (hro : l.roMemTables = t :: rest) (hu : u.records = t.impl) : (l.publishFlush u).Readable := by
  refine ⟨⟨?_, h.files⟩, h.active, ?_, ?_⟩
  · intro v hv
    rcases List.mem_append.mp hv with hv | hv
    · exact h.tables v hv
    · rw [List.mem_singleton.mp hv, hu]
      exact t.sorted
  · intro t' ht'
    exact h.frozen t' (List.mem_of_mem_tail ht')
  · rw [records, publishFlush_levels hro hu]
    exact h.bound

theorem publishCompact (h : l.Readable) {u : SSTable V} (hu : u.records = l.mergedRecords) :
    (l.publishCompact u).Readable := by
  refine ⟨⟨?_, h.files⟩, h.active, h.frozen, ?_⟩
  · intro v hv
    rw [List.mem_singleton.mp hv, hu]
    exact mergedRecords_sorted h.tables
  · intro r hr
    exact h.bound r ((Served.publishCompact_records_perm hu).mem_iff.mp hr)

end Readable

end Lsm

namespace Served

structure Readable (s : Served V) : Prop where
  lsm : s.lsm.Readable
  job : s.JobOk

variable {s t : Served V}

theorem advance_cases (hs : s.Readable) (h : s.advance = some t) :
    ((∀ p u, s.job ≠ .flushWritten p u) ∧ (∀ ps u, s.job ≠ .compactWritten ps u) ∧
      ∃ dir, t.lsm = { s.lsm with dir } ∧
        ∀ f ∈ dir.files, f ∈ s.lsm.dir.files ∨ f.2.Pairwise (· ≤ ·)) ∨
      (∃ p u m rest, s.job = .flushWritten p u ∧ s.lsm.roMemTables = m :: rest ∧ u.records = m.impl ∧
        t.lsm = s.lsm.publishFlush u) ∨
      ∃ ps u, s.job = .compactWritten ps u ∧ u.records = s.lsm.mergedRecords ∧ t.lsm = s.lsm.publishCompact u := by
  have hsorted := Lsm.mergedRecords_sorted hs.lsm.tables
  have hwrite (u : SSTable V) (hu : u.records.Pairwise (· ≤ ·)) (f : Bytes × List (Record V))
      (hf : f ∈ (s.lsm.dir.create u.path u.records).files) : f ∈ s.lsm.dir.files ∨ f.2.Pairwise (· ≤ ·) := by
    rcases Dir.mem_create.mp hf with rfl | ⟨hf, -⟩
    · exact Or.inr hu
    · exact Or.inl hf
  have hj := hs.job
  unfold JobOk at hj
  unfold advance at h
  rcases hjob : s.job with _ | (_ | p) | ⟨p, u⟩ | ⟨ps, u⟩ | ⟨ps, u⟩ | (_ | ⟨path, ps⟩) <;>
    simp only [hjob] at h hj
  · cases h
  · cases h
    exact Or.inl ⟨nofun, nofun, s.lsm.dir, rfl, fun f hf => Or.inl hf⟩
  · rcases hro : s.lsm.roMemTables with _ | ⟨m, rest⟩ <;> simp only [hro] at h
    · cases h
    · cases h
      exact Or.inl ⟨nofun, nofun, _, rfl, hwrite _ m.sorted⟩
  · cases h
    obtain ⟨m, rest, hro, hu, -⟩ := hj
    exact Or.inr (Or.inl ⟨p, u, m, rest, rfl, hro, hu, rfl⟩)
  · cases h
    exact Or.inl ⟨nofun, nofun, _, rfl, hwrite _ (hj ▸ hsorted)⟩
  · cases h
    exact Or.inr (Or.inr ⟨ps, u, rfl, hj, rfl⟩)
  · cases h
    exact Or.inl ⟨nofun, nofun, s.lsm.dir, rfl, fun f hf => Or.inl hf⟩
  · cases h
    exact Or.inl ⟨nofun, nofun, _, rfl, fun f hf => Or.inl (Dir.mem_unlinkAll.mp hf).1⟩

theorem step_beginFlush {o : Options} (h : s.step o .beginFlush = some t) :
    t = { s with job := .flush s.lsm.roMemTables.length } := by
  simp only [Served.step] at h
  split at h <;> cases h
  rfl

theorem step_beginCompact {o : Options} (h : s.step o .beginCompact = some t) :
    t = { s with job := .compact s.lsm.filesToDelete (s.lsm.compactTable copyRows) } := by
  simp only [Served.step] at h
  split at h <;> cases h
  rfl

theorem step_log {o : Options} {a : Action V} (ha : ∀ key value, a ≠ .put key value) (h : s.step o a = some t) :
    t.log = s.log := by
  cases a with
  | put key value => exact absurd rfl (ha key value)
  | beginFlush =>
    obtain rfl := step_beginFlush h
    rfl
  | beginCompact =>
    obtain rfl := step_beginCompact h
    rfl
  | advance =>
    simp only [Served.step, Served.advance] at h
    split at h
    · cases h
    · cases h
      rfl
    · split at h
      · cases h
      · cases h
        rfl
    all_goals
      cases h
      rfl
  | restart =>
    cases h
    rfl

theorem Readable.step (hs : s.Readable) (o : Options) {a : Action V} (h : s.step o a = some t) : t.Readable := by
  cases a with
  | put key value =>
    cases h
    exact ⟨hs.lsm.put o key value, put_jobOk o hs.job key value _⟩
  | beginFlush =>
    obtain rfl := step_beginFlush h
    exact ⟨hs.lsm, le_refl _⟩
  | beginCompact =>
    obtain rfl := step_beginCompact h
    exact ⟨hs.lsm, rfl⟩
  | advance =>
    refine ⟨?_, advance_jobOk hs.job h⟩
    rcases advance_cases hs h with ⟨-, -, dir, hlsm, hdir⟩ | ⟨p, u, m, rest, -, hro, hu, hlsm⟩ | ⟨ps, u, -, hu,
      hlsm⟩
    · rw [hlsm]
      exact hs.lsm.withDir hdir
    · rw [hlsm]
      exact hs.lsm.publishFlush hro hu
    · rw [hlsm]
      exact hs.lsm.publishCompact hu
  | restart =>
    cases h
    exact ⟨(Lsm.Readable.init hs.lsm.reopen).replay o s.log, trivial⟩

theorem Readable.run (o : Options) {acts : List (Action V)}
    (h : Machine.run (Served.step o) (start Dir.empty) acts = some s) :
    s.Readable := by
  refine Machine.run_inv (G := fun _ _ => True) (P := fun _ s => s.Readable) ?_ ?_ ?_ h
  · exact ⟨.init ⟨fun t ht => absurd ht List.not_mem_nil, fun f hf => absurd hf List.not_mem_nil⟩, trivial⟩
  · exact fun _ _ _ _ hs _ h => hs.step o h
  · exact Machine.guarded_of_forall (fun _ _ _ => trivial) _

end Served

end StructureDb
