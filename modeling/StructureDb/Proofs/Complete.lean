import StructureDb.Proofs.Backing
import StructureDb.Proofs.Recovery

/-! A tree that was never compacted holds every record it was given, each once, and its
files are those of its tables, numbered from 0. A restart that replays the records
rebuilds it, and one that replays the first of them still has all of those. -/

namespace StructureDb.Lsm

variable {V : Type} [LinearOrder V] {l : Lsm V} {log log' : List (Record V)}

/-- `log` are the records that were put, in order. The names need not be in the order of the tables. -/
structure Complete (l : Lsm V) (log : List (Record V)) : Prop where
  recoverable : l.Recoverable log
  records : l.records.Perm log
  next : l.nextSeqNo = log.length + 1
  paths : (l.ssTables.map SSTable.path).Perm ((List.range l.ssTables.length).map sstName)
  files : ∀ f, f ∈ l.dir.files ↔ f ∈ l.ssTables.map fun t => (t.path, t.records)

theorem mem_ssRecords_flush {r : Record V} (h : r ∈ l.ssRecords) : r ∈ l.flush.ssRecords := by
  refine flush_of_flushFront (P := fun m => r ∈ m.ssRecords) ?_ h
  intro m hm
  rcases hro : m.roMemTables with _ | ⟨mem, rest⟩
  · rwa [flushFront_nil hro]
  · obtain ⟨t, ht, hr⟩ := mem_ssRecords.mp hm
    exact mem_ssRecords.mpr ⟨t, by rw [flushFront_ssTables hro]; exact List.mem_append_left _ ht, hr⟩

namespace Complete

theorem empty : (init (Dir.empty : Dir Bytes (List (Record V)))).Complete [] :=
  ⟨Recoverable.empty, List.Perm.refl _, rfl, List.Perm.refl _, fun _ => Iff.rfl⟩

theorem put (h : l.Complete log) (o : Options) (key : Bytes) (value : V) :
    (l.put o key value).1.Complete (log ++ [⟨key, l.nextSeqNo, value⟩]) := by
  have hss : (l.put o key value).1.ssTables = l.ssTables := doPut_ssTables ..
  have hdir : (l.put o key value).1.dir = l.dir := doPut_dir ..
  refine ⟨h.recoverable.put o key value, ?_, ?_, hss ▸ h.paths, by rw [hss, hdir]; exact h.files⟩
  · refine (doPut_records_perm o { l with nextSeqNo := l.nextSeqNo + 1 } l.nextSeqNo key value).trans ?_
    exact (h.records.cons _).trans (List.perm_append_singleton _ _).symm
  · rw [List.length_append, List.length_singleton, ← h.next]
    exact doPut_nextSeqNo ..

/-- The next table gets a name that no file has. -/
theorem new_name (h : l.Complete log) : ∀ f ∈ l.dir.files, f.1 ≠ sstName l.ssTables.length := by
  intro f hf he
  obtain ⟨t, ht, rfl⟩ := List.mem_map.mp ((h.files f).mp hf)
  obtain ⟨i, hi, hname⟩ := List.mem_map.mp (h.paths.mem_iff.mp (List.mem_map_of_mem ht))
  have hlt := List.mem_range.mp hi
  have heq := sstName_injective (hname.trans he)
  omega

theorem flushFront (h : l.Complete log) : l.flushFront.Complete log := by
  rcases hro : l.roMemTables with _ | ⟨m, rest⟩
  · rw [flushFront_nil hro]
    exact h
  refine ⟨h.recoverable.flushFront, ?_, (flushFront_nextSeqNo l).trans h.next, ?_, ?_⟩
  · rw [Lsm.records, flushFront_levels]
    exact h.records
  · rw [flushFront_ssTables hro, List.map_append, List.length_append, List.length_singleton, List.range_succ,
      List.map_append]
    exact h.paths.append (List.Perm.refl _)
  · intro f
    rw [flushFront_dir hro, flushFront_ssTables hro, Dir.mem_create, List.map_append, List.mem_append, ← h.files,
      List.map_singleton, List.mem_singleton, or_comm]
    exact or_congr_left ⟨And.left, fun hf => ⟨hf, h.new_name f hf⟩⟩

theorem flush (h : l.Complete log) : l.flush.Complete log :=
  flush_of_flushFront (P := fun m => m.Complete log) (fun _ hm => hm.flushFront) h

/-- The tables that `Init` opens, in the order of the names. -/
theorem reopened_tables (h : l.Complete log) : (init l.dir).ssTables.Perm l.ssTables := by
  have hnodup : (l.ssTables.map fun t => (t.path, t.records)).Nodup := by
    refine List.Nodup.of_map Prod.fst ?_
    rw [List.map_map]
    exact h.paths.nodup_iff.mpr (List.nodup_range.map sstName_injective)
  have hperm := l.dir.listing_perm.trans (Dir.files_perm hnodup h.files).symm
  rw [← init_ssTables] at hperm
  refine (List.map_perm_map_iff ?_).mp hperm
  rintro ⟨p, r⟩ ⟨q, s⟩ he
  cases he
  rfl

theorem mem_ssRecords_of_le (h : l.Complete log) {r : Record V} (hr : r ∈ log) (hle : r.seqNo ≤ l.maxPersistentSeqNo) :
    r ∈ l.ssRecords := by
  have hmem := h.records.mem_iff.mpr hr
  rw [records_eq] at hmem
  refine (List.mem_append.mp hmem).resolve_left ?_
  intro hm
  have hlt := (h.recoverable.bounds r hm).1
  omega

/-- Recovery from the first records of the log has all of them. -/
theorem replay_beginning (h : l.Complete log) (o : Options) (hp : log' <+: log) :
    ∀ r ∈ log', r ∈ ((init l.dir).replay o log').records := by
  intro r hr
  have hmax := h.recoverable.init_maxPersistentSeqNo
  obtain ⟨hss, -⟩ := replay_files o log' (init l.dir)
  rw [records_eq]
  by_cases hle : r.seqNo ≤ l.maxPersistentSeqNo
  · obtain ⟨t, ht, hrt⟩ := mem_ssRecords.mp (h.mem_ssRecords_of_le (hp.subset hr) hle)
    refine List.mem_append_right _ (mem_ssRecords.mpr ⟨t, ?_, hrt⟩)
    rw [hss]
    exact h.reopened_tables.mem_iff.mpr ht
  · -- above the greatest number in the files the log has no gap, and neither has its beginning
    obtain ⟨rest, rfl⟩ := hp
    have hcons := h.recoverable.consecutive
    rw [pending_append, Consecutive.from_append] at hcons
    have hpend : (init l.dir).pending log' = l.pending log' := by rw [pending, pending, hmax]
    obtain ⟨hrec, hkeep, -⟩ := @Recoverable.replay _ _ _ _ (Recoverable.init_recoverable l.dir) o log'
      (by rw [List.nil_append, hpend, hmax]; exact hcons.1)
    rw [List.nil_append] at hrec
    refine List.mem_append_left _ (hrec.inMemory.mem_iff.mpr ?_)
    rw [pending, hkeep, hmax]
    exact List.mem_filter.mpr ⟨hr, by simpa using hle⟩

theorem restart (h : l.Complete log) (o : Options) : ((init l.dir).replay o log).Complete log := by
  obtain ⟨hrec, hmax, hnext, -⟩ := h.recoverable.restart o
  obtain ⟨hss, hdir⟩ := replay_files o log (init l.dir)
  have htables := h.reopened_tables
  refine ⟨hrec, ?_, hnext.trans h.next, ?_, ?_⟩
  · have hpend : ((init l.dir).replay o log).pending log = l.pending log := by rw [pending, pending, hmax]
    have hmem : ((init l.dir).replay o log).memRecords.Perm l.memRecords :=
      (hpend ▸ hrec.inMemory).trans h.recoverable.inMemory.symm
    have hsst : ((init l.dir).replay o log).ssRecords.Perm l.ssRecords := by
      rw [ssRecords, hss, ssRecords]
      exact (((List.reverse_perm _).trans htables).trans (List.reverse_perm _).symm).map _ |>.flatten
    rw [records_eq]
    exact (hmem.append hsst).trans (records_eq l ▸ h.records)
  · rw [hss, htables.length_eq]
    exact (htables.map _).trans h.paths
  · intro f
    rw [hss, hdir]
    exact (h.files f).trans (htables.map _).mem_iff.symm

end Complete

end StructureDb.Lsm
