import StructureDb.Proofs.Levels

/-! What one operation does to the levels: a put adds the newest version, a flush
leaves the sequence of levels as it is, a compaction replaces the ss tables by
one table. -/

namespace StructureDb

variable {V : Type} [LinearOrder V]

/-- A record above every sequence number goes into the newest level. -/
theorem LevelsOk.insert {n : ℕ} {a : List (Record V)} {levels : List (List (Record V))} {r : Record V}
    (h : LevelsOk n (a :: levels)) (hr : n ≤ r.seqNo) :
    LevelsOk (r.seqNo + 1) (a.orderedInsert (· ≤ ·) r :: levels) := by
  have hperm : (a.orderedInsert (· ≤ ·) r).Perm (r :: a) := List.perm_orderedInsert _ _ _
  have hbound : ∀ s ∈ a, s.seqNo < n := h.bound a (by simp)
  have hnewer := List.pairwise_cons.mp h.newer
  refine LevelsOk.cons ((h.sublist (List.sublist_cons_self _ _)).mono (by omega))
    ((h.sorted a (by simp)).orderedInsert r _) ?_ ?_ ?_
  · rw [(hperm.map Record.seqNo).nodup_iff, List.map_cons, List.nodup_cons]
    refine ⟨?_, h.distinct a (by simp)⟩
    intro hm
    obtain ⟨s, hs, he⟩ := List.mem_map.mp hm
    have := hbound s hs
    omega
  · intro b hb s hs t ht
    rcases List.mem_cons.mp (hperm.subset hs) with rfl | hs
    · exact (h.bound b (by simp [hb]) t ht).trans_le hr
    · exact hnewer.1 b hb s hs t ht
  · intro s hs
    rcases List.mem_cons.mp (hperm.subset hs) with rfl | hs
    · omega
    · have := hbound s hs
      omega

/-- Inserting a record newer than its level puts it before the other versions of its key. -/
theorem filter_orderedInsert {a : List (Record V)} {r : Record V} (ha : a.Pairwise (· ≤ ·))
    (hr : ∀ s ∈ a, s.seqNo < r.seqNo) (key : Bytes) :
    (a.orderedInsert (· ≤ ·) r).filter (fun s => s.key = key) =
      (if r.key = key then [r] else []) ++ a.filter fun s => s.key = key := by
  have hperm : (a.orderedInsert (· ≤ ·) r).Perm (r :: a) := List.perm_orderedInsert _ _ _
  refine List.Perm.eq_of_pairwise (fun a b _ _ => (le_antisymm : a ≤ b → b ≤ a → a = b))
    ((ha.orderedInsert r _).sublist List.filter_sublist) ?_ ?_
  · split_ifs with hk
    · refine List.pairwise_cons.mpr ⟨?_, ha.sublist List.filter_sublist⟩
      intro s hs
      obtain ⟨hs, hsk⟩ := List.mem_filter.mp hs
      simp only [decide_eq_true_eq] at hsk
      exact ((Record.lt_iff r s).mpr (Or.inr ⟨hk.trans hsk.symm, Or.inl (hr s hs)⟩)).le
    · exact ha.sublist List.filter_sublist
  · refine (hperm.filter _).trans ?_
    rw [List.filter_cons]
    split_ifs with h1 h2 h2
    · exact List.Perm.refl _
    · exact absurd (by simpa using h1) h2
    · exact absurd (by simpa using h2) h1
    · exact List.Perm.refl _

namespace Lsm

variable {l : Lsm V}

def memRecords (l : Lsm V) : List (Record V) :=
  l.memTable.impl ++ (l.roMemTables.reverse.map MemTable.impl).flatten

def ssRecords (l : Lsm V) : List (Record V) := (l.ssTables.reverse.map SSTable.records).flatten

theorem records_eq (l : Lsm V) : l.records = l.memRecords ++ l.ssRecords := by
  simp [records, levels, memRecords, ssRecords]

section Put

variable (o : Options) (l : Lsm V) (seqNo : ℕ) (key : Bytes) (value : V)

theorem doPut_levels : (doPut o l seqNo key value).levels =
      (l.memTable.impl.orderedInsert (· ≤ ·) ⟨key, seqNo, value⟩) :: l.levels.tail ∨
    (doPut o l seqNo key value).levels =
      [] :: (l.memTable.impl.orderedInsert (· ≤ ·) ⟨key, seqNo, value⟩) :: l.levels.tail := by
  simp only [doPut]
  split_ifs
  · right
    simp [levels, MemTable.empty, MemTable.put]
  · left
    simp [levels, MemTable.put]

theorem doPut_ssTables : (doPut o l seqNo key value).ssTables = l.ssTables := by
  simp only [doPut]
  split_ifs <;> rfl

theorem doPut_roMemTables : l.roMemTables <+: (doPut o l seqNo key value).roMemTables := by
  simp only [doPut]
  split_ifs
  · exact List.prefix_append _ _
  · exact List.prefix_rfl

theorem doPut_dir : (doPut o l seqNo key value).dir = l.dir := by
  simp only [doPut]
  split_ifs <;> rfl

theorem doPut_nextSeqNo : (doPut o l seqNo key value).nextSeqNo = l.nextSeqNo := by
  simp only [doPut]
  split_ifs <;> rfl

theorem doPut_maxPersistentSeqNo : (doPut o l seqNo key value).maxPersistentSeqNo = l.maxPersistentSeqNo := by
  simp only [doPut]
  split_ifs <;> rfl

theorem doPut_memRecords : (doPut o l seqNo key value).memRecords =
    l.memTable.impl.orderedInsert (· ≤ ·) ⟨key, seqNo, value⟩ ++
      (l.roMemTables.reverse.map MemTable.impl).flatten := by
  simp only [doPut]
  split_ifs
  · simp [memRecords, MemTable.empty, MemTable.put]
  · simp [memRecords, MemTable.put]

theorem doPut_records : (doPut o l seqNo key value).records =
    l.memTable.impl.orderedInsert (· ≤ ·) ⟨key, seqNo, value⟩ ++ l.levels.tail.flatten := by
  rcases doPut_levels o l seqNo key value with h | h <;> simp [records, h]

theorem doPut_records_perm : (doPut o l seqNo key value).records.Perm (⟨key, seqNo, value⟩ :: l.records) := by
  rw [doPut_records]
  exact (List.perm_orderedInsert _ _ _).append_right _

theorem doPut_levelsOk {n : ℕ} (h : LevelsOk n l.levels) (hn : n ≤ seqNo) :
    LevelsOk (seqNo + 1) (doPut o l seqNo key value).levels := by
  have hins : LevelsOk (seqNo + 1) (l.memTable.impl.orderedInsert (· ≤ ·) ⟨key, seqNo, value⟩ :: l.levels.tail) :=
    LevelsOk.insert (r := ⟨key, seqNo, value⟩) (a := l.memTable.impl) h hn
  rcases doPut_levels o l seqNo key value with he | he
  · rw [he]
    exact hins
  · rw [he]
    exact hins.empty_cons

theorem doPut_filter {n : ℕ} (h : LevelsOk n l.levels) (hn : n ≤ seqNo) (k : Bytes) :
    (doPut o l seqNo key value).records.filter (fun r => r.key = k) =
      (if key = k then [⟨key, seqNo, value⟩] else []) ++ l.records.filter fun r => r.key = k := by
  have hmem : l.memTable.impl ∈ l.levels := by simp [levels]
  rw [doPut_records, List.filter_append, filter_orderedInsert (h.sorted _ hmem)
    (fun s hs => (h.bound _ hmem s hs).trans_le hn), List.append_assoc, ← List.filter_append]
  rfl

end Put

theorem put_ordered (o : Options) (h : l.Ordered) (key : Bytes) (value : V) : (put o l key value).1.Ordered := by
  unfold Ordered
  rw [put, doPut_nextSeqNo]
  exact doPut_levelsOk o { l with nextSeqNo := l.nextSeqNo + 1 } l.nextSeqNo key value h le_rfl

theorem putSeq_ordered (o : Options) (h : l.Ordered) (seqNo : ℕ) (key : Bytes) (value : V) :
    (putSeq o l seqNo key value).1.Ordered := by
  unfold putSeq
  split_ifs with hs
  · exact h
  · obtain rfl := not_not.mp hs
    change LevelsOk ((doPut o l _ key value).nextSeqNo + 1) (doPut o l _ key value).levels
    rw [doPut_nextSeqNo]
    exact doPut_levelsOk o l _ key value h le_rfl

theorem flushFront_nil (hro : l.roMemTables = []) : l.flushFront = l := by simp only [flushFront, hro]

theorem flushFront_cons {m : MemTable V} {rest : List (MemTable V)} (hro : l.roMemTables = m :: rest) :
    l.flushFront = (l.writeTable (l.flushTable m)).publishFlush (l.flushTable m) := by simp only [flushFront, hro]

theorem flushFront_ssTables {m : MemTable V} {rest : List (MemTable V)} (hro : l.roMemTables = m :: rest) :
    l.flushFront.ssTables = l.ssTables ++ [l.flushTable m] := by rw [flushFront_cons hro]; rfl

theorem flushFront_dir {m : MemTable V} {rest : List (MemTable V)} (hro : l.roMemTables = m :: rest) :
    l.flushFront.dir = l.dir.create (sstName l.ssTables.length) m.impl := by rw [flushFront_cons hro]; rfl

theorem flushFront_roMemTables {m : MemTable V} {rest : List (MemTable V)} (hro : l.roMemTables = m :: rest) :
    l.flushFront.roMemTables = rest := by simp only [flushFront_cons hro, publishFlush, writeTable, hro, List.tail_cons]

theorem flushFront_levels (l : Lsm V) : l.flushFront.levels = l.levels := by
  unfold flushFront
  cases h : l.roMemTables with
  | nil => rfl
  | cons m rest => simp [levels, publishFlush, writeTable, flushTable, h]

theorem flushFront_nextSeqNo (l : Lsm V) : l.flushFront.nextSeqNo = l.nextSeqNo := by
  unfold flushFront
  split <;> rfl

/-- What every turn of the flush loop keeps, a flush keeps. -/
theorem flush_of_flushFront {P : Lsm V → Prop} (hturn : ∀ l, P l → P l.flushFront) {l : Lsm V} (h : P l) :
    P l.flush := by
  unfold flush
  generalize l.roMemTables.length = n
  induction n generalizing l with
  | zero => exact h
  | succ n ih => exact ih (hturn l h)

theorem flush_levels (l : Lsm V) : l.flush.levels = l.levels :=
  flush_of_flushFront (P := fun m => m.levels = l.levels) (fun m hm => (flushFront_levels m).trans hm) rfl

theorem flush_nextSeqNo (l : Lsm V) : l.flush.nextSeqNo = l.nextSeqNo :=
  flush_of_flushFront (P := fun m => m.nextSeqNo = l.nextSeqNo) (fun m hm => (flushFront_nextSeqNo m).trans hm) rfl

theorem flush_ordered (h : l.Ordered) : l.flush.Ordered := by
  unfold Ordered
  rw [flush_levels, flush_nextSeqNo]
  exact h

theorem mergedRecords_perm (l : Lsm V) : l.mergedRecords.Perm l.ssRecords := by
  refine (KMerge.merge_perm _).trans ?_
  rw [ssRecords]
  exact ((List.reverse_perm _).map _).flatten.symm

theorem mergedRecords_sorted (h : ∀ t ∈ l.ssTables, t.records.Pairwise (· ≤ ·)) :
    l.mergedRecords.Pairwise (· ≤ ·) := by
  apply KMerge.merge_sorted
  intro it hit
  obtain ⟨t, ht, rfl⟩ := List.mem_map.mp hit
  exact h t ht

theorem Ordered.ssTables_sorted (h : l.Ordered) : ∀ t ∈ l.ssTables, t.records.Pairwise (· ≤ ·) :=
  fun t ht => h.sorted _ (mem_levels.mpr (Or.inr (Or.inr ⟨t, ht, rfl⟩)))

theorem Ordered.ssLevels (h : l.Ordered) :
    LevelsOk l.nextSeqNo (l.ssTables.reverse.map SSTable.records) :=
  h.sublist ((List.sublist_append_right _ _).trans (List.sublist_cons_self _ _))

/-- On an ordered tree the merge lists the versions of a key as the tables do, newest first. -/
theorem Ordered.mergedRecords_filter (h : l.Ordered) (key : Bytes) :
    l.mergedRecords.filter (fun r => r.key = key) = l.ssRecords.filter fun r => r.key = key := by
  refine List.Perm.eq_of_pairwise (fun a b _ _ => (le_antisymm : a ≤ b → b ≤ a → a = b))
    ((mergedRecords_sorted h.ssTables_sorted).sublist List.filter_sublist) ?_
    (l.mergedRecords_perm.filter _)
  rw [List.pairwise_filter]
  refine h.ssLevels.desc.imp ?_
  intro r s hrs hr hs
  simp only [decide_eq_true_eq] at hr hs
  exact ((Record.lt_iff r s).mpr (Or.inr ⟨hr.trans hs.symm, Or.inl (hrs (hr.trans hs.symm))⟩)).le

theorem publishFlush_levels {m : MemTable V} {rest : List (MemTable V)} {t : SSTable V}
    (hro : l.roMemTables = m :: rest) (ht : t.records = m.impl) : (l.publishFlush t).levels = l.levels := by
  simp [levels, publishFlush, hro, ht]

theorem publishCompact_levels (l : Lsm V) (t : SSTable V) :
    (l.publishCompact t).levels =
      l.memTable.impl :: l.roMemTables.reverse.map MemTable.impl ++ [t.records] := by
  simp [levels, publishCompact]

/-- One table may take the place of the others if it is sorted and invents no sequence number. -/
theorem publishCompact_ordered {t : SSTable V} (h : l.Ordered) (hsort : t.records.Pairwise (· ≤ ·))
    (hsub : (t.records.map Record.seqNo).Sublist (l.mergedRecords.map Record.seqNo)) :
    (l.publishCompact t).Ordered := by
  -- every record of the new table carries the number of a record of the old ones
  have hold : ∀ r ∈ t.records, ∃ u ∈ l.ssTables, ∃ s ∈ u.records, s.seqNo = r.seqNo := by
    intro r hr
    obtain ⟨s, hs, he⟩ := List.mem_map.mp (hsub.subset (List.mem_map_of_mem hr))
    obtain ⟨b, hb, hs⟩ := List.mem_flatten.mp (l.mergedRecords_perm.subset hs)
    obtain ⟨u, hu, rfl⟩ := List.mem_map.mp hb
    exact ⟨u, List.mem_reverse.mp hu, s, hs, he⟩
  have hnew := h.newer
  rw [levels, ← List.cons_append, List.pairwise_append] at hnew
  have hmem : LevelsOk l.nextSeqNo (l.memTable.impl :: l.roMemTables.reverse.map MemTable.impl) :=
    h.sublist (List.sublist_append_left _ _)
  change LevelsOk l.nextSeqNo _
  rw [publishCompact_levels]
  refine ⟨?_, ?_, ?_, ?_⟩
  · intro a ha
    rw [List.mem_append, List.mem_singleton] at ha
    rcases ha with ha | rfl
    · exact hmem.sorted a ha
    · exact hsort
  · intro a ha
    rw [List.mem_append, List.mem_singleton] at ha
    rcases ha with ha | rfl
    · exact hmem.distinct a ha
    · refine hsub.nodup ?_
      rw [(l.mergedRecords_perm.map _).nodup_iff]
      exact h.ssLevels.nodup
  · rw [List.pairwise_append]
    refine ⟨hmem.newer, List.pairwise_singleton _ _, ?_⟩
    intro a ha b hb r hr s hs
    rw [List.mem_singleton] at hb
    subst hb
    obtain ⟨u, hu, v, hv, he⟩ := hold s hs
    rw [← he]
    exact hnew.2.2 a ha u.records (List.mem_map_of_mem (List.mem_reverse.mpr hu)) r hr v hv
  · intro a ha r hr
    rw [List.mem_append, List.mem_singleton] at ha
    rcases ha with ha | rfl
    · exact hmem.bound a ha r hr
    · obtain ⟨u, hu, v, hv, he⟩ := hold r hr
      rw [← he]
      exact h.bound _ (mem_levels.mpr (Or.inr (Or.inr ⟨u, hu, rfl⟩))) v hv

/-- A strategy that keeps the order of its input and invents no sequence number. -/
def StrategyOk (strategy : List (Record V) → List (Record V)) : Prop :=
  ∀ input : List (Record V), input.Pairwise (· ≤ ·) → (strategy input).Pairwise (· ≤ ·) ∧
    ((strategy input).map Record.seqNo).Sublist (input.map Record.seqNo)

theorem compact_records (l : Lsm V) (strategy : List (Record V) → List (Record V)) :
    (l.compact strategy).records = l.memRecords ++ strategy l.mergedRecords := by
  simp [records, levels, compact, removeFiles, publishCompact, writeTable, compactTable, memRecords]

theorem compact_ordered (h : l.Ordered) {strategy : List (Record V) → List (Record V)}
    (hs : StrategyOk strategy) : (l.compact strategy).Ordered := by
  obtain ⟨hsort, hsub⟩ := hs _ (mergedRecords_sorted h.ssTables_sorted)
  have hpub : (l.publishCompact (l.compactTable strategy)).Ordered := publishCompact_ordered h hsort hsub
  exact hpub

end Lsm

end StructureDb
