import StructureDb.Proofs.Names

/-! The levels of a tree, newest first: the mem table, the frozen mem tables from
the back and the ss tables from the back. When every level is sorted and holds
only sequence numbers above those of the levels after it, the key iterator and
the range iterator deliver the same versions of a key, newest first. -/

namespace StructureDb

section
variable {V : Type}

theorem LsmKeyIterator.advance_contents (c : List (Record V)) (p : List (List (Record V))) :
    (advance c p).current ++ (advance c p).pending.flatten = c ++ p.flatten := by
  induction p generalizing c with
  | nil => cases c <;> rfl
  | cons x p ih =>
    cases c with
    | nil => rw [advance, ih, List.flatten_cons, List.nil_append]
    | cons r c => rfl

theorem LsmKeyIterator.advance_current_nil {c : List (Record V)} {p : List (List (Record V))}
    (h : (advance c p).current = []) : c ++ p.flatten = [] := by
  induction p generalizing c with
  | nil =>
    cases c with
    | nil => rfl
    | cons r c => simp [advance] at h
  | cons x p ih =>
    cases c with
    | nil =>
      rw [advance] at h
      simpa using ih h
    | cons r c => simp [advance] at h

theorem LsmKeyIterator.next_advance (c : List (Record V)) (p : List (List (Record V))) :
    (advance c p).next.map Prod.fst = (c ++ p.flatten).head? := by
  have hc := advance_contents c p
  unfold next
  rcases he : (advance c p).current with _ | ⟨r, rest⟩
  · rw [advance_current_nil he]
    rfl
  · rw [← hc, he]
    rfl

/-- The iterator yields its sources one after another. -/
theorem LsmKeyIterator.collect_advance (n : ℕ) (c : List (Record V)) (p : List (List (Record V)))
    (hn : (c ++ p.flatten).length ≤ n) : (advance c p).collect n = c ++ p.flatten := by
  induction n generalizing c p with
  | zero => rw [List.eq_nil_of_length_eq_zero (Nat.le_zero.mp hn)]; rfl
  | succ n ih =>
    have hc := advance_contents c p
    unfold collect next
    rcases he : (advance c p).current with _ | ⟨r, rest⟩
    · exact (advance_current_nil he).symm
    · rw [he] at hc
      rw [← hc] at hn ⊢
      simp only [List.cons_append, List.cons.injEq, true_and]
      exact ih _ _ (by simpa using hn)

end

variable {V : Type} [LinearOrder V]

def Newer (a b : List (Record V)) : Prop := ∀ r ∈ a, ∀ s ∈ b, s.seqNo < r.seqNo

structure LevelsOk (n : ℕ) (levels : List (List (Record V))) : Prop where
  sorted : ∀ a ∈ levels, a.Pairwise (· ≤ ·)
  distinct : ∀ a ∈ levels, (a.map Record.seqNo).Nodup
  newer : levels.Pairwise Newer
  bound : ∀ a ∈ levels, ∀ r ∈ a, r.seqNo < n

namespace LevelsOk

variable {n : ℕ} {levels : List (List (Record V))}

theorem nil (n : ℕ) : LevelsOk n ([] : List (List (Record V))) :=
  ⟨by simp, by simp, by simp, by simp⟩

theorem sublist {levels' : List (List (Record V))} (h : LevelsOk n levels) (hs : levels'.Sublist levels) :
    LevelsOk n levels' :=
  ⟨fun a ha => h.sorted a (hs.subset ha), fun a ha => h.distinct a (hs.subset ha), h.newer.sublist hs,
    fun a ha => h.bound a (hs.subset ha)⟩

theorem mono {m : ℕ} (h : LevelsOk n levels) (hnm : n ≤ m) : LevelsOk m levels :=
  ⟨h.sorted, h.distinct, h.newer, fun a ha r hr => (h.bound a ha r hr).trans_le hnm⟩

theorem cons {a : List (Record V)} (h : LevelsOk n levels) (hs : a.Pairwise (· ≤ ·))
    (hd : (a.map Record.seqNo).Nodup) (hn : ∀ b ∈ levels, Newer a b) (hb : ∀ r ∈ a, r.seqNo < n) :
    LevelsOk n (a :: levels) :=
  ⟨List.forall_mem_cons.mpr ⟨hs, h.sorted⟩, List.forall_mem_cons.mpr ⟨hd, h.distinct⟩,
    List.pairwise_cons.mpr ⟨hn, h.newer⟩, List.forall_mem_cons.mpr ⟨hb, h.bound⟩⟩

theorem empty_cons (h : LevelsOk n levels) : LevelsOk n ([] :: levels) :=
  h.cons List.Pairwise.nil List.nodup_nil (by simp [Newer]) (by simp)

/-- No sequence number occurs twice in the tree. -/
theorem nodup (h : LevelsOk n levels) : (levels.flatten.map Record.seqNo).Nodup := by
  rw [List.map_flatten, List.nodup_flatten]
  refine ⟨?_, ?_⟩
  · intro x hx
    obtain ⟨a, ha, rfl⟩ := List.mem_map.mp hx
    exact h.distinct a ha
  · rw [List.pairwise_map]
    refine h.newer.imp ?_
    intro a b hab i hi hj
    obtain ⟨r, hr, rfl⟩ := List.mem_map.mp hi
    obtain ⟨s, hs, he⟩ := List.mem_map.mp hj
    exact absurd he (hab r hr s hs).ne

theorem desc (h : LevelsOk n levels) :
    levels.flatten.Pairwise fun r s => r.key = s.key → s.seqNo < r.seqNo := by
  rw [List.pairwise_flatten]
  refine ⟨?_, ?_⟩
  · intro a ha
    have hne : a.Pairwise fun r s => r.seqNo ≠ s.seqNo := List.pairwise_map.mp (h.distinct a ha)
    refine ((h.sorted a ha).and hne).imp ?_
    intro r s hrs hk
    exact lt_of_le_of_ne (Record.seqNo_le_of_le hrs.1 hk) hrs.2.symm
  · refine h.newer.imp ?_
    intro a b hab r hr s hs _
    exact hab r hr s hs

end LevelsOk

theorem scanRecords_eq_filter {records : List (Record V)} (h : records.Pairwise (· ≤ ·)) (range : ScanRange) :
    scanRecords range records = records.filter fun r => range.contains r.key := by
  have hdrop (lo : Bytes) : records.dropWhile (fun r => decide (r.key < lo)) =
      records.filter fun r => decide (lo ≤ r.key) := by
    rw [KMerge.dropWhile_eq_filter]
    · simp only [← decide_not, not_lt]
    · refine h.imp fun hab hb => ?_
      simp only [decide_eq_true_eq] at hb ⊢
      exact (Record.key_le_of_le hab).trans_lt hb
  have htake (p : Record V → Bool) (hi : Bytes) :
      (records.filter p).takeWhile (fun r => decide (r.key ≤ hi)) =
        (records.filter p).filter fun r => decide (r.key ≤ hi) := by
    apply KMerge.takeWhile_eq_filter
    refine (h.sublist List.filter_sublist).imp fun hab hb => ?_
    simp only [decide_eq_true_eq] at hb ⊢
    exact (Record.key_le_of_le hab).trans hb
  have hall : records.filter (fun _ => true) = records := by simp
  rcases range with ⟨_ | lo, _ | hi⟩
  · simp [scanRecords, ScanRange.contains]
  · have := htake (fun _ => true) hi
    rw [hall] at this
    simpa [scanRecords, ScanRange.contains] using this
  · simp [scanRecords, ScanRange.contains, hdrop]
  · simp only [scanRecords, ScanRange.contains, hdrop, htake, List.filter_filter, Option.all_some]
    congr 1
    funext r
    rw [Bool.and_comm]

namespace Lsm

def levels (l : Lsm V) : List (List (Record V)) :=
  l.memTable.impl :: (l.roMemTables.reverse.map MemTable.impl ++ l.ssTables.reverse.map SSTable.records)

def records (l : Lsm V) : List (Record V) := l.levels.flatten

def Ordered (l : Lsm V) : Prop := LevelsOk l.nextSeqNo l.levels

theorem keyIterator_eq (l : Lsm V) (key : Bytes) :
    l.keyIterator key = .advance (scanRecords (.only key) l.memTable.impl)
      ((l.roMemTables.reverse.map MemTable.impl ++ l.ssTables.reverse.map SSTable.records).map
        (scanRecords (.only key))) := by
  rw [List.map_append, List.map_map, List.map_map]
  rfl

theorem scanKey_eq (l : Lsm V) (key : Bytes) :
    l.scanKey key = (l.levels.map (scanRecords (.only key))).flatten := by
  have h := LsmKeyIterator.advance_contents (scanRecords (.only key) l.memTable.impl)
    ((l.roMemTables.reverse.map MemTable.impl ++ l.ssTables.reverse.map SSTable.records).map
      (scanRecords (.only key)))
  unfold scanKey
  simp only [keyIterator_eq]
  rw [LsmKeyIterator.collect_advance, levels, List.map_cons, List.flatten_cons]
  rw [← h, List.length_append]

theorem get_eq (l : Lsm V) (key : Bytes) : l.get key = (l.scanKey key).head?.map Record.value := by
  rw [get, scanKey_eq, levels, List.map_cons, List.flatten_cons, ← LsmKeyIterator.next_advance,
    ← keyIterator_eq, Option.map_map]
  rfl

def inputs (l : Lsm V) (range : ScanRange) : List (List (Record V)) :=
  l.memTable.scan range :: l.roMemTables.map (fun m => m.scan range) ++ l.ssTables.map fun t => t.scan range

theorem inputs_perm (l : Lsm V) (range : ScanRange) :
    (l.inputs range).flatten.Perm (l.levels.map (scanRecords range)).flatten := by
  simp only [inputs, levels, List.map_cons, List.map_append, List.flatten_cons, List.flatten_append,
    List.map_map, List.cons_append]
  refine List.Perm.append_left _ (List.Perm.append ?_ ?_)
  · exact ((List.reverse_perm _).map _).flatten.symm
  · exact ((List.reverse_perm _).map _).flatten.symm

theorem mem_levels {l : Lsm V} {a : List (Record V)} :
    a ∈ l.levels ↔ a = l.memTable.impl ∨ (∃ m ∈ l.roMemTables, m.impl = a) ∨ ∃ t ∈ l.ssTables,
      t.records = a := by
  simp [levels]

theorem scan_flatten {l : Lsm V} (h : ∀ a ∈ l.levels, a.Pairwise (· ≤ ·)) (range : ScanRange) :
    (l.levels.map (scanRecords range)).flatten = l.records.filter fun r => range.contains r.key := by
  rw [records, List.filter_flatten]
  congr 1
  exact List.map_congr_left fun a ha => scanRecords_eq_filter (h a ha) range

theorem scanKey_eq_filter {l : Lsm V} (h : ∀ a ∈ l.levels, a.Pairwise (· ≤ ·)) (key : Bytes) :
    l.scanKey key = l.records.filter fun r => r.key = key := by
  rw [scanKey_eq, scan_flatten h]
  simp only [ScanRange.contains_only]

theorem inputs_sorted {l : Lsm V} (h : ∀ a ∈ l.levels, a.Pairwise (· ≤ ·)) (range : ScanRange) :
    ∀ it ∈ l.inputs range, it.Pairwise (· ≤ ·) := by
  have hs : ∀ a ∈ l.levels, (scanRecords range a).Pairwise (· ≤ ·) := by
    intro a ha
    rw [scanRecords_eq_filter (h a ha)]
    exact (h a ha).sublist List.filter_sublist
  intro it hit
  simp only [inputs, List.cons_append, List.mem_cons, List.mem_append, List.mem_map] at hit
  rcases hit with rfl | ⟨m, hm, rfl⟩ | ⟨t, ht, rfl⟩
  · exact hs _ (mem_levels.mpr (Or.inl rfl))
  · exact hs _ (mem_levels.mpr (Or.inr (Or.inl ⟨m, hm, rfl⟩)))
  · exact hs _ (mem_levels.mpr (Or.inr (Or.inr ⟨t, ht, rfl⟩)))

theorem scanRange_sorted {l : Lsm V} (h : ∀ a ∈ l.levels, a.Pairwise (· ≤ ·)) (range : ScanRange) :
    (l.scanRange range).Pairwise (· ≤ ·) :=
  KMerge.merge_sorted _ (inputs_sorted h range)

theorem scanRange_perm {l : Lsm V} (h : ∀ a ∈ l.levels, a.Pairwise (· ≤ ·)) (range : ScanRange) :
    (l.scanRange range).Perm (l.records.filter fun r => range.contains r.key) :=
  (KMerge.merge_perm _).trans ((l.inputs_perm range).trans (scan_flatten h range ▸ List.Perm.refl _))

/-- Versions of one key, newest first, are in the order of the records. -/
theorem Ordered.scanKey_sorted {l : Lsm V} (h : l.Ordered) (key : Bytes) :
    (l.scanKey key).Pairwise (· ≤ ·) := by
  rw [scanKey_eq_filter h.sorted]
  rw [List.pairwise_filter]
  refine (LevelsOk.desc h).imp ?_
  intro r s hrs hr hs
  simp only [decide_eq_true_eq] at hr hs
  exact ((Record.lt_iff r s).mpr (Or.inr ⟨hr.trans hs.symm, Or.inl (hrs (hr.trans hs.symm))⟩)).le

/-- The fast path and the merge agree on an ordered tree. -/
theorem Ordered.scanKey_eq_scanRange {l : Lsm V} (h : l.Ordered) (key : Bytes) :
    l.scanKey key = l.scanRange (.only key) := by
  refine (KMerge.merge_eq (inputs_sorted h.sorted _) (h.scanKey_sorted key) ?_).symm
  rw [scanKey_eq]
  exact (l.inputs_perm _).symm

end Lsm

end StructureDb
