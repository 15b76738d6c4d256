import StructureDb.Proofs.Contents

/-! `Lsm::Init` rebuilds the order of the tables from their names. When the names
ascend in the order of age, the rebuilt tree is ordered and the two read paths
agree; the numbering of `Flush` and `Compact` does not always keep them so. -/

namespace StructureDb

section

variable {α : Type}

theorem foldl_max_le (f : α → ℕ) (l : List α) (a n : ℕ) :
    l.foldl (fun m x => max m (f x)) a ≤ n ↔ a ≤ n ∧ ∀ x ∈ l, f x ≤ n := by
  induction l generalizing a with
  | nil => simp
  | cons x l ih => rw [List.foldl_cons, ih, max_le_iff, List.forall_mem_cons, and_assoc]

theorem foldl_max_eq (f : α → ℕ) (l : List α) (a : ℕ) :
    l.foldl (fun m x => max m (f x)) a = a ∨ ∃ x ∈ l, f x = l.foldl (fun m x => max m (f x)) a := by
  induction l generalizing a with
  | nil => exact Or.inl rfl
  | cons x l ih =>
    rw [List.foldl_cons]
    rcases ih (max a (f x)) with he | ⟨y, hy, he⟩
    · rcases max_choice a (f x) with hm | hm
      · exact Or.inl (he.trans hm)
      · exact Or.inr ⟨x, List.mem_cons_self, (he.trans hm).symm⟩
    · exact Or.inr ⟨y, List.mem_cons_of_mem _ hy, he⟩

theorem SSTable.getMaxSeqNo_le {t : SSTable α} {n : ℕ} :
    t.getMaxSeqNo ≤ n ↔ ∀ r ∈ t.records, r.seqNo ≤ n := by
  rw [getMaxSeqNo, foldl_max_le]
  simp

theorem SSTable.exists_maxSeqNo {t : SSTable α} (h : t.records ≠ []) : ∃ r ∈ t.records, r.seqNo = t.getMaxSeqNo := by
  rcases foldl_max_eq Record.seqNo t.records 0 with he | he
  · obtain ⟨r, hr⟩ := List.exists_mem_of_ne_nil _ h
    have hle := getMaxSeqNo_le.mp (le_refl t.getMaxSeqNo) r hr
    have hz : t.getMaxSeqNo = 0 := he
    exact ⟨r, hr, by omega⟩
  · exact he

theorem files_create {d : Dir Bytes (List (Record α))} {us : List (SSTable α)} {t : SSTable α}
    (h : ∀ f ∈ d.files, ∃ u ∈ us, (u.path, u.records) = f) :
    ∀ f ∈ (d.create t.path t.records).files, f = (t.path, t.records) ∨ ∃ u ∈ us, (u.path, u.records) = f := by
  intro f hf
  rcases Dir.mem_create.mp hf with hf | ⟨hf, -⟩
  · exact Or.inl hf
  · exact Or.inr (h f hf)

end

variable {V : Type} [LinearOrder V]

namespace Lsm

theorem init_maxPersistentSeqNo_le {dir : Dir Bytes (List (Record V))} {n : ℕ} :
    (init dir).maxPersistentSeqNo ≤ n ↔ ∀ f ∈ dir.files, ∀ r ∈ f.2, r.seqNo ≤ n := by
  unfold init
  simp only [foldl_max_le, List.forall_mem_map, SSTable.getMaxSeqNo_le, Dir.mem_listing, zero_le, true_and]

theorem init_levels (dir : Dir Bytes (List (Record V))) :
    (init dir).levels = [] :: dir.listing.reverse.map Prod.snd := by
  simp [levels, init, MemTable.empty, Function.comp_def]

/-- A directory whose files are among `tables`, named in the order of their age, is loaded in
that order. -/
theorem init_ordered {dir : Dir Bytes (List (Record V))} {tables : List (SSTable V)} {n : ℕ}
    (hdir : ∀ f ∈ dir.files, ∃ t ∈ tables, (t.path, t.records) = f)
    (hasc : tables.Pairwise fun t u => t.path ≤ u.path)
    (hlev : LevelsOk n (tables.reverse.map SSTable.records)) : (init dir).Ordered := by
  have hmem : ∀ a ∈ dir.listing.reverse.map Prod.snd, a ∈ tables.reverse.map SSTable.records := by
    intro a ha
    obtain ⟨f, hf, rfl⟩ := List.mem_map.mp ha
    obtain ⟨t, ht, rfl⟩ := hdir f (Dir.mem_listing.mp (List.mem_reverse.mp hf))
    exact List.mem_map_of_mem (List.mem_reverse.mpr ht)
  -- of two tables, the one with the greater name is the newer one
  have hnewer : ∀ t ∈ tables, ∀ u ∈ tables, t.path < u.path → Newer u.records t.records := by
    have hage := List.pairwise_reverse.mp (List.pairwise_map.mp hlev.newer)
    intro t ht u hu
    refine List.Pairwise.forall_of_forall_of_flip (R := fun t u => t.path < u.path → Newer u.records t.records)
      (fun _ _ h => absurd h (lt_irrefl _)) ?_ ?_ ht hu
    · refine hage.imp ?_
      intro t u h _
      exact h
    · exact hasc.imp fun hle hlt => absurd hle (not_le.mpr hlt)
  unfold Ordered
  rw [init_levels]
  refine LevelsOk.empty_cons ⟨?_, ?_, ?_, ?_⟩
  · exact fun a ha => hlev.sorted a (hmem a ha)
  · exact fun a ha => hlev.distinct a (hmem a ha)
  · rw [List.pairwise_map, List.pairwise_reverse]
    refine List.Pairwise.imp_of_mem ?_ dir.listing_sorted
    intro f g hf hg hlt
    obtain ⟨t, ht, rfl⟩ := hdir f (Dir.mem_listing.mp hf)
    obtain ⟨u, hu, rfl⟩ := hdir g (Dir.mem_listing.mp hg)
    exact hnewer t ht u hu hlt
  · intro a ha r hr
    obtain ⟨f, hf, rfl⟩ := List.mem_map.mp ha
    have hf := Dir.mem_listing.mp (List.mem_reverse.mp hf)
    exact Nat.lt_succ_of_le (init_maxPersistentSeqNo_le.mp le_rfl f hf r hr)

theorem init_files (dir : Dir Bytes (List (Record V))) :
    ∀ f ∈ dir.files, ∃ t ∈ (init dir).ssTables, (t.path, t.records) = f := by
  intro f hf
  exact ⟨⟨f.1, f.2⟩, List.mem_map.mpr ⟨f, Dir.mem_listing.mpr hf, rfl⟩, rfl⟩

theorem putSeq_files (o : Options) (l : Lsm V) (seqNo : ℕ) (key : Bytes) (value : V) :
    (putSeq o l seqNo key value).1.ssTables = l.ssTables ∧ (putSeq o l seqNo key value).1.dir = l.dir := by
  unfold putSeq
  split_ifs
  · exact ⟨rfl, rfl⟩
  · exact ⟨doPut_ssTables .., doPut_dir ..⟩

theorem replay_ordered (o : Options) (log : List (Record V)) {l : Lsm V} (h : l.Ordered) :
    (l.replay o log).Ordered := by
  induction log generalizing l with
  | nil => exact h
  | cons r log ih => exact ih (putSeq_ordered o h r.seqNo r.key r.value)

theorem replay_files (o : Options) (log : List (Record V)) (l : Lsm V) :
    (l.replay o log).ssTables = l.ssTables ∧ (l.replay o log).dir = l.dir := by
  induction log generalizing l with
  | nil => exact ⟨rfl, rfl⟩
  | cons r log ih =>
    obtain ⟨h1, h2⟩ := ih (l.putSeq o r.seqNo r.key r.value).1
    obtain ⟨hss, hdir⟩ := putSeq_files o l r.seqNo r.key r.value
    exact ⟨h1.trans hss, h2.trans hdir⟩

end Lsm

namespace Served

def tables (s : Served V) : List (SSTable V) :=
  match s.job with
  | .flushWritten _ t => s.lsm.ssTables ++ [t]
  | _ => s.lsm.ssTables

/-- Whether a compaction has written its table and not yet removed all the old ones. -/
def replacing (s : Served V) : Bool :=
  match s.job with
  | .compactWritten _ _ => true
  | .remove paths => !paths.isEmpty
  | _ => false

/-- At a restart the names of the tables ascend in the order of age, and no compaction stands
between writing its table and removing the old ones. -/
def RestartSafe (s : Served V) (a : Action V) : Prop :=
  match a with
  | .restart => s.replacing = false ∧ s.tables.Pairwise fun t u => t.path ≤ u.path
  | _ => True

instance (s : Served V) : DecidablePred s.RestartSafe
  | .restart => inferInstanceAs (Decidable (_ ∧ _))
  | .put _ _ | .beginFlush | .beginCompact | .advance => isTrue trivial

/-- Every file is the file of an open table, or of the table a job is about to publish, or it
is about to be removed. -/
def FilesOk (s : Served V) : Prop :=
  match s.job with
  | .compact paths _ =>
    (∀ u ∈ s.lsm.ssTables, u.path ∈ paths) ∧ ∀ f ∈ s.lsm.dir.files, ∃ u ∈ s.lsm.ssTables,
      (u.path, u.records) = f
  | .compactWritten paths t =>
    (∀ u ∈ s.lsm.ssTables, u.path ∈ paths) ∧
      ∀ f ∈ s.lsm.dir.files, f = (t.path, t.records) ∨ ∃ u ∈ s.lsm.ssTables, (u.path, u.records) = f
  | .remove paths => ∀ f ∈ s.lsm.dir.files, f.1 ∈ paths ∨ ∃ u ∈ s.lsm.ssTables, (u.path, u.records) = f
  | _ => ∀ f ∈ s.lsm.dir.files, ∃ u ∈ s.tables, (u.path, u.records) = f

theorem advance_filesOk {s t : Served V} (hf : s.FilesOk) (h : s.advance = some t) : t.FilesOk := by
  unfold advance at h
  unfold FilesOk at hf
  rcases hs : s.job with _ | (_ | p) | ⟨p, u⟩ | ⟨ps, u⟩ | ⟨ps, u⟩ | (_ | ⟨path, ps⟩) <;>
    simp only [hs, tables] at h hf
  · cases h
  · cases h
    exact hf
  · rcases hro : s.lsm.roMemTables with _ | ⟨m, rest⟩ <;> simp only [hro] at h
    · cases h
    · cases h
      intro f hm
      rcases files_create hf f hm with rfl | ⟨u, hu, rfl⟩
      · exact ⟨_, List.mem_append_right _ (List.mem_singleton_self _), rfl⟩
      · exact ⟨u, List.mem_append_left _ hu, rfl⟩
  · cases h
    exact hf
  · cases h
    exact ⟨hf.1, files_create hf.2⟩
  · cases h
    intro f hm
    rcases hf.2 f hm with rfl | ⟨v, hv, rfl⟩
    · exact Or.inr ⟨u, List.mem_singleton_self u, rfl⟩
    · exact Or.inl (hf.1 v hv)
  · cases h
    intro f hm
    exact (hf f hm).resolve_left (by simp)
  · cases h
    intro f hm
    obtain ⟨hm, hne⟩ := Dir.mem_unlinkAll.mp hm
    rcases hf f hm with hp | hp
    · rcases List.mem_cons.mp hp with hp | hp
      · exact absurd (List.mem_singleton.mpr hp) hne
      · exact Or.inl hp
    · exact Or.inr hp

theorem put_filesOk (o : Options) {s : Served V} (hf : s.FilesOk) (key : Bytes) (value : V) (log : List (Record V)) :
    FilesOk { s with lsm := (s.lsm.put o key value).1, log := log } := by
  have hss : (s.lsm.put o key value).1.ssTables = s.lsm.ssTables := Lsm.doPut_ssTables ..
  have hdir : (s.lsm.put o key value).1.dir = s.lsm.dir := Lsm.doPut_dir ..
  unfold FilesOk at hf ⊢
  rcases hs : s.job with _ | p | ⟨p, u⟩ | ⟨ps, u⟩ | ⟨ps, u⟩ | ps <;>
    simp only [hs, tables, hss, hdir] at hf ⊢ <;> exact hf

theorem FilesOk.files {s : Served V} (hf : s.FilesOk) (hr : s.replacing = false) :
    ∀ f ∈ s.lsm.dir.files, ∃ u ∈ s.tables, (u.path, u.records) = f := by
  unfold FilesOk at hf
  unfold replacing at hr
  rcases hs : s.job with _ | p | ⟨p, u⟩ | ⟨ps, u⟩ | ⟨ps, u⟩ | ps <;> simp only [hs, tables] at hf hr ⊢
  · exact hf
  · exact hf
  · exact hf
  · exact hf.2
  · cases hr
  · intro f hm
    refine (hf f hm).resolve_left ?_
    rw [Bool.not_eq_false', List.isEmpty_iff] at hr
    simp [hr]

/-- A flush in progress has written what the front frozen mem table holds. -/
theorem tables_levels {s : Served V} (hs : s.Inv) :
    LevelsOk s.lsm.nextSeqNo (s.tables.reverse.map SSTable.records) := by
  have hj := hs.job
  unfold JobOk at hj
  unfold tables
  split
  · rename_i p t hp
    rw [hp] at hj
    obtain ⟨m, rest, hro, ht, -⟩ := hj
    refine LevelsOk.sublist hs.ordered ?_
    rw [Lsm.levels, hro]
    simp only [List.reverse_append, List.reverse_cons, List.map_append, List.map_cons, List.reverse_nil,
      List.nil_append, List.map_nil, List.append_assoc, ht, List.cons_append]
    exact (List.sublist_append_right _ _).cons _
  · exact hs.ordered.ssLevels

theorem restart_inv (o : Options) {s : Served V} (hs : s.Inv) (hf : s.FilesOk) (hg : s.RestartSafe .restart) :
    ((Lsm.init s.lsm.dir).replay o s.log).Ordered ∧
      ∀ f ∈ ((Lsm.init s.lsm.dir).replay o s.log).dir.files,
        ∃ u ∈ ((Lsm.init s.lsm.dir).replay o s.log).ssTables, (u.path, u.records) = f := by
  have hinit := Lsm.init_ordered (hf.files hg.1) hg.2 (tables_levels hs)
  have h1 := Lsm.replay_ordered o s.log hinit
  obtain ⟨h2, h3⟩ := Lsm.replay_files o s.log (Lsm.init s.lsm.dir)
  refine ⟨h1, ?_⟩
  rw [h2, h3]
  exact Lsm.init_files s.lsm.dir

theorem step_restartable (o : Options) {s t : Served V} {a : Action V} (hs : s.Inv) (hf : s.FilesOk)
    (hg : s.RestartSafe a) (h : s.step o a = some t) : t.Inv ∧ t.FilesOk := by
  cases a with
  | restart =>
    cases h
    obtain ⟨h1, h2⟩ := restart_inv o hs hf hg
    exact ⟨⟨h1, trivial⟩, h2⟩
  | put key value =>
    refine ⟨step_inv o hs (by simp) h, ?_⟩
    cases h
    exact put_filesOk o hf key value _
  | beginFlush =>
    refine ⟨step_inv o hs (by simp) h, ?_⟩
    simp only [step] at h
    split at h <;> cases h
    rename_i hj
    simpa [FilesOk, tables, hj] using hf
  | beginCompact =>
    refine ⟨step_inv o hs (by simp) h, ?_⟩
    simp only [step] at h
    split at h <;> cases h
    rename_i hj
    refine ⟨fun u hu => List.mem_map_of_mem hu, ?_⟩
    simpa [FilesOk, tables, hj] using hf
  | advance => exact ⟨step_inv o hs (by simp) h, advance_filesOk hf h⟩

/-- The fast path equals the range path as long as every restart finds the names in order. -/
theorem run_fastPath (o : Options) (acts : List (Action V)) (s : Served V)
    (hg : Machine.Guarded (step o) RestartSafe (start Dir.empty) acts)
    (h : Machine.run (step o) (start Dir.empty) acts = some s) (key : Bytes) :
    s.lsm.scanKey key = s.lsm.scanRange ⟨some key, some key⟩ := by
  have hs : s.Inv ∧ s.FilesOk := by
    refine Machine.run_inv (P := fun _ s => s.Inv ∧ s.FilesOk) ⟨inv_start, ?_⟩ ?_ hg h
    · intro f hf
      cases hf
    · intro _ s a t hs ha ht
      exact step_restartable o hs.1 hs.2 ha ht
  exact hs.1.ordered.scanKey_eq_scanRange key

theorem run_fastPath_two_tables :
    ∃ s : Served Bytes, Machine.run (step ⟨0⟩) (start Dir.empty)
        [.put [1] [5], .beginFlush, .advance, .advance, .advance, .put [1] [6], .restart] = some s ∧
      s.lsm.scanKey [1] = s.lsm.scanRange ⟨some [1], some [1]⟩ := by
  refine Machine.exists_run_of (T := fun _ => True) (by decide) ?_
  intro s hs _
  exact run_fastPath ⟨0⟩ _ s (by decide) hs [1]

/-- Two tables compacted into `0002`, then a flush into `0001`: after the restart the newest
version comes last. -/
theorem restart_reverses_age :
    ∃ s : Served Bytes, Machine.run (step ⟨0⟩) (start Dir.empty)
        [.put [1] [5], .beginFlush, .advance, .advance, .advance,
          .put [1] [6], .beginFlush, .advance, .advance, .advance,
          .beginCompact, .advance, .advance, .advance, .advance, .advance,
          .put [1] [7], .beginFlush, .advance, .advance, .advance, .restart] = some s ∧
      s.lsm.scanKey [1] ≠ s.lsm.scanRange ⟨some [1], some [1]⟩ := by
  exact Machine.exists_run (by decide)

end Served

end StructureDb
