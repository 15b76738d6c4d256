import StructureDb.Spec.Background
import StructureDb.Proofs.Names
import StructureDb.Proofs.LsmSteps

/-! Whether the directory backs the open tables. `Flush` numbers a file by the
number of tables and `Compact` by the last number plus one, so the first flush
after a compaction may take a name that is in use or sorts before older ones:
exactly the flushes that `FlushSafe` excludes. -/

namespace StructureDb.Lsm

variable {V : Type} [LinearOrder V]

/-- The files are those of the open tables, and a fresh `Init` loads the same tables. -/
structure Backed (l : Lsm V) : Prop where
  distinct : (l.ssTables.map SSTable.path).Nodup
  linked : ∀ t ∈ l.ssTables, (t.path, t.records) ∈ l.dir.files
  only : ∀ f ∈ l.dir.files, ∃ t ∈ l.ssTables, (t.path, t.records) = f
  reload : (init l.dir).ssTables = l.ssTables

/-- Every table is numbered below the number the next flush takes, and that number and those
after it have four digits. -/
def FlushSafe (l : Lsm V) : Prop :=
  l.roMemTables = [] ∨
    l.ssTables.length + l.roMemTables.length ≤ 10000 ∧ ∀ t ∈ l.ssTables, getSSTableNo t.path < l.ssTables.length

instance (l : Lsm V) : Decidable l.FlushSafe := inferInstanceAs (Decidable (_ ∨ _))

/-- The tables are numbered as flushes count them, or there is only the table of a compaction. -/
structure Numbered (l : Lsm V) : Prop where
  numbers : (∃ m ≤ 10000, l.ssTables.map SSTable.path = (List.range m).map sstName) ∨
    ∃ c, l.ssTables.map SSTable.path = [sstName c]
  files : ∀ f, f ∈ l.dir.files ↔ f ∈ l.ssTables.map fun t => (t.path, t.records)

theorem Numbered.ascending {l : Lsm V} (h : l.Numbered) : (l.ssTables.map SSTable.path).Pairwise (· < ·) := by
  obtain ⟨m, hm, hp⟩ | ⟨c, hp⟩ := h.numbers
  · rw [hp, List.pairwise_map]
    refine List.Pairwise.imp_of_mem ?_ (List.pairwise_lt_range (n := m))
    intro a b _ hb hab
    exact sstName_lt hab ((List.mem_range.mp hb).trans_le hm)
  · rw [hp]
    exact List.pairwise_singleton _ _

theorem init_ssTables (dir : Dir Bytes (List (Record V))) :
    (init dir).ssTables.map (fun t => (t.path, t.records)) = dir.listing := by
  simp [init, Function.comp_def]

theorem Numbered.backed {l : Lsm V} (h : l.Numbered) : l.Backed := by
  have hasc := h.ascending
  have hnodup : (l.ssTables.map SSTable.path).Nodup := hasc.imp ne_of_lt
  refine ⟨hnodup, ?_, ?_, ?_⟩
  · intro t ht
    exact (h.files _).mpr (List.mem_map_of_mem ht)
  · intro f hf
    exact List.mem_map.mp ((h.files f).mp hf)
  · have hpairs : (l.ssTables.map fun t => (t.path, t.records)).Nodup := by
      refine List.Nodup.of_map Prod.fst ?_
      rw [List.map_map]
      exact hnodup
    have hlist := Dir.listing_eq (Dir.files_perm hpairs h.files) (List.pairwise_map.mpr (List.pairwise_map.mp hasc))
    rw [← init_ssTables] at hlist
    refine List.map_injective_iff.mpr ?_ hlist
    rintro ⟨p, r⟩ ⟨q, s⟩ he
    cases he
    rfl

theorem Backed.ascending {l : Lsm V} (h : l.Backed) : (l.ssTables.map SSTable.path).Pairwise (· < ·) := by
  rw [← h.reload, List.pairwise_map]
  have := l.dir.listing_sorted
  rw [← init_ssTables, List.pairwise_map] at this
  exact this

theorem numbered_empty : (init (Dir.empty : Dir Bytes (List (Record V)))).Numbered :=
  ⟨Or.inl ⟨0, by omega, rfl⟩, fun _ => Iff.rfl⟩

theorem Numbered.put (o : Options) {l : Lsm V} (h : l.Numbered) (key : Bytes) (value : V) :
    (put o l key value).1.Numbered := by
  have hss : (Lsm.put o l key value).1.ssTables = l.ssTables := doPut_ssTables ..
  have hdir : (Lsm.put o l key value).1.dir = l.dir := doPut_dir ..
  exact ⟨hss ▸ h.numbers, by rw [hss, hdir]; exact h.files⟩

/-- Where the next flush is safe, the numbers are those of the positions. -/
theorem Numbered.paths_of_lt {l : Lsm V} (h : l.Numbered)
    (hlt : ∀ t ∈ l.ssTables, getSSTableNo t.path < l.ssTables.length) :
    l.ssTables.map SSTable.path = (List.range l.ssTables.length).map sstName := by
  obtain ⟨m, -, hp⟩ | ⟨c, hp⟩ := h.numbers
  · have hlen := congrArg List.length hp
    rw [List.length_map, List.length_map, List.length_range] at hlen
    rw [hp, hlen]
  · have hlen := congrArg List.length hp
    rw [List.length_map, List.length_singleton] at hlen
    obtain ⟨t, ht⟩ := List.length_eq_one_iff.mp hlen
    rw [ht, List.map_singleton, List.cons.injEq] at hp
    have hc := hlt t (by simp [ht])
    rw [hp.1, getSSTableNo_sstName, hlen] at hc
    have hc : c = 0 := by omega
    rw [ht, List.map_singleton, hp.1, hc]
    rfl

theorem Numbered.flushFront {l : Lsm V} (h : l.Numbered) (hs : l.FlushSafe) :
    l.flushFront.Numbered ∧ l.flushFront.FlushSafe := by
  rcases hro : l.roMemTables with _ | ⟨m, rest⟩
  · rw [flushFront_nil hro]
    exact ⟨h, hs⟩
  · obtain ⟨hlen, hlt⟩ := hs.resolve_left (by simp [hro])
    have hp := h.paths_of_lt hlt
    have hss := flushFront_ssTables hro
    have hdir := flushFront_dir hro
    have hro' := flushFront_roMemTables hro
    rw [hro, List.length_cons] at hlen
    -- the new name is not in the directory yet
    have hnew : ∀ f ∈ l.dir.files, f.1 ≠ sstName l.ssTables.length := by
      intro f hf he
      obtain ⟨t, ht, rfl⟩ := List.mem_map.mp ((h.files f).mp hf)
      have hn := hlt t ht
      simp only at he
      rw [he, getSSTableNo_sstName] at hn
      omega
    refine ⟨⟨Or.inl ⟨l.ssTables.length + 1, by omega, ?_⟩, ?_⟩, Or.inr ⟨?_, ?_⟩⟩
    · rw [hss, List.map_append, hp, List.range_succ, List.map_append]
      rfl
    · intro f
      rw [hdir, hss, Dir.mem_create, List.map_append, List.mem_append, ← h.files, List.map_singleton,
        List.mem_singleton]
      constructor
      · rintro (hf | ⟨hf, -⟩)
        · exact Or.inr hf
        · exact Or.inl hf
      · rintro (hf | hf)
        · exact Or.inr ⟨hf, hnew f hf⟩
        · exact Or.inl hf
    · rw [hss, hro', List.length_append, List.length_singleton]
      omega
    · intro t ht
      rw [hss, List.length_append, List.length_singleton]
      rw [hss, List.mem_append, List.mem_singleton] at ht
      rcases ht with ht | rfl
      · have := hlt t ht
        omega
      · rw [flushTable, getSSTableNo_sstName]
        omega

theorem Numbered.flush {l : Lsm V} (h : l.Numbered) (hs : l.FlushSafe) : l.flush.Numbered :=
  (flush_of_flushFront (P := fun m => m.Numbered ∧ m.FlushSafe) (fun _ hm => hm.1.flushFront hm.2) ⟨h, hs⟩).1

theorem iterate_flushFront_paths (n : ℕ) (l : Lsm V) (hn : n ≤ l.roMemTables.length) :
    (Lsm.flushFront^[n] l).ssTables.map SSTable.path =
      l.ssTables.map SSTable.path ++ (List.range' l.ssTables.length n).map sstName := by
  induction n generalizing l with
  | zero => simp
  | succ n ih =>
    rcases hro : l.roMemTables with _ | ⟨m, rest⟩
    · rw [hro] at hn
      exact absurd hn (by simp)
    · rw [Function.iterate_succ_apply, ih, flushFront_ssTables hro, List.range'_succ]
      · simp [flushTable]
      · rw [hro, List.length_cons] at hn
        rw [flushFront_roMemTables hro]
        omega

theorem flush_paths (l : Lsm V) : l.flush.ssTables.map SSTable.path =
    l.ssTables.map SSTable.path ++ (List.range' l.ssTables.length l.roMemTables.length).map sstName :=
  iterate_flushFront_paths _ l le_rfl

theorem not_ascending_past_10000 {n : ℕ} (hn : 10000 < n) : ¬((List.range n).map sstName).Pairwise (· < ·) := by
  intro h
  have hlt := List.pairwise_iff_getElem.mp h 9999 10000 (by simp; omega) (by simpa using hn) (by omega)
  simp only [List.getElem_map, List.getElem_range] at hlt
  exact lt_asymm hlt sstName_10000_lt

/-- A flush that is not safe spoils the order of the names. -/
theorem Numbered.not_backed_flush {l : Lsm V} (h : l.Numbered) (hs : ¬l.FlushSafe) : ¬l.flush.Backed := by
  intro hb
  have hasc := hb.ascending
  rw [flush_paths] at hasc
  unfold FlushSafe at hs
  rw [not_or, not_and_or] at hs
  obtain ⟨hro, hs⟩ := hs
  by_cases hlt : ∀ t ∈ l.ssTables, getSSTableNo t.path < l.ssTables.length
  · -- the numbers run past four digits
    have hmany := hs.resolve_right (not_not.mpr hlt)
    rw [h.paths_of_lt hlt, List.range'_eq_map_range, ← List.map_append, ← List.range_add] at hasc
    exact not_ascending_past_10000 (by omega) hasc
  · -- a compacted table is named after or like the table that the flush adds
    obtain ⟨m, hm, hp⟩ | ⟨c, hp⟩ := h.numbers
    · refine hlt fun t ht => ?_
      have hlen := congrArg List.length hp
      rw [List.length_map, List.length_map, List.length_range] at hlen
      obtain ⟨i, hi, he⟩ := List.mem_map.mp (hp ▸ List.mem_map_of_mem ht)
      rw [← he, getSSTableNo_sstName, hlen]
      exact_mod_cast List.mem_range.mp hi
    · have hlen := congrArg List.length hp
      rw [List.length_map, List.length_singleton] at hlen
      have hc : 1 ≤ c := by
        by_contra hc
        refine hlt fun t ht => ?_
        have ht := hp ▸ List.mem_map_of_mem ht
        rw [List.mem_singleton.mp ht, getSSTableNo_sstName, hlen]
        omega
      obtain ⟨n, hn⟩ := Nat.exists_eq_succ_of_ne_zero (List.length_pos_iff.mpr hro).ne'
      rw [hp, hlen, hn, List.range'_succ, List.map_cons, List.singleton_append, List.pairwise_cons] at hasc
      exact absurd (sstName_one_le hc) (not_le.mpr (hasc.1 _ (by simp)))

/-- The number of a compaction is one more than a number in use, so its file is new. -/
theorem Numbered.compactNo {l : Lsm V} (h : l.Numbered) :
    sstName l.compactNo.toNat ∉ l.ssTables.map SSTable.path := by
  rcases List.eq_nil_or_concat l.ssTables with hn | ⟨ts, t, hc⟩
  · simp [hn]
  · have hlast : l.ssTables.getLast? = some t := by rw [hc, List.concat_eq_append, List.getLast?_concat]
    have hno : l.compactNo = getSSTableNo t.path + 1 := by rw [Lsm.compactNo, hlast]
    obtain ⟨m, -, hp⟩ | ⟨c, hp⟩ := h.numbers
    · have hm := congrArg List.getLast? hp
      rw [List.getLast?_map, hlast, List.getLast?_map] at hm
      obtain ⟨m, rfl⟩ : ∃ k, m = k + 1 := by
        refine Nat.exists_eq_succ_of_ne_zero ?_
        rintro rfl
        cases hm
      rw [List.range_succ, List.getLast?_concat] at hm
      rw [hno, Option.some.inj hm, getSSTableNo_sstName, hp]
      intro hmem
      obtain ⟨i, hi, he⟩ := List.mem_map.mp hmem
      have hi := List.mem_range.mp hi
      have he := sstName_injective he
      omega
    · have hm := congrArg List.getLast? hp
      rw [List.getLast?_map, hlast, List.getLast?_singleton] at hm
      rw [hno, Option.some.inj hm, getSSTableNo_sstName, hp, List.mem_singleton]
      intro he
      have he := sstName_injective he
      omega

theorem Numbered.compact {l : Lsm V} (h : l.Numbered) (strategy : List (Record V) → List (Record V)) :
    (l.compact strategy).Numbered := by
  refine ⟨Or.inr ⟨l.compactNo.toNat, rfl⟩, ?_⟩
  intro f
  change f ∈ ((l.dir.create (sstName l.compactNo.toNat) (strategy l.mergedRecords)).unlinkAll
    (l.ssTables.map SSTable.path)).files ↔ f ∈ [(sstName l.compactNo.toNat, strategy l.mergedRecords)]
  rw [Dir.mem_unlinkAll, Dir.mem_create, List.mem_singleton]
  constructor
  · rintro ⟨hf | ⟨hf, -⟩, hn⟩
    · exact hf
    · obtain ⟨t, ht, rfl⟩ := List.mem_map.mp ((h.files f).mp hf)
      exact absurd (List.mem_map_of_mem ht) hn
  · rintro rfl
    exact ⟨Or.inl rfl, h.compactNo⟩

theorem backed_iff_of_numbered (o : Options) (cs : List (Call V)) (l : Lsm V) (h : l.Numbered) :
    (∀ n, (calls o l (cs.take n)).Backed) ↔ ∀ n, cs[n]? = some .flush → (calls o l (cs.take n)).FlushSafe := by
  induction cs generalizing l with
  | nil => simpa [calls] using h.backed
  | cons c cs ih =>
    have hstep (h' : (call o l c).Numbered) :
        (∀ n, (calls o l ((c :: cs).take (n + 1))).Backed) ↔
          ∀ n, (c :: cs)[n + 1]? = some .flush → (calls o l ((c :: cs).take (n + 1))).FlushSafe := ih (call o l c) h'
    have hnow : (calls o l ((c :: cs).take 0)).Backed := h.backed
    refine Nat.and_forall_add_one.symm.trans (Iff.trans ?_ Nat.and_forall_add_one)
    cases c with
    | put key value =>
      rw [hstep (h.put o key value)]
      exact and_congr_left fun _ => ⟨fun _ hc => (by cases hc), fun _ => hnow⟩
    | compact strategy =>
      rw [hstep (h.compact strategy)]
      exact and_congr_left fun _ => ⟨fun _ hc => (by cases hc), fun _ => hnow⟩
    | flush =>
      by_cases hs : l.FlushSafe
      · rw [hstep (h.flush hs)]
        exact and_congr_left fun _ => ⟨fun _ _ => hs, fun _ => hnow⟩
      · refine ⟨fun hb => absurd (hb.2 0) ?_, fun hf => absurd (hf.1 rfl) hs⟩
        exact h.not_backed_flush hs

/-- The directory backs the tables between any two calls exactly when every flush is safe. -/
theorem calls_backed_iff (o : Options) (cs : List (Call V)) :
    (∀ n, (calls o (init Dir.empty) (cs.take n)).Backed) ↔
      ∀ n, cs[n]? = some .flush → (calls o (init Dir.empty) (cs.take n)).FlushSafe :=
  backed_iff_of_numbered o cs _ numbered_empty

/-- After one flush and one compaction the only table is `0001`, and the next flush takes that
name again: the file of the compacted table is gone. -/
theorem flush_unlinks_live_file :
    ¬(calls ⟨0⟩ (init (Dir.empty : Dir Bytes (List (Record Bytes))))
      [.put [1] [5], .flush, .compact id, .put [2] [6], .flush]).Backed := by
  intro h
  exact absurd h.distinct (by decide)

end StructureDb.Lsm
