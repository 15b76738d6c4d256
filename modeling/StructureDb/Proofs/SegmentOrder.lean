import StructureDb.Proofs.WalSteps
import StructureDb.Spec.LogReader

/-! The order in which the log segments are read. It is that of the names as text, so it is
that of the numbers exactly when every number that is shorter than another one is not
above the leading digits of the other one. -/

namespace StructureDb

/-- For `a < b` the name of `a` sorts first: `a` is not above as many leading digits of `b`. -/
def SortsBefore (a b : ℕ) : Prop := a * 10 ^ (Decimal.width 4 b - Decimal.width 4 a) ≤ b

instance (a b : ℕ) : Decidable (SortsBefore a b) := inferInstanceAs (Decidable (_ ≤ _))

theorem walName_lt_iff {a b : ℕ} (hab : a < b) : walName a < walName b ↔ SortsBefore a b := by
  refine Decimal.pad_text_lt (f := digitByte) (c := 46) ?_ ?_ 4 hab walSuffix.tail walSuffix.tail
  · intro d hd e he hde
    rw [Fin.lt_def, digitByte_val hd, digitByte_val he]
    omega
  · intro d hd
    rw [Fin.lt_def, digitByte_val hd]
    exact Nat.lt_add_right d (by decide)

theorem Position.lt_of_segment {a b : ℤ} (h : a < b) (i j : ℤ) : (⟨a, i⟩ : Position) < ⟨b, j⟩ := by
  change if a ≠ b then a < b else i < j
  rw [if_pos h.ne]
  exact h

theorem Position.lt_of_page (a : ℤ) {i j : ℤ} (h : i < j) : (⟨a, i⟩ : Position) < ⟨a, j⟩ := by
  change if a ≠ a then a < a else i < j
  rw [if_neg (not_not.mpr rfl)]
  exact h

theorem mem_readSegmentPages {no : ℤ} {data : Bytes} {origin : Position} {page : WalPageData} :
    page ∈ readSegmentPages no data origin ↔
      ∃ i : ℕ, page.position = ⟨no, i⟩ ∧ (pages data)[i]? = some page.data ∧ ¬page.position < origin := by
  rw [readSegmentPages, List.mem_filter, List.mem_map, decide_eq_true_eq]
  constructor
  · rintro ⟨⟨⟨bytes, i⟩, hi, rfl⟩, hpos⟩
    exact ⟨i, rfl, List.mem_zipIdx_iff_getElem?.mp hi, hpos⟩
  · rintro ⟨i, hp, hi, hpos⟩
    refine ⟨⟨(page.data, i), List.mem_zipIdx_iff_getElem?.mpr hi, ?_⟩, hpos⟩
    rw [← hp]

theorem readSegmentPages_ascending (no : ℤ) (data : Bytes) (origin : Position) :
    (readSegmentPages no data origin).Pairwise fun p q => p.position < q.position := by
  refine List.Pairwise.sublist List.filter_sublist (List.pairwise_map.mpr ?_)
  rw [List.pairwise_iff_getElem]
  intro i j hi hj hij
  rw [List.getElem_zipIdx, List.getElem_zipIdx]
  refine Position.lt_of_page no ?_
  simpa using hij

section Directory

variable {dir : Dir Bytes Bytes} {numbers : Finset ℕ}

theorem mem_segments (hdir : ∀ name, name ∈ dir.names ↔ ∃ n ∈ numbers, name = walName n) {no : ℤ}
    {data : Bytes} :
    (no, data) ∈ Reader.segments dir ↔ ∃ n ∈ numbers, no = n ∧ (walName n, data) ∈ dir.files := by
  rw [Reader.segments, List.mem_map]
  constructor
  · rintro ⟨⟨name, data'⟩, hf, he⟩
    obtain ⟨rfl, rfl⟩ := Prod.mk.inj he
    rw [Dir.mem_listing] at hf
    obtain ⟨n, hn, rfl⟩ := (hdir name).mp (Dir.mem_names.mpr ⟨data', hf⟩)
    exact ⟨n, hn, getSegmentNoFromName_walName n, hf⟩
  · rintro ⟨n, -, rfl, hf⟩
    exact ⟨(walName n, data), Dir.mem_listing.mpr hf, by rw [getSegmentNoFromName_walName]⟩

/-- The names are those of the numbers, in the order of the names. -/
theorem segments_ascending_iff (hdir : ∀ name, name ∈ dir.names ↔ ∃ n ∈ numbers, name = walName n) :
    ((Reader.segments dir).map Prod.fst).Pairwise (· < ·) ↔
      ∀ a ∈ numbers, ∀ b ∈ numbers, a < b → SortsBefore a b := by
  have hname : ∀ f ∈ dir.listing, ∃ n ∈ numbers, f.1 = walName n := fun f hf =>
    (hdir f.1).mp (Dir.mem_names.mpr ⟨f.2, Dir.mem_listing.mp hf⟩)
  rw [Reader.segments, List.map_map, List.pairwise_map]
  constructor
  · intro hasc a ha b hb hab
    obtain ⟨x, hx⟩ := Dir.mem_names.mp ((hdir _).mpr ⟨a, ha, rfl⟩)
    obtain ⟨y, hy⟩ := Dir.mem_names.mp ((hdir _).mpr ⟨b, hb, rfl⟩)
    have hne : (walName a, x) ≠ (walName b, y) := fun he => hab.ne (walName_injective (Prod.mk.inj he).1)
    -- of the two files the one that is listed first has the smaller number and the smaller name
    rcases Dir.related_of_listing (hasc.and dir.listing_sorted) hx hy hne with ⟨-, hlt⟩ | ⟨hba, -⟩
    · exact (walName_lt_iff hab).mp hlt
    · simp only [Function.comp_apply, getSegmentNoFromName_walName, Nat.cast_lt] at hba
      exact absurd hba hab.not_gt
  · intro hsorts
    refine dir.listing_sorted.imp_of_mem ?_
    intro f g hf hg hlt
    obtain ⟨a, ha, hfa⟩ := hname f hf
    obtain ⟨b, hb, hgb⟩ := hname g hg
    rw [hfa, hgb] at hlt
    simp only [Function.comp_apply, hfa, hgb, getSegmentNoFromName_walName, Nat.cast_lt]
    rcases lt_trichotomy a b with hab | rfl | hba
    · exact hab
    · exact absurd hlt (lt_irrefl _)
    · exact absurd ((walName_lt_iff hba).mpr (hsorts b hb a ha hba)) (lt_asymm hlt)

theorem collectPagesFrom_ascending (hasc : ((Reader.segments dir).map Prod.fst).Pairwise (· < ·)) (origin : Position) :
    (collectPagesFrom dir origin).Pairwise fun p q => p.position < q.position := by
  rw [collectPagesFrom, List.pairwise_flatMap]
  refine ⟨fun segment _ => readSegmentPages_ascending _ _ _, ?_⟩
  refine ((List.pairwise_map.mp hasc).sublist List.filter_sublist).imp ?_
  intro x y hxy p hp q hq
  obtain ⟨i, hi, -⟩ := mem_readSegmentPages.mp hp
  obtain ⟨j, hj, -⟩ := mem_readSegmentPages.mp hq
  rw [hi, hj]
  exact Position.lt_of_segment hxy i j

/-- Skipping the earlier segments leaves out no page from the position on. -/
theorem mem_collectPagesFrom (hdir : ∀ name, name ∈ dir.names ↔ ∃ n ∈ numbers, name = walName n)
    {origin : Position} {page : WalPageData} :
    page ∈ collectPagesFrom dir origin ↔ ∃ n ∈ numbers, ∃ data, ∃ i : ℕ, (walName n, data) ∈ dir.files ∧
      page.position = ⟨n, i⟩ ∧ (pages data)[i]? = some page.data ∧ ¬page.position < origin := by
  simp only [collectPagesFrom, segmentsFrom, List.mem_flatMap, List.mem_filter, decide_eq_true_eq]
  constructor
  · rintro ⟨⟨no, data⟩, ⟨hseg, -⟩, hpage⟩
    obtain ⟨n, hn, rfl, hf⟩ := (mem_segments hdir).mp hseg
    obtain ⟨i, hi⟩ := mem_readSegmentPages.mp hpage
    exact ⟨n, hn, data, i, hf, hi⟩
  · rintro ⟨n, hn, data, i, hf, hpos, hi, hge⟩
    refine ⟨(n, data), ⟨(mem_segments hdir).mpr ⟨n, hn, rfl, hf⟩, ?_⟩,
      mem_readSegmentPages.mpr ⟨i, hpos, hi, hge⟩⟩
    intro hlt
    refine hge ?_
    rw [hpos]
    exact Position.lt_of_segment hlt i origin.pageNo

theorem initialSegmentNo_gt (hdir : ∀ name, name ∈ dir.names ↔ ∃ n ∈ numbers, name = walName n)
    (hasc : ((Reader.segments dir).map Prod.fst).Pairwise (· < ·)) : ∀ n ∈ numbers, n < initialSegmentNo dir := by
  intro n hn
  obtain ⟨data, hf⟩ := Dir.mem_names.mp ((hdir _).mpr ⟨n, hn, rfl⟩)
  rcases List.eq_nil_or_concat dir.listing with hnil | ⟨front, last, hsplit⟩
  · have hmem := Dir.mem_listing.mpr hf
    rw [hnil] at hmem
    cases hmem
  · rw [List.concat_eq_append] at hsplit
    have hlast : dir.listing.getLast? = some last := by rw [hsplit, List.getLast?_concat]
    have hle : (n : ℤ) ≤ getSegmentNoFromName last.1 := by
      rw [Reader.segments, List.map_map, List.pairwise_map, hsplit, List.pairwise_append] at hasc
      have hmem := Dir.mem_listing.mpr hf
      rw [hsplit, List.mem_append, List.mem_singleton] at hmem
      rcases hmem with hfront | rfl
      · have hlt := hasc.2.2 _ hfront last (List.mem_singleton.mpr rfl)
        simp only [Function.comp_apply, getSegmentNoFromName_walName] at hlt
        exact hlt.le
      · rw [getSegmentNoFromName_walName]
    simp only [initialSegmentNo, hlast]
    omega

end Directory

/-- For any set of segment numbers, whatever the segments hold: both readers go through the segments in ascending
order, `CollectPagesFrom` returns the pages from a position on in ascending order, and a new writer goes on behind all
of them, exactly when the names sort like the numbers. -/
theorem segments_in_order_iff (numbers : Finset ℕ) (dir : Dir Bytes Bytes)
    (hdir : ∀ name, name ∈ dir.names ↔ ∃ n ∈ numbers, name = walName n) :
    (((Reader.segments dir).map Prod.fst).Pairwise (· < ·) ∧
        (∀ origin, ((segmentsFrom dir origin).map Prod.fst).Pairwise (· < ·) ∧
          (collectPagesFrom dir origin).Pairwise (fun p q => p.position < q.position) ∧
          ∀ page, page ∈ collectPagesFrom dir origin ↔ ∃ n ∈ numbers, ∃ data, ∃ i :
    ℕ, (walName n, data) ∈ dir.files ∧
            page.position = ⟨n, i⟩ ∧ (pages data)[i]? = some page.data ∧ ¬page.position < origin) ∧
        ∀ n ∈ numbers, n < initialSegmentNo dir) ↔
      ∀ a ∈ numbers, ∀ b ∈ numbers, a < b → SortsBefore a b := by
  rw [← segments_ascending_iff hdir]
  refine ⟨fun h => h.1, fun hasc => ⟨hasc, ?_, initialSegmentNo_gt hdir hasc⟩⟩
  intro origin
  exact ⟨hasc.sublist (List.filter_sublist.map _), collectPagesFrom_ascending hasc origin,
    fun page => mem_collectPagesFrom hdir⟩

/-- Two segments of four digits. -/
theorem segments_in_order_small :
    ((Reader.segments ((Dir.empty.create (walName 7) [1]).create (walName 12) [2])).map Prod.fst).Pairwise (· < ·) ∧
      12 < initialSegmentNo ((Dir.empty.create (walName 7) [1]).create (walName 12) ([2] : Bytes)) := by
  have h := (segments_in_order_iff {7, 12} ((Dir.empty.create (walName 7) [1]).create (walName 12) [2]) (by
    intro name
    simp [Dir.create, Dir.unlink, Dir.empty, Dir.names]
    tauto)).mpr (by decide)
  exact ⟨h.1, h.2.2 12 (by decide)⟩

/-- From segment 10000 on the order is another one: it is read before 9999, and a new writer starts with 10000 again. -/
theorem segment_10000_first :
    Reader.segments ((Dir.empty.create (walName 9999) [1]).create (walName 10000) [2]) = [(10000, [2]), (9999, [1])] ∧
      (collectPagesFrom ((Dir.empty.create (walName 9999) [1]).create (walName 10000) [2]) ⟨0, 0⟩).map
          WalPageData.position = [⟨10000, 0⟩, ⟨9999, 0⟩] ∧
      initialSegmentNo ((Dir.empty.create (walName 9999) [1]).create (walName 10000) ([2] : Bytes)) = 10000 := by
  decide

end StructureDb
