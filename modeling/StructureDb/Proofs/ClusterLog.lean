import StructureDb.Proofs.Stream
import StructureDb.Spec.Cluster

/-! The log of a leader that keeps all its segments, and what a stream makes of it. The segments are
numbered without a gap, all but the last one are one full page, so the pages of a stream come segment by
segment: behind a full page the next segment, behind a short one the same segment again. -/

namespace StructureDb

open GetEventsReactor

namespace Writer

variable {w w' : Writer}

def NoGap (w : Writer) : Prop := ∀ n ≤ w.currentSegmentNo, walName n ∈ w.dir.names

theorem NoGap.dirInv : DirInv fun dir no => ∀ n ≤ no, walName n ∈ dir.names where
  append h _ _ n hn := by
    rw [Dir.names_modify]
    exact h n hn
  next h n hn := by
    rcases Nat.le_succ_iff.mp hn with hn | rfl
    · exact Dir.names_touch _ _ _ (h n hn)
    · exact Dir.mem_names_touch _ _ _

/-- One page in every segment, and only the last one may be short. -/
structure Filled (w : Writer) : Prop where
  named : w.Named
  noGap : w.NoGap
  full : ∀ n < w.currentSegmentNo, ∀ data, (walName n, data) ∈ w.dir.files → data.length = kWalPageSize
  onePage : ∀ f ∈ w.dir.files, f.2.length ≤ kWalPageSize
  few : w.currentSegmentNo < 10000

namespace Filled

variable {n : ℕ} {page : WalPageData} {pos : Position}

theorem file (h : w.Filled) (hn : n ≤ w.currentSegmentNo) : ∃ data, (walName n, data) ∈ w.dir.files :=
  Dir.mem_names.mp (h.noGap n hn)

theorem number_le (h : w.Filled) {data : Bytes} (hf : (walName n, data) ∈ w.dir.files) : n ≤ w.currentSegmentNo := by
  obtain ⟨m, hm, he⟩ := h.named _ (Dir.mem_names.mpr ⟨data, hf⟩)
  rw [walName_injective he]
  exact hm

theorem pageOf (h : w.Filled) {data : Bytes} (hf : (walName n, data) ∈ w.dir.files) (hdata : data ≠ []) :
    PageOf w.dir ⟨⟨n, 0⟩, data⟩ := by
  refine ⟨n, data, 0, hf, rfl, ?_⟩
  rw [pages_of_le (h.onePage _ hf), if_neg hdata]
  rfl

theorem pageOf_cases (h : w.Filled) (hpage : PageOf w.dir page) :
    ∃ n : ℕ, page.position = ⟨n, 0⟩ ∧ (walName n, page.data) ∈ w.dir.files := by
  obtain ⟨n, data, i, hf, hpos, hi⟩ := hpage
  rw [pages_of_le (h.onePage _ hf)] at hi
  split_ifs at hi with hdata
  · cases hi
  · cases i with
    | zero =>
      obtain rfl := Option.some.inj hi
      exact ⟨n, hpos, hf⟩
    | succ i => cases hi

/-- What a poll finds is full but the last page. -/
theorem collected_full (h : w.Filled) : ∀ p ∈ (collectPagesFrom w.dir pos).dropLast, isCompleted p = true := by
  intro p hp
  have hasc := collectPagesFrom_ascending (h.named.ascending h.few) pos
  have hmem : ∀ q ∈ collectPagesFrom w.dir pos, PageOf w.dir q := fun q hq => (h.named.mem_collectPagesFrom.mp hq).1
  have hne : collectPagesFrom w.dir pos ≠ [] := by
    intro hnil
    rw [hnil] at hp
    cases hp
  have hlast := List.getLast_mem hne
  rw [← List.dropLast_append_getLast hne, List.pairwise_append] at hasc
  have hlt := hasc.2.2 p hp _ (List.mem_singleton_self _)
  obtain ⟨n, hn, hf⟩ := h.pageOf_cases (hmem p (List.mem_of_mem_dropLast hp))
  obtain ⟨m, hm, hf'⟩ := h.pageOf_cases (hmem _ hlast)
  rw [hn, hm, Position.lt_iff] at hlt
  simp only at hlt
  have hle := h.number_le hf'
  exact decide_eq_true (h.full n (by omega) _ hf)

/-- A page that was found is the beginning of its segment. -/
theorem of_snapshot (h : w.Filled) (hs : w.Snapshot page) :
    ∃ (n : ℕ) (data : Bytes), page.position = ⟨n, 0⟩ ∧ (walName n, data) ∈ w.dir.files ∧
      page.data <+: data := by
  obtain ⟨n, i, hpos, hn, hlen⟩ := hs.place
  obtain ⟨data, hf⟩ := h.file hn
  have hdata := hlen data hf
  have hle := h.onePage _ hf
  have hpage := hs.nonempty
  have hi : i = 0 := by
    by_contra hi
    have hmul := Nat.le_mul_of_pos_left kWalPageSize (Nat.pos_of_ne_zero hi)
    simp only at hle
    omega
  subst hi
  have hnil : data ≠ [] := by
    rintro rfl
    simp only [List.length_nil] at hdata
    omega
  exact ⟨n, data, hpos, hf, hs.grown _ (h.pageOf hf hnil) hpos.symm⟩

/-- The position of the next page, where `e` is the first segment that was not sent as a whole. -/
theorem next_page (h : w.Filled) {e : ℕ} {rest : List WalPageData} (hp : w.Pending pos (page :: rest))
    (hpos : pos = ⟨e, 0⟩ ∨ pos = ⟨(e : ℤ) - 1, 1⟩) : page.position = ⟨e, 0⟩ := by
  obtain ⟨hs, hge, hfirst, -⟩ := hp
  obtain ⟨n, data, hn, hf, -⟩ := h.of_snapshot hs
  have hle : e ≤ n := by
    rw [hn, Position.lt_iff] at hge
    rcases hpos with rfl | rfl <;> simp only at hge <;> omega
  rw [hn]
  rcases Nat.lt_or_eq_of_le hle with hlt | rfl
  · -- the segment in between is a full page, so it comes first
    have hcurrent : e < w.currentSegmentNo := hlt.trans_le (h.number_le hf)
    obtain ⟨data', hf'⟩ := h.file hcurrent.le
    have hfull := h.full e hcurrent data' hf'
    have hnil : data' ≠ [] := by
      rintro rfl
      cases hfull
    have hbetween := hfirst _ (h.pageOf hf' hnil)
    rw [hn, Position.lt_iff, Position.lt_iff] at hbetween
    rcases hpos with rfl | rfl <;> simp only at hbetween <;> omega
  · rfl

end Filled

end Writer

namespace Writes

variable {s s' : Writes} {action : Action}

theorem step_noGap (h : s.writer.NoGap) (hs : s.step action = some s') : s'.writer.NoGap :=
  step_dirInv Writer.NoGap.dirInv h hs

/-- The segments by their events. Those of a call that opens a new segment are not there yet. -/
structure Shape (s : Writes) (old : List (ℕ × List LogEvent)) (last : List LogEvent) (zeros : ℕ) : Prop where
  layout : s.writer.Layout old (flushEvents last ++ List.replicate zeros 0)
  room : (flushEvents last ++ List.replicate zeros (0 : Byte)).length ≤ kWalPageSize
  events : old.flatMap Prod.snd ++ last <+: s.calls.map Prod.fst

theorem Phase.shape (h : s.Phase) : ∃ old last zeros, s.Shape old last zeros := by
  cases h with
  | writing old last layout opened size fits events calls =>
    refine ⟨old, last, 0, ?_, ?_, ?_⟩
    · rw [List.replicate_zero, List.append_nil]
      exact layout
    · rw [List.replicate_zero, List.append_nil]
      exact fits
    · rw [events]
  | padding old last front e layout fits few calls returned events size =>
    refine ⟨old, last, _, layout, (length_fullPage fits).le, ?_⟩
    rw [calls, List.map_append, events]
    exact List.prefix_append _ _
  | opening old front e layout empty calls returned events size =>
    refine ⟨old, [], 0, layout, Nat.zero_le _, ?_⟩
    rw [calls, List.map_append, events, List.append_nil]
    exact List.prefix_append _ _

theorem Shape.mem_files {old : List (ℕ × List LogEvent)} {last : List LogEvent} {zeros : ℕ} (h : s.Shape old last zeros)
    {f : Bytes × Bytes} (hf : f ∈ s.writer.dir.files) :
    (∃ seg ∈ old, f = (walName seg.1, fullPage seg.2)) ∨
      f = (walName s.writer.currentSegmentNo, flushEvents last ++ List.replicate zeros 0) := by
  have hmem := (h.layout.segments.files f).mp hf
  rw [List.map_append, List.mem_append, List.map_map, List.mem_map, List.map_singleton, List.mem_singleton] at hmem
  rcases hmem with ⟨seg, hseg, rfl⟩ | hlast
  · exact Or.inl ⟨seg, hseg, rfl⟩
  · exact Or.inr hlast

theorem Shape.below {old : List (ℕ × List LogEvent)} {last : List LogEvent} {zeros : ℕ} (h : s.Shape old last zeros) :
    ∀ seg ∈ old, seg.1 < s.writer.currentSegmentNo := by
  intro seg hseg
  exact h.layout.segments.below (seg.1, fullPage seg.2) (List.mem_map.mpr ⟨seg, hseg, rfl⟩)

theorem Phase.filled (h : s.Phase) (hgap : s.writer.NoGap) : s.writer.Filled := by
  obtain ⟨old, last, zeros, h⟩ := h.shape
  refine ⟨?_, hgap, ?_, ?_, h.layout.few⟩
  · intro name hname
    obtain ⟨data, hf⟩ := Dir.mem_names.mp hname
    rcases h.mem_files hf with ⟨seg, hseg, he⟩ | he
    · exact ⟨seg.1, (h.below seg hseg).le, (Prod.mk.inj he).1⟩
    · exact ⟨_, le_rfl, (Prod.mk.inj he).1⟩
  · intro n hn data hf
    rcases h.mem_files hf with ⟨seg, hseg, he⟩ | he
    · rw [(Prod.mk.inj he).2]
      exact length_fullPage (h.layout.fits seg hseg)
    · exact absurd (walName_injective (Prod.mk.inj he).1) hn.ne
  · intro f hf
    rcases h.mem_files hf with ⟨seg, hseg, rfl⟩ | rfl
    · exact (length_fullPage (h.layout.fits seg hseg)).le
    · exact h.room

theorem Phase.grows (h : s.Phase) (hg : s.Alone action) (hs : s.step action = some s') : s.writer.Grows s'.writer := by
  cases action with
  | write event =>
    cases hs
    cases h with
    | writing old last layout opened size fits events calls => exact (Writer.write_grows opened _).1
    | padding old last front e layout fits few calls returned events size =>
      cases hg.1 (e, .padding (flushEvent e)) (by rw [calls]; simp)
    | opening old front e layout empty calls returned events size =>
      cases hg.1 (e, .opening (walName s.writer.currentSegmentNo) (flushEvent e)) (by rw [calls]; simp)
  | resume i =>
    obtain ⟨ev, call, pre, post, hdone, hsplit, rfl⟩ := resume_cases hs
    have hmem : (ev, call) ∈ s.calls := by rw [hsplit]; simp
    cases h with
    | writing old last layout opened size fits events calls =>
      have hon := calls (ev, call) hmem
      cases call with
      | padding data => cases hon
      | opening path data => cases hon
      | writing n => exact Writer.Grows.keep rfl fun f hf => hf
      | returned => exact absurd rfl hdone
    | padding old last front e layout fits few calls returned events size =>
      rw [calls, List.mem_append, List.mem_singleton] at hmem
      rcases hmem with hmem | he
      · exact absurd (returned _ hmem) hdone
      · rw [(Prod.mk.inj he).2]
        exact (Writer.endPage_grows s.writer (flushEvent e)).1
    | opening old front e layout empty calls returned events size =>
      rw [calls, List.mem_append, List.mem_singleton] at hmem
      rcases hmem with hmem | he
      · exact absurd (returned _ hmem) hdone
      · rw [(Prod.mk.inj he).2]
        exact (Writer.resume_grows (show s.writer.Aims (.opening _ (flushEvent e)) from rfl)).1

end Writes

namespace GetEventsReactor

variable {w w' : Writer} {r : GetEventsReactor} {page : WalPageData} {rest : List WalPageData} {n : ℕ}

/-- The first segment that the pages of a stream from `n` on have not brought as a whole. -/
def reached (n : ℕ) (pages : List WalPageData) : ℕ := n + pages.countP isCompleted

theorem reached_append (n : ℕ) (pages more : List WalPageData) :
    reached n (pages ++ more) = reached (reached n pages) more := by
  rw [reached, reached, reached, List.countP_append, Nat.add_assoc]

theorem reached_singleton (n : ℕ) (page : WalPageData) : reached n [page] = if isCompleted page then n + 1 else n := by
  rw [reached, List.countP_singleton]
  split_ifs <;> rfl

def InOrder (n : ℕ) (pages : List WalPageData) : Prop :=
  ∀ before page after, pages = before ++ page :: after → page.position = ⟨reached n before, 0⟩

theorem InOrder.append_singleton {pages : List WalPageData} (h : InOrder n pages)
    (hpage : page.position = ⟨reached n pages, 0⟩) : InOrder n (pages ++ [page]) := by
  intro before p after hsplit
  obtain ⟨rfl, rfl, -⟩ | ⟨after', hpages⟩ := Splits.concat_eq_append_cons hsplit
  · exact hpage
  · exact h before p after' hpages

/-- A stream that was asked for from the beginning of a segment on. -/
structure FromSegment (r : GetEventsReactor) (w : Writer) (n : ℕ) : Prop where
  inOrder : InOrder n r.sent
  found : ∀ page ∈ r.sent, w.Snapshot page
  next : r.nextPos = ⟨reached n r.sent, 0⟩ ∨ r.nextPos = ⟨(reached n r.sent : ℤ) - 1, 1⟩
  tail : 0 ≤ r.tailSentSize → ∃ data : Bytes, r.sent.getLast? = some ⟨r.nextPos, data⟩ ∧
    (data.length : ℤ) = r.tailSentSize

theorem FromSegment.init (n token : ℕ) (w : Writer) : (init ⟨n, 0⟩ token).FromSegment w n := by
  refine ⟨?_, by simp [GetEventsReactor.init], Or.inl rfl, fun h => absurd h (show ¬(0 : ℤ) ≤ -1 by decide)⟩
  intro before page after hsplit
  cases before <;> cases hsplit

theorem FromSegment.grows (h : r.FromSegment w n) (hg : w.Grows w') : r.FromSegment w' n :=
  ⟨h.inOrder, fun page hpage => (h.found page hpage).grows hg, h.next, h.tail⟩

/-- The loop of a round changes neither the position nor what was sent. -/
theorem pumpPages_eq (r : GetEventsReactor) (pages : List WalPageData) :
    ∃ writing, r.pumpPages pages = { r with writing } := by
  cases pages with
  | nil => exact ⟨none, rfl⟩
  | cons page rest =>
    rw [pumpPages]
    split_ifs
    · exact ⟨none, rfl⟩
    · exact ⟨some (page, rest), rfl⟩

theorem FromSegment.pumpPages (h : r.FromSegment w n) (pages : List WalPageData) :
    (r.pumpPages pages).FromSegment w n := by
  obtain ⟨writing, he⟩ := r.pumpPages_eq pages
  rw [he]
  exact ⟨h.inOrder, h.found, h.next, h.tail⟩

theorem FromSegment.writing (h : r.FromSegment w n) (hfilled : w.Filled) (hsound : r.Sound w)
    (hw : r.writing = some (page, rest)) : page.position = ⟨reached n r.sent, 0⟩ ∧ w.Snapshot page :=
  ⟨hfilled.next_page (hsound.pending page rest hw) h.next, (hsound.pending page rest hw).1⟩

theorem FromSegment.pageWritten (h : r.FromSegment w n) (hfilled : w.Filled) (hsound : r.Sound w)
    (hw : r.writing = some (page, rest)) : (r.pageWritten page rest).FromSegment w n := by
  obtain ⟨hpos, hsnap⟩ := h.writing hfilled hsound hw
  have hinOrder := h.inOrder.append_singleton hpos
  have hfound : ∀ p ∈ r.sent ++ [page], w.Snapshot p := by
    intro p hp
    rcases List.mem_append.mp hp with hp | hp
    · exact h.found p hp
    · rw [List.mem_singleton.mp hp]
      exact hsnap
  unfold GetEventsReactor.pageWritten
  split_ifs with hc
  · refine FromSegment.pumpPages ⟨hinOrder, hfound, Or.inr ?_,
      fun h => absurd h (show ¬(0 : ℤ) ≤ -1 by decide)⟩ rest
    rw [reached_append, reached_singleton, if_pos hc, hpos]
    simp
  · refine ⟨hinOrder, hfound, Or.inl ?_, fun _ => ⟨page.data, by simp, rfl⟩⟩
    rw [reached_append, reached_singleton, if_neg hc]
    exact hpos

/-- What was given to the transport is in order as well. -/
theorem FromSegment.started (h : r.FromSegment w n) (hfilled : w.Filled) (hsound : r.Sound w) :
    InOrder n r.started ∧ ∀ page ∈ r.started, w.Snapshot page := by
  rcases hw : r.writing with _ | ⟨page, rest⟩
  · have he : r.started = r.sent := by simp [GetEventsReactor.started, hw]
    rw [he]
    exact ⟨h.inOrder, h.found⟩
  · have he : r.started = r.sent ++ [page] := by simp [GetEventsReactor.started, hw]
    obtain ⟨hpos, hsnap⟩ := h.writing hfilled hsound hw
    rw [he]
    refine ⟨h.inOrder.append_singleton hpos, ?_⟩
    intro p hp
    rcases List.mem_append.mp hp with hp | hp
    · exact h.found p hp
    · rw [List.mem_singleton.mp hp]
      exact hsnap

end GetEventsReactor

end StructureDb
