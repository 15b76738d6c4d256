import StructureDb.Proofs.Names
import StructureDb.Spec.Wal

/-! What a reader of the log directory finds after the steps of the writer and of the
cleaner. Whatever the names and numbers, only a write adds an event; and while the
open segment is linked, the segments in the order of their numbers hold the events
in the order of their writing. -/

namespace StructureDb

@[simp] theorem getSegmentNoFromName_walName (n : ℕ) : getSegmentNoFromName (walName n) = n := by
  rw [getSegmentNoFromName, walName, walSuffix, stoll_fmt04 n (by decide)]

theorem Event.readable_of_le {e : Event} (h : e.size ≤ kWalPageSize) : e.readable = [e] := if_neg (not_lt.mpr h)

theorem Event.readable_commit (t : TransactionId) : (Event.commit t).readable = [.commit t] :=
  readable_of_le (by rw [size, kWalPageSize]; omega)

theorem Event.mem_readable {e e' : Event} (h : e ∈ e'.readable) : e = e' := by
  unfold readable at h
  split_ifs at h
  · cases h
  · exact List.mem_singleton.mp h

namespace Wal

theorem mem_events {dir : Dir Bytes (List Event)} {e : Event} : e ∈ events dir ↔ ∃ f ∈ dir.files, e ∈ f.2 := by
  simp only [events, List.mem_flatten, List.mem_map, Dir.mem_listing]
  constructor
  · rintro ⟨_, ⟨f, hf, rfl⟩, he⟩
    exact ⟨f, hf, he⟩
  · rintro ⟨f, hf, he⟩
    exact ⟨_, ⟨f, hf, rfl⟩, he⟩

variable {w : Wal} {e e' : Event}

/-- An event goes into the open segment while the page is empty or has room for it. -/
def HasRoom (w : Wal) (e : Event) : Prop := w.currentPageSize = 0 ∨ w.currentPageSize + e.size ≤ kWalPageSize

instance (w : Wal) (e : Event) : Decidable (w.HasRoom e) := inferInstanceAs (Decidable (_ ∨ _))

/-- The open segment takes the event, or the next one does. -/
theorem write_cases (w : Wal) (e : Event) :
    w.HasRoom e ∧
        w.write e = { w with
          dir := w.dir.modify (walName w.currentSegmentNo) fun events => events ++ e.readable
          currentPageSize := w.currentPageSize + e.size } ∨
      ¬w.HasRoom e ∧
        w.write e =
          { dir := (w.dir.touch (walName (w.currentSegmentNo + 1)) []).modify (walName (w.currentSegmentNo + 1))
              fun events => events ++ e.readable
            currentSegmentNo := w.currentSegmentNo + 1
            currentPageSize := e.size
            pagesInCurrentSegment := 0 } := by
  unfold write
  by_cases hpage : w.currentPageSize + e.size > kWalPageSize
  · rw [if_pos hpage]
    by_cases hzero : w.currentPageSize = 0
    · left
      rw [flushPage, if_pos hzero]
      exact ⟨Or.inl hzero, rfl⟩
    · right
      have hmax : w.pagesInCurrentSegment + 1 ≥ kMaxPagesInSegment := by simp [kMaxPagesInSegment]
      refine ⟨not_or.mpr ⟨hzero, not_le.mpr hpage⟩, ?_⟩
      simp only [flushPage, if_neg hzero, if_pos hmax, flushSegment, openSegment, Nat.zero_add]
  · left
    rw [if_neg hpage]
    exact ⟨Or.inr (not_lt.mp hpage), rfl⟩

theorem mem_events_touch {dir : Dir Bytes (List Event)} {n : Bytes} :
    e ∈ events (dir.touch n []) ↔ e ∈ events dir := by
  simp only [mem_events, Dir.mem_touch]
  constructor
  · rintro ⟨f, hf | ⟨-, rfl⟩, he⟩
    · exact ⟨f, hf, he⟩
    · cases he
  · rintro ⟨f, hf, he⟩
    exact ⟨f, Or.inl hf, he⟩

theorem mem_events_append {dir : Dir Bytes (List Event)} {n : Bytes} {es' : List Event} :
    e ∈ events (dir.modify n fun events => events ++ es') ↔ e ∈ events dir ∨ e ∈ es' ∧ n ∈ dir.names := by
  simp only [mem_events, Dir.mem_modify, Dir.mem_names]
  constructor
  · rintro ⟨f, ⟨hf, -⟩ | ⟨es, hes, rfl⟩, he⟩
    · exact Or.inl ⟨f, hf, he⟩
    · rcases List.mem_append.mp he with he | he
      · exact Or.inl ⟨_, hes, he⟩
      · exact Or.inr ⟨he, es, hes⟩
  · rintro (⟨f, hf, he⟩ | ⟨he, es, hes⟩)
    · by_cases hn : f.1 = n
      · exact ⟨(n, f.2 ++ es'), Or.inr ⟨f.2, hn ▸ hf, rfl⟩, List.mem_append_left _ he⟩
      · exact ⟨f, Or.inl ⟨hf, hn⟩, he⟩
    · exact ⟨(n, es ++ es'), Or.inr ⟨es, hes, rfl⟩, List.mem_append_right _ he⟩

theorem mem_events_write (h : e ∈ events (w.write e').dir) : e ∈ e'.readable ∨ e ∈ events w.dir := by
  obtain ⟨-, hw⟩ | ⟨-, hw⟩ := write_cases w e' <;> rw [hw, mem_events_append] at h
  · exact h.symm.imp_left And.left
  · exact h.symm.imp And.left mem_events_touch.mp

/-- The event fits in a page, and the segment that takes it is linked: the open one, or a new one. -/
def Linked (w : Wal) (event : Event) : Prop :=
  event.size ≤ kWalPageSize ∧ (w.HasRoom event → walName w.currentSegmentNo ∈ w.dir.names)

instance (w : Wal) (event : Event) : Decidable (w.Linked event) := inferInstanceAs (Decidable (_ ∧ _))

/-- A write to a linked segment can be read, and so can what was there. -/
theorem write_delivers (hl : w.Linked e) :
    e ∈ events (w.write e).dir ∧ ∀ x ∈ events w.dir, x ∈ events (w.write e).dir := by
  have hself : e ∈ e.readable := by
    rw [Event.readable_of_le hl.1]
    exact List.mem_singleton_self e
  obtain ⟨hroom, hw⟩ | ⟨-, hw⟩ := write_cases w e <;> rw [hw]
  · exact ⟨mem_events_append.mpr (Or.inr ⟨hself, hl.2 hroom⟩), fun x hx => mem_events_append.mpr (Or.inl hx)⟩
  · exact ⟨mem_events_append.mpr (Or.inr ⟨hself, Dir.mem_names_touch _ _ _⟩),
      fun x hx => mem_events_append.mpr (Or.inl (mem_events_touch.mpr hx))⟩

theorem mem_events_init {dir : Dir Bytes (List Event)} (h : e ∈ events (init dir).dir) : e ∈ events dir :=
  mem_events_touch.mp h

theorem mem_events_unlinkAll {dir : Dir Bytes (List Event)} {names : List Bytes}
    (h : e ∈ events (dir.unlinkAll names)) : e ∈ events dir := by
  rw [mem_events] at h ⊢
  obtain ⟨f, hf, he⟩ := h
  exact ⟨f, (Dir.mem_unlinkAll.mp hf).1, he⟩

/-- A log directory by its numbered segments, whatever they hold; `no` is the open one. -/
structure Segments {α : Type} (dir : Dir Bytes α) (no : ℕ) (old : List (ℕ × α)) (last : α) : Prop where
  files : ∀ f, f ∈ dir.files ↔ f ∈ (old ++ [(no, last)]).map fun seg => (walName seg.1, seg.2)
  ascending : (old ++ [(no, last)]).Pairwise fun a b => a.1 < b.1

def written (old : List (ℕ × List Event)) (last : List Event) : List Event := old.flatMap Prod.snd ++ last

namespace Segments

section Contents

variable {α : Type} {dir : Dir Bytes α} {no : ℕ} {old : List (ℕ × α)} {last : α}

theorem start (a : α) : Segments (Dir.empty.touch (walName 0) a) 0 [] a where
  files := by simp [Dir.touch, Dir.create, Dir.unlink, Dir.empty, Dir.names]
  ascending := by simp

theorem below (h : Segments dir no old last) : ∀ seg ∈ old, seg.1 < no := by
  intro seg hseg
  exact (List.pairwise_append.mp h.ascending).2.2 seg hseg (no, last) (by simp)

theorem modify (h : Segments dir no old last) (g : α → α) :
    Segments (dir.modify (walName no) g) no old (g last) where
  files := by
    intro f
    have hne : ∀ seg ∈ old, walName seg.1 ≠ walName no :=
      fun seg hseg he => (h.below seg hseg).ne (walName_injective he)
    simp only [Dir.mem_modify, h.files, List.map_append, List.mem_append, List.map_singleton, List.mem_singleton,
      List.mem_map, Prod.mk.injEq]
    constructor
    · rintro (⟨⟨seg, hseg, rfl⟩ | rfl, hf⟩ | ⟨a, ⟨seg, hseg, he, -⟩ | ⟨-, rfl⟩, rfl⟩)
      · exact Or.inl ⟨seg, hseg, rfl⟩
      · exact absurd rfl hf
      · exact absurd he (hne seg hseg)
      · exact Or.inr rfl
    · rintro (⟨seg, hseg, rfl⟩ | rfl)
      · exact Or.inl ⟨Or.inl ⟨seg, hseg, rfl⟩, hne seg hseg⟩
      · exact Or.inr ⟨last, Or.inr ⟨trivial, rfl⟩, rfl⟩
  ascending := by
    obtain ⟨h1, -, h3⟩ := List.pairwise_append.mp h.ascending
    exact List.pairwise_append.mpr ⟨h1, by simp, by simpa using h3⟩

theorem next (h : Segments dir no old last) (a : α) :
    Segments (dir.touch (walName (no + 1)) a) (no + 1) (old ++ [(no, last)]) a := by
  have hbelow : ∀ seg ∈ old ++ [(no, last)], seg.1 < no + 1 := by
    intro seg hseg
    rcases List.mem_append.mp hseg with hseg | hseg
    · have := h.below seg hseg
      omega
    · rw [List.mem_singleton.mp hseg]
      omega
  have hnew : walName (no + 1) ∉ dir.names := by
    intro hm
    obtain ⟨es, hes⟩ := Dir.mem_names.mp hm
    obtain ⟨seg, hseg, he⟩ := List.mem_map.mp ((h.files _).mp hes)
    exact (hbelow seg hseg).ne (walName_injective (Prod.mk.inj he).1)
  refine ⟨?_, ?_⟩
  · intro f
    rw [Dir.mem_touch, and_iff_right hnew, List.map_append, List.mem_append, ← h.files, List.map_singleton,
      List.mem_singleton]
  · refine List.pairwise_append.mpr ⟨h.ascending, by simp, ?_⟩
    intro a ha b hb
    rw [List.mem_singleton.mp hb]
    exact hbelow a ha

theorem unlinkAll (h : Segments dir no old last) {names : List Bytes} (hno : walName no ∉ names) :
    Segments (dir.unlinkAll names) no (old.filter fun seg => walName seg.1 ∉ names) last where
  files := by
    intro f
    simp only [Dir.mem_unlinkAll, h.files, List.map_append, List.mem_append, List.map_singleton, List.mem_singleton,
      List.mem_map, List.mem_filter, decide_eq_true_eq]
    constructor
    · rintro ⟨⟨seg, hseg, rfl⟩ | rfl, hf⟩
      · exact Or.inl ⟨seg, ⟨hseg, hf⟩, rfl⟩
      · exact Or.inr rfl
    · rintro (⟨seg, ⟨hseg, hf⟩, rfl⟩ | rfl)
      · exact ⟨Or.inl ⟨seg, hseg, rfl⟩, hf⟩
      · exact ⟨Or.inr rfl, hno⟩
  ascending := by
    obtain ⟨h1, -, h3⟩ := List.pairwise_append.mp h.ascending
    refine List.pairwise_append.mpr ⟨h1.filter _, by simp, ?_⟩
    intro a ha
    exact h3 a (List.mem_filter.mp ha).1

/-- Up to four digits the names sort like the numbers. -/
theorem listing (h : Segments dir no old last) (hno : no < 10000) :
    dir.listing = (old ++ [(no, last)]).map fun seg => (walName seg.1, seg.2) := by
  have hlt : ((old ++ [(no, last)]).map fun seg => (walName seg.1, seg.2)).Pairwise fun a b => a.1 < b.1 := by
    rw [List.pairwise_map]
    refine List.Pairwise.imp_of_mem ?_ h.ascending
    intro a b _ hb hab
    refine walName_lt hab ?_
    rcases List.mem_append.mp hb with hb | hb
    · exact (h.below b hb).trans hno
    · rw [List.mem_singleton.mp hb]
      exact hno
  refine Dir.listing_eq (Dir.files_perm ?_ h.files) hlt
  exact hlt.imp fun hab he => absurd (congrArg Prod.fst he) hab.ne

end Contents

variable {dir : Dir Bytes (List Event)} {no : ℕ} {old : List (ℕ × List Event)} {last : List Event}

theorem events (h : Segments dir no old last) (hno : no < 10000) : Wal.events dir = written old last := by
  rw [Wal.events, h.listing hno, List.map_map, written, List.map_append, List.flatten_append]
  simp [List.flatMap, Function.comp_def]

theorem write {w : Wal} (h : Segments w.dir w.currentSegmentNo old last) (event : Event) :
    ∃ old' last', Segments (w.write event).dir (w.write event).currentSegmentNo old' last' ∧
      written old' last' = written old last ++ event.readable := by
  obtain ⟨-, hw⟩ | ⟨-, hw⟩ := write_cases w event <;> rw [hw]
  · exact ⟨old, last ++ event.readable, h.modify (· ++ event.readable), by simp [written]⟩
  · exact ⟨old ++ [(w.currentSegmentNo, last)], event.readable, (h.next []).modify (· ++ event.readable),
      by simp [written]⟩

theorem init (h : Segments dir no old last) (hno : no < 10000) :
    Segments (Wal.init dir).dir (Wal.init dir).currentSegmentNo (old ++ [(no, last)]) [] := by
  have hlast : dir.listing.getLast? = some (walName no, last) := by
    rw [h.listing hno, List.map_append, List.map_singleton, List.getLast?_concat]
  have hinit : (Wal.init dir).currentSegmentNo = no + 1 := by
    simp only [Wal.init, openSegment, initialSegmentNo, hlast, getSegmentNoFromName_walName]
    omega
  have hdir : (Wal.init dir).dir = dir.touch (walName (no + 1)) [] := by
    rw [← hinit]
    rfl
  rw [hinit, hdir]
  exact h.next []

end Segments

end Wal

end StructureDb
