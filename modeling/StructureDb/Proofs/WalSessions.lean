import StructureDb.Proofs.LogBytes
import StructureDb.Proofs.LogMemory

/-! One write to the log at a time, by any number of writers one after another on the same
directory. Every segment is one page of whole events, or one event that is larger than a page;
the reader delivers the events that fit in a page. -/

namespace StructureDb

def LogEvent.fits (e : LogEvent) : Bool := (flushEvent e).length ≤ kWalPageSize

/-- A segment by the events that were written to it and the zeros behind them. -/
structure LogSegment where
  events : List LogEvent
  zeros : ℕ

namespace LogSegment

variable {seg : LogSegment}

def bytes (seg : LogSegment) : Bytes := flushEvents seg.events ++ List.replicate seg.zeros 0

/-- Up to a page, or one event that is larger than a page. -/
def Whole (seg : LogSegment) : Prop :=
  seg.bytes.length ≤ kWalPageSize ∨
    ∃ e, seg = ⟨[e], 0⟩ ∧ kWalPageSize < (flushEvent e).length ∧ (flushEvent e).length < 2 ^ 64

theorem length_bytes (seg : LogSegment) : seg.bytes.length = (flushEvents seg.events).length + seg.zeros := by
  rw [bytes, List.length_append, List.length_replicate]

theorem Whole.read (h : seg.Whole) : readSegment (pages seg.bytes) = seg.events.filter LogEvent.fits := by
  rcases h with h | ⟨e, rfl, hlarge, hlt⟩
  · have hfits : ∀ e ∈ seg.events, e.fits = true := by
      intro e he
      have hle := length_flushEvent_le he
      rw [length_bytes] at h
      exact decide_eq_true (by omega)
    rw [List.filter_eq_self.mpr hfits]
    exact readSegment_flushEvents h
  · have hfits : e.fits = false := decide_eq_false (not_le.mpr hlarge)
    have hbytes : bytes ⟨[e], 0⟩ = flushEvents [] ++ flushEvent e := by simp [bytes, flushEvents]
    rw [hbytes, List.filter_cons_of_neg (by simp [hfits])]
    refine readSegment_torn (by simp [flushEvents, kWalPageSize]) hlt ?_
    simpa [flushEvents] using hlarge

/-- An event is written where there is room for it, or alone. -/
theorem Whole.add {events : List LogEvent} {e : LogEvent}
    (hroom : (flushEvents events).length = 0 ∨ (flushEvents events).length + (flushEvent e).length ≤ kWalPageSize)
    (hsize : (flushEvent e).length < 2 ^ 64) : Whole ⟨events ++ [e], 0⟩ := by
  by_cases hfits : (flushEvents events).length + (flushEvent e).length ≤ kWalPageSize
  · left
    rw [length_bytes, flushEvents_append, flushEvents_singleton, List.length_append]
    exact hfits
  · have hzero := hroom.resolve_right hfits
    have hnil : events = [] := eq_nil_of_flushEvents (List.length_eq_zero_iff.mp hzero)
    exact Or.inr ⟨e, by rw [hnil]; rfl, by omega, hsize⟩

theorem Whole.pad {events : List LogEvent} (h : Whole ⟨events, 0⟩) :
    Whole ⟨events, kWalPageSize - (flushEvents events).length⟩ := by
  rcases h with h | ⟨e, he, hlarge, hlt⟩
  · left
    rw [length_bytes] at h ⊢
    dsimp only at h ⊢
    omega
  · obtain ⟨rfl, -⟩ := LogSegment.mk.inj he
    refine Or.inr ⟨e, ?_, hlarge, hlt⟩
    rw [flushEvents_singleton, Nat.sub_eq_zero_of_le hlarge.le]

end LogSegment

namespace Writer

variable {w : Writer} {old : List (ℕ × LogSegment)} {last : List LogEvent} {e : LogEvent}

/-- The directory of a writer between two writes: finished segments, and the events of the open one. -/
structure Holds (w : Writer) (old : List (ℕ × LogSegment)) (last : List LogEvent) : Prop where
  segments : Wal.Segments w.dir w.currentSegmentNo (old.map fun seg => (seg.1, seg.2.bytes)) (flushEvents last)
  finished : ∀ seg ∈ old, seg.2.Whole
  opened : LogSegment.Whole ⟨last, 0⟩
  pageSize : w.currentPageSize = (flushEvents last).length
  segmentWriter : w.currentSegmentWriter = walName w.currentSegmentNo
  numbers : old.length = w.currentSegmentNo

def held (old : List (ℕ × LogSegment)) (last : List LogEvent) : List LogEvent :=
  old.flatMap (fun seg => seg.2.events) ++ last

namespace Holds

theorem append (h : w.Holds old last) (hsize : (flushEvent e).length < 2 ^ 64)
    (hroom : w.currentPageSize = 0 ∨ w.currentPageSize + (flushEvent e).length ≤ kWalPageSize) :
    Holds { w.append (flushEvent e) with currentPageSize := w.currentPageSize + (flushEvent e).length } old
      (last ++ [e]) := by
  have hbytes : flushEvents (last ++ [e]) = flushEvents last ++ flushEvent e := by
    rw [flushEvents_append, flushEvents_singleton]
  refine ⟨?_, h.finished, ?_, ?_, h.segmentWriter, h.numbers⟩
  · have hseg := h.segments.modify fun bytes => bytes ++ flushEvent e
    rw [← h.segmentWriter] at hseg
    rw [hbytes]
    exact hseg
  · rw [h.pageSize] at hroom
    exact .add hroom hsize
  · rw [hbytes, List.length_append, ← h.pageSize]

/-- A new segment behind the open one, which may have been padded. -/
theorem next {dir : Dir Bytes Bytes} {no zeros : ℕ}
    (hseg : Wal.Segments dir no (old.map fun seg => (seg.1, seg.2.bytes)) (LogSegment.bytes ⟨last, zeros⟩))
    (hold : ∀ seg ∈ old, seg.2.Whole) (hlast : LogSegment.Whole ⟨last, zeros⟩) (hno : old.length = no) :
    Holds ⟨dir.touch (walName (no + 1)) [], walName (no + 1), no + 1, 0, 0⟩ (old ++ [(no, ⟨last, zeros⟩)]) [] := by
  refine ⟨?_, ?_, Or.inl (Nat.zero_le _), rfl, rfl, ?_⟩
  · rw [List.map_append]
    exact hseg.next []
  · intro seg hs
    rcases List.mem_append.mp hs with hs | hs
    · exact hold seg hs
    · rw [List.mem_singleton.mp hs]
      exact hlast
  · rw [List.length_append, hno]
    rfl

/-- The page is filled up and the next segment is opened. -/
theorem nextPage (h : w.Holds old last) :
    Holds ⟨(w.append (List.replicate (kWalPageSize - w.currentPageSize) 0)).dir.touch
      (walName (w.currentSegmentNo + 1)) [],
        walName (w.currentSegmentNo + 1), w.currentSegmentNo + 1, 0, 0⟩
      (old ++ [(w.currentSegmentNo, ⟨last, kWalPageSize - (flushEvents last).length⟩)]) [] := by
  refine next ?_ h.finished h.opened.pad h.numbers
  have hseg := h.segments.modify fun bytes => bytes ++ List.replicate (kWalPageSize - w.currentPageSize) 0
  rw [← h.segmentWriter, h.pageSize] at hseg
  rw [h.pageSize]
  exact hseg

/-- An event for which there is room is written behind the others. -/
theorem write_room (h : w.Holds old last) (hsize : (flushEvent e).length < 2 ^ 64)
    (hroom : w.currentPageSize = 0 ∨ w.currentPageSize + (flushEvent e).length ≤ kWalPageSize) :
    (w.writeAlone (flushEvent e)).1.Holds old (last ++ [e]) := by
  rcases w.writeAlone_cases (flushEvent e) with ⟨-, hw⟩ | ⟨hfull, -⟩
  · rw [hw]
    exact h.append hsize hroom
  · exact absurd hroom hfull

theorem write_next (h : w.Holds old last) (hsize : (flushEvent e).length < 2 ^ 64)
    (hroom : ¬(w.currentPageSize = 0 ∨ w.currentPageSize + (flushEvent e).length ≤ kWalPageSize)) :
    (w.writeAlone (flushEvent e)).1.Holds
      (old ++ [(w.currentSegmentNo, ⟨last, kWalPageSize - (flushEvents last).length⟩)]) [e] := by
  rcases w.writeAlone_cases (flushEvent e) with ⟨hfree, -⟩ | ⟨-, hw⟩
  · exact absurd hfree hroom
  · rw [hw]
    exact h.nextPage.append hsize (Or.inl rfl)

theorem write (h : w.Holds old last) (hsize : (flushEvent e).length < 2 ^ 64) :
    ∃ old' last', (w.writeAlone (flushEvent e)).1.Holds old' last' ∧ held old' last' = held old last ++ [e] := by
  by_cases hroom : w.currentPageSize = 0 ∨ w.currentPageSize + (flushEvent e).length ≤ kWalPageSize
  · exact ⟨old, last ++ [e], h.write_room hsize hroom, by simp [held]⟩
  · exact ⟨_, [e], h.write_next hsize hroom, by simp [held]⟩

theorem start : (Writer.init Dir.empty).Holds [] [] :=
  ⟨Wal.Segments.start [], by simp, Or.inl (Nat.zero_le _), rfl, rfl, rfl⟩

theorem init (h : w.Holds old last) (hfew : w.currentSegmentNo < 10000) :
    (Writer.init w.dir).Holds (old ++ [(w.currentSegmentNo, ⟨last, 0⟩)]) [] := by
  have hlast : w.dir.listing.getLast? = some (walName w.currentSegmentNo, flushEvents last) := by
    rw [h.segments.listing hfew, List.map_append, List.map_singleton, List.getLast?_concat]
  have hno : initialSegmentNo w.dir = w.currentSegmentNo + 1 := by
    simp only [initialSegmentNo, hlast, getSegmentNoFromName_walName]
    omega
  have hinit : Writer.init w.dir = ⟨w.dir.touch (walName (w.currentSegmentNo + 1)) [], walName (w.currentSegmentNo + 1),
      w.currentSegmentNo + 1, 0, 0⟩ := by
    rw [Writer.init, hno]
  have hbytes : LogSegment.bytes ⟨last, 0⟩ = flushEvents last := by simp [LogSegment.bytes]
  rw [hinit]
  refine next ?_ h.finished h.opened h.numbers
  rw [hbytes]
  exact h.segments

theorem length_files (h : w.Holds old last) : w.dir.files.length = w.currentSegmentNo + 1 := by
  have hnodup : ((old.map (fun seg => (seg.1, seg.2.bytes)) ++ [(w.currentSegmentNo, flushEvents last)]).map
      fun seg => (walName seg.1, seg.2)).Nodup := by
    rw [List.nodup_iff_pairwise_ne, List.pairwise_map]
    exact h.segments.ascending.imp fun hlt he => hlt.ne (walName_injective (Prod.mk.inj he).1)
  rw [← (Dir.files_perm hnodup h.segments.files).length_eq]
  simp [h.numbers]

theorem readerSegments (h : w.Holds old last) (hfew : w.currentSegmentNo < 10000) :
    Reader.segments w.dir = old.map (fun seg => ((seg.1 : ℤ), seg.2.bytes)) ++
      [((w.currentSegmentNo : ℤ), LogSegment.bytes ⟨last, 0⟩)] := by
  rw [Reader.segments, h.segments.listing hfew]
  simp [Function.comp_def, LogSegment.bytes]

theorem read (h : w.Holds old last) (hfew : w.currentSegmentNo < 10000) :
    Reader.read w.dir = (held old last).filter LogEvent.fits := by
  rw [Reader.read, h.readerSegments hfew, List.flatMap_append, List.flatMap_map, List.flatMap_singleton,
    h.opened.read, held, List.filter_append, List.filter_flatMap]
  congr 1
  exact List.flatMap_congr fun seg hseg => (h.finished seg hseg).read

/-- Without a larger event the files are pages of whole events. -/
theorem page (h : w.Holds old last) (hfits : ∀ e ∈ held old last, (flushEvent e).length ≤ kWalPageSize)
    {f : Bytes × Bytes} (hf : f ∈ w.dir.files) :
    ∃ events n, f.2 = flushEvents events ++ List.replicate n 0 ∧ f.2.length ≤ kWalPageSize := by
  have hpage {seg : LogSegment} (hwhole : seg.Whole) (hmem : ∀ e ∈ seg.events, e ∈ held old last) :
      ∃ events n, seg.bytes = flushEvents events ++ List.replicate n 0 ∧ seg.bytes.length ≤ kWalPageSize := by
    rcases hwhole with hwhole | ⟨e, rfl, hlarge, -⟩
    · exact ⟨seg.events, seg.zeros, rfl, hwhole⟩
    · exact absurd (hfits e (hmem e (List.mem_singleton_self e))) (not_le.mpr hlarge)
  rw [h.segments.files, List.map_append, List.mem_append, List.map_singleton, List.mem_singleton] at hf
  rcases hf with hf | rfl
  · obtain ⟨seg', hseg', rfl⟩ := List.mem_map.mp hf
    obtain ⟨seg, hseg, rfl⟩ := List.mem_map.mp hseg'
    exact hpage (h.finished seg hseg) fun e he => List.mem_append_left _ (List.mem_flatMap.mpr ⟨seg, hseg, he⟩)
  · have hlast := hpage h.opened fun e he => List.mem_append_right _ he
    rwa [LogSegment.bytes, List.replicate_zero, List.append_nil] at hlast

/-- Then the reader delivers all events, whatever lies behind its pages. -/
theorem readMemory (h : w.Holds old last) {p : Platform} (hp : p.order.arguments = UpsertArgument.leftToRight)
    (hfits : ∀ e ∈ held old last, (flushEvent e).length ≤ kWalPageSize) (hfew : w.currentSegmentNo < 10000) :
    p.read w.dir = held old last := by
  rw [Platform.read_eq hp fun _ => h.page hfits, h.read hfew]
  exact List.filter_eq_self.mpr fun e he => decide_eq_true (hfits e he)

end Holds

/-- Writes one after another, each returned before the next one is called. -/
def writeAll (w : Writer) (events : List LogEvent) : Writer :=
  events.foldl (fun w e => (w.writeAlone (flushEvent e)).1) w

theorem Holds.writeAll (h : w.Holds old last) {events : List LogEvent}
    (hsize : ∀ e ∈ events, (flushEvent e).length < 2 ^ 64) :
    ∃ old' last', (w.writeAll events).Holds old' last' ∧ held old' last' = held old last ++ events := by
  induction events generalizing w old last with
  | nil => exact ⟨old, last, h, by simp⟩
  | cons e events ih =>
    obtain ⟨old', last', h', heq⟩ := h.write (hsize e List.mem_cons_self)
    obtain ⟨old'', last'', h'', heq'⟩ := ih h' fun e' he' => hsize e' (List.mem_cons_of_mem _ he')
    exact ⟨old'', last'', h'', by rw [heq', heq, List.append_assoc]; rfl⟩

theorem length_files_writeAlone (w : Writer) (data : Bytes) :
    w.dir.files.length ≤ (w.writeAlone data).1.dir.files.length ∧
      (w.writeAlone data).1.dir.files.length ≤ w.dir.files.length + 1 := by
  have happend (data : Bytes) : (w.append data).dir.files.length = w.dir.files.length := Dir.length_modify ..
  rcases w.writeAlone_cases data with ⟨-, hw⟩ | ⟨-, hw⟩
  · rw [hw]
    have hlen := happend data
    dsimp only
    omega
  · rw [hw]
    dsimp only
    rw [Dir.length_modify]
    have hle := Dir.length_le_touch (w.append (List.replicate (kWalPageSize - w.currentPageSize) 0)).dir
      (walName (w.currentSegmentNo + 1)) []
    have hge := Dir.length_touch_le (w.append (List.replicate (kWalPageSize - w.currentPageSize) 0)).dir
      (walName (w.currentSegmentNo + 1)) []
    rw [happend] at hle hge
    exact ⟨hle, hge⟩

theorem length_files_writeAll (w : Writer) (events : List LogEvent) :
    w.dir.files.length ≤ (w.writeAll events).dir.files.length := by
  induction events generalizing w with
  | nil => exact le_rfl
  | cons e events ih => exact (w.length_files_writeAlone _).1.trans (ih _)

end Writer

/-- The log directory behind writers that are opened one after another, each with the events written through it. -/
def successiveWriters (dir : Dir Bytes Bytes) (sessions : List (List LogEvent)) : Dir Bytes Bytes :=
  sessions.foldl (fun dir events => ((Writer.init dir).writeAll events).dir) dir

theorem length_files_successiveWriters (dir : Dir Bytes Bytes) (sessions : List (List LogEvent)) :
    dir.files.length ≤ (successiveWriters dir sessions).files.length := by
  induction sessions generalizing dir with
  | nil => exact le_rfl
  | cons events sessions ih =>
    have hinit : dir.files.length ≤ (Writer.init dir).dir.files.length := Dir.length_le_touch ..
    exact (hinit.trans (Writer.length_files_writeAll _ events)).trans (ih _)

theorem holds_successiveWriters {w : Writer} {old : List (ℕ × LogSegment)} {last : List LogEvent} (h : w.Holds old last)
    {sessions : List (List LogEvent)} (hsize : ∀ events ∈ sessions, ∀ e ∈ events, (flushEvent e).length < 2 ^ 64)
    (hfew : (successiveWriters w.dir sessions).files.length < 10000) :
    ∃ w' : Writer, ∃ old' last', w'.dir = successiveWriters w.dir sessions ∧ w'.Holds old' last' ∧
      Writer.held old' last' = Writer.held old last ++ sessions.flatten := by
  induction sessions generalizing w old last with
  | nil => exact ⟨w, old, last, rfl, h, by simp⟩
  | cons events sessions ih =>
    have hno : w.currentSegmentNo < 10000 := by
      have hle := length_files_successiveWriters w.dir (events :: sessions)
      rw [h.length_files] at hle
      omega
    obtain ⟨old', last', h', heq⟩ := (h.init hno).writeAll (hsize events List.mem_cons_self)
    obtain ⟨w'', old'', last'', hdir, h'', heq'⟩ :=
      ih h' (fun events' he => hsize events' (List.mem_cons_of_mem _ he)) hfew
    refine ⟨w'', old'', last'', hdir, h'', ?_⟩
    rw [heq', heq]
    simp [Writer.held]

/-- The same from an empty directory, which stays empty without a writer. -/
theorem successiveWriters_cases {sessions : List (List LogEvent)}
    (hsize : ∀ events ∈ sessions, ∀ e ∈ events, (flushEvent e).length < 2 ^ 64)
    (hfew : (successiveWriters Dir.empty sessions).files.length < 10000) :
    sessions = [] ∨ ∃ w : Writer, ∃ old last, w.dir = successiveWriters Dir.empty sessions ∧ w.Holds old last ∧
      Writer.held old last = sessions.flatten := by
  cases sessions with
  | nil => exact Or.inl rfl
  | cons events sessions =>
    obtain ⟨old, last, h, heq⟩ := Writer.Holds.start.writeAll (hsize events List.mem_cons_self)
    obtain ⟨w', old', last', hdir, h', heq'⟩ := holds_successiveWriters h
      (fun events' he => hsize events' (List.mem_cons_of_mem _ he)) hfew
    refine Or.inr ⟨w', old', last', hdir, h', ?_⟩
    rw [heq', heq]
    rfl

/-- Events that fit in a page, written one after another by any number of successive writers on a directory that is
empty at first, are delivered by the reader, in order and each once. -/
theorem wal_round_trip (sessions : List (List LogEvent))
    (hfits : ∀ events ∈ sessions, ∀ e ∈ events, (flushEvent e).length ≤ kWalPageSize)
    (hfew : (successiveWriters Dir.empty sessions).files.length < 10000) :
    Reader.read (successiveWriters Dir.empty sessions) = sessions.flatten := by
  have hall : ∀ e ∈ sessions.flatten, e.fits = true := by
    intro e he
    obtain ⟨events, hevents, he⟩ := List.mem_flatten.mp he
    exact decide_eq_true (hfits events hevents e he)
  have hsize : ∀ events ∈ sessions, ∀ e ∈ events, (flushEvent e).length < 2 ^ 64 := by
    intro events hevents e he
    have hle := hfits events hevents e he
    rw [kWalPageSize] at hle
    omega
  rcases successiveWriters_cases hsize hfew with rfl | ⟨w, old, last, hdir, h, heq⟩
  · rfl
  · have hno := h.length_files
    rw [← hdir] at hfew ⊢
    rw [h.read (by omega), heq]
    exact List.filter_eq_self.mpr hall

/-- Three writers, of which the second one writes nothing. -/
theorem wal_round_trip_three_writers :
    Reader.read (successiveWriters Dir.empty
        [[.lsmStorageUpsert [83] 1 [1] [2], .txStorageCommit 7], [], [.lsmStorageUpsert [83] 2 [1] []]]) =
      [.lsmStorageUpsert [83] 1 [1] [2], .txStorageCommit 7, .lsmStorageUpsert [83] 2 [1] []] :=
  wal_round_trip [[.lsmStorageUpsert [83] 1 [1] [2], .txStorageCommit 7], [], [.lsmStorageUpsert [83] 2 [1] []]]
    (by decide) (by decide)

end StructureDb
