import StructureDb.Proofs.ConcurrentLog
import StructureDb.Proofs.Positions
import StructureDb.Spec.ByteDatabase

/-! The log of events stands for a log of bytes. Writes of events that fit in a page, one at a time,
the cleaner and restarts do the same to both, and what the reader gets from the bytes are the
events of the other one. A third directory, with what was written to each segment, ties them
together. -/

namespace StructureDb

namespace Event

@[simp] theorem length_flushEvent_toLog (e : Event) : (flushEvent e.toLog).length = e.size := by
  cases e with
  | upsert id seqNo key value =>
    simp only [toLog, upsertEvent, flushEvent, LogEvent.flush, TransactionalValue.toBytes, BufferWriter.writeBool,
      List.length_append, length_writeInt, length_writeString, List.length_singleton, size, TransactionalValue.size]
    omega
  | commit tx =>
    simp only [toLog, commitEvent, flushEvent, LogEvent.flush, List.length_append, length_writeInt, size]

end Event

namespace Writer

variable (w : Writer) (data : Bytes)

/-- It returns, and the bytes are behind those of the open segment or in the next one. -/
theorem writeAlone_cases :
    (w.currentPageSize = 0 ∨ w.currentPageSize + data.length ≤ kWalPageSize) ∧
        w.writeAlone data = ({ w.append data with currentPageSize := w.currentPageSize + data.length }, .returned) ∨
      ¬(w.currentPageSize = 0 ∨ w.currentPageSize + data.length ≤ kWalPageSize) ∧
        w.writeAlone data =
          ({ dir := ((w.append (List.replicate (kWalPageSize - w.currentPageSize) 0)).dir.touch
                (walName (w.currentSegmentNo + 1)) []).modify (walName (w.currentSegmentNo + 1))
                  fun bytes => bytes ++ data
             currentSegmentWriter := walName (w.currentSegmentNo + 1)
             currentSegmentNo := w.currentSegmentNo + 1
             currentPageSize := 0 + data.length
             pagesInCurrentSegment := 0 }, .returned) := by
  unfold writeAlone write
  split_ifs with hfull
  · unfold flushPage
    split_ifs with hzero hpad
    · exact Or.inl ⟨Or.inl hzero, rfl⟩
    · refine Or.inr ⟨not_or.mpr ⟨hzero, not_le.mpr hfull⟩, ?_⟩
      simp only [Function.iterate_succ_apply, Function.iterate_zero_apply, resume, endPage_eq]
      rfl
    · -- the page is full to the byte, or beyond
      have hnone : kWalPageSize - w.currentPageSize = 0 := by omega
      have happend : w.append (List.replicate 0 0) = w := by
        have hid : (fun bytes : Bytes => bytes ++ List.replicate 0 0) = id := by
          funext bytes
          simp
        rw [append, hid, Dir.modify_id]
      refine Or.inr ⟨not_or.mpr ⟨hzero, not_le.mpr hfull⟩, ?_⟩
      rw [hnone, happend, endPage_eq]
      rfl
  · exact Or.inl ⟨Or.inr (not_lt.mp hfull), rfl⟩

end Writer

/-- A segment by what was written to it: events, and zeros behind them. -/
structure Segment where
  events : List Event
  zeros : ℕ

namespace Segment

variable {seg : Segment} {e : Event}

def size (seg : Segment) : ℕ := (seg.events.map Event.size).sum

def bytes (seg : Segment) : Bytes := flushEvents (seg.events.map Event.toLog) ++ List.replicate seg.zeros 0

def add (e : Event) (seg : Segment) : Segment := { seg with events := seg.events ++ [e] }

def pad (seg : Segment) : Segment := { seg with zeros := kWalPageSize - seg.size }

def Whole (seg : Segment) : Prop := seg.size + seg.zeros ≤ kWalPageSize

theorem size_add (e : Event) (seg : Segment) : (seg.add e).size = seg.size + e.size := by simp [size, add]

theorem bytes_add (e : Event) (hz : seg.zeros = 0) : (seg.add e).bytes = seg.bytes ++ flushEvent e.toLog := by
  simp [bytes, add, hz, flushEvents]

theorem bytes_pad (hz : seg.zeros = 0) :
    seg.pad.bytes = seg.bytes ++ List.replicate (kWalPageSize - seg.size) 0 := by
  simp [bytes, pad, hz]

theorem length_flushEvents (seg : Segment) : (flushEvents (seg.events.map Event.toLog)).length = seg.size := by
  simp [flushEvents, size, List.length_flatMap, Function.comp_def]

theorem Whole.add (hz : seg.zeros = 0) (hroom : seg.size = 0 ∨ seg.size + e.size ≤ kWalPageSize)
    (hsize : e.size ≤ kWalPageSize) : (seg.add e).Whole := by
  have hzeros : (seg.add e).zeros = 0 := hz
  rw [Whole, size_add, hzeros]
  omega

theorem Whole.pad (h : seg.Whole) : seg.pad.Whole := by
  have hsize : seg.pad.size = seg.size := rfl
  have hzeros : seg.pad.zeros = kWalPageSize - seg.size := rfl
  unfold Whole at h ⊢
  omega

theorem Whole.read (h : seg.Whole) {p : Platform} (hp : p.order.arguments = UpsertArgument.leftToRight)
    (segmentNo : ℤ) :
    p.readSegment segmentNo 0 (pages seg.bytes) = seg.events.map Event.toLog := by
  refine Platform.readSegment_flushEvents hp ?_ segmentNo
  rw [List.length_append, length_flushEvents, List.length_replicate]
  exact h

end Segment

/-- The log of events and the log of bytes are two readings of the segments `segs`, with the writers at one place. -/
structure InBytes (segs : Dir Bytes Segment) (w : Wal) (b : Writer) : Prop where
  events : w.dir = segs.map Segment.events
  bytes : b.dir = segs.map Segment.bytes
  segmentNo : b.currentSegmentNo = w.currentSegmentNo
  segmentWriter : b.currentSegmentWriter = walName w.currentSegmentNo
  pageSize : b.currentPageSize = w.currentPageSize
  whole : ∀ f ∈ segs.files, f.2.Whole
  opened : ∀ seg, (walName w.currentSegmentNo, seg) ∈ segs.files → seg.size = w.currentPageSize ∧ seg.zeros = 0

theorem initialSegmentNo_map {α β : Type} (f : α → β) (dir : Dir Bytes α) :
    initialSegmentNo (dir.map f) = initialSegmentNo dir := by
  unfold initialSegmentNo
  rw [Dir.listing_map, List.getLast?_map]
  cases dir.listing.getLast? <;> rfl

namespace InBytes

variable {segs : Dir Bytes Segment} {w : Wal} {b : Writer} {e : Event}

theorem add (h : InBytes segs w b) (hroom : w.HasRoom e) (hsize : e.size ≤ kWalPageSize) :
    InBytes (segs.modify (walName w.currentSegmentNo) (Segment.add e))
      { w with
        dir := w.dir.modify (walName w.currentSegmentNo) fun events => events ++ e.readable
        currentPageSize := w.currentPageSize + e.size }
      { b.append (flushEvent e.toLog) with currentPageSize := w.currentPageSize + e.size } where
  events := by
    change w.dir.modify _ (fun events => events ++ e.readable) = _
    rw [h.events, Event.readable_of_le hsize]
    symm
    apply Dir.map_modify
    intro seg _
    rfl
  bytes := by
    change b.dir.modify b.currentSegmentWriter (fun bytes => bytes ++ flushEvent e.toLog) = _
    rw [h.bytes, h.segmentWriter]
    symm
    apply Dir.map_modify
    intro seg hseg
    exact Segment.bytes_add e (h.opened seg hseg).2
  segmentNo := h.segmentNo
  segmentWriter := h.segmentWriter
  pageSize := rfl
  whole := by
    intro f hf
    rcases Dir.mem_modify.mp hf with ⟨hf, -⟩ | ⟨seg, hseg, rfl⟩
    · exact h.whole f hf
    · obtain ⟨hcurrent, hz⟩ := h.opened seg hseg
      refine Segment.Whole.add hz ?_ hsize
      rw [hcurrent]
      exact hroom
  opened := by
    intro seg' hf
    rcases Dir.mem_modify.mp hf with ⟨-, hne⟩ | ⟨seg, hseg, he⟩
    · exact absurd rfl hne
    · obtain ⟨hcurrent, hz⟩ := h.opened seg hseg
      rw [(Prod.mk.inj he).2, Segment.size_add, hcurrent]
      exact ⟨rfl, hz⟩

/-- The page is filled up with zeros and the next segment is opened. -/
theorem next (h : InBytes segs w b) (hnew : walName (w.currentSegmentNo + 1) ∉ w.dir.names) :
    InBytes ((segs.modify (walName w.currentSegmentNo) Segment.pad).touch (walName (w.currentSegmentNo + 1)) ⟨[], 0⟩)
      ⟨w.dir.touch (walName (w.currentSegmentNo + 1)) [], w.currentSegmentNo + 1, 0, 0⟩
      ⟨(b.append (List.replicate (kWalPageSize - w.currentPageSize) 0)).dir.touch (walName (b.currentSegmentNo + 1)) [],
        walName (b.currentSegmentNo + 1), b.currentSegmentNo + 1, 0, 0⟩ where
  events := by
    have hpad : (segs.modify (walName w.currentSegmentNo) Segment.pad).map Segment.events =
        (segs.map Segment.events).modify (walName w.currentSegmentNo) id := Dir.map_modify fun _ _ => rfl
    rw [Dir.map_touch, hpad, Dir.modify_id, ← h.events]
  bytes := by
    have hpad : (segs.modify (walName w.currentSegmentNo) Segment.pad).map Segment.bytes =
        (segs.map Segment.bytes).modify (walName w.currentSegmentNo)
          fun bytes => bytes ++ List.replicate (kWalPageSize - w.currentPageSize) 0 := by
      refine Dir.map_modify fun seg hseg => ?_
      obtain ⟨hcurrent, hz⟩ := h.opened seg hseg
      rw [Segment.bytes_pad hz, hcurrent]
    rw [Dir.map_touch, hpad, ← h.bytes, h.segmentNo, Writer.append, h.segmentWriter]
    rfl
  segmentNo := congrArg (· + 1) h.segmentNo
  segmentWriter := by rw [h.segmentNo]
  pageSize := rfl
  whole := by
    intro f hf
    rcases Dir.mem_touch.mp hf with hf | ⟨-, rfl⟩
    · rcases Dir.mem_modify.mp hf with ⟨hf, -⟩ | ⟨seg, hseg, rfl⟩
      · exact h.whole f hf
      · exact (h.whole _ hseg).pad
    · exact Nat.zero_le _
  opened := by
    intro seg hf
    rw [h.events, Dir.names_map] at hnew
    rcases Dir.mem_touch.mp hf with hf | ⟨-, he⟩
    · rcases Dir.mem_modify.mp hf with ⟨hf, -⟩ | ⟨seg', hseg', he⟩
      · exact absurd (Dir.mem_names.mpr ⟨seg, hf⟩) hnew
      · have hno := walName_injective (Prod.mk.inj he).1
        dsimp only at hno
        omega
    · rw [(Prod.mk.inj he).2]
      exact ⟨rfl, rfl⟩

theorem write (h : InBytes segs w b) (hnew : walName (w.currentSegmentNo + 1) ∉ w.dir.names)
    (hsize : e.size ≤ kWalPageSize) :
    ∃ segs', InBytes segs' (w.write e) (b.writeAlone (flushEvent e.toLog)).1 := by
  have hb := b.writeAlone_cases (flushEvent e.toLog)
  rw [Event.length_flushEvent_toLog, h.pageSize] at hb
  rcases Wal.write_cases w e with ⟨hroom, hw⟩ | ⟨hroom, hw⟩
  · obtain ⟨-, hb⟩ := hb.resolve_right fun hb => hb.1 hroom
    rw [hw, hb]
    exact ⟨_, h.add hroom hsize⟩
  · obtain ⟨-, hb⟩ := hb.resolve_left fun hb => hroom hb.1
    rw [hw, hb]
    have hnext := (h.next hnew).add (Or.inl rfl) hsize
    simp only [Nat.zero_add] at hnext
    rw [Nat.zero_add]
    exact ⟨_, hnext⟩

theorem unlinkAll (h : InBytes segs w b) (names : List Bytes) :
    InBytes (segs.unlinkAll names) { w with dir := w.dir.unlinkAll names } { b with dir := b.dir.unlinkAll names } where
  events := by rw [Dir.map_unlinkAll, h.events]
  bytes := by rw [Dir.map_unlinkAll, h.bytes]
  segmentNo := h.segmentNo
  segmentWriter := h.segmentWriter
  pageSize := h.pageSize
  whole f hf := h.whole f (Dir.mem_unlinkAll.mp hf).1
  opened seg hf := h.opened seg (Dir.mem_unlinkAll.mp hf).1

theorem init {dir : Dir Bytes (List Event)} {dirBytes : Dir Bytes Bytes} (hevents : dir = segs.map Segment.events)
    (hbytes : dirBytes = segs.map Segment.bytes) (hwhole : ∀ f ∈ segs.files, f.2.Whole)
    (hnew : walName (initialSegmentNo dir) ∉ dir.names) :
    InBytes (segs.touch (walName (initialSegmentNo segs)) ⟨[], 0⟩) (Wal.init dir) (Writer.init dirBytes) := by
  have hw : initialSegmentNo dir = initialSegmentNo segs := by rw [hevents, initialSegmentNo_map]
  have hb : initialSegmentNo dirBytes = initialSegmentNo segs := by rw [hbytes, initialSegmentNo_map]
  rw [hw, hevents, Dir.names_map] at hnew
  refine ⟨?_, ?_, hb.trans hw.symm, ?_, rfl, ?_, ?_⟩
  · rw [Dir.map_touch, ← hevents, ← hw]
    rfl
  · rw [Dir.map_touch, ← hbytes, ← hb]
    rfl
  · exact congrArg walName (hb.trans hw.symm)
  · intro f hf
    rcases Dir.mem_touch.mp hf with hf | ⟨-, rfl⟩
    · exact hwhole f hf
    · exact Nat.zero_le _
  · intro seg hf
    have hname : walName (Wal.init dir).currentSegmentNo = walName (initialSegmentNo segs) := congrArg walName hw
    rw [hname] at hf
    rcases Dir.mem_touch.mp hf with hf | ⟨-, he⟩
    · exact absurd (Dir.mem_names.mpr ⟨seg, hf⟩) hnew
    · rw [(Prod.mk.inj he).2]
      exact ⟨rfl, rfl⟩

/-- The reader of the bytes delivers the events. -/
theorem read (h : InBytes segs w b) {p : Platform} (hp : p.order.arguments = UpsertArgument.leftToRight) :
    p.read b.dir = (Wal.events w.dir).map Event.toLog := by
  rw [Platform.read, Reader.segments, h.bytes, Dir.listing_map, Wal.events, h.events, Dir.listing_map, List.map_map,
    List.map_map, List.flatMap_map, List.map_flatten, List.map_map, List.flatMap]
  congr 1
  refine List.map_congr_left fun f hf => ?_
  exact (h.whole f (Dir.mem_listing.mp hf)).read hp _

end InBytes

/-- What a log of events and a log of bytes have in common that have been through the same steps. -/
structure InStep (w : Wal) (b : Writer) : Prop where
  numbered : w.Numbered
  inBytes : ∃ segs, InBytes segs w b

theorem Wal.Numbered.not_mem {w : Wal} (h : w.Numbered) {n : ℕ} (hn : w.currentSegmentNo < n) :
    walName n ∉ w.dir.names := by
  intro hm
  obtain ⟨es, hes⟩ := Dir.mem_names.mp hm
  obtain ⟨m, hm, he⟩ := h _ hes
  have hnm := walName_injective he
  omega

namespace InStep

variable {w : Wal} {b : Writer} {e : Event}

theorem start : InStep (Wal.init Dir.empty) (Writer.init Dir.empty) := by
  have hevents : (Dir.empty : Dir Bytes _) = Dir.empty.map Segment.events := rfl
  have hbytes : (Dir.empty : Dir Bytes _) = Dir.empty.map Segment.bytes := rfl
  refine ⟨Db.start_wal_numbered ⟨0⟩, _, InBytes.init hevents hbytes ?_ List.not_mem_nil⟩
  intro f hf
  cases hf

theorem write (h : InStep w b) (hsize : e.size ≤ kWalPageSize) : InStep (w.write e) (b.log e) := by
  obtain ⟨segs, hsegs⟩ := h.inBytes
  exact ⟨(Wal.Continues.write h.numbered e).2, hsegs.write (h.numbered.not_mem (Nat.lt_succ_self _)) hsize⟩

theorem unlinkAll (h : InStep w b) (names : List Bytes) :
    InStep { w with dir := w.dir.unlinkAll names } { b with dir := b.dir.unlinkAll names } := by
  obtain ⟨segs, hsegs⟩ := h.inBytes
  exact ⟨(Wal.Continues.unlinkAll h.numbered names).2, _, hsegs.unlinkAll names⟩

theorem restart (h : InStep w b) (hfew : w.currentSegmentNo < 10000) : InStep (Wal.init w.dir) (Writer.init b.dir) := by
  obtain ⟨segs, hsegs⟩ := h.inBytes
  obtain ⟨-, hused⟩ := h.numbered.initialSegmentNo hfew
  refine ⟨?_, _, InBytes.init hsegs.events hsegs.bytes hsegs.whole ?_⟩
  · intro f hf
    rcases Dir.mem_touch.mp hf with hf | ⟨-, rfl⟩
    · obtain ⟨n, hn, he⟩ := hused f hf
      exact ⟨n, hn.le, he⟩
    · exact ⟨_, le_rfl, rfl⟩
  · intro hm
    obtain ⟨es, hes⟩ := Dir.mem_names.mp hm
    obtain ⟨n, hn, he⟩ := hused _ hes
    exact hn.ne' (walName_injective he)

end InStep

end StructureDb
