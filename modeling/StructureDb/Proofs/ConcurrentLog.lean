import StructureDb.Lib.Splits
import StructureDb.Proofs.LogMemory
import StructureDb.Proofs.WalSteps
import StructureDb.Spec.Writer

/-! Concurrent writes to the log. As long as a write finds no other call inside `FlushPage`, and
room on the page for itself and the writes that are under way (or none of them), every
segment is one page of whole events in the order of the calls, and the reader delivers
them. Otherwise two writes may be let onto a page that has room for one, and the reader delivers
what lies across its end with a foreign tail. -/

namespace StructureDb

def fullPage (events : List LogEvent) : Bytes :=
  flushEvents events ++ List.replicate (kWalPageSize - (flushEvents events).length) 0

theorem readSegment_fullPage {events : List LogEvent} (h : (flushEvents events).length ≤ kWalPageSize) :
    readSegment (pages (fullPage events)) = events := by
  refine readSegment_flushEvents ?_
  rw [List.length_append, List.length_replicate]
  omega

theorem length_fullPage {events : List LogEvent} (h : (flushEvents events).length ≤ kWalPageSize) :
    (fullPage events).length = kWalPageSize := by
  rw [fullPage, List.length_append, List.length_replicate]
  omega

/-- The directory of a writer: finished pages, and the bytes of the open segment. -/
structure Writer.Layout (w : Writer) (old : List (ℕ × List LogEvent)) (bytes : Bytes) : Prop where
  segments : Wal.Segments w.dir w.currentSegmentNo (old.map fun seg => (seg.1, fullPage seg.2)) bytes
  fits : ∀ seg ∈ old, (flushEvents seg.2).length ≤ kWalPageSize
  pages : w.pagesInCurrentSegment = 0
  few : w.currentSegmentNo < 10000

namespace Writer

variable {w : Writer} {old : List (ℕ × List LogEvent)} {bytes : Bytes} {last : List LogEvent}

theorem Layout.append (h : w.Layout old bytes) (ho : w.currentSegmentWriter = walName w.currentSegmentNo)
    (data : Bytes) : (w.append data).Layout old (bytes ++ data) := by
  refine ⟨?_, h.fits, h.pages, h.few⟩
  have hseg := h.segments.modify fun bytes => bytes ++ data
  rw [← ho] at hseg
  exact hseg

/-- Behind a finished page the next segment is opened. -/
theorem endPage_eq (w : Writer) (data : Bytes) :
    w.endPage data =
      ({ dir := w.dir.touch (walName (w.currentSegmentNo + 1)) []
         currentSegmentWriter := w.currentSegmentWriter
         currentSegmentNo := w.currentSegmentNo + 1
         currentPageSize := 0
         pagesInCurrentSegment := 0 }, .opening (walName (w.currentSegmentNo + 1)) data) := by
  have hmax : w.pagesInCurrentSegment + 1 ≥ kMaxPagesInSegment := by simp [kMaxPagesInSegment]
  simp only [endPage, if_pos hmax, flushSegment, openSegment]

theorem Layout.endPage (h : w.Layout old (fullPage last)) (hl : (flushEvents last).length ≤ kWalPageSize)
    (hfew : w.currentSegmentNo + 1 < 10000) (data : Bytes) :
    (w.endPage data).1.Layout (old ++ [(w.currentSegmentNo, last)]) [] := by
  rw [endPage_eq]
  refine ⟨?_, ?_, rfl, hfew⟩
  · rw [List.map_append]
    exact h.segments.next []
  · intro seg hseg
    rcases List.mem_append.mp hseg with hseg | hseg
    · exact h.fits seg hseg
    · rw [List.mem_singleton.mp hseg]
      exact hl

theorem Layout.read (h : w.Layout old (flushEvents last)) (hl : (flushEvents last).length ≤ kWalPageSize) :
    Reader.read w.dir = old.flatMap Prod.snd ++ last := by
  have hlast : readSegment (StructureDb.pages (flushEvents last)) = last := by
    have hread : readSegment (StructureDb.pages (flushEvents last ++ List.replicate 0 0)) = last :=
      readSegment_flushEvents (by simpa using hl)
    simpa using hread
  have hsegs : Reader.segments w.dir =
      old.map (fun seg => ((seg.1 : ℤ), fullPage seg.2)) ++ [((w.currentSegmentNo : ℤ), flushEvents last)] := by
    rw [Reader.segments, h.segments.listing h.few]
    simp [Function.comp_def]
  rw [Reader.read, hsegs, List.flatMap_append, List.flatMap_map, List.flatMap_singleton, hlast]
  congr 1
  exact List.flatMap_congr fun seg hseg => readSegment_fullPage (h.fits seg hseg)

theorem Layout.whole (h : w.Layout old (flushEvents last)) (hl : (flushEvents last).length ≤ kWalPageSize) :
    ∀ f ∈ w.dir.files, ∃ events n, f.2 = flushEvents events ++ List.replicate n 0 ∧ f.2.length ≤ kWalPageSize := by
  intro f hf
  have hmem := (h.segments.files f).mp hf
  rw [List.map_append, List.mem_append, List.map_singleton, List.mem_singleton] at hmem
  rcases hmem with hmem | rfl
  · obtain ⟨seg', hseg', rfl⟩ := List.mem_map.mp hmem
    obtain ⟨seg, hseg, rfl⟩ := List.mem_map.mp hseg'
    exact ⟨seg.2, _, rfl, (length_fullPage (h.fits seg hseg)).le⟩
  · exact ⟨last, 0, by simp, hl⟩

end Writer

def WriteCall.onPage : WriteCall → Bool
  | .writing _ => true
  | .returned => true
  | _ => false

namespace Writes

variable {s s' : Writes} {action : Action}

/-- A write that meets no other call inside `FlushPage` or `OpenSegment`, and finds room on the page behind the writes
that are under way, unless there are none; and a segment number of four digits for a new page. -/
def Alone (s : Writes) : Action → Prop
  | .write event =>
    (∀ c ∈ s.calls, c.2.onPage = true) ∧
      ((∀ c ∈ s.calls, c.2 = .returned) ∨
        s.writer.currentPageSize + s.inFlight + (flushEvent event).length ≤ kWalPageSize) ∧
      s.writer.currentSegmentNo + 1 < 10000
  | .resume _ => True

instance (s : Writes) : (action : Action) → Decidable (s.Alone action)
  | .write _ => inferInstanceAs (Decidable (_ ∧ _ ∧ _))
  | .resume _ => isTrue trivial

/-- What the files and the calls are while no page is being finished, while one is padded, and while the next segment
is opened. -/
inductive Phase (s : Writes) : Prop
  | writing (old : List (ℕ × List LogEvent)) (last : List LogEvent)
      (layout : s.writer.Layout old (flushEvents last))
      (opened : s.writer.currentSegmentWriter = walName s.writer.currentSegmentNo)
      (size : s.writer.currentPageSize + s.inFlight = (flushEvents last).length)
      (fits : (flushEvents last).length ≤ kWalPageSize)
      (events : s.calls.map Prod.fst = old.flatMap Prod.snd ++ last)
      (calls : ∀ c ∈ s.calls, c.2.onPage = true)
  | padding (old : List (ℕ × List LogEvent)) (last : List LogEvent) (front : List (LogEvent × WriteCall)) (e : LogEvent)
      (layout : s.writer.Layout old (fullPage last))
      (fits : (flushEvents last).length ≤ kWalPageSize)
      (few : s.writer.currentSegmentNo + 1 < 10000)
      (calls : s.calls = front ++ [(e, .padding (flushEvent e))])
      (returned : ∀ c ∈ front, c.2 = .returned)
      (events : front.map Prod.fst = old.flatMap Prod.snd ++ last)
      (size : (flushEvent e).length ≤ kWalPageSize)
  | opening (old : List (ℕ × List LogEvent)) (front : List (LogEvent × WriteCall)) (e : LogEvent)
      (layout : s.writer.Layout old [])
      (empty : s.writer.currentPageSize = 0)
      (calls : s.calls = front ++ [(e, .opening (walName s.writer.currentSegmentNo) (flushEvent e))])
      (returned : ∀ c ∈ front, c.2 = .returned)
      (events : front.map Prod.fst = old.flatMap Prod.snd)
      (size : (flushEvent e).length ≤ kWalPageSize)

theorem start_phase : start.Phase := by
  refine .writing [] [] ⟨?_, by simp, rfl, by decide⟩ rfl rfl (by simp [flushEvents]) rfl (by simp [start])
  exact Wal.Segments.start []

theorem inFlight_append (w : Writer) (pre post : List (LogEvent × WriteCall)) :
    inFlight ⟨w, pre ++ post⟩ = inFlight ⟨w, pre⟩ + inFlight ⟨w, post⟩ := by
  simp [inFlight]

theorem inFlight_of_returned (w : Writer) {calls : List (LogEvent × WriteCall)} (h : ∀ c ∈ calls, c.2 = .returned) :
    inFlight ⟨w, calls⟩ = 0 := by
  refine List.sum_eq_zero ?_
  intro n hn
  obtain ⟨c, hc, rfl⟩ := List.mem_map.mp hn
  simp [h c hc]

theorem Phase.writeData {old : List (ℕ × List LogEvent)} {last : List LogEvent} {w : Writer}
    {calls : List (LogEvent × WriteCall)} (layout : w.Layout old (flushEvents last))
    (opened : w.currentSegmentWriter = walName w.currentSegmentNo)
    (size : w.currentPageSize + inFlight ⟨w, calls⟩ = (flushEvents last).length)
    (events : calls.map Prod.fst = old.flatMap Prod.snd ++ last) (honPage : ∀ c ∈ calls, c.2.onPage = true)
    {e : LogEvent} (hfits : (flushEvents last).length + (flushEvent e).length ≤ kWalPageSize) :
    Phase ⟨(w.writeData (flushEvent e)).1, calls ++ [(e, (w.writeData (flushEvent e)).2)]⟩ := by
  have hbytes : flushEvents (last ++ [e]) = flushEvents last ++ flushEvent e := by
    rw [flushEvents_append, flushEvents_singleton]
  refine .writing old (last ++ [e]) ?_ opened ?_ ?_ ?_ ?_
  · rw [hbytes]
    exact layout.append opened _
  · rw [inFlight_append, hbytes, List.length_append, ← size, Nat.add_assoc]
    rfl
  · rw [hbytes, List.length_append]
    exact hfits
  · rw [List.map_append, events, List.append_assoc]
    rfl
  · intro c hc
    rcases List.mem_append.mp hc with hc | hc
    · exact honPage c hc
    · rw [List.mem_singleton.mp hc]
      rfl

/-- The page is finished and the next segment is to be opened. -/
theorem Phase.endPage {old : List (ℕ × List LogEvent)} {last : List LogEvent} {w : Writer}
    {front : List (LogEvent × WriteCall)} (layout : w.Layout old (fullPage last))
    (fits : (flushEvents last).length ≤ kWalPageSize) (few : w.currentSegmentNo + 1 < 10000)
    (returned : ∀ c ∈ front, c.2 = .returned) (events : front.map Prod.fst = old.flatMap Prod.snd ++ last)
    {e : LogEvent} (size : (flushEvent e).length ≤ kWalPageSize) :
    Phase ⟨(w.endPage (flushEvent e)).1, front ++ [(e, (w.endPage (flushEvent e)).2)]⟩ := by
  have hlayout := layout.endPage fits few (flushEvent e)
  rw [Writer.endPage_eq] at hlayout ⊢
  exact .opening _ front e hlayout rfl rfl returned (by simp [events]) size

theorem Phase.write (h : s.Phase) {e : LogEvent} (hg : s.Alone (.write e))
    (hsize : (flushEvent e).length ≤ kWalPageSize) (hs : s.step (.write e) = some s') : s'.Phase := by
  obtain ⟨honPage, hroom, hfew⟩ := hg
  have hs' : s' = ⟨(s.writer.write (flushEvent e)).1, s.calls ++ [(e, (s.writer.write (flushEvent e)).2)]⟩ :=
    (Option.some.inj hs).symm
  rw [hs']
  cases h with
  | writing old last layout opened size fits events calls =>
    unfold Writer.write
    split_ifs with hfull
    · -- no write is under way
      have hreturned := hroom.resolve_right (by omega)
      have hpage : s.writer.currentPageSize = (flushEvents last).length := by
        rw [← size]
        exact (Nat.add_eq_left.mpr (inFlight_of_returned s.writer hreturned)).symm
      unfold Writer.flushPage
      rw [if_neg (by omega)]
      split_ifs with hpad
      · refine .padding old last s.calls e ?_ fits hfew rfl hreturned events hsize
        have hl := layout.append opened (List.replicate (kWalPageSize - s.writer.currentPageSize) 0)
        rw [hpage] at hl ⊢
        exact hl
      · have hnopad : kWalPageSize - (flushEvents last).length = 0 := by omega
        have hfullPage : fullPage last = flushEvents last := by
          rw [fullPage, hnopad, List.replicate_zero, List.append_nil]
        exact Phase.endPage (hfullPage ▸ layout) fits hfew hreturned events hsize
    · refine Phase.writeData layout opened size events calls ?_
      rcases hroom with hreturned | hroom
      · have hzero : s.inFlight = 0 := inFlight_of_returned s.writer hreturned
        omega
      · omega
  | padding old last front e' layout fits few calls returned events size =>
    have hcon := honPage (e', .padding (flushEvent e')) (by rw [calls]; simp)
    cases hcon
  | opening old front e' layout empty calls returned events size =>
    have hcon := honPage (e', .opening (walName s.writer.currentSegmentNo) (flushEvent e')) (by rw [calls]; simp)
    cases hcon

/-- A call that has not returned goes on, the others stay where they are. -/
theorem resume_cases {i : ℕ} (hs : s.step (.resume i) = some s') :
    ∃ ev call pre post, call ≠ .returned ∧ s.calls = pre ++ (ev, call) :: post ∧
      s' = ⟨(s.writer.resume call).1, pre ++ (ev, (s.writer.resume call).2) :: post⟩ := by
  simp only [step] at hs
  rcases hi : s.calls[i]? with _ | ⟨ev, call⟩ <;> simp only [hi] at hs
  · cases hs
  split_ifs at hs with hdone
  cases hs
  obtain ⟨pre, post, hsplit, hset⟩ := Splits.of_getElem? hi
  exact ⟨ev, call, pre, post, hdone, hsplit, by rw [hset]⟩

theorem Phase.resume (h : s.Phase) {i : ℕ} (hs : s.step (.resume i) = some s') : s'.Phase := by
  obtain ⟨ev, call, pre, post, hdone, hsplit, rfl⟩ := resume_cases hs
  cases h with
  | writing old last layout opened size fits events calls =>
    have hon := calls (ev, call) (by rw [hsplit]; simp)
    cases call with
    | padding data => cases hon
    | opening path data => cases hon
    | returned => exact absurd rfl hdone
    | writing n =>
      have hfly : s.inFlight = inFlight ⟨s.writer, pre⟩ + (n + inFlight ⟨s.writer, post⟩) := by
        have happend := inFlight_append s.writer pre ((ev, .writing n) :: post)
        rw [← hsplit] at happend
        exact happend
      refine .writing old last ⟨layout.segments, layout.fits, layout.pages, layout.few⟩ opened ?_ fits ?_ ?_
      · rw [inFlight_append, ← size, hfly]
        change s.writer.currentPageSize + n + (inFlight ⟨s.writer, pre⟩ + (0 + inFlight ⟨s.writer, post⟩)) = _
        omega
      · rw [← events, hsplit]
        simp
      · intro c hc
        rcases List.mem_append.mp hc with hc | hc
        · exact calls c (by rw [hsplit]; exact List.mem_append_left _ hc)
        · rcases List.mem_cons.mp hc with rfl | hc
          · rfl
          · exact calls c (by rw [hsplit]; exact List.mem_append_right _ (List.mem_cons_of_mem _ hc))
  | padding old last front e layout fits few calls returned events size =>
    rw [calls] at hsplit
    obtain ⟨he, rfl, rfl⟩ | ⟨post', hfront⟩ := Splits.concat_eq_append_cons hsplit
    · cases he
      exact Phase.endPage layout fits few returned events size
    · exact absurd (returned (ev, call) (by rw [hfront]; simp)) hdone
  | opening old front e layout empty calls returned events size =>
    rw [calls] at hsplit
    obtain ⟨he, rfl, rfl⟩ | ⟨post', hfront⟩ := Splits.concat_eq_append_cons hsplit
    · cases he
      have hlayout : Writer.Layout { s.writer with currentSegmentWriter := walName s.writer.currentSegmentNo } old
          (flushEvents []) := ⟨layout.segments, layout.fits, layout.pages, layout.few⟩
      refine Phase.writeData hlayout rfl ?_ ?_ ?_ ?_
      · rw [inFlight_of_returned _ returned]
        exact empty
      · rw [events, List.append_nil]
      · intro c hc
        rw [returned c hc]
        rfl
      · simpa [flushEvents] using size
    · exact absurd (returned (ev, call) (by rw [hfront]; simp)) hdone

/-- Once all calls have returned, the reader delivers the events of all calls in the order of the calls, and no segment
is longer than a page. -/
theorem writes_delivered (p : Platform) (hp : p.order.arguments = UpsertArgument.leftToRight) (actions : List Action)
    (hsize : ∀ e, .write e ∈ actions → (flushEvent e).length ≤ kWalPageSize)
    (hg : Machine.Guarded step Alone start actions) (s : Writes) (hr : Machine.run step start actions = some s)
    (hdone : ∀ c ∈ s.calls, c.2 = .returned) :
    p.read s.writer.dir = s.calls.map Prod.fst ∧
      ∀ f ∈ s.writer.dir.files, ∃ events n, f.2 = flushEvents events ++ List.replicate n 0 ∧
        f.2.length ≤ kWalPageSize := by
  have h : s.Phase := by
    refine Machine.run_inv
      (P := fun tr s => (∀ e, .write e ∈ tr → (flushEvent e).length ≤ kWalPageSize) → s.Phase)
      (fun _ => start_phase) ?_ hg hr hsize
    intro tr s action s' hs hg hstep hsize
    have h := hs fun e he => hsize e (List.mem_append_left _ he)
    cases action with
    | write e => exact h.write hg (hsize e (by simp)) hstep
    | resume i => exact h.resume hstep
  cases h with
  | writing old last layout opened size fits events calls =>
    have hwhole := layout.whole fits
    exact ⟨(Platform.read_eq hp hwhole).trans ((layout.read fits).trans events.symm), hwhole⟩
  | padding old last front e layout fits few calls returned events size =>
    have hcon := hdone (e, .padding (flushEvent e)) (by rw [calls]; simp)
    cases hcon
  | opening old front e layout empty calls returned events size =>
    have hcon := hdone (e, .opening (walName s.writer.currentSegmentNo) (flushEvent e)) (by rw [calls]; simp)
    cases hcon

/-- Two small writes under way at a time, returning in the other order, and a third one; ones lie behind the page. -/
theorem writes_delivered_overlapping :
    ∃ s, Machine.run step start [.write (.lsmStorageUpsert [84] 1 [1] [5]), .write (.txStorageCommit 10), .resume 1,
        .write (.lsmStorageUpsert [84] 2 [1] [6]), .resume 0, .resume 2] = some s ∧
      Platform.read ⟨.inSource, fun _ => List.replicate 16 1⟩ s.writer.dir =
        [.lsmStorageUpsert [84] 1 [1] [5], .txStorageCommit 10, .lsmStorageUpsert [84] 2 [1] [6]] := by
  refine Machine.exists_run_of (T := fun s => (∀ c ∈ s.calls, c.2 = .returned) ∧ s.calls.map Prod.fst =
    [.lsmStorageUpsert [84] 1 [1] [5], .txStorageCommit 10, .lsmStorageUpsert [84] 2 [1] [6]]) (by decide) ?_
  intro s hs hp
  obtain ⟨hdone, hcalls⟩ := hp
  refine (writes_delivered _ rfl _ ?_ (by decide) s hs hdone).1.trans hcalls
  intro e he
  simp only [List.mem_cons, List.not_mem_nil, Action.write.injEq, reduceCtorEq, or_false, false_or] at he
  rcases he with rfl | rfl | rfl <;> decide

theorem write_of_room {w : Writer} {data : Bytes} (h : w.currentPageSize + data.length ≤ kWalPageSize) :
    w.write data = w.writeData data := if_neg (not_lt.mpr h)

/-- Two writes started on an empty page that has room for each of them. -/
theorem run_two_writes (e₁ e₂ : LogEvent) (h₁ : (flushEvent e₁).length ≤ kWalPageSize)
    (h₂ : (flushEvent e₂).length ≤ kWalPageSize) :
    ∃ s, Machine.run step start [.write e₁, .write e₂, .resume 0, .resume 1] = some s ∧
      s.calls.map Prod.fst = [e₁, e₂] ∧ (∀ c ∈ s.calls, c.2 = .returned) ∧
      Reader.segments s.writer.dir = [(0, flushEvents [e₁, e₂])] := by
  have hw₁ : start.writer.write (flushEvent e₁) = start.writer.writeData (flushEvent e₁) :=
    write_of_room ((Nat.zero_add _).trans_le h₁)
  have hw₂ : (start.writer.append (flushEvent e₁)).write (flushEvent e₂) =
      (start.writer.append (flushEvent e₁)).writeData (flushEvent e₂) :=
    write_of_room ((Nat.zero_add _).trans_le h₂)
  have hs₁ : start.step (.write e₁) =
      some ⟨start.writer.append (flushEvent e₁), [(e₁, .writing (flushEvent e₁).length)]⟩ := by
    rw [step, hw₁]
    rfl
  have hs₂ : step ⟨start.writer.append (flushEvent e₁), [(e₁, .writing (flushEvent e₁).length)]⟩ (.write e₂) =
      some ⟨(start.writer.append (flushEvent e₁)).append (flushEvent e₂),
        [(e₁, .writing (flushEvent e₁).length), (e₂, .writing (flushEvent e₂).length)]⟩ := by
    rw [step, hw₂]
    rfl
  refine ⟨_, Machine.run_cons.mpr ⟨_, hs₁, Machine.run_cons.mpr ⟨_, hs₂, rfl⟩⟩, rfl, by simp, ?_⟩
  have hseg := ((Wal.Segments.start ([] : Bytes)).modify (· ++ flushEvent e₁)).modify (· ++ flushEvent e₂)
  rw [Reader.segments]
  exact (congrArg _ (hseg.listing (by decide))).trans (by simp [flushEvents])

/-- Two upserts of 2142 bytes started at a time on an empty page: both find room. After both have returned the second
one lies across the end of the page, and the reader delivers it with what lies behind the page for the last 188 bytes of
its value. -/
theorem concurrent_write_crosses_page :
    ∃ s, Machine.run step start [.write (.lsmStorageUpsert [84] 1 [1] (List.replicate 2100 0)),
        .write (.lsmStorageUpsert [84] 2 [2] (List.replicate 2100 0)), .resume 0, .resume 1] = some s ∧
      (∀ c ∈ s.calls, c.2 = .returned) ∧
      Reader.segments s.writer.dir = [(0, flushEvents (s.calls.map Prod.fst))] ∧
      ∀ p : Platform, p.order.arguments = UpsertArgument.leftToRight → 188 ≤ (p.beyond ⟨0, 0⟩).length →
        p.read s.writer.dir = [.lsmStorageUpsert [84] 1 [1] (List.replicate 2100 0),
          .lsmStorageUpsert [84] 2 [2] (List.replicate 1912 0 ++ (p.beyond ⟨0, 0⟩).take 188)] := by
  have hsize : ∀ n k, (flushEvent (.lsmStorageUpsert [84] n [k] (List.replicate 2100 0))).length = 2142 := by
    intro n k
    simp only [flushEvent, LogEvent.flush, List.length_append, length_writeInt, length_writeString,
      List.length_singleton, List.length_replicate]
  have hpage : kWalPageSize = 4096 := rfl
  obtain ⟨s, hr, hcalls, hdone, hsegs⟩ := run_two_writes (.lsmStorageUpsert [84] 1 [1] (List.replicate 2100 0))
    (.lsmStorageUpsert [84] 2 [2] (List.replicate 2100 0)) (by rw [hsize]; omega) (by rw [hsize]; omega)
  refine ⟨s, hr, hdone, hcalls ▸ hsegs, ?_⟩
  intro p hp hbeyond
  -- the page ends behind 1912 bytes of the second value
  have hvalue : List.replicate 2100 (0 : Byte) = List.replicate 1912 0 ++ List.replicate 188 0 := by
    rw [List.replicate_append_replicate]
  have hfirst : (flushEvents [.lsmStorageUpsert [84] 1 [1] (List.replicate 2100 0)] ++
      upsertUpTo [84] 2 [2] (List.replicate 1912 0) (List.replicate 188 0)).length = kWalPageSize := by
    rw [List.length_append, flushEvents_singleton, hsize, length_upsertUpTo, List.length_replicate]
    rfl
  have hcut := Platform.readSegment_zeros hp (by decide) (by decide) hbeyond hfirst
  rw [← hvalue] at hcut
  rw [Platform.read, hsegs, List.flatMap_singleton]
  exact hcut

end Writes

end StructureDb
