import StructureDb.Proofs.Cluster

/-! The events in the log of a follower. The pages that it has received hold the first events that the leader
has written, in their order and each of them once; a page may be cut at any byte. When the stream is read to
its end and the leader finds nothing more to send, they are all the events. -/

namespace StructureDb

open GetEventsReactor

theorem prefix_contained (n : ℕ) (events : List LogEvent) : contained n events <+: events := by
  induction events generalizing n with
  | nil => exact List.prefix_refl _
  | cons e events ih =>
    unfold contained
    split_ifs
    · exact List.cons_prefix_cons.mpr ⟨rfl, ih _⟩
    · exact List.nil_prefix

/-- The reader gets the first events from the beginning of a page. -/
theorem prefix_readSegment {events : List LogEvent} {zeros : ℕ} {front : Bytes}
    (hroom : (flushEvents events ++ List.replicate zeros (0 : Byte)).length ≤ kWalPageSize)
    (hp : front <+: flushEvents events ++ List.replicate zeros 0) : readSegment (pages front) <+: events := by
  obtain ⟨tail, htake, htail⟩ := take_page events zeros front.length
  rw [← List.prefix_iff_eq_take.mp hp] at htake
  have hsize := length_flushEvent_lt hroom
  have hnone : parseEvent tail = none := by
    rcases htail with ⟨-, k, rfl⟩ | ⟨-, e, he, back, hback, hsplit⟩
    · exact parseEvent_zeros k
    · exact parseEvent_torn (hsize e he) hsplit hback
  have hin : ∀ e ∈ contained front.length events, (flushEvent e).length < 2 ^ 64 :=
    fun e he => hsize e ((prefix_contained _ _).subset he)
  have hpage : (onPage front).1 = contained front.length events := by
    have hparse := parseEvents_flushEvents hin hnone le_rfl
    rw [← htake] at hparse
    rw [onPage, hparse]
  rw [pages_of_le (hp.length_le.trans hroom)]
  split_ifs with hnil
  · exact List.nil_prefix
  · rw [readSegment, readSegment, List.append_nil, ite_self, hpage]
    exact prefix_contained _ _

/-- Lists that are gone through by their numbers, the last of them up to some point. -/
theorem prefix_flatMap_range {α : Type} {lists : List (List α)} {m : ℕ} {f : ℕ → List α}
    (hbelow : ∀ n < m, lists[n]? = some (f n)) (hlast : f m = [] ∨ ∃ l, lists[m]? = some l ∧ f m <+: l) :
    (List.range (m + 1)).flatMap f <+: lists.flatten := by
  have htake : (List.range m).map f = lists.take m := by
    refine List.ext_getElem? fun i => ?_
    rw [List.getElem?_map, List.getElem?_take]
    split_ifs with hi
    · rw [List.getElem?_range hi, hbelow i hi]
      rfl
    · rw [List.getElem?_eq_none (by rw [List.length_range]; omega)]
      rfl
  have hsplit : lists.flatten = (lists.take m).flatten ++ (lists.drop m).flatten := by
    rw [← List.flatten_append, List.take_append_drop]
  rw [List.range_succ, List.flatMap_append, List.flatMap_singleton, List.flatMap_def, htake, hsplit,
    List.prefix_append_right_inj]
  rcases hlast with hnil | ⟨l, hl, hp⟩
  · rw [hnil]
    exact List.nil_prefix
  · obtain ⟨hlt, rfl⟩ := List.getElem?_eq_some_iff.mp hl
    rw [List.drop_eq_getElem_cons hlt, List.flatten_cons]
    exact hp.trans (List.prefix_append _ _)

namespace Writes

variable {s : Writes} {old : List (ℕ × List LogEvent)} {last : List LogEvent} {zeros : ℕ}

/-- The segments have the numbers from zero on. -/
theorem Shape.numbers (h : s.Shape old last zeros) (hgap : s.writer.NoGap) :
    (old ++ [(s.writer.currentSegmentNo, last)]).map Prod.fst = List.range (s.writer.currentSegmentNo + 1) := by
  have hasc : ((old ++ [(s.writer.currentSegmentNo, last)]).map Prod.fst).Pairwise (· < ·) := by
    have hpairs := List.pairwise_map.mpr h.layout.segments.ascending
    rw [List.map_append, List.map_map] at hpairs
    rw [List.map_append]
    exact hpairs
  refine hasc.eq_of_mem_iff List.pairwise_lt_range ?_
  intro n
  rw [List.mem_range, Nat.lt_succ_iff, List.map_append, List.mem_append, List.map_singleton, List.mem_singleton]
  constructor
  · rintro (hn | rfl)
    · obtain ⟨seg, hseg, rfl⟩ := List.mem_map.mp hn
      exact (h.below seg hseg).le
    · exact le_rfl
  · intro hn
    obtain ⟨data, hf⟩ := Dir.mem_names.mp (hgap n hn)
    rcases h.mem_files hf with ⟨seg, hseg, he⟩ | he
    · exact Or.inl (List.mem_map.mpr ⟨seg, hseg, (walName_injective (Prod.mk.inj he).1).symm⟩)
    · exact Or.inr (walName_injective (Prod.mk.inj he).1)

def segmentEvents (s : Writes) (old : List (ℕ × List LogEvent)) (last : List LogEvent) : List (List LogEvent) :=
  (old ++ [(s.writer.currentSegmentNo, last)]).map Prod.snd

theorem Shape.getElem?_segmentEvents (h : s.Shape old last zeros) (hgap : s.writer.NoGap) {seg : ℕ × List LogEvent}
    (hseg : seg ∈ old ++ [(s.writer.currentSegmentNo, last)]) :
    (s.segmentEvents old last)[seg.1]? = some seg.2 := by
  obtain ⟨i, hi⟩ := List.mem_iff_getElem?.mp hseg
  have hnumber : ((old ++ [(s.writer.currentSegmentNo, last)]).map Prod.fst)[i]? = some seg.1 := by
    rw [List.getElem?_map, hi]
    rfl
  rw [h.numbers hgap] at hnumber
  obtain ⟨hlt, he⟩ := List.getElem?_eq_some_iff.mp hnumber
  rw [List.getElem_range] at he
  rw [segmentEvents, List.getElem?_map, ← he, hi]
  rfl

/-- What a reader gets from a segment, or from the beginning of one. -/
theorem Shape.read (h : s.Shape old last zeros) (hgap : s.writer.NoGap) {n : ℕ} {data front : Bytes}
    (hf : (walName n, data) ∈ s.writer.dir.files) (hp : front <+: data) :
    ∃ events, (s.segmentEvents old last)[n]? = some events ∧ readSegment (pages front) <+: events ∧
      (front = data → readSegment (pages front) = events) := by
  rcases h.mem_files hf with ⟨seg, hseg, he⟩ | he
  · obtain ⟨hn, rfl⟩ := Prod.mk.inj he
    obtain rfl := walName_injective hn
    have hfits := h.layout.fits seg hseg
    refine ⟨seg.2, h.getElem?_segmentEvents hgap (List.mem_append_left _ hseg), ?_, ?_⟩
    · exact prefix_readSegment (length_fullPage hfits).le hp
    · rintro rfl
      exact readSegment_fullPage hfits
  · obtain ⟨hn, rfl⟩ := Prod.mk.inj he
    obtain rfl := walName_injective hn
    refine ⟨last, h.getElem?_segmentEvents hgap (List.mem_append_right _ (List.mem_singleton_self _)), ?_, ?_⟩
    · exact prefix_readSegment h.room hp
    · rintro rfl
      exact readSegment_flushEvents h.room

theorem flatten_segmentEvents (s : Writes) (old : List (ℕ × List LogEvent)) (last : List LogEvent) :
    (s.segmentEvents old last).flatten = old.flatMap Prod.snd ++ last := by
  simp [segmentEvents, List.flatMap_def]

theorem Shape.flatten (h : s.Shape old last zeros) : (s.segmentEvents old last).flatten <+: s.calls.map Prod.fst := by
  rw [flatten_segmentEvents]
  exact h.events

/-- Between two calls all events are in the segments. -/
theorem Phase.shape_of_returned (h : s.Phase) (hdone : ∀ c ∈ s.calls, c.2 = .returned) :
    ∃ old last zeros, s.Shape old last zeros ∧ (s.segmentEvents old last).flatten = s.calls.map Prod.fst := by
  cases h with
  | writing old last layout opened size fits events calls =>
    refine ⟨old, last, 0, ⟨?_, ?_, by rw [events]⟩, by rw [flatten_segmentEvents, events]⟩
    · rw [List.replicate_zero, List.append_nil]
      exact layout
    · rw [List.replicate_zero, List.append_nil]
      exact fits
  | padding old last front e layout fits few calls returned events size =>
    cases hdone (e, .padding (flushEvent e)) (by rw [calls]; simp)
  | opening old front e layout empty calls returned events size =>
    cases hdone (e, .opening (walName s.writer.currentSegmentNo) (flushEvent e)) (by rw [calls]; simp)

end Writes

namespace GetEventsReactor

variable {w : Writer} {r : GetEventsReactor} {n m : ℕ} {data : Bytes}

theorem reached_le_append (n : ℕ) (pages more : List WalPageData) : reached n pages ≤ reached n (pages ++ more) := by
  rw [reached_append]
  exact Nat.le_add_right _ _

/-- When a round sends nothing, a segment that was not sent as a whole is the one that was sent last, as it is. -/
theorem FromSegment.last_sent (h : r.FromSegment w n) (hfilled : w.Filled) (hsound : r.Sound w)
    (horigin : r.origin = ⟨n, 0⟩) (hidle : (r.poll w.dir).writing = none) (hf : (walName m, data) ∈ w.dir.files)
    (hdata : data ≠ []) (hm : reached n r.sent ≤ m) :
    m = reached n r.sent ∧ r.sent.getLast? = some ⟨⟨m, 0⟩, data⟩ ∧ data.length < kWalPageSize := by
  have hpage := hfilled.pageOf hf hdata
  have hge : ¬(⟨m, 0⟩ : Position) < r.origin := by
    rw [horigin, Position.lt_iff]
    have hn : n ≤ reached n r.sent := Nat.le_add_right _ _
    simp only
    omega
  have hsent := hsound.all_sent hfilled.named hfilled.collected_full hidle
    (hfilled.named.mem_collectPagesFrom.mpr ⟨hpage, hge⟩)
  -- its place among the pages says which segment it is
  obtain ⟨before, after, hsplit⟩ := List.append_of_mem hsent
  have hplace := congrArg Position.segmentNo (h.inOrder before _ after hsplit)
  have hbefore : m = reached n before := Int.ofNat.inj hplace
  have hshort : ¬isCompleted ⟨⟨m, 0⟩, data⟩ = true := by
    intro hc
    have hle : reached n (before ++ [⟨⟨m, 0⟩, data⟩]) ≤ reached n r.sent := by
      rw [hsplit, show before ++ ⟨⟨m, 0⟩, data⟩ :: after = (before ++ [⟨⟨m, 0⟩, data⟩]) ++ after by simp]
      exact reached_le_append _ _ _
    rw [reached_append, reached_singleton, if_pos hc] at hle
    omega
  have hmeq : m = reached n r.sent := by
    have hle : reached n before ≤ reached n r.sent := by
      rw [hsplit]
      exact reached_le_append _ _ _
    omega
  refine ⟨hmeq, ?_, ?_⟩
  · have hnext : ¬(⟨m, 0⟩ : Position) < r.nextPos := by
      rw [Position.lt_iff]
      rcases h.next with he | he <;> rw [he] <;> simp only <;> omega
    have hmem := hfilled.named.mem_collectPagesFrom.mpr ⟨hpage, hnext⟩
    have hfull : ∀ p ∈ (collectPagesFrom w.dir r.nextPos).dropLast, isCompleted p = true := hfilled.collected_full
    unfold GetEventsReactor.poll at hidle
    rcases hpages : collectPagesFrom w.dir r.nextPos with _ | ⟨page, rest⟩
    · rw [hpages] at hmem
      cases hmem
    · rw [hpages] at hidle hmem hfull
      rw [GetEventsReactor.pumpPages] at hidle
      split_ifs at hidle with htail
      obtain ⟨hnot, htail⟩ := htail
      have hrest : rest = [] := by
        cases rest with
        | nil => rfl
        | cons next rest => exact absurd (hfull page (by simp)) hnot
      rw [hrest, List.mem_singleton] at hmem
      subst hmem
      obtain ⟨hpos, hsize⟩ := of_decide_eq_true htail
      obtain ⟨last, hlast, hlen⟩ := h.tail (by omega)
      obtain ⟨m', data', hm', hf', hp⟩ := hfilled.of_snapshot (h.found _ (List.mem_of_getLast? hlast))
      obtain rfl : m' = m := Int.ofNat.inj (congrArg Position.segmentNo (hm'.symm.trans hpos.symm))
      rw [Dir.unique hf' hf] at hp
      have hsame := hp.eq_of_length_le (by simp only at hsize hlen ⊢; omega)
      rw [hlast, ← hpos, ← hsame]
  · have hle := hfilled.onePage _ hf
    refine lt_of_le_of_ne hle ?_
    intro he
    exact hshort (decide_eq_true he)

end GetEventsReactor

/-- What a reader gets from the page of a segment that was received last. -/
def Mirror.segmentEvents (f : Mirror) (n : ℕ) : List LogEvent :=
  (f.received n).elim [] fun data => readSegment (pages data)

namespace Cluster

variable {s : Cluster}

theorem inv_of_run {actions : List Action} (hg : Machine.Guarded step Steady start actions)
    (hr : Machine.run step start actions = some s) : s.Inv :=
  Machine.run_inv (P := fun _ s => s.Inv) start_inv (fun _ _ _ _ h hg hs => h.step hg hs) hg hr

/-- In every run the follower has the first segments of the leader as whole pages, the next one up to some point, and
nothing of those behind it; the events in them are the first ones that the leader was given to write. -/
theorem follower_log_from_leader (actions : List Action) (s : Cluster) (hg : Machine.Guarded step Steady start actions)
    (hr : Machine.run step start actions = some s) :
    ∃ m, (∀ n < m, ∃ data, (walName n, data) ∈ s.mirror.dir.files ∧ (walName n, data) ∈ s.leader.dir.files ∧
        data.length = kWalPageSize) ∧
      (∀ data, s.mirror.received m = some data → (walName m, data) ∈ s.mirror.dir.files ∧
        ∃ data', (walName m, data') ∈ s.leader.dir.files ∧ data <+: data') ∧
      (∀ n, m < n → s.mirror.received n = none) ∧
      (List.range (m + 1)).flatMap s.mirror.segmentEvents <+: s.leader.writes.calls.map Prod.fst := by
  have h := inv_of_run hg hr
  obtain ⟨m, hfollows, -⟩ := h.place
  refine ⟨m, ?_, ?_, hfollows.ahead, ?_⟩
  · intro n hn
    obtain ⟨data, hreceived, hf, hlen⟩ := hfollows.whole n hn
    exact ⟨data, h.mirror.received n data hreceived, hf, hlen⟩
  · intro data hreceived
    exact ⟨h.mirror.received m data hreceived, (hfollows.part data hreceived).2⟩
  · obtain ⟨old, last, zeros, hshape⟩ := h.leader.log.shape
    refine (prefix_flatMap_range ?_ ?_).trans hshape.flatten
    · intro n hn
      obtain ⟨data, hreceived, hf, -⟩ := hfollows.whole n hn
      obtain ⟨events, hevents, -, hread⟩ := hshape.read h.leader.noGap hf (List.prefix_refl data)
      rw [hevents, Mirror.segmentEvents, hreceived, ← hread rfl]
      rfl
    · rcases hreceived : s.mirror.received m with _ | data
      · left
        rw [Mirror.segmentEvents, hreceived]
        rfl
      · obtain ⟨-, data', hf, hp⟩ := hfollows.part data hreceived
        obtain ⟨events, hevents, hread, -⟩ := hshape.read h.leader.noGap hf hp
        right
        refine ⟨events, hevents, ?_⟩
        rw [Mirror.segmentEvents, hreceived]
        exact hread

/-- The follower crashes behind the creation of the file, finds the segment short and asks for it again; by then it has
grown. -/
def crashedFollower : List Action :=
  [.leader (.write (.txStorageCommit 10)), .leader (.resume 0), .nextSegmentToFetch, .fileSize, .getEvents,
    .leader (.poll 0), .read, .restart, .leader (.writeDone 0), .leader (.write (.txStorageCommit 11)),
    .leader (.resume 1), .nextSegmentToFetch, .fileSize, .getEvents, .leader (.poll 1), .read, .writePage,
    .leader (.writeDone 1)]

theorem follower_log_from_leader_crashed :
    ∃ s, Machine.run step start crashedFollower = some s ∧
      s.mirror.segmentEvents 0 = [.txStorageCommit 10, .txStorageCommit 11] ∧
      ∃ m, (List.range (m + 1)).flatMap s.mirror.segmentEvents <+: s.leader.writes.calls.map Prod.fst := by
  refine Machine.exists_run_of (T := fun s => s.mirror.segmentEvents 0 = [.txStorageCommit 10, .txStorageCommit 11])
    (by decide +kernel) ?_
  intro s hs hevents
  obtain ⟨m, -, -, -, hprefix⟩ := follower_log_from_leader crashedFollower s (by decide +kernel) hs
  exact ⟨hevents, m, hprefix⟩

/-- The follower has read a stream to its end, and the leader has nothing to send. Then the follower has every segment
of the leader as it is, and between two writes all the events that the leader has written. -/
theorem idle_follower_caught_up (actions : List Action) (s : Cluster)
    (hg : Machine.Guarded step Steady start actions) (hr : Machine.run step start actions = some s) (token : ℕ)
    (r : GetEventsReactor) (hfollower : s.follower = .reading token r.sent.length)
    (hreactor : s.leader.reactor? token = some r) (hreceiving : s.mirror.receiving = none) (hwriting : r.writing = none)
    (hidle : (r.poll s.leader.dir).writing = none) :
    (∀ n data, (walName n, data) ∈ s.leader.dir.files → data ≠ [] → (walName n, data) ∈ s.mirror.dir.files) ∧
      ((∀ c ∈ s.leader.writes.calls, c.2 = .returned) →
        (List.range (s.leader.writes.writer.currentSegmentNo + 1)).flatMap s.mirror.segmentEvents =
          s.leader.writes.calls.map Prod.fst) := by
  have h := inv_of_run hg hr
  obtain ⟨m, hfollows, hat⟩ := h.place
  rw [hfollower] at hat
  have hstarted : r.started.take r.sent.length = r.sent := by
    rw [started, hwriting, Option.map_none, Option.toList_none, List.append_nil, List.take_length]
  obtain ⟨-, ⟨n₀, horigin, hreached⟩, htail⟩ := hat.2.2 r hreactor
  have hdue : s.mirror.due m = m := by rw [Mirror.due, hreceiving]
  rw [hstarted, hdue] at hreached
  rw [hstarted] at htail
  have hmem := (Leader.reactor?_mem hreactor).1
  have hreceived : ∀ n data, (walName n, data) ∈ s.leader.dir.files → data ≠ [] →
    s.mirror.received n = some data := by
    intro n data hf hdata
    by_cases hn : n < m
    · obtain ⟨data', hr', hf', -⟩ := hfollows.whole n hn
      rw [hr', Dir.unique hf hf']
    · obtain ⟨hnm, hlast, hshort⟩ := (h.leader.inOrder r hmem n₀ horigin).last_sent h.leader.filled
        (h.leader.sound r hmem) horigin hidle hf hdata (by omega)
      have hpart : isCompleted ⟨⟨n, 0⟩, data⟩ = false := decide_eq_false hshort.ne
      rcases htail _ hlast hpart with he | ⟨-, he⟩
      · cases hreceiving.symm.trans he
      · rw [hnm, hreached]
        exact he
  refine ⟨fun n data hf hdata => h.mirror.received n data (hreceived n data hf hdata), ?_⟩
  intro hdone
  obtain ⟨old, last, zeros, hshape, hflatten⟩ := h.leader.log.shape_of_returned hdone
  rw [← hflatten, List.flatMap_def]
  congr 1
  have hlength : (s.leader.writes.segmentEvents old last).length = s.leader.writes.writer.currentSegmentNo + 1 := by
    have hnumbers := congrArg List.length (hshape.numbers h.leader.noGap)
    rwa [List.length_map, List.length_range, ← List.length_map (f := Prod.snd)] at hnumbers
  refine List.ext_getElem? fun n => ?_
  rw [List.getElem?_map]
  by_cases hn : n < s.leader.writes.writer.currentSegmentNo + 1
  · obtain ⟨data, hf⟩ := h.leader.filled.file (Nat.lt_succ_iff.mp hn)
    obtain ⟨events, hevents, -, hread⟩ := hshape.read h.leader.noGap hf (List.prefix_refl data)
    rw [List.getElem?_range hn, hevents, Option.map_some, ← hread rfl, Mirror.segmentEvents]
    by_cases hdata : data = []
    · -- nothing can have been received of an empty segment
      subst hdata
      rcases hpage : s.mirror.received n with _ | page
      · rfl
      · obtain ⟨data, hf', hp⟩ := hfollows.beginning hpage
        rw [Dir.unique hf' hf, List.prefix_nil] at hp
        rw [hp]
        rfl
    · rw [hreceived n data hf hdata]
      rfl
  · rw [List.getElem?_eq_none (by rw [List.length_range]; omega), List.getElem?_eq_none (by omega)]
    rfl

/-- The run above ends so. -/
theorem idle_follower_caught_up_crashed :
    ∃ s, Machine.run step start crashedFollower = some s ∧
      (List.range (s.leader.writes.writer.currentSegmentNo + 1)).flatMap s.mirror.segmentEvents =
        s.leader.writes.calls.map Prod.fst := by
  refine Machine.exists_run_of (T := fun s => (s.leader.reactor? 1).any (fun r => decide (
      s.follower = .reading 1 r.sent.length ∧ r.writing = none ∧ (r.poll s.leader.dir).writing = none)) = true ∧
    s.mirror.receiving = none ∧ ∀ c ∈ s.leader.writes.calls, c.2 = .returned) (by decide +kernel) ?_
  rintro s hs ⟨hreactor, hreceiving, hdone⟩
  obtain ⟨r, hr, htest⟩ := (Option.any_eq_true _ _).mp hreactor
  obtain ⟨hfollower, hwriting, hidle⟩ := of_decide_eq_true htest
  exact (idle_follower_caught_up crashedFollower s (by decide +kernel) hs 1 r hfollower hr hreceiving
    hwriting hidle).2 hdone

end Cluster

end StructureDb
