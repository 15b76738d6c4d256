import StructureDb.Proofs.LeaderLog

/-! The segments that the connected followers need. The cleaning job reads the lowest position of
the followers once and then removes segments below it. The streams only move forward, so
this holds back enough for the followers that were registered; it does for a follower that
registers in the meantime only if it starts at that segment or behind it. -/

namespace StructureDb

open GetEventsReactor

namespace WalCleaner

def floor : WalCleaner → Option (Option ℤ)
  | .idle => none
  | .listing retain => some retain
  | .reading retain _ _ _ => some retain
  | .deleting retain _ => some retain

/-- The job has read a lowest segment, and it is not above this one. -/
def Retains (retain : Option ℤ) (segmentNo : ℤ) : Prop := ∃ n ∈ retain, n ≤ segmentNo

instance (retain : Option ℤ) (segmentNo : ℤ) : Decidable (Retains retain segmentNo) :=
  match retain with
  | none => isFalse fun ⟨_, h, _⟩ => nomatch h
  | some n =>
    decidable_of_iff (n ≤ segmentNo) ⟨fun h => ⟨n, rfl, h⟩, fun ⟨_, h, hle⟩ => Option.some.inj h ▸ hle⟩

/-- Only numbers of segments are looked at, and only those below the lowest one to retain are removed. -/
def Sound : WalCleaner → Prop
  | .idle => True
  | .listing _ => True
  | .reading _ segments _ persistence =>
    (∀ name ∈ segments, 0 ≤ getSegmentNoFromName name) ∧ ∀ p ∈ persistence, 0 ≤ p.1
  | .deleting retain segments => ∀ n ∈ segments, 0 ≤ n ∧ ∀ m ∈ retain, n < m

theorem delete_sound {retain : Option ℤ} {segments : List ℤ}
    (h : ∀ n ∈ segments, 0 ≤ n ∧ ∀ m ∈ retain, n < m) :
    (delete retain segments).Sound ∧ ∀ r ∈ (delete retain segments).floor, r = retain := by
  cases segments with
  | nil => exact ⟨trivial, by simp [delete, floor]⟩
  | cons n rest => exact ⟨h, by simp [delete, floor]⟩

theorem read_sound (retain : Option ℤ) {persistence : SegmentPersistence} {segments : List Bytes}
    (hs : ∀ name ∈ segments, 0 ≤ getSegmentNoFromName name) (hp : ∀ p ∈ persistence, 0 ≤ p.1) :
    (read retain persistence segments).Sound ∧ ∀ r ∈ (read retain persistence segments).floor, r = retain := by
  cases segments with
  | nil =>
    refine delete_sound ?_
    intro n hn
    obtain ⟨p, hmem, rfl⟩ := List.mem_map.mp hn
    obtain ⟨hmem, hcond⟩ := List.mem_filter.mp hmem
    refine ⟨hp p hmem, ?_⟩
    rintro m hm
    rw [Option.mem_def.mp hm] at hcond
    simpa using (of_decide_eq_true hcond).2
  | cons name rest => exact ⟨⟨hs, hp⟩, by simp [read, floor]⟩

end WalCleaner

namespace CleanerStrategy

theorem accumulatePersistence_keys {persistence : SegmentPersistence} {segmentNo : ℤ} {b : Bool} (h0 : 0 ≤ segmentNo)
    (h : ∀ p ∈ persistence, 0 ≤ p.1) : ∀ p ∈ accumulatePersistence persistence segmentNo b, 0 ≤ p.1 := by
  intro p hp
  unfold accumulatePersistence at hp
  split_ifs at hp
  · obtain ⟨q, hq, rfl⟩ := List.mem_map.mp hp
    split_ifs <;> exact h q hq
  · rcases List.mem_append.mp hp with hp | hp
    · exact h p hp
    · rw [List.mem_singleton.mp hp]
      exact h0

theorem onEvents_keys (maxPersistentSeqNo : Bytes → Option ℤ) {persistence : SegmentPersistence} {segmentNo : ℤ}
    (events : List LogEvent) (h0 : 0 ≤ segmentNo) (h : ∀ p ∈ persistence, 0 ≤ p.1) :
    ∀ p ∈ (onEvents maxPersistentSeqNo segmentNo persistence events).1, 0 ≤ p.1 := by
  induction events generalizing persistence with
  | nil => exact h
  | cons event rest ih =>
    rw [onEvents]
    cases isPersistent maxPersistentSeqNo event with
    | none => exact h
    | some b => exact ih (accumulatePersistence_keys h0 h)

end CleanerStrategy

theorem FollowerRegistry.minRetainedSegment_le {r : FollowerRegistry} {p : ℕ × Position} (hp : p ∈ r.positions) :
    WalCleaner.Retains r.minRetainedSegment p.2.segmentNo := by
  have hfold : ∀ (l : List (ℕ × Position)) (m : ℤ), l.foldl (fun m q => min m q.2.segmentNo) m ≤ m ∧
      ∀ q ∈ l, l.foldl (fun m q => min m q.2.segmentNo) m ≤ q.2.segmentNo := by
    intro l
    induction l with
    | nil => simp
    | cons x l ih =>
      intro m
      obtain ⟨hm, hl⟩ := ih (min m x.2.segmentNo)
      refine ⟨hm.trans (min_le_left _ _), ?_⟩
      intro q hq
      rcases List.mem_cons.mp hq with rfl | hq
      · exact hm.trans (min_le_right _ _)
      · exact hl q hq
  unfold minRetainedSegment
  cases hpos : r.positions with
  | nil =>
    rw [hpos] at hp
    cases hp
  | cons x rest =>
    obtain ⟨hx, hrest⟩ := hfold rest x.2.segmentNo
    refine ⟨_, rfl, ?_⟩
    rw [hpos] at hp
    rcases List.mem_cons.mp hp with rfl | hp
    · exact hx
    · exact hrest p hp

theorem FollowerRegistry.mem_update {r : FollowerRegistry} {token : ℕ} {pos : Position} {p : ℕ × Position}
    (h : p ∈ (r.update token pos).positions) :
    (∃ q ∈ r.positions, q.1 = token ∧ p = (q.1, pos)) ∨ p ∈ r.positions ∧ p.1 ≠ token := by
  obtain ⟨q, hq, rfl⟩ := List.mem_map.mp h
  split_ifs with hc
  · exact Or.inl ⟨q, hq, hc, rfl⟩
  · exact Or.inr ⟨hq, hc⟩

namespace GetEventsReactor

variable {r : GetEventsReactor} {page : WalPageData} {rest : List WalPageData}

/-- The pages that are to be sent lie ahead, in ascending order. -/
def Forward (r : GetEventsReactor) : Prop :=
  ∀ page rest, r.writing = some (page, rest) → (page :: rest).Pairwise (fun p q => p.position < q.position) ∧
    ∀ p ∈ page :: rest, r.nextPos.segmentNo ≤ p.position.segmentNo

theorem pumpPages_forward {pages : List WalPageData} (hasc : pages.Pairwise fun p q => p.position < q.position)
    (hge : ∀ p ∈ pages, r.nextPos.segmentNo ≤ p.position.segmentNo) :
    (r.pumpPages pages).Forward ∧ (r.pumpPages pages).nextPos = r.nextPos ∧ (r.pumpPages pages).token = r.token := by
  cases pages with
  | nil => exact ⟨(fun _ _ h => nomatch h), rfl, rfl⟩
  | cons page rest =>
    rw [pumpPages]
    split_ifs
    · exact ⟨(fun _ _ h => nomatch h), rfl, rfl⟩
    · refine ⟨?_, rfl, rfl⟩
      intro page' rest' h
      cases h
      exact ⟨hasc, hge⟩

theorem poll_forward {w : Writer} (hn : w.Named) (hfew : w.currentSegmentNo < 10000) :
    (r.poll w.dir).Forward ∧ (r.poll w.dir).nextPos = r.nextPos ∧ (r.poll w.dir).token = r.token := by
  refine pumpPages_forward (collectPagesFrom_ascending (hn.ascending hfew) _) ?_
  intro p hp
  have hge := (hn.mem_collectPagesFrom.mp hp).2
  rw [Position.lt_iff] at hge
  omega

theorem pageWritten_forward (h : r.Forward) (hw : r.writing = some (page, rest)) :
    (r.pageWritten page rest).Forward ∧ (r.pageWritten page rest).nextPos.segmentNo = page.position.segmentNo ∧
      (r.pageWritten page rest).token = r.token := by
  obtain ⟨hasc, -⟩ := h page rest hw
  rw [List.pairwise_cons] at hasc
  unfold pageWritten
  split_ifs
  · obtain ⟨hf, hpos, htoken⟩ := pumpPages_forward (r := { r with
      sent := r.sent ++ [page]
      nextPos := ⟨page.position.segmentNo, page.position.pageNo + 1⟩
      tailSentSize := -1 }) hasc.2 (by
        intro p hp
        have hlt := hasc.1 p hp
        rw [Position.lt_iff] at hlt
        simp only
        omega)
    exact ⟨hf, by rw [hpos], htoken⟩
  · exact ⟨(fun _ _ h => nomatch h), rfl, rfl⟩

end GetEventsReactor

namespace Leader

variable {s s' : Leader} {action : Action}

/-- A follower that registers while the job is running starts at the lowest segment to retain or behind it; and the
segment numbers have four digits. -/
def Waits (s : Leader) : Action → Prop
  | .getEvents origin => ∀ retain ∈ s.cleaner.floor, WalCleaner.Retains retain origin.segmentNo
  | .poll _ => s.writes.writer.currentSegmentNo < 10000
  | .restart => s.writes.writer.currentSegmentNo < 10000
  | _ => True

instance (s : Leader) : (action : Action) → Decidable (s.Waits action)
  | .getEvents _ => inferInstanceAs (Decidable (∀ retain ∈ s.cleaner.floor, _))
  | .poll _ => inferInstanceAs (Decidable (_ < _))
  | .restart => inferInstanceAs (Decidable (_ < _))
  | .write _ | .resume _ | .persisted _ _ | .writeDone _ | .done _ | .clean | .listDirectory | .readPage |
    .remove _ => isTrue trivial

/-- No registered position is ahead of its stream, or below the lowest segment that the job has read. -/
structure Retained (s : Leader) : Prop where
  named : s.writes.writer.Named
  tokens : (∀ r ∈ s.reactors, r.token < s.followers.nextToken) ∧ ∀ p ∈ s.followers.positions,
    p.1 < s.followers.nextToken
  forward : ∀ r ∈ s.reactors, r.Forward
  behind : ∀ r ∈ s.reactors, ∀ p ∈ s.followers.positions, p.1 = r.token → p.2.segmentNo ≤ r.nextPos.segmentNo
  floor : ∀ retain ∈ s.cleaner.floor, ∀ p ∈ s.followers.positions, WalCleaner.Retains retain p.2.segmentNo
  cleaner : s.cleaner.Sound

theorem start_retained : start.Retained := by
  refine ⟨?_, by simp [start, FollowerRegistry.empty], by simp [start], by simp [start],
    by simp [start, WalCleaner.floor], trivial⟩
  intro name hname
  refine ⟨0, le_rfl, ?_⟩
  rw [show start.writes.writer.dir.names = [walName 0] from rfl, List.mem_singleton] at hname
  exact hname

theorem step_named (h : s.writes.writer.Named) (hg : s.Waits action) (hs : s.step action = some s') :
    s'.writes.writer.Named := by
  obtain ⟨event, rfl, hw⟩ | ⟨call, rfl, hw⟩ | ⟨segmentNo, rfl, hw⟩ | ⟨rfl, hw⟩ | hw := step_writes hs
  · exact Writes.step_named h hw
  · exact Writes.step_named h hw
  · rw [hw]
    exact h.unlink _
  · rw [hw]
    exact h.init hg
  · rw [hw]
    exact h

/-- A step of the job that leaves the followers alone. -/
theorem Retained.setCleaner (h : s.Retained) {writes : Writes} (hn : writes.writer.Named) {cleaner : WalCleaner}
    (hc : cleaner.Sound) (hf : ∀ retain ∈ cleaner.floor, ∀ p ∈ s.followers.positions,
      WalCleaner.Retains retain p.2.segmentNo) : Retained { s with writes, cleaner } :=
  ⟨hn, h.tokens, h.forward, h.behind, hf, hc⟩

theorem Retained.getEvents (h : s.Retained) {origin : Position} (hg : s.Waits (.getEvents origin))
    (hs : s.step (.getEvents origin) = some s') : s'.Retained := by
  cases hs
  obtain ⟨hr, hp⟩ := h.tokens
  refine ⟨h.named, ⟨?_, ?_⟩, ?_, ?_, ?_, h.cleaner⟩
  · intro r hmem
    rcases List.mem_append.mp hmem with hmem | hmem
    · exact (hr r hmem).trans (Nat.lt_succ_self _)
    · rw [List.mem_singleton.mp hmem]
      exact Nat.lt_succ_self _
  · intro p hmem
    rcases List.mem_append.mp hmem with hmem | hmem
    · exact (hp p hmem).trans (Nat.lt_succ_self _)
    · rw [List.mem_singleton.mp hmem]
      exact Nat.lt_succ_self _
  · intro r hmem
    rcases List.mem_append.mp hmem with hmem | hmem
    · exact h.forward r hmem
    · rw [List.mem_singleton.mp hmem]
      exact fun _ _ hw => nomatch hw
  · intro r hmem p hmem' htoken
    rcases List.mem_append.mp hmem with hmem | hmem <;> rcases List.mem_append.mp hmem' with hmem' | hmem'
    · exact h.behind r hmem p hmem' htoken
    -- the token is new
    · have hlt := hr r hmem
      rw [← htoken, List.mem_singleton.mp hmem'] at hlt
      exact absurd hlt (lt_irrefl _)
    · have hlt := hp p hmem'
      rw [htoken, List.mem_singleton.mp hmem] at hlt
      exact absurd hlt (lt_irrefl _)
    · rw [List.mem_singleton.mp hmem, List.mem_singleton.mp hmem']
      exact le_rfl
  · intro retain hretain p hmem
    rcases List.mem_append.mp hmem with hmem | hmem
    · exact h.floor retain hretain p hmem
    · rw [List.mem_singleton.mp hmem]
      exact hg retain hretain

/-- A stream that goes on in the registry as it was. -/
theorem Retained.setReactor (h : s.Retained) {r r' : GetEventsReactor} (hmem : r ∈ s.reactors)
    (htoken : r'.token = r.token) (hforward : r'.Forward) (hpos : r.nextPos.segmentNo ≤ r'.nextPos.segmentNo) :
    (s.setReactor r').Retained := by
  refine ⟨h.named, ⟨?_, h.tokens.2⟩, ?_, ?_, h.floor, h.cleaner⟩
  · intro x hx
    rcases mem_setReactor hx with rfl | ⟨hx, -⟩
    · exact htoken.symm ▸ h.tokens.1 r hmem
    · exact h.tokens.1 x hx
  · intro x hx
    rcases mem_setReactor hx with rfl | ⟨hx, -⟩
    · exact hforward
    · exact h.forward x hx
  · intro x hx p hp heq
    rcases mem_setReactor hx with rfl | ⟨hx, -⟩
    · exact (h.behind r hmem p hp (heq.trans htoken)).trans hpos
    · exact h.behind x hx p hp heq

theorem Retained.poll (h : s.Retained) {token : ℕ} (hg : s.Waits (.poll token))
    (hs : s.step (.poll token) = some s') : s'.Retained := by
  rcases hf : s.reactor? token with _ | r <;> simp only [step, hf] at hs
  · cases hs
  split_ifs at hs
  cases hs
  obtain ⟨hmem, -⟩ := reactor?_mem hf
  obtain ⟨hforward, hpos, htoken⟩ := poll_forward (r := r) h.named hg
  exact h.setReactor hmem htoken hforward (congrArg Position.segmentNo hpos).ge

theorem Retained.writeDone (h : s.Retained) {token : ℕ} (hs : s.step (.writeDone token) = some s') : s'.Retained := by
  rcases hf : s.reactor? token with _ | r <;> simp only [step, hf] at hs
  · cases hs
  rcases hw : r.writing with _ | ⟨page, rest⟩ <;> simp only [hw] at hs
  · cases hs
  cases hs
  obtain ⟨hmem, -⟩ := reactor?_mem hf
  obtain ⟨hforward, hpos, htoken⟩ := pageWritten_forward (h.forward r hmem) hw
  have hahead := ((h.forward r hmem) page rest hw).2 page List.mem_cons_self
  have hset := h.setReactor hmem htoken hforward (hahead.trans hpos.ge)
  unfold pageWritten
  split_ifs
  · refine ⟨h.named, ⟨hset.tokens.1, ?_⟩, hset.forward, ?_, ?_, h.cleaner⟩
    · intro p hp
      obtain ⟨q, hq, -, he⟩ | ⟨hp, -⟩ := FollowerRegistry.mem_update hp
      · rw [he]
        exact h.tokens.2 q hq
      · exact h.tokens.2 p hp
    · intro r' hr' p hp heq
      obtain ⟨q, hq, hqr, rfl⟩ | ⟨hp, -⟩ := FollowerRegistry.mem_update hp
      · rcases mem_setReactor hr' with rfl | ⟨-, hne⟩
        · exact hpos.ge
        · exact absurd (heq.symm.trans (hqr.trans htoken.symm)) hne
      · exact hset.behind r' hr' p hp heq
    · intro retain hretain p hp
      obtain ⟨q, hq, hqr, rfl⟩ | ⟨hp, -⟩ := FollowerRegistry.mem_update hp
      · obtain ⟨n, hn, hle⟩ := h.floor retain hretain q hq
        exact ⟨n, hn, hle.trans ((h.behind r hmem q hq hqr).trans hahead)⟩
      · exact h.floor retain hretain p hp
  · exact hset

theorem Retained.done (h : s.Retained) {token : ℕ} (hs : s.step (.done token) = some s') : s'.Retained := by
  cases hs
  have hp : ∀ p ∈ (s.followers.unregister token).positions, p ∈ s.followers.positions := fun p hp =>
    (List.mem_filter.mp hp).1
  have hr : ∀ r ∈ s.reactors.filter (fun r => decide (r.token ≠ token)), r ∈ s.reactors := fun r hr =>
    (List.mem_filter.mp hr).1
  exact ⟨h.named, ⟨fun r hmem => h.tokens.1 r (hr r hmem), fun p hmem => h.tokens.2 p (hp p hmem)⟩,
    fun r hmem => h.forward r (hr r hmem), fun r hmem p hmem' => h.behind r (hr r hmem) p (hp p hmem'),
    fun retain hretain p hmem => h.floor retain hretain p (hp p hmem), h.cleaner⟩

theorem Retained.clean (h : s.Retained) (hs : s.step .clean = some s') : s'.Retained := by
  simp only [step] at hs
  split_ifs at hs
  cases hs
  refine h.setCleaner h.named trivial ?_
  intro retain hretain p hp
  cases hretain
  exact FollowerRegistry.minRetainedSegment_le hp

theorem Retained.listDirectory (h : s.Retained) (hs : s.step .listDirectory = some s') : s'.Retained := by
  rcases hc : s.cleaner with _ | retain | ⟨retain, segments, pageNo, persistence⟩ | ⟨retain, segments⟩ <;>
    simp only [step, hc] at hs <;> cases hs
  have hnames : ∀ name ∈ s.dir.listing.map Prod.fst, 0 ≤ getSegmentNoFromName name := by
    intro name hname
    obtain ⟨f, hf, rfl⟩ := List.mem_map.mp hname
    obtain ⟨n, -, he⟩ := h.named f.1 (Dir.mem_names.mpr ⟨f.2, Dir.mem_listing.mp hf⟩)
    rw [he, getSegmentNoFromName_walName]
    exact Int.natCast_nonneg n
  obtain ⟨hsound, hfloor⟩ := WalCleaner.read_sound retain hnames fun p (hp : p ∈ ([] : SegmentPersistence)) =>
    absurd hp List.not_mem_nil
  refine h.setCleaner h.named hsound ?_
  intro retain' hretain
  rw [hfloor retain' hretain]
  exact h.floor retain (by rw [hc]; rfl)

theorem Retained.readPage (h : s.Retained) (hs : s.step .readPage = some s') : s'.Retained := by
  rcases hc : s.cleaner with _ | retain | ⟨retain, _ | ⟨segment, rest⟩, pageNo, persistence⟩ | ⟨retain,
    segments⟩ <;>
    simp only [step, hc] at hs <;> cases hs
  have hsound := h.cleaner
  rw [hc] at hsound
  obtain ⟨hsegments, hkeys⟩ := hsound
  have hfloor := h.floor retain (by rw [hc]; rfl)
  have hrest := fun name hname => hsegments name (List.mem_cons_of_mem _ hname)
  -- the job goes on with the next segment, or with the next page of this one
  have hread : ∀ persistence, (∀ p ∈ persistence, 0 ≤ p.1) →
      Retained { s with cleaner := .read retain persistence rest } := by
    intro persistence hkeys
    obtain ⟨hsound, hsame⟩ := WalCleaner.read_sound retain hrest hkeys
    refine h.setCleaner h.named hsound ?_
    intro retain' hretain
    rw [hsame retain' hretain]
    exact hfloor
  unfold Leader.readPage
  split
  · exact h.setCleaner h.named trivial fun _ hretain => by cases hretain
  · split
    · exact hread persistence hkeys
    · rename_i page hpage
      have hkeys' := CleanerStrategy.onEvents_keys s.maxPersistentSeqNo (onPage page).1
        (hsegments segment List.mem_cons_self) hkeys
      rcases hres : CleanerStrategy.onEvents s.maxPersistentSeqNo (getSegmentNoFromName segment) persistence
        (onPage page).1 with ⟨persistence', thrown⟩
      rw [hres] at hkeys'
      simp only [hres]
      split_ifs
      · exact hread _ hkeys'
      · refine h.setCleaner h.named ⟨hsegments, hkeys'⟩ ?_
        intro retain' hretain
        cases hretain
        exact hfloor

theorem Retained.remove (h : s.Retained) {segmentNo : ℤ} (hs : s.step (.remove segmentNo) = some s') :
    s'.Retained ∧ 0 ≤ segmentNo ∧ ∀ p ∈ s.followers.positions, segmentNo < p.2.segmentNo := by
  rcases hc : s.cleaner with _ | retain | ⟨retain, segments, pageNo, persistence⟩ | ⟨retain, segments⟩ <;>
    simp only [step, hc] at hs <;> try cases hs
  split_ifs at hs with hmem
  cases hs
  have hsound := h.cleaner
  rw [hc] at hsound
  have hfloor := h.floor retain (by rw [hc]; rfl)
  obtain ⟨h0, hlt⟩ := hsound segmentNo hmem
  refine ⟨?_, h0, ?_⟩
  · have herase : ∀ n ∈ segments.erase segmentNo, 0 ≤ n ∧ ∀ m ∈ retain, n < m := fun n hn =>
      hsound n (List.mem_of_mem_erase hn)
    obtain ⟨hsound, hsame⟩ := WalCleaner.delete_sound herase
    refine h.setCleaner (h.named.unlink _) hsound ?_
    intro retain' hretain
    rw [hsame retain' hretain]
    exact hfloor
  · intro p hp
    obtain ⟨n, hn, hle⟩ := hfloor p hp
    exact (hlt n hn).trans_le hle

theorem Retained.step (h : s.Retained) (hg : s.Waits action) (hs : s.step action = some s') : s'.Retained := by
  cases action with
  | write event =>
    have hn := step_named h.named hg hs
    rw [Leader.step, Option.map_eq_some_iff] at hs
    obtain ⟨writes, -, rfl⟩ := hs
    exact h.setCleaner hn h.cleaner h.floor
  | resume call =>
    have hn := step_named h.named hg hs
    rw [Leader.step, Option.map_eq_some_iff] at hs
    obtain ⟨writes, -, rfl⟩ := hs
    exact h.setCleaner hn h.cleaner h.floor
  | persisted storageId seqNo =>
    cases hs
    exact ⟨h.named, h.tokens, h.forward, h.behind, h.floor, h.cleaner⟩
  | getEvents origin => exact h.getEvents hg hs
  | poll token => exact h.poll hg hs
  | writeDone token => exact h.writeDone hs
  | done token => exact h.done hs
  | clean => exact h.clean hs
  | listDirectory => exact h.listDirectory hs
  | readPage => exact h.readPage hs
  | remove segmentNo => exact (h.remove hs).1
  | restart =>
    have hn := step_named h.named hg hs
    cases hs
    exact start_retained.setCleaner hn trivial start_retained.floor

/-- A file that is gone was removed by the job. -/
theorem names_of_step (hs : s.step action = some s') {name : Bytes} (hin : name ∈ s.dir.names)
    (hout : name ∉ s'.dir.names) : ∃ segmentNo, action = .remove segmentNo ∧ name = walName segmentNo.toNat := by
  obtain ⟨event, rfl, hw⟩ | ⟨call, rfl, hw⟩ | ⟨segmentNo, rfl, hw⟩ | ⟨rfl, hw⟩ | hw := step_writes hs
  · exact absurd (Writes.step_names hw hin) hout
  · exact absurd (Writes.step_names hw hin) hout
  · refine ⟨segmentNo, rfl, ?_⟩
    by_contra hne
    obtain ⟨data, hf⟩ := Dir.mem_names.mp hin
    refine hout (Dir.mem_names.mpr ⟨data, ?_⟩)
    rw [dir, hw]
    exact Dir.mem_unlink.mpr ⟨hf, hne⟩
  · rw [dir, hw] at hout
    exact absurd (Dir.names_touch _ _ _ hin) hout
  · rw [dir, hw] at hout
    exact absurd hin hout

/-- Whenever a step removes a segment, the positions of all registered followers are in later segments. -/
theorem removed_segment_not_needed (actions : List Action) (s s' : Leader) (action : Action)
    (hg : Machine.Guarded Leader.step Waits start actions) (hr : Machine.run Leader.step start actions = some s)
    (hs : s.step action = some s') (name : Bytes) (hin : name ∈ s.dir.names) (hout : name ∉ s'.dir.names) :
    ∃ n : ℕ, name = walName n ∧ ∀ p ∈ s.followers.positions, (n : ℤ) < p.2.segmentNo := by
  have h : s.Retained := Machine.run_inv (P := fun _ s => s.Retained) start_retained
    (fun _ _ _ _ h hg hs => h.step hg hs) hg hr
  obtain ⟨segmentNo, rfl, rfl⟩ := names_of_step hs hin hout
  obtain ⟨-, h0, hlt⟩ := h.remove hs
  refine ⟨segmentNo.toNat, rfl, ?_⟩
  rw [Int.toNat_of_nonneg h0]
  exact hlt

/-- Segment 0 is removed while a follower reads segment 1. -/
theorem removed_segment_not_needed_one :
    ∃ s, Machine.run Leader.step start [.write (.txStorageCommit 10), .resume 0, .restart, .getEvents ⟨1, 0⟩, .clean,
        .listDirectory, .readPage, .readPage, .readPage] = some s ∧ s.followers.positions = [(0, ⟨1, 0⟩)] ∧
      ∃ n : ℕ, walName 0 = walName n ∧ ∀ p ∈ s.followers.positions, (n : ℤ) < p.2.segmentNo := by
  refine Machine.exists_run_of (T := fun s => s.followers.positions = [(0, ⟨1, 0⟩)] ∧ walName 0 ∈ s.dir.names ∧
    (s.step (.remove 0)).map (fun t => decide (walName 0 ∉ t.dir.names)) = some true) (by decide) ?_
  rintro s hs ⟨hp, hin, hout⟩
  obtain ⟨t, ht, hdec⟩ := Option.map_eq_some_iff.mp hout
  exact ⟨hp, removed_segment_not_needed _ s t _ (by decide) hs ht _ hin (of_decide_eq_true hdec)⟩

/-- The job reads the positions while no follower is registered; a follower registers at segment 0, and the job then
removes this segment. -/
theorem needed_segment_removed :
    ∃ s, Machine.run Leader.step start [.write (.txStorageCommit 10), .resume 0, .restart, .clean, .getEvents ⟨0, 0⟩,
        .listDirectory, .readPage, .readPage, .readPage] = some s ∧ s.followers.positions = [(0, ⟨0, 0⟩)] ∧
      walName 0 ∈ s.dir.names ∧ (s.step (.remove 0)).map (fun t => decide (walName 0 ∈ t.dir.names)) = some false :=
  Machine.exists_run (by decide)

end Leader

end StructureDb
