import StructureDb.Proofs.ClusterLog
import StructureDb.Proofs.Mirrored
import StructureDb.Proofs.PageParsing

/-! The log of a follower stays behind that of its leader without a gap. As long as the leader keeps
its segments, the follower has the first segments as whole pages, one more up to some point and
none behind it, however often the stream breaks or the follower crashes: `NextSegmentToFetch` finds
the place where it was. So the events that the follower has are the first ones that the
leader has written, and when the leader has nothing to send, they are all of them. -/

namespace StructureDb

open GetEventsReactor

namespace Writer.Filled

variable {w w' : Writer} {n : ℕ} {data : Bytes}

theorem grown (h : w.Filled) (h' : w'.Filled) (hg : w.Grows w') (hf : (walName n, data) ∈ w.dir.files) :
    ∃ data', (walName n, data') ∈ w'.dir.files ∧ data <+: data' := by
  have hn := h.number_le hf
  obtain ⟨data', hf'⟩ := h'.file (hn.trans hg.le)
  obtain ⟨old, hold, hp, -⟩ := hg.old n hn data' hf'
  rw [Dir.unique hold hf] at hp
  exact ⟨data', hf', hp⟩

theorem kept (h : w.Filled) (h' : w'.Filled) (hg : w.Grows w') (hf : (walName n, data) ∈ w.dir.files)
    (hfull : data.length = kWalPageSize) : (walName n, data) ∈ w'.dir.files := by
  obtain ⟨data', hf', hp⟩ := h.grown h' hg hf
  have hle : data'.length ≤ data.length := hfull ▸ h'.onePage _ hf'
  rw [hp.eq_of_length_le hle]
  exact hf'

end Writer.Filled

namespace GetEventsReactor

theorem pumpPages_origin (r : GetEventsReactor) (pages : List WalPageData) : (r.pumpPages pages).origin = r.origin := by
  obtain ⟨writing, he⟩ := r.pumpPages_eq pages
  rw [he]

theorem sent_prefix_started (r : GetEventsReactor) : r.sent <+: r.started := List.prefix_append _ _

theorem pumpPages_sent (r : GetEventsReactor) (pages : List WalPageData) : (r.pumpPages pages).sent = r.sent := by
  obtain ⟨writing, he⟩ := r.pumpPages_eq pages
  rw [he]

theorem poll_started {r : GetEventsReactor} (hw : r.writing = none) (dir : Dir Bytes Bytes) :
    r.started <+: (r.poll dir).started := by
  have hsent : r.started = (r.poll dir).sent := by
    rw [poll, pumpPages_sent]
    simp [started, hw]
  rw [hsent]
  exact sent_prefix_started _

section pageWritten

variable {r : GetEventsReactor} {page : WalPageData} {rest : List WalPageData}

theorem pageWritten_origin : (r.pageWritten page rest).origin = r.origin := by
  unfold pageWritten
  split_ifs
  · exact pumpPages_origin _ _
  · rfl

theorem pageWritten_sent : (r.pageWritten page rest).sent = r.sent ++ [page] := by
  unfold pageWritten
  split_ifs
  · exact pumpPages_sent _ _
  · rfl

theorem pageWritten_token : (r.pageWritten page rest).token = r.token := by
  unfold pageWritten
  split_ifs
  · obtain ⟨writing, he⟩ := pumpPages_eq { r with
      sent := r.sent ++ [page]
      nextPos := ⟨page.position.segmentNo, page.position.pageNo + 1⟩
      tailSentSize := -1 } rest
    rw [he]
  · rfl

theorem pageWritten_started (hw : r.writing = some (page, rest)) : r.started <+: (r.pageWritten page rest).started := by
  have hsent : r.started = (r.pageWritten page rest).sent := by
    rw [pageWritten_sent]
    simp [started, hw]
  rw [hsent]
  exact sent_prefix_started _

end pageWritten

end GetEventsReactor

namespace Leader

variable {s s' : Leader} {action : Action}

/-- The log keeps its segments in this life of the leader, and is written as `Writes.Alone` says. -/
def Keeps (s : Leader) : Action → Prop
  | .write event => s.writes.Alone (.write event) ∧ (flushEvent event).length ≤ kWalPageSize
  | .remove _ => False
  | .restart => False
  | _ => True

instance (s : Leader) : (action : Action) → Decidable (s.Keeps action)
  | .write _ => inferInstanceAs (Decidable (_ ∧ _))
  | .remove _ | .restart => isFalse id
  | .resume _ | .persisted _ _ | .getEvents _ | .poll _ | .writeDone _ | .done _ | .clean | .listDirectory |
    .readPage => isTrue trivial

structure Serving (s : Leader) : Prop where
  log : s.writes.Phase
  noGap : s.writes.writer.NoGap
  tokens : ∀ r ∈ s.reactors, r.token < s.followers.nextToken
  sound : ∀ r ∈ s.reactors, r.Sound s.writes.writer
  inOrder : ∀ r ∈ s.reactors, ∀ n : ℕ, r.origin = ⟨n, 0⟩ → r.FromSegment s.writes.writer n

theorem start_serving : start.Serving := by
  refine ⟨Writes.start_phase, ?_, by simp [start], by simp [start], by simp [start]⟩
  intro n hn
  obtain rfl : n = 0 := Nat.le_zero.mp hn
  decide

theorem Serving.filled (h : s.Serving) : s.writes.writer.Filled := h.log.filled h.noGap

theorem Serving.step_log (h : s.Serving) (hg : s.Keeps action) (hs : s.step action = some s') :
    s'.writes.Phase ∧ s'.writes.writer.NoGap ∧ s.writes.writer.Grows s'.writes.writer := by
  obtain ⟨event, rfl, hw⟩ | ⟨call, rfl, hw⟩ | ⟨segmentNo, rfl, -⟩ | ⟨rfl, -⟩ | hw := step_writes hs
  · exact ⟨h.log.write hg.1 hg.2 hw, Writes.step_noGap h.noGap hw, h.log.grows hg.1 hw⟩
  · exact ⟨h.log.resume hw, Writes.step_noGap h.noGap hw,
      h.log.grows (show s.writes.Alone (.resume call) from trivial) hw⟩
  · cases hg
  · cases hg
  · rw [hw]
    exact ⟨h.log, h.noGap, Writer.Grows.refl _⟩

/-- One stream is replaced by another state of it. -/
theorem reactor?_setReactor_eq (s : Leader) (r : GetEventsReactor) (token : ℕ) :
    (s.setReactor r).reactor? token = (s.reactor? token).map fun x => if x.token = r.token then r else x := by
  have hcomp : ((fun x : GetEventsReactor => decide (x.token = token)) ∘
      fun x => if x.token = r.token then r else x) = fun x => decide (x.token = token) := by
    funext x
    by_cases hx : x.token = r.token <;> simp [hx]
  rw [reactor?, setReactor, List.find?_map, hcomp]
  rfl

/-- The pages of a stream with a token that was given out only get more. -/
def MoreStarted (s s' : Leader) : Prop :=
  s.followers.nextToken ≤ s'.followers.nextToken ∧ ∀ token < s.followers.nextToken, ∀ x',
    s'.reactor? token = some x' →
    ∃ x, s.reactor? token = some x ∧ x'.origin = x.origin ∧ x.started <+: x'.started

theorem MoreStarted.same (hf : s'.followers = s.followers) (hr : s'.reactors = s.reactors) : s.MoreStarted s' := by
  refine ⟨by rw [hf], ?_⟩
  intro token _ x' hx
  rw [reactor?, hr] at hx
  exact ⟨x', hx, rfl, List.prefix_refl _⟩

theorem MoreStarted.setReactor {r r' : GetEventsReactor} {token : ℕ} (hr : s.reactor? token = some r)
    (htoken : r'.token = r.token) (horigin : r'.origin = r.origin) (hstarted : r.started <+: r'.started)
    (hnext : s.followers.nextToken ≤ s'.followers.nextToken) (hs' : s'.reactors = (s.setReactor r').reactors) :
    s.MoreStarted s' := by
  refine ⟨hnext, ?_⟩
  intro token' _ x' hx
  have hx : (s.setReactor r').reactor? token' = some x' := by
    rw [reactor?, ← hs']
    exact hx
  rw [reactor?_setReactor_eq] at hx
  obtain ⟨x, hfound, rfl⟩ := Option.map_eq_some_iff.mp hx
  refine ⟨x, hfound, ?_⟩
  split_ifs with he
  · have hsame : token' = token := by rw [← (reactor?_mem hfound).2, he, htoken, (reactor?_mem hr).2]
    rw [hsame, hr] at hfound
    obtain rfl := Option.some.inj hfound
    exact ⟨horigin, hstarted⟩
  · exact ⟨rfl, List.prefix_refl _⟩

theorem MoreStarted.getEvents {origin : Position} (hs : s.step (.getEvents origin) = some s') : s.MoreStarted s' := by
  cases hs
  refine ⟨Nat.le_succ _, ?_⟩
  intro token ht x' hx
  have hnew : ¬s.followers.nextToken = token := ht.ne'
  rw [reactor?, List.find?_append, List.find?_singleton] at hx
  simp only [GetEventsReactor.init, hnew, decide_false, Bool.false_eq_true, if_false, Option.or_none] at hx
  exact ⟨x', hx, rfl, List.prefix_refl _⟩

theorem MoreStarted.poll {token : ℕ} (hs : s.step (.poll token) = some s') : s.MoreStarted s' := by
  rcases hr : s.reactor? token with _ | r <;> simp only [step, hr] at hs
  · cases hs
  split_ifs at hs with hw
  cases hs
  exact .setReactor hr (poll_token r s.dir) (pumpPages_origin _ _) (poll_started (by simpa using hw) _) le_rfl rfl

theorem MoreStarted.writeDone {token : ℕ} (hs : s.step (.writeDone token) = some s') : s.MoreStarted s' := by
  rcases hr : s.reactor? token with _ | r <;> simp only [step, hr] at hs
  · cases hs
  rcases hw : r.writing with _ | ⟨page, rest⟩ <;> simp only [hw] at hs
  · cases hs
  cases hs
  refine .setReactor hr pageWritten_token pageWritten_origin (pageWritten_started hw) ?_ ?_
  · unfold pageWritten
    split_ifs <;> exact le_rfl
  · unfold pageWritten
    split_ifs <;> rfl

theorem MoreStarted.done {token : ℕ} (hs : s.step (.done token) = some s') : s.MoreStarted s' := by
  cases hs
  refine ⟨le_rfl, ?_⟩
  intro token' _ x' hx
  rw [reactor?, List.find?_filter] at hx
  have hne : token' ≠ token := by
    rintro rfl
    have hfound := List.find?_some hx
    simp at hfound
  have hcond : (fun r : GetEventsReactor => decide (decide (r.token ≠ token) = true ∧
      decide (r.token = token') = true)) = fun r => decide (r.token = token') := by
    funext r
    by_cases hr : r.token = token'
    · simp [hr, hne]
    · simp [hr]
  rw [hcond] at hx
  exact ⟨x', hx, rfl, List.prefix_refl _⟩

theorem step_started (hs : s.step action = some s') (hlive : action ≠ .restart) : s.MoreStarted s' := by
  cases action with
  | getEvents origin => exact .getEvents hs
  | poll token => exact .poll hs
  | writeDone token => exact .writeDone hs
  | done token => exact .done hs
  | write event | resume call =>
    rw [step, Option.map_eq_some_iff] at hs
    obtain ⟨writes, -, rfl⟩ := hs
    exact .same rfl rfl
  | persisted storageId seqNo =>
    cases hs
    exact .same rfl rfl
  | clean =>
    simp only [step] at hs
    split_ifs at hs
    cases hs
    exact .same rfl rfl
  | listDirectory | readPage =>
    simp only [step] at hs
    split at hs <;> cases hs
    exact .same rfl rfl
  | remove segmentNo =>
    simp only [step] at hs
    split at hs
    · split_ifs at hs
      cases hs
      exact .same rfl rfl
    · cases hs
  | restart => exact absurd rfl hlive

theorem Serving.step (h : s.Serving) (hg : s.Keeps action) (hs : s.step action = some s') : s'.Serving := by
  obtain ⟨hlog, hgap, hgrows⟩ := h.step_log hg hs
  have hfilled := h.filled
  have hlive : action ≠ .restart := by
    rintro rfl
    exact hg
  have hnext := (step_started hs hlive).1
  refine ⟨hlog, hgap, ?_, ?_, ?_⟩
  · intro r' hr'
    obtain hr | ⟨origin, rfl, rfl⟩ | ⟨token, r, rfl, hr, -, rfl⟩ | ⟨token, r, page, rest, -, hr, hw, rfl⟩ :=
      step_reactors hs hr'
    · exact (h.tokens r' hr).trans_le hnext
    · cases hs
      exact Nat.lt_succ_self _
    · rw [poll_token]
      exact (h.tokens r (reactor?_mem hr).1).trans_le hnext
    · rw [pageWritten_token]
      exact (h.tokens r (reactor?_mem hr).1).trans_le hnext
  · intro r' hr'
    obtain hr | ⟨origin, -, rfl⟩ | ⟨token, r, rfl, hr, -, rfl⟩ | ⟨token, r, page, rest, -, hr, hw, rfl⟩ :=
      step_reactors hs hr'
    · exact (h.sound r' hr).grows hgrows
    · exact .init origin _ _
    · exact ((h.sound r (reactor?_mem hr).1).poll hfilled.named hfilled.few hfilled.collected_full).grows hgrows
    · exact ((h.sound r (reactor?_mem hr).1).pageWritten hw).grows hgrows
  · intro r' hr' n horigin
    obtain hr | ⟨origin, -, rfl⟩ | ⟨token, r, rfl, hr, -, rfl⟩ | ⟨token, r, page, rest, -, hr, hw, rfl⟩ :=
      step_reactors hs hr'
    · exact (h.inOrder r' hr n horigin).grows hgrows
    · obtain rfl : origin = ⟨n, 0⟩ := horigin
      exact .init n _ _
    · rw [GetEventsReactor.poll, pumpPages_origin] at horigin
      exact ((h.inOrder r (reactor?_mem hr).1 n horigin).pumpPages _).grows hgrows
    · rw [pageWritten_origin] at horigin
      have hr := (reactor?_mem hr).1
      exact ((h.inOrder r hr n horigin).pageWritten hfilled (h.sound r hr) hw).grows hgrows

end Leader

/-! ### What the follower has of the log -/

namespace Mirror

variable {l l' : Leader} {f f' : Mirror} {m n : ℕ} {data : Bytes} {r r' : GetEventsReactor} {pages : ℕ}

def Beginning (l : Leader) (n : ℕ) (data : Bytes) : Prop :=
  ∃ data', (walName n, data') ∈ l.dir.files ∧ data <+: data'

structure Follows (f : Mirror) (l : Leader) (m : ℕ) : Prop where
  whole : ∀ n < m, ∃ data, f.received n = some data ∧ (walName n, data) ∈ l.dir.files ∧ data.length = kWalPageSize
  part : ∀ data, f.received m = some data → data.length < kWalPageSize ∧ Beginning l m data
  ahead : ∀ n, m < n → f.received n = none
  receiving : ∀ n data, f.receiving = some (n, data) → n = m ∧ Beginning l m data

theorem Follows.grows (h : f.Follows l m) (hl : l.Serving) (hl' : l'.Serving)
    (hg : l.writes.writer.Grows l'.writes.writer) : f.Follows l' m := by
  have hbeginning {n : ℕ} {data : Bytes} (hb : Beginning l n data) : Beginning l' n data := by
    obtain ⟨data', hf, hp⟩ := hb
    obtain ⟨data'', hf', hp'⟩ := hl.filled.grown hl'.filled hg hf
    exact ⟨data'', hf', hp.trans hp'⟩
  refine ⟨?_, fun data hr => ⟨(h.part data hr).1, hbeginning (h.part data hr).2⟩, h.ahead,
    fun n data hr => ⟨(h.receiving n data hr).1, hbeginning (h.receiving n data hr).2⟩⟩
  intro n hn
  obtain ⟨data, hr, hf, hlen⟩ := h.whole n hn
  exact ⟨data, hr, hl.filled.kept hl'.filled hg hf hlen, hlen⟩

theorem Follows.congr (h : f.Follows l m) (hreceived : f'.received = f.received)
    (hreceiving : f'.receiving = f.receiving ∨ f'.receiving = none) : f'.Follows l m := by
  refine ⟨hreceived ▸ h.whole, hreceived ▸ h.part, hreceived ▸ h.ahead, ?_⟩
  intro n data hr
  rcases hreceiving with he | he
  · exact h.receiving n data (he ▸ hr)
  · cases he.symm.trans hr

theorem Follows.beginning (h : f.Follows l m) (hr : f.received n = some data) : Beginning l n data := by
  rcases Nat.lt_trichotomy n m with hn | rfl | hn
  · obtain ⟨data', hr', hf, -⟩ := h.whole n hn
    rw [Option.some.inj (hr.symm.trans hr')]
    exact ⟨data', hf, List.prefix_refl _⟩
  · exact (h.part data hr).2
  · cases (h.ahead n hn).symm.trans hr

/-- `NextSegmentToFetch` goes past the whole segments and stops behind them. -/
theorem Follows.hasWholePage_iff (h : f.Follows l m) (hm : f.Mirrors) (hn : n ≤ m) :
    hasWholePage f.dir n = true ↔ n < m := by
  rw [StructureDb.hasWholePage_iff]
  constructor
  · rintro ⟨data, hf, hlen⟩
    refine lt_of_le_of_ne hn ?_
    rintro rfl
    rcases hr : f.received n with _ | data'
    · exact absurd (hm.short n data hf hr) (not_lt.mpr hlen)
    · rw [Dir.unique hf (hm.received n data' hr)] at hlen
      exact absurd (h.part data' hr).1 (not_lt.mpr hlen)
  · intro hlt
    obtain ⟨data, hr, -, hlen⟩ := h.whole n hlt
    exact ⟨data, hm.received n data hr, hlen.ge⟩

/-- The segment that is to come behind the page that is being received. -/
def due (f : Mirror) (m : ℕ) : ℕ :=
  match f.receiving with
  | none => m
  | some (_, data) => if data.length = kWalPageSize then m + 1 else m

/-- What was read of a stream, when `m` segments are there as a whole. -/
structure ReadUpTo (f : Mirror) (m : ℕ) (r : GetEventsReactor) (pages : ℕ) : Prop where
  le : pages ≤ r.started.length
  reached : ∃ n : ℕ, r.origin = ⟨n, 0⟩ ∧ reached n (r.started.take pages) = f.due m
  tail : ∀ page, (r.started.take pages).getLast? = some page → isCompleted page = false →
    f.receiving = some (m, page.data) ∨ f.receiving = none ∧ f.received m = some page.data

theorem ReadUpTo.started (h : f.ReadUpTo m r pages) (horigin : r'.origin = r.origin) (hp : r.started <+: r'.started) :
    f.ReadUpTo m r' pages := by
  have htake : r'.started.take pages = r.started.take pages := by
    obtain ⟨more, hmore⟩ := hp
    rw [← hmore, List.take_append_of_le_length h.le]
  exact ⟨h.le.trans hp.length_le, by rw [horigin, htake]; exact h.reached, by rw [htake]; exact h.tail⟩

theorem ReadUpTo.congr (h : f.ReadUpTo m r pages) (hreceived : f'.received = f.received)
    (hreceiving : f'.receiving = f.receiving) : f'.ReadUpTo m r pages := by
  refine ⟨h.le, ?_, ?_⟩
  · rw [due, hreceiving]
    exact h.reached
  · rw [hreceiving, hreceived]
    exact h.tail

/-- Where `Follower::Run` may be when `m` segments are there as a whole. -/
def At (f : Mirror) (l : Leader) (m : ℕ) : Follower → Prop
  | .waiting => f.fetching = none ∧ f.receiving = none
  | .fetching => ∃ k ≤ m, f.fetching = some k
  | .requesting n => n = m ∧ f.fetching = none ∧ f.receiving = none
  | .reading token pages => f.fetching = none ∧ token < l.followers.nextToken ∧
    ∀ r, l.reactor? token = some r → f.ReadUpTo m r pages

theorem At.leader {follower : Follower} (h : f.At l m follower) (hl : l.MoreStarted l') : f.At l' m follower := by
  cases follower with
  | waiting => exact h
  | fetching => exact h
  | requesting n => exact h
  | reading token pages =>
    obtain ⟨hfetching, htoken, hread⟩ := h
    refine ⟨hfetching, htoken.trans_le hl.1, ?_⟩
    intro r' hr'
    obtain ⟨r, hr, horigin, hstarted⟩ := hl.2 token htoken r' hr'
    exact (hread r hr).started horigin hstarted

theorem At.congr {follower : Follower} (h : f.At l m follower) (hreceived : f'.received = f.received)
    (hreceiving : f'.receiving = f.receiving) (hfetching : f'.fetching = f.fetching) : f'.At l m follower := by
  cases follower with
  | waiting => exact ⟨hfetching.trans h.1, hreceiving.trans h.2⟩
  | fetching =>
    obtain ⟨k, hk, he⟩ := h
    exact ⟨k, hk, hfetching.trans he⟩
  | requesting n => exact ⟨h.1, hfetching.trans h.2.1, hreceiving.trans h.2.2⟩
  | reading token pages =>
    exact ⟨hfetching.trans h.1, h.2.1, fun r hr => (h.2.2 r hr).congr hreceived hreceiving⟩

theorem step_own {action : Action} (ha : (∃ event, action = .write event) ∨ ∃ call, action = .resume call)
    (hs : f.step action = some f') :
    f'.received = f.received ∧ f'.receiving = f.receiving ∧ f'.fetching = f.fetching := by
  obtain ⟨event, rfl⟩ | ⟨call, rfl⟩ := ha
  all_goals
    rw [step, Option.map_eq_some_iff] at hs
    obtain ⟨writes, -, rfl⟩ := hs
    exact ⟨rfl, rfl, rfl⟩

end Mirror

namespace Cluster

open Mirror (setReceived_self setReceived_of_ne)

variable {s s' : Cluster} {m : ℕ} {action : Action}

/-- The leader keeps its log, and the follower's own events stay below a page. -/
def Steady (s : Cluster) : Action → Prop
  | .leader action => s.leader.Keeps action
  | .write event => s.mirror.Quiet (.write event)
  | .restart => s.mirror.Quiet .restart
  | _ => True

instance (s : Cluster) : (action : Action) → Decidable (s.Steady action)
  | .leader action => inferInstanceAs (Decidable (s.leader.Keeps action))
  | .write event => inferInstanceAs (Decidable (s.mirror.Quiet (.write event)))
  | .restart => inferInstanceAs (Decidable (s.mirror.Quiet .restart))
  | .resume _ | .nextSegmentToFetch | .fileSize | .getEvents | .read | .writePage | .disconnect => isTrue trivial

structure Inv (s : Cluster) : Prop where
  leader : s.leader.Serving
  mirror : s.mirror.Mirrors
  place : ∃ m, s.mirror.Follows s.leader m ∧ s.mirror.At s.leader m s.follower

theorem start_inv : start.Inv := by
  refine ⟨Leader.start_serving, Mirror.start_mirrors, 0, ⟨?_, ?_, fun _ _ => rfl, ?_⟩, rfl, rfl⟩
  · intro n hn
    exact absurd hn (Nat.not_lt_zero n)
  · intro data hr
    cases hr
  · intro n data hr
    cases hr

theorem Inv.leaderStep (h : s.Inv) {action : Leader.Action} (hg : s.leader.Keeps action)
    (hs : s.leaderStep action = some s') : s'.Inv := by
  obtain ⟨l, hl, rfl⟩ := Option.map_eq_some_iff.mp hs
  obtain ⟨m, hfollows, hat⟩ := h.place
  have hlive : action ≠ .restart := by
    rintro rfl
    exact hg
  have hserving := h.leader.step hg hl
  obtain ⟨-, -, hgrows⟩ := h.leader.step_log hg hl
  refine ⟨hserving, h.mirror, m, hfollows.grows h.leader hserving hgrows, ?_⟩
  simp only [if_neg hlive]
  exact hat.leader (Leader.step_started hl hlive)

theorem Inv.own (h : s.Inv) {action : Mirror.Action}
    (ha : (∃ event, action = .write event) ∨ ∃ call, action = .resume call) (hg : s.mirror.Quiet action)
    (hs : s.mirrorStep action s.follower = some s') : s'.Inv := by
  obtain ⟨f, hf, rfl⟩ := Option.map_eq_some_iff.mp hs
  obtain ⟨m, hfollows, hat⟩ := h.place
  obtain ⟨hreceived, hreceiving, hfetching⟩ := Mirror.step_own ha hf
  exact ⟨h.leader, h.mirror.step hg hf, m, hfollows.congr hreceived (Or.inl hreceiving),
    hat.congr hreceived hreceiving hfetching⟩

theorem Inv.nextSegmentToFetch (h : s.Inv) (hs : s.step .nextSegmentToFetch = some s') : s'.Inv := by
  simp only [step] at hs
  split_ifs at hs with hwaiting
  obtain ⟨f, hf, rfl⟩ := Option.map_eq_some_iff.mp hs
  obtain ⟨m, hfollows, -⟩ := h.place
  have hmirrors := h.mirror.step (show s.mirror.Quiet .nextSegmentToFetch from trivial) hf
  simp only [Mirror.step] at hf
  split_ifs at hf
  cases hf
  exact ⟨h.leader, hmirrors, m, hfollows.congr rfl (Or.inl rfl), 0, Nat.zero_le m, rfl⟩

theorem Inv.fileSize (h : s.Inv) (hs : s.step .fileSize = some s') : s'.Inv := by
  rcases hk : s.mirror.fetching with _ | k <;> simp only [step, hk] at hs
  · cases hs
  obtain ⟨f, hf, rfl⟩ := Option.map_eq_some_iff.mp hs
  obtain ⟨m, hfollows, hat⟩ := h.place
  have hmirrors := h.mirror.step (show s.mirror.Quiet .fileSize from trivial) hf
  have hidle := (h.mirror.fetched k hk).1
  simp only [Mirror.step, hk] at hf
  cases hf
  have hkm : k ≤ m := by
    rcases hfollower : s.follower with _ | _ | n | ⟨token, pages⟩ <;> rw [hfollower] at hat
    · cases hat.1.symm.trans hk
    · obtain ⟨k', hk', he⟩ := hat
      rw [Option.some.inj (hk.symm.trans he)]
      exact hk'
    · cases hat.2.1.symm.trans hk
    · cases hat.1.symm.trans hk
  refine ⟨h.leader, hmirrors, m, hfollows.congr rfl (Or.inl rfl), ?_⟩
  by_cases hwhole : hasWholePage s.mirror.dir k = true
  · simp only [if_pos hwhole]
    exact ⟨k + 1, (hfollows.hasWholePage_iff h.mirror hkm).mp hwhole, rfl⟩
  · simp only [if_neg hwhole]
    have hnot := mt (hfollows.hasWholePage_iff h.mirror hkm).mpr hwhole
    exact ⟨by omega, rfl, hidle⟩

theorem Inv.getEvents (h : s.Inv) (hs : s.step .getEvents = some s') : s'.Inv := by
  rcases hfollower : s.follower with _ | _ | n | ⟨token, pages⟩ <;> simp only [step, hfollower] at hs <;> cases hs
  obtain ⟨m, hfollows, hat⟩ := h.place
  rw [hfollower] at hat
  obtain ⟨rfl, hfetching, hreceiving⟩ := hat
  have hserving := h.leader.step (show s.leader.Keeps (.getEvents ⟨n, 0⟩) from trivial) rfl
  refine ⟨hserving, h.mirror, n, hfollows.grows h.leader hserving (Writer.Grows.refl _), hfetching,
    Nat.lt_succ_self _, ?_⟩
  intro r hr
  have hr' := Leader.reactor?_mem hr
  rcases List.mem_append.mp hr'.1 with hold | hnew
  · exact absurd hr'.2 (h.leader.tokens r hold).ne
  · rw [List.mem_singleton.mp hnew]
    refine ⟨Nat.zero_le _, ⟨n, rfl, ?_⟩, ?_⟩
    · rw [Mirror.due, hreceiving]
      rfl
    · intro page hpage
      cases hpage

theorem Inv.read (h : s.Inv) (hs : s.step .read = some s') : s'.Inv := by
  rcases hfollower : s.follower with _ | _ | n | ⟨token, pages⟩ <;> simp only [step, hfollower] at hs
  · cases hs
  · cases hs
  · cases hs
  rcases hpage : s.nextPage token pages with _ | page <;> simp only [hpage] at hs
  · cases hs
  obtain ⟨f, hf, rfl⟩ := Option.map_eq_some_iff.mp hs
  have hmirrors := h.mirror.step (show s.mirror.Quiet (.createFile _ _) from trivial) hf
  obtain ⟨r, hr, hpage⟩ := Option.bind_eq_some_iff.mp hpage
  obtain ⟨m, hfollows, hat⟩ := h.place
  rw [hfollower] at hat
  obtain ⟨hfetching, htoken, hread⟩ := hat
  simp only [Mirror.step] at hf
  split_ifs at hf with hidle
  cases hf
  obtain ⟨n, horigin, hreached⟩ := (hread r hr).reached
  have hdue : s.mirror.due m = m := by
    rw [Mirror.due, hidle.1]
  -- the page is the next one of the segment that is not whole
  have hmem := (Leader.reactor?_mem hr).1
  obtain ⟨hinOrder, hfound⟩ := (h.leader.inOrder r hmem n horigin).started h.leader.filled (h.leader.sound r hmem)
  obtain ⟨hlt, hget⟩ := List.getElem?_eq_some_iff.mp hpage
  have htake : r.started.take (pages + 1) = r.started.take pages ++ [page] := by
    rw [List.take_add_one, hpage]
    rfl
  have hpos : page.position = ⟨m, 0⟩ := by
    have hsplit : r.started = r.started.take pages ++ page :: r.started.drop (pages + 1) := by
      rw [← hget, List.getElem_cons_drop, List.take_append_drop]
    rw [hinOrder _ _ _ hsplit, hreached, hdue]
  have hsegment : page.position.segmentNo.toNat = m := by
    rw [hpos]
    rfl
  obtain ⟨n', data, hn', hdata, hprefix⟩ := h.leader.filled.of_snapshot (hfound page (List.mem_of_getElem? hpage))
  obtain rfl : n' = m := by
    have he := congrArg Position.segmentNo (hn'.symm.trans hpos)
    exact Int.ofNat.inj he
  rw [hsegment] at hmirrors ⊢
  refine ⟨h.leader, hmirrors, n', ⟨?_, ?_, ?_, ?_⟩, hfetching, htoken, ?_⟩
  · intro k hk
    obtain ⟨d, hd, hrest⟩ := hfollows.whole k hk
    exact ⟨d, (setReceived_of_ne _ _ hk.ne).trans hd, hrest⟩
  · intro d hd
    cases (setReceived_self _ _ _).symm.trans hd
  · intro k hk
    exact (setReceived_of_ne _ _ hk.ne').trans (hfollows.ahead k hk)
  · intro k d hk
    obtain ⟨rfl, rfl⟩ := Prod.mk.inj (Option.some.inj hk)
    exact ⟨rfl, data, hdata, hprefix⟩
  · intro r' hr'
    rw [hr] at hr'
    obtain rfl := Option.some.inj hr'
    refine ⟨hlt, ⟨n, horigin, ?_⟩, ?_⟩
    · rw [htake, reached_append, hreached, hdue, reached_singleton, Mirror.due]
      simp only [isCompleted, decide_eq_true_eq]
    · intro p hp _
      rw [htake, List.getLast?_concat] at hp
      rw [← Option.some.inj hp]
      exact Or.inl rfl

theorem Inv.writePage (h : s.Inv) (hs : s.step .writePage = some s') : s'.Inv := by
  obtain ⟨f, hf, rfl⟩ := Option.map_eq_some_iff.mp hs
  have hmirrors := h.mirror.step (show s.mirror.Quiet .writePage from trivial) hf
  obtain ⟨m, hfollows, hat⟩ := h.place
  rcases hr : s.mirror.receiving with _ | ⟨n, data⟩ <;> simp only [Mirror.step, hr] at hf <;> cases hf
  obtain ⟨rfl, data', hfile, hprefix⟩ := hfollows.receiving n data hr
  -- only the state of a stream goes with a page that is being received
  obtain ⟨token, pages, hfollower, hfetching, htoken, hread⟩ : ∃ token pages, s.follower = .reading token pages ∧
      s.mirror.fetching = none ∧ token < s.leader.followers.nextToken ∧
        ∀ r, s.leader.reactor? token = some r → s.mirror.ReadUpTo n r pages := by
    rcases hfollower : s.follower with _ | _ | k | ⟨token, pages⟩ <;> rw [hfollower] at hat
    · cases hat.2.symm.trans hr
    · obtain ⟨k, -, hk⟩ := hat
      cases (h.mirror.fetched k hk).1.symm.trans hr
    · cases hat.2.2.symm.trans hr
    · exact ⟨token, pages, rfl, hat⟩
  have hle : data.length ≤ kWalPageSize := hprefix.length_le.trans (h.leader.filled.onePage _ hfile)
  have hdue : s.mirror.due n = if data.length = kWalPageSize then n + 1 else n := by rw [Mirror.due, hr]
  refine ⟨h.leader, hmirrors, ?_⟩
  simp only [hfollower]
  by_cases hfull : data.length = kWalPageSize
  · rw [if_pos hfull] at hdue
    have hsame : data = data' := hprefix.eq_of_length_le (hfull ▸ h.leader.filled.onePage _ hfile)
    refine ⟨n + 1, ⟨?_, ?_, ?_, fun _ _ he => by cases he⟩, hfetching, htoken, ?_⟩
    · intro k hk
      rcases Nat.lt_succ_iff_lt_or_eq.mp hk with hk | rfl
      · obtain ⟨d, hd, hrest⟩ := hfollows.whole k hk
        exact ⟨d, (setReceived_of_ne _ _ hk.ne).trans hd, hrest⟩
      · exact ⟨data, setReceived_self _ _ _, hsame ▸ hfile, hfull⟩
    · intro d hd
      cases (hfollows.ahead _ (Nat.lt_succ_self n)).symm.trans
        ((setReceived_of_ne _ _ (Nat.succ_ne_self n)).symm.trans hd)
    · intro k hk
      exact (setReceived_of_ne _ _ (by omega)).trans (hfollows.ahead k (by omega))
    · intro r hr'
      obtain ⟨hlen, hreached, htail⟩ := hread r hr'
      refine ⟨hlen, ?_, ?_⟩
      · rw [hdue] at hreached
        exact hreached
      · intro page hpage hshort
        rcases htail page hpage hshort with he | ⟨he, -⟩
        · rw [hr] at he
          rw [(Prod.mk.inj (Option.some.inj he)).2] at hfull
          rw [isCompleted, decide_eq_true hfull] at hshort
          cases hshort
        · cases he.symm.trans hr
  · rw [if_neg hfull] at hdue
    refine ⟨n, ⟨?_, ?_, ?_, fun _ _ he => by cases he⟩, hfetching, htoken, ?_⟩
    · intro k hk
      obtain ⟨d, hd, hrest⟩ := hfollows.whole k hk
      exact ⟨d, (setReceived_of_ne _ _ hk.ne).trans hd, hrest⟩
    · intro d hd
      obtain rfl := Option.some.inj ((setReceived_self _ _ _).symm.trans hd)
      exact ⟨by omega, data', hfile, hprefix⟩
    · intro k hk
      exact (setReceived_of_ne _ _ hk.ne').trans (hfollows.ahead k hk)
    · intro r hr'
      obtain ⟨hlen, hreached, htail⟩ := hread r hr'
      refine ⟨hlen, ?_, ?_⟩
      · rw [hdue] at hreached
        exact hreached
      · intro page hpage hshort
        rcases htail page hpage hshort with he | ⟨he, -⟩
        · rw [hr] at he
          obtain ⟨-, rfl⟩ := Prod.mk.inj (Option.some.inj he)
          exact Or.inr ⟨rfl, setReceived_self _ _ _⟩
        · cases he.symm.trans hr

theorem Inv.step (h : s.Inv) (hg : s.Steady action) (hs : s.step action = some s') : s'.Inv := by
  cases action with
  | leader action => exact h.leaderStep hg hs
  | write event => exact h.own (Or.inl ⟨event, rfl⟩) hg hs
  | resume call => exact h.own (Or.inr ⟨call, rfl⟩) trivial hs
  | nextSegmentToFetch => exact h.nextSegmentToFetch hs
  | fileSize => exact h.fileSize hs
  | getEvents => exact h.getEvents hs
  | read => exact h.read hs
  | writePage => exact h.writePage hs
  | disconnect =>
    simp only [Cluster.step] at hs
    split_ifs at hs with hidle
    cases hs
    obtain ⟨m, hfollows, -⟩ := h.place
    exact ⟨h.leader, h.mirror, m, hfollows, hidle.2, hidle.1⟩
  | restart =>
    rw [Cluster.step, mirrorStep, Option.map_eq_some_iff] at hs
    obtain ⟨f, hf, rfl⟩ := hs
    obtain ⟨m, hfollows, -⟩ := h.place
    have hmirrors := h.mirror.step (show s.mirror.Quiet .restart from hg) hf
    cases hf
    exact ⟨h.leader, hmirrors, m, hfollows.congr rfl (Or.inr rfl), rfl, rfl⟩

end Cluster

end StructureDb
