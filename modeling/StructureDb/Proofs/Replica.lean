import StructureDb.Spec.Replica
import StructureDb.Proofs.Behind

/-! What sessions on a follower read. At every moment it is what is committed in some beginning of the leader's log that
holds all events the follower has applied, whatever pages came twice, grew or were lost in a crash, and while
the follower runs that beginning only grows. Once the follower has all of the log, its sessions read what is
committed on the leader. -/

namespace StructureDb

namespace World

variable {w : World} {events : List Event}

theorem Source.wal_events (hw : w.Source events) (hno : w.db.wal.currentSegmentNo < 10000) :
    Wal.events w.db.wal.dir = events := by
  obtain ⟨v, ht, hv⟩ := hw.twin
  rw [ht.wal] at hno ⊢
  exact hv.kept.durable.wal_events hno

/-- A storage with logged records was written to. -/
theorem Source.mem_touched (hw : w.Source events) {id : Bytes} (hlog : logOf id events ≠ []) :
    ∃ key, (id, key) ∈ w.touched := by
  obtain ⟨v, ht, hv⟩ := hw.twin
  obtain ⟨l, hl⟩ := Option.isSome_iff_exists.mp (hv.whole.durable.known id hlog)
  obtain ⟨row, hrow⟩ := List.exists_mem_of_ne_nil _ hlog
  have hrecord := (hv.whole.trees id l hl).records.mem_iff.mpr hrow
  refine ⟨row.key, ?_⟩
  rw [touched, ht.written]
  exact (hv.kept.touched id l hl).records row hrecord

end World

namespace Replica

variable {o : Options} {s s' : Replica} {action : Action} {events log : List Event}

/-- The leader keeps its log, a page is one of the first segment that the follower may lack a part of, and the
follower's flushes are safe. -/
def Steady (s : Replica) : Action → Prop
  | .leader op => s.leader.Ships op
  | .processPage segmentNo _ => s.log.take segmentNo = s.segments.take segmentNo ∧ s.log.length ≤ segmentNo + 1 ∧
      s.leader.db.wal.currentSegmentNo < 10000
  | .flush => ∀ k ∈ s.leader.touched, ∀ l ∈ s.db.storages k.1, l.FlushSafe
  | _ => True

instance (s : Replica) : (action : Action) → Decidable (s.Steady action)
  | .leader op => inferInstanceAs (Decidable (s.leader.Ships op))
  | .processPage segmentNo _ => inferInstanceAs (Decidable (s.log.take segmentNo = s.segments.take segmentNo ∧
      s.log.length ≤ segmentNo + 1 ∧ s.leader.db.wal.currentSegmentNo < 10000))
  | .flush => inferInstanceAs (Decidable (∀ k ∈ s.leader.touched, ∀ l ∈ s.db.storages k.1, l.FlushSafe))
  | .apply | .begin | .commit _ | .rollback _ | .restart _ => isTrue trivial

def Running (s : Replica) : Action → Prop
  | .restart _ => False
  | action => s.Steady action

instance (s : Replica) : (action : Action) → Decidable (s.Running action)
  | .restart _ => isFalse id
  | .leader op => inferInstanceAs (Decidable (s.Steady (.leader op)))
  | .processPage segmentNo size => inferInstanceAs (Decidable (s.Steady (.processPage segmentNo size)))
  | .flush => inferInstanceAs (Decidable (s.Steady .flush))
  | .apply | .begin | .commit _ | .rollback _ => isTrue trivial

structure Inv (s : Replica) (events log : List Event) : Prop where
  source : s.leader.Source log
  received : s.log.flatten <+: log
  page : s.applied ++ s.events = s.log.flatten
  applied : s.applied <+: events
  behind : s.db.Behind events log s.own

theorem applied_eq {first : List Event} (h : first ++ s.events = s.log.flatten) : s.applied = first := by
  rw [Replica.applied, ← h, List.length_append, Nat.add_sub_cancel, List.take_left]

theorem start_inv (o : Options) : (start o).Inv [] [] :=
  ⟨World.Source.start o, List.prefix_refl _, rfl, List.prefix_refl _, Db.Behind.start o⟩

namespace Inv

/-- Steps that leave the received log and the page in hand. -/
theorem congr (h : s.Inv events log) {db : Db} {own : List TransactionId} (hb : db.Behind events log own) :
    Inv { s with db, own } events log := ⟨h.source, h.received, h.page, h.applied, hb⟩

theorem leader (h : s.Inv events log) {op : Op} (hg : s.leader.Ships op) {leader : World}
    (hs : s.leader.step o op = some leader) : ∃ log', log <+: log' ∧ Inv { s with leader } events log' := by
  obtain ⟨log', hp, hsource⟩ := h.source.step hg hs
  exact ⟨log', hp, hsource, h.received.trans hp, h.page, h.applied, h.behind.grows hp⟩

theorem numbers (h : s.Inv events log) (id : Bytes) : Lsm.FromOne (logOf id log) := by
  obtain ⟨v, -, hv⟩ := h.source.twin
  exact hv.numbers id

theorem processPage (h : s.Inv events log) {segmentNo size : ℕ} (hg : s.Steady (.processPage segmentNo size))
    (hs : s.step o (.processPage segmentNo size) = some s') : s'.Inv events log := by
  obtain ⟨hsame, hlast, hno⟩ := hg
  simp only [step] at hs
  split at hs
  · rename_i segment hevents hsegment
    cases hs
    obtain ⟨hlt, hget⟩ := List.getElem?_eq_some_iff.mp hsegment
    have hdrop : s.log.drop (segmentNo + 1) = [] := List.drop_of_length_le hlast
    have hsplit : s.segments = s.segments.take segmentNo ++ segment :: s.segments.drop (segmentNo + 1) := by
      rw [← hget, List.getElem_cons_drop, List.take_append_drop]
    have hflatten : (s.log.take segmentNo ++ segment.take size :: s.log.drop (segmentNo + 1)).flatten =
        (s.log.take segmentNo).flatten ++ segment.take size := by
      rw [hdrop, List.flatten_append, List.flatten_singleton]
    -- the page is a beginning of its segment
    have hreceived : (s.log.take segmentNo).flatten ++ segment.take size <+: log := by
      have hlog : s.segments.flatten = log := h.source.wal_events hno
      rw [← hlog, hsplit, hsame, List.flatten_append, List.flatten_cons]
      rw [List.prefix_append_right_inj]
      exact (List.take_prefix _ _).trans (List.prefix_append _ _)
    have hfirst : (s.log.take segmentNo).flatten <+: s.applied := by
      have hpage := h.page
      rw [hevents, List.append_nil] at hpage
      rw [hpage]
      refine ⟨(s.log.drop segmentNo).flatten, ?_⟩
      rw [← List.flatten_append, List.take_append_drop]
    have happlied := applied_eq (s := { s with
      log := s.log.take segmentNo ++ segment.take size :: s.log.drop (segmentNo + 1), events := segment.take size })
      hflatten.symm
    refine ⟨h.source, ?_, ?_, ?_, h.behind⟩
    · rw [hflatten]
      exact hreceived
    · rw [happlied]
      exact hflatten.symm
    · rw [happlied]
      exact hfirst.trans h.applied
  · cases hs

theorem apply (h : s.Inv events log) (hs : s.step o .apply = some s') :
    ∃ events', events <+: events' ∧ s'.Inv events' log := by
  rcases hevents : s.events with _ | ⟨e, rest⟩ <;> simp only [step, hevents] at hs <;> cases hs
  have hpage := h.page
  rw [hevents] at hpage
  have hsplit : (s.applied ++ [e]) ++ rest = s.log.flatten := by
    rw [← hpage, List.append_assoc, List.singleton_append]
  have hnext : s.applied ++ [e] <+: log := List.IsPrefix.trans ⟨rest, hsplit⟩ h.received
  obtain ⟨events', hgrows, hadded, hbehind⟩ := h.behind.apply h.numbers o h.applied hnext
  have happlied := applied_eq (s := { s with db := s.db.apply o e, events := rest }) hsplit
  refine ⟨events', hgrows, h.source, h.received, ?_, ?_, hbehind⟩
  · rw [happlied]
    exact hsplit
  · rw [happlied]
    exact hadded

theorem flush (h : s.Inv events log) (hg : s.Steady .flush) : Inv { s with db := s.db.flush } events log := by
  refine h.congr (h.behind.flush ?_)
  intro id l hl hlog
  obtain ⟨key, hkey⟩ := h.source.mem_touched hlog
  exact hg _ hkey l hl

theorem restart (h : s.Inv events log) {found : List TransactionId} (hs : s.step o (.restart found) = some s') :
    s'.Inv s.log.flatten log := by
  simp only [step] at hs
  split_ifs at hs with hfound
  cases hs
  have hbehind := h.behind.restart h.numbers o (Wal.init s.db.wal.dir) h.received hfound
  have hall : s.log.flatten ++ [] = s.log.flatten := List.append_nil _
  have happlied := applied_eq (s := { s with
    db := (s.log.flatten ++ found.map Event.commit).foldl (Db.apply o)
      ⟨Db.openStorages s.db.dirs, TxStorage.empty, Wal.init s.db.wal.dir⟩
    events := [] }) hall
  refine ⟨h.source, h.received, ?_, ?_, hbehind⟩
  · rw [happlied]
    exact hall
  · rw [happlied]

theorem running (h : s.Inv events log) (hg : s.Running action) (hs : s.step o action = some s') :
    ∃ events' log', events <+: events' ∧ log <+: log' ∧ s'.Inv events' log' := by
  cases action with
  | leader op =>
    obtain ⟨leader, hleader, rfl⟩ := Option.map_eq_some_iff.mp hs
    obtain ⟨log', hp, hinv⟩ := h.leader hg hleader
    exact ⟨events, log', List.prefix_refl _, hp, hinv⟩
  | processPage segmentNo size =>
    exact ⟨events, log, List.prefix_refl _, List.prefix_refl _, h.processPage hg hs⟩
  | apply =>
    obtain ⟨events', hgrows, hinv⟩ := h.apply hs
    exact ⟨events', log, hgrows, List.prefix_refl _, hinv⟩
  | begin =>
    cases hs
    exact ⟨events, log, List.prefix_refl _, List.prefix_refl _, h.congr h.behind.begin⟩
  | commit tx =>
    simp only [step] at hs
    split_ifs at hs
    cases hs
    exact ⟨events, log, List.prefix_refl _, List.prefix_refl _, h.congr (h.behind.commit tx)⟩
  | rollback tx =>
    simp only [step] at hs
    split_ifs at hs with hstarted
    cases hs
    exact ⟨events, log, List.prefix_refl _, List.prefix_refl _, h.congr (h.behind.rollback hstarted)⟩
  | flush =>
    cases hs
    exact ⟨events, log, List.prefix_refl _, List.prefix_refl _, h.flush hg⟩
  | restart found => exact hg.elim

theorem step (h : s.Inv events log) (hg : s.Steady action) (hs : s.step o action = some s') :
    ∃ events' log', s'.Inv events' log' := by
  by_cases hcrash : ∃ found, action = .restart found
  · obtain ⟨found, rfl⟩ := hcrash
    exact ⟨_, log, h.restart hs⟩
  · have hrunning : s.Running action := by
      cases action with
      | restart found => exact absurd ⟨found, rfl⟩ hcrash
      | _ => exact hg
    obtain ⟨events', log', -, -, hinv⟩ := h.running hrunning hs
    exact ⟨events', log', hinv⟩

end Inv

theorem inv_of_run {actions : List Action} (hg : Machine.Guarded (step o) Steady (start o) actions)
    (hr : Machine.run (step o) (start o) actions = some s) : ∃ events log, s.Inv events log :=
  Machine.run_inv (P := fun _ s => ∃ events log, s.Inv events log) ⟨[], [], start_inv o⟩
    (fun _ _ _ _ ⟨_, _, h⟩ hg hs => h.step hg hs) hg hr

theorem Inv.run_running {actions : List Action} (h : s.Inv events log)
    (hg : Machine.Guarded (Replica.step o) Running s actions) (hr : Machine.run (Replica.step o) s actions = some s') :
    ∃ events' log', events <+: events' ∧ s'.Inv events' log' := by
  refine Machine.run_inv (P := fun _ s => ∃ events' log', events <+: events' ∧ s.Inv events' log')
    ⟨events, log, List.prefix_refl _, h⟩ ?_ hg hr
  rintro _ t a u ⟨events', log', hgrows, ht⟩ hg hs
  obtain ⟨events'', log'', hmore, -, hu⟩ := ht.running hg hs
  exact ⟨events'', log'', hgrows.trans hmore, hu⟩

def writers (log : List Event) : List TransactionId :=
  log.filterMap fun
    | .upsert _ _ _ value => some value.tx
    | .commit _ => none

theorem mem_writers {id : Bytes} {row : Row} (h : row ∈ logOf id log) : row.value.tx ∈ writers log :=
  List.mem_filterMap.mpr ⟨_, mem_logOf.mp h, rfl⟩

/-- No version in the leader's log is taken for one of the session's own, or for one of a transaction that a session
of the follower committed under the same id. -/
def Distinct (s : Replica) (t : TransactionId) : Prop :=
  ∀ tx ∈ writers (Wal.events s.leader.db.wal.dir), tx ≠ t ∧ (tx ∈ s.own → .commit tx ∈ s.applied)

instance (s : Replica) (t : TransactionId) : Decidable (s.Distinct t) :=
  inferInstanceAs (Decidable (∀ tx ∈ writers (Wal.events s.leader.db.wal.dir), tx ≠ t ∧
    (tx ∈ s.own → .commit tx ∈ s.applied)))

theorem Inv.lookup_eq (h : s.Inv events log) (hno : s.leader.db.wal.currentSegmentNo < 10000) {t : TransactionId}
    (hd : s.Distinct t) (id key : Bytes) : s.db.lookup t id key = committedIn events id key := by
  obtain ⟨v, -, hv⟩ := h.source.twin
  refine h.behind.lookup_eq hv.numbers hv.apart hv.unfrozen ?_ id key
  intro id row hrow
  rw [Distinct, h.source.wal_events hno] at hd
  obtain ⟨hne, hown⟩ := hd _ (mem_writers hrow)
  exact ⟨hne, fun htx => h.applied.subset (hown htx)⟩

/-- Every session reads what is committed in some beginning of the leader's log that holds what the follower has
applied. While the follower goes on running, later sessions read a beginning that is not shorter. -/
theorem session_reads_beginning (o : Options) (actions more : List Action) (s s' : Replica)
    (hg : Machine.Guarded (step o) Steady (start o) actions) (hr : Machine.run (step o) (start o) actions = some s)
    (hg' : Machine.Guarded (step o) Running s more) (hr' : Machine.run (step o) s more = some s')
    (hno : s.leader.db.wal.currentSegmentNo < 10000) (hno' : s'.leader.db.wal.currentSegmentNo < 10000)
    (t t' : TransactionId) (hd : s.Distinct t) (hd' : s'.Distinct t') :
    ∃ events events', events <+: events' ∧
      (s.applied <+: events ∧ events <+: Wal.events s.leader.db.wal.dir ∧
        ∀ id key, s.db.lookup t id key = committedIn events id key) ∧
      (s'.applied <+: events' ∧ events' <+: Wal.events s'.leader.db.wal.dir ∧
        ∀ id key, s'.db.lookup t' id key = committedIn events' id key) := by
  obtain ⟨events, log, h⟩ := inv_of_run hg hr
  obtain ⟨events', log', hgrows, h'⟩ := h.run_running hg' hr'
  refine ⟨events, events', hgrows, ⟨h.applied, ?_, h.lookup_eq hno hd⟩, h'.applied, ?_, h'.lookup_eq hno' hd'⟩
  · rw [h.source.wal_events hno]
    exact h.behind.beginning
  · rw [h'.source.wal_events hno']
    exact h'.behind.beginning

/-- The last page is written again and is cut short by a crash after the trees were flushed; the follower then has a
record that is not in its log. -/
def tornPage : List Action :=
  [.leader (.addStorage [1]), .leader (.begin 0), .leader (.upsert 0 [1] [7] [5]), .leader (.commit 0),
    .leader (.begin 1), .leader (.upsert 1 [1] [7] [6]), .processPage 0 3, .apply, .apply, .apply, .flush,
      .processPage 0 2, .restart [],
    .begin, .begin]

theorem session_reads_beginning_torn_page :
    ∃ s s', Machine.run (step ⟨0⟩) (start ⟨0⟩) tornPage = some s ∧
      Machine.run (step ⟨0⟩) s [.leader (.commit 1), .processPage 0 4, .apply, .apply, .apply, .apply] = some s' ∧
      s.db.lookup 12 [1] [7] = some [5] ∧ s'.db.lookup 12 [1] [7] = some [6] ∧
      ∃ events events', events <+: events' ∧ committedIn events [1] [7] = some [5] ∧
        committedIn events' [1] [7] = some [6] := by
  refine Machine.exists_runs_of (T := fun s s' =>
    (Machine.Guarded (step ⟨0⟩) Running s [.leader (.commit 1), .processPage 0 4, .apply, .apply, .apply, .apply] ∧
      s.leader.db.wal.currentSegmentNo < 10000 ∧ s.Distinct 12 ∧ s.db.lookup 12 [1] [7] = some [5]) ∧
    s'.leader.db.wal.currentSegmentNo < 10000 ∧ s'.Distinct 12 ∧ s'.db.lookup 12 [1] [7] = some [6])
    (by decide +kernel) ?_
  rintro s s' hr hr' ⟨⟨hg', hno, hd, hread⟩, hno', hd', hread'⟩
  obtain ⟨events, events', hgrows, ⟨-, -, h⟩, -, -, h'⟩ :=
    session_reads_beginning ⟨0⟩ tornPage _ s s' (by decide +kernel) hr hg' hr' hno hno' 12 12 hd hd'
  exact ⟨hread, hread', events, events', hgrows, (h _ _).symm.trans hread, (h' _ _).symm.trans hread'⟩

/-- Without distinct ids a session takes the leader's running transaction for its own and reads what
is not committed. -/
example : (Machine.run (step ⟨0⟩) (start ⟨0⟩)
    [.leader (.addStorage [1]), .leader (.begin 0), .leader (.upsert 0 [1] [7] [5]), .processPage 0 1, .apply,
      .begin]).any
      (fun s => decide (s.db.lookup 10 [1] [7] = some [5] ∧ TxMap.committed ([1], [7]) s.leader.hist = none)) =
        true := by
  decide +kernel

/-- A follower that has received and applied all of the leader's log: a lookup in a table returns what is committed on
the leader. -/
theorem caught_up_session_reads_committed (o : Options) (actions : List Action) (s : Replica)
    (hg : Machine.Guarded (step o) Steady (start o) actions) (hr : Machine.run (step o) (start o) actions = some s)
    (hno : s.leader.db.wal.currentSegmentNo < 10000) (hall : s.applied = Wal.events s.leader.db.wal.dir)
    (t : TransactionId) (hd : s.Distinct t) (table key : Bytes) :
    (s.db.getTable t table).bind (fun id => s.db.lookup t id key) = committedValue s.leader.hist table key := by
  obtain ⟨events, log, h⟩ := inv_of_run hg hr
  obtain ⟨v, ht, hv⟩ := h.source.twin
  have hevents : events = log := by
    have happlied := h.applied
    rw [hall, h.source.wal_events hno] at happlied
    exact List.IsPrefix.eq_of_length_le h.behind.beginning happlied.length_le
  have hlookup : ∀ id key, s.db.lookup t id key = (TxMap.committed (id, key) s.leader.hist).join := by
    intro id key
    rw [h.lookup_eq hno hd, hevents, hv.committedIn, ht.hist]
  have htable : s.db.getTable t table = committedTable s.leader.hist table := by
    rw [Db.getTable, Db.getStorageId, Db.getTableInfo, hlookup]
    rfl
  rw [htable, committedValue]
  rcases committedTable s.leader.hist table with _ | id
  · rfl
  · exact hlookup id key

/-- The leader flushes and compacts the table, and the follower crashes in the middle of a page and commits a session of
its own. -/
def caughtUp : List Action :=
  [.leader (.addStorage [1]), .leader (.begin 0), .leader (.upsert 0 kSysTables [84] (TableInfo.toBytes ⟨false, [1]⟩)),
    .leader (.upsert 0 [1] [7] [5]), .processPage 0 2, .apply, .restart [], .leader (.commit 0), .leader .flush,
    .leader (.compact [1]), .processPage 0 3, .apply, .apply, .apply, .flush, .begin, .commit 11, .restart [11], .begin]

theorem caught_up_session_reads_committed_compacted :
    ∃ s, Machine.run (step ⟨0⟩) (start ⟨0⟩) caughtUp = some s ∧ s.own = [11] ∧
      (s.db.getTable 12 [84]).bind (fun id => s.db.lookup 12 id [7]) = some [5] := by
  refine Machine.exists_run_of (T := fun s => s.leader.db.wal.currentSegmentNo < 10000 ∧
    s.applied = Wal.events s.leader.db.wal.dir ∧ s.Distinct 12 ∧ s.own = [11] ∧
    committedValue s.leader.hist [84] [7] = some [5]) (by decide +kernel) ?_
  rintro s hr ⟨hno, hall, hd, hown, hvalue⟩
  refine ⟨hown, ?_⟩
  rw [caught_up_session_reads_committed ⟨0⟩ caughtUp s (by decide +kernel) hr hno hall 12 hd, hvalue]

end Replica

end StructureDb
