import StructureDb.Proofs.LoggedWorld

/-! A database that applies the log of another one. It has applied a beginning of the log, and its trees may hold
records from behind that, since files outlive the log that they came from. Its sessions read what is committed in the
beginning: a transaction is committed there only if all of its records are. -/

namespace StructureDb

theorem logOf_prefix_of {es fs : List Event} (h : es <+: fs) (id : Bytes) : logOf id es <+: logOf id fs := by
  obtain ⟨rest, rfl⟩ := h
  rw [logOf_append]
  exact List.prefix_append _ _

theorem logOf_commits (id : Bytes) (txs : List TransactionId) : logOf id (txs.map Event.commit) = [] := by
  induction txs with
  | nil => rfl
  | cons tx txs ih => exact ih

namespace Db

variable {o : Options} {db : Db} {events log log' : List Event} {own : List TransactionId} {tx : TransactionId}

def tree (db : Db) (id : Bytes) : Lsm TransactionalValue := (db.storages id).getD (Lsm.init Dir.empty)

theorem rows_eq_tree (db : Db) (id key : Bytes) :
    db.rows id key = (db.tree id).records.filter fun row => row.key = key := by
  rcases hl : db.storages id with _ | l
  · rw [rows_of_none hl, tree, hl]
    rfl
  · rw [rows_of_some hl, tree, hl]
    rfl

/-- A database that has applied `events`, the first ones of `log`, and commits of its own sessions. -/
structure Behind (db : Db) (events log : List Event) (own : List TransactionId) : Prop where
  beginning : events <+: log
  trees : ∀ id, (db.tree id).Has (logOf id log) (logOf id events).length
  commits : ∀ tx, .commit tx ∈ events → db.txStorage.isCommited tx = true ∧ tx < db.txStorage.nextTxId
  committed : ∀ tx, db.txStorage.isCommited tx = true → .commit tx ∈ events ∨ tx ∈ own

namespace Behind

theorem start (o : Options) : Behind (init o (fun _ => none) Dir.empty) [] [] [] := by
  refine ⟨List.prefix_refl _, ?_, by simp, ?_⟩
  · intro id
    rcases hl : (init o (fun _ => none) Dir.empty).storages id with _ | l
    · rw [tree, hl]
      exact Lsm.Has.empty _
    · rw [tree, hl, World.start_storages (o := o) hl]
      exact Lsm.Has.empty _
  · intro tx hc
    cases hc

theorem grows (h : db.Behind events log own) (hp : log <+: log') : db.Behind events log' own :=
  ⟨h.beginning.trans hp, fun id => (h.trees id).grows (logOf_prefix_of hp id), h.commits, h.committed⟩

/-- `e`, which comes behind `first` in the log, is added to `events` if it is not there yet. -/
structure Adds (first : List Event) (e : Event) (events events' : List Event) : Prop where
  grows : events <+: events'
  added : first ++ [e] <+: events'
  mem : ∀ e' ∈ events', e' ∈ events ∨ e' = e
  length_le : ∀ id, (logOf id events').length ≤
    max (logOf id events).length ((logOf id first).length + (logOf id [e]).length)

theorem exists_adds (h : events <+: log) {first : List Event} {e : Event} (hfirst : first <+: events)
    (he : first ++ [e] <+: log) : ∃ events', events' <+: log ∧ Adds first e events events' := by
  rcases List.prefix_or_prefix_of_prefix h he with hp | hp
  · refine ⟨_, he, hp, List.prefix_refl _, ?_, ?_⟩
    · intro e' he'
      exact (List.mem_append.mp he').imp (fun hm => hfirst.subset hm) List.mem_singleton.mp
    · intro id
      rw [logOf_append, List.length_append]
      exact le_max_right _ _
  · exact ⟨_, h, List.prefix_refl _, hp, fun _ => Or.inl, fun _ => le_max_left _ _⟩

section Apply

variable {first events' : List Event}

/-- An event that puts nothing into a storage adds no records to it. -/
theorem Adds.has_of_nil {e : Event} (ha : Adds first e events events') (h : db.Behind events log own)
    (hfirst : first <+: events) {id : Bytes} (hid : logOf id [e] = []) :
    (db.tree id).Has (logOf id log) (logOf id events').length := by
  have hle := ha.length_le id
  rw [hid, List.length_nil, Nat.add_zero, Nat.max_eq_left (logOf_prefix_of hfirst id).length_le] at hle
  exact (h.trees id).le hle

theorem applyUpsert (h : db.Behind events log own) (hlog : ∀ id, Lsm.FromOne (logOf id log)) (o : Options)
    {id key : Bytes} {seqNo : ℕ} {value : TransactionalValue} (hfirst : first <+: events)
    (he : first ++ [.upsert id seqNo key value] <+: log) (hbeginning : events' <+: log)
    (ha : Adds first (.upsert id seqNo key value) events events') :
    (db.apply o (.upsert id seqNo key value)).Behind events' log own := by
  have hkeep : ∀ tx, .commit tx ∈ events' → .commit tx ∈ events := by
    intro tx htx
    rcases ha.mem _ htx with hold | hnew
    · exact hold
    · cases hnew
  refine ⟨hbeginning, ?_, fun tx htx => h.commits tx (hkeep tx htx),
    fun tx htx => (h.committed tx htx).imp_left fun hm => ha.grows.subset hm⟩
  intro id'
  by_cases hid : id' = id
  · subst hid
    have hget : (logOf id' log)[(logOf id' first).length]? = some ⟨key, seqNo, value⟩ := by
      obtain ⟨rest, hrest⟩ := logOf_prefix_of he id'
      rw [logOf_append, logOf_singleton, if_pos rfl] at hrest
      rw [← hrest]
      simp
    have hput := (h.trees id').putSeq (hlog id') o hget (logOf_prefix_of hfirst id').length_le
    have hle := ha.length_le id'
    rw [logOf_singleton, if_pos rfl, List.length_singleton] at hle
    have htree : (db.apply o (.upsert id' seqNo key value)).tree id' =
        ((db.tree id').putSeq o seqNo key value).1 := by
      rw [tree, Db.apply, setStorage_self]
      rfl
    rw [htree]
    exact hput.le hle
  · have htree : (db.apply o (.upsert id seqNo key value)).tree id' = db.tree id' := by
      rw [tree, Db.apply, setStorage_of_ne _ _ hid]
      rfl
    rw [htree]
    exact ha.has_of_nil h hfirst (by rw [logOf_singleton, if_neg (Ne.symm hid)])

theorem isCommited_applyCommit (o : Options) (tx tx' : TransactionId) :
    (db.apply o (.commit tx)).txStorage.isCommited tx' = true ↔ tx' = tx ∨ db.txStorage.isCommited tx' = true := by
  rw [TxStorage.isCommited_iff, TxStorage.isCommited_iff]
  by_cases htx : tx' = tx
  · subst htx
    exact iff_of_true (TxStorage.setStatus_txStatus_self ..) (Or.inl rfl)
  · rw [or_iff_right htx]
    exact iff_of_eq (congrArg (· = _) (TxStorage.setStatus_txStatus_of_ne _ htx))

theorem applyCommit (h : db.Behind events log own) (o : Options) (hfirst : first <+: events)
    (hbeginning : events' <+: log) (ha : Adds first (.commit tx) events events') :
    (db.apply o (.commit tx)).Behind events' log own := by
  refine ⟨hbeginning, fun id => ha.has_of_nil h hfirst rfl, ?_, ?_⟩
  · intro tx' htx'
    have hnext : (db.apply o (.commit tx)).txStorage.nextTxId = max db.txStorage.nextTxId (tx + 1) := rfl
    rw [isCommited_applyCommit, hnext]
    rcases ha.mem _ htx' with hold | hnew
    · obtain ⟨hc, hlt⟩ := h.commits tx' hold
      exact ⟨Or.inr hc, lt_max_of_lt_left hlt⟩
    · cases hnew
      exact ⟨Or.inl rfl, lt_max_of_lt_right (Nat.lt_succ_self _)⟩
  · intro tx' htx'
    rcases (isCommited_applyCommit o tx tx').mp htx' with rfl | hold
    · exact Or.inl (ha.added.subset (List.mem_append_right _ (List.mem_singleton.mpr rfl)))
    · exact (h.committed tx' hold).imp_left fun hm => ha.grows.subset hm

/-- An event behind the first ones, or one of them. -/
theorem apply (h : db.Behind events log own) (hlog : ∀ id, Lsm.FromOne (logOf id log)) (o : Options)
    {e : Event} (hfirst : first <+: events) (he : first ++ [e] <+: log) :
    ∃ events', events <+: events' ∧ first ++ [e] <+: events' ∧ (db.apply o e).Behind events' log own := by
  obtain ⟨events', hbeginning, ha⟩ := exists_adds h.beginning hfirst he
  refine ⟨events', ha.grows, ha.added, ?_⟩
  cases e with
  | upsert id seqNo key value => exact h.applyUpsert hlog o hfirst he hbeginning ha
  | commit tx => exact h.applyCommit o hfirst hbeginning ha

end Apply

/-- The ids of new sessions are above those of the events. -/
theorem begin (h : db.Behind events log own) : db.begin.1.Behind events log own := by
  refine ⟨h.beginning, h.trees, ?_, ?_⟩
  · intro tx htx
    obtain ⟨hc, hlt⟩ := h.commits tx htx
    refine ⟨?_, hlt.trans (Nat.lt_succ_self _)⟩
    rw [TxStorage.isCommited_iff] at hc ⊢
    exact (TxStorage.begin_txStatus_of_ne hlt.ne).trans hc
  · intro tx htx
    refine h.committed tx ?_
    rw [TxStorage.isCommited_iff] at htx ⊢
    by_cases hnext : tx = db.txStorage.nextTxId
    · subst hnext
      cases (TxStorage.begin_txStatus_self db.txStorage).symm.trans htx
    · exact (TxStorage.begin_txStatus_of_ne hnext).symm.trans htx

theorem commit (h : db.Behind events log own) (tx : TransactionId) : (db.commit tx).Behind events log (tx :: own) := by
  have hother : ∀ tx', tx' ≠ tx → (db.commit tx).txStorage.txStatus tx' = db.txStorage.txStatus tx' :=
    fun _ hne => TxStorage.setStatus_txStatus_of_ne _ hne
  have hself : (db.commit tx).txStorage.txStatus tx = some .commited := TxStorage.setStatus_txStatus_self ..
  refine ⟨h.beginning, h.trees, ?_, ?_⟩
  · intro tx' htx'
    refine ⟨?_, (h.commits tx' htx').2⟩
    rw [TxStorage.isCommited_iff]
    by_cases hne : tx' = tx
    · rw [hne, hself]
    · rw [hother tx' hne]
      exact TxStorage.isCommited_iff.mp (h.commits tx' htx').1
  · intro tx' htx'
    by_cases hne : tx' = tx
    · exact Or.inr (hne ▸ List.mem_cons_self)
    · rw [TxStorage.isCommited_iff, hother tx' hne] at htx'
      exact (h.committed tx' (TxStorage.isCommited_iff.mpr htx')).imp_right fun hm => List.mem_cons_of_mem _ hm

theorem rollback (h : db.Behind events log own) (hs : db.txStorage.isStarted tx = true) :
    (db.rollback tx).Behind events log own := by
  have hstatus : ∀ tx', (db.rollback tx).txStorage.isCommited tx' = true ↔ db.txStorage.isCommited tx' = true := by
    intro tx'
    have hset : (db.rollback tx).txStorage.txStatus tx' = (db.txStorage.setStatus tx .rollbacked).txStatus tx' := rfl
    rw [TxStorage.isCommited_iff, TxStorage.isCommited_iff, hset]
    by_cases hne : tx' = tx
    · rw [hne, TxStorage.setStatus_txStatus_self, TxStorage.isStarted_iff.mp hs]
      simp
    · rw [TxStorage.setStatus_txStatus_of_ne _ hne]
  refine ⟨h.beginning, h.trees, ?_, ?_⟩
  · intro tx' htx'
    rw [hstatus]
    exact h.commits tx' htx'
  · intro tx' htx'
    exact h.committed tx' ((hstatus tx').mp htx')

/-- Nothing is there to flush where the log has no records. -/
theorem flush (h : db.Behind events log own)
    (hs : ∀ id l, db.storages id = some l → logOf id log ≠ [] → l.FlushSafe) : db.flush.Behind events log own := by
  refine ⟨h.beginning, ?_, h.commits, h.committed⟩
  intro id
  have htree := h.trees id
  have hflush : db.flush.tree id = ((db.storages id).map Lsm.flush).getD (Lsm.init Dir.empty) := rfl
  rw [hflush]
  rw [tree] at htree
  rcases hl : db.storages id with _ | l <;> rw [hl] at htree
  · exact htree
  · refine htree.flush ?_
    by_cases hlog : logOf id log = []
    · obtain ⟨k, -, -, hc⟩ := htree.first
      rw [hlog, List.take_nil] at hc
      refine Or.inl (List.eq_nil_iff_forall_not_mem.mpr ?_)
      intro m hm
      obtain ⟨row, hrow⟩ := List.exists_mem_of_ne_nil _ (hc.recoverable.frozen m hm)
      have hmem := hc.recoverable.inMemory.mem_iff.mp (Lsm.mem_memRecords.mpr (Or.inr ⟨m, hm, hrow⟩))
      cases hmem
    · exact hs id l hl hlog

/-- Recovery from the first events of the log and from commits of its own sessions. -/
theorem restart (h : db.Behind events log own) (hlog : ∀ id, Lsm.FromOne (logOf id log)) (o : Options) (wal : Wal)
    {received : List Event} {found : List TransactionId} (hr : received <+: log) (hf : ∀ tx ∈ found, tx ∈ own) :
    ((received ++ found.map Event.commit).foldl (Db.apply o) ⟨openStorages db.dirs, TxStorage.empty, wal⟩).Behind
      received log own := by
  refine ⟨hr, ?_, ?_, ?_⟩
  · intro id
    have hopen : ((openStorages db.dirs id).getD (Lsm.init Dir.empty)).Has (logOf id log) 0 := by
      unfold openStorages dirs
      have htree := h.trees id
      rcases hl : db.storages id with _ | l
      · split_ifs <;> exact Lsm.Has.empty _
      · rw [tree, hl] at htree
        split_ifs
        · exact htree.reopen (hlog id)
        · exact Lsm.Has.empty _
        · exact htree.reopen (hlog id)
    have hreplay := hopen.replay (hlog id) o (logOf_prefix_of hr id)
    have hsame : logOf id (received ++ found.map Event.commit) = logOf id received := by
      rw [logOf_append, logOf_commits, List.append_nil]
    rw [tree, foldl_apply_storages, hsame]
    split_ifs with hnil
    · rw [hnil] at hreplay ⊢
      exact hreplay
    · exact hreplay
  · intro tx htx
    rw [foldl_apply_txStorage]
    have hmem : tx ∈ commitsOf (received ++ found.map Event.commit) :=
      mem_commitsOf.mpr (List.mem_append_left _ htx)
    refine ⟨?_, ((TxStorage.foldl_recoverFromLog_nextTxId _ _ _).mp le_rfl).2 tx hmem⟩
    rw [TxStorage.isCommited_iff, TxStorage.foldl_recoverFromLog_txStatus, if_pos hmem]
  · intro tx htx
    rw [foldl_apply_txStorage, TxStorage.isCommited_iff, TxStorage.foldl_recoverFromLog_txStatus] at htx
    split_ifs at htx with hmem
    · rw [mem_commitsOf, List.mem_append] at hmem
      refine hmem.imp_right fun hm => hf tx ?_
      obtain ⟨tx', htx', he⟩ := List.mem_map.mp hm
      cases he
      exact htx'
    · cases htx

theorem lookup_eq (h : db.Behind events log own) (hlog : ∀ id, Lsm.FromOne (logOf id log))
    (hapart : log.Pairwise Event.Apart) (hunfrozen : ∀ id, ∀ row ∈ logOf id log, row.value.isFrozen = false)
    {t : TransactionId} (ht : ∀ id, ∀ row ∈ logOf id log, row.value.tx ≠ t ∧
      (row.value.tx ∈ own → .commit row.value.tx ∈ events)) (id key : Bytes) :
    db.lookup t id key = committedIn events id key := by
  have hord : db.Ordered := by
    intro id l hl
    have htree := (h.trees id).ordered
    rwa [tree, hl] at htree
  obtain ⟨k, hn, -, hc⟩ := (h.trees id).first
  obtain ⟨rest, hrest⟩ := h.beginning
  have hsplit : logOf id log = logOf id events ++ logOf id rest := by rw [← hrest, logOf_append]
  have hrows : db.rows id key =
      ((logOf id rest).take (k - (logOf id events).length) |>.filter fun row => row.key = key).reverse ++
      ((logOf id events).filter fun row => row.key = key).reverse := by
    rw [rows_eq_tree, hc.records_of_key (h.trees id).ordered ((hlog id).take k), hsplit, List.take_append,
      List.take_of_length_le hn, List.filter_append, List.reverse_append]
  have hmem : ∀ row ∈ db.rows id key, row ∈ logOf id log := by
    intro row hrow
    rw [rows_eq_tree, List.mem_filter, hc.records.mem_iff] at hrow
    exact List.mem_of_mem_take hrow.1
  have hseen : ∀ row ∈ db.rows id key, db.txStorage.seen row = decide (.commit row.value.tx ∈ events) := by
    intro row hrow
    have hrow := hmem row hrow
    rw [TxStorage.seen, hunfrozen id row hrow, Bool.false_or, Bool.eq_iff_iff, decide_eq_true_iff]
    constructor
    · intro hcommited
      rcases h.committed _ hcommited with hcommit | hown
      · exact hcommit
      · exact (ht id row hrow).2 hown
    · exact fun hcommit => (h.commits _ hcommit).1
  rw [Db.lookup_eq_rows hord, Refines.firstVisible_of_foreign fun row hrow => (ht id row (hmem row hrow)).1,
    List.find?_congr hseen, World.committedIn_eq, hrows, List.find?_append]
  -- the transactions of the records behind the events have no commit event among them
  have hnone : ((logOf id rest).take (k - (logOf id events).length) |>.filter fun row => row.key = key).reverse.find?
      (fun row => decide (.commit row.value.tx ∈ events)) = none := by
    rw [List.find?_eq_none]
    intro row hrow
    have hrow := List.mem_of_mem_take (List.mem_filter.mp (List.mem_reverse.mp hrow)).1
    rw [decide_eq_true_iff]
    intro hcommit
    rw [← hrest, List.pairwise_append] at hapart
    exact hapart.2.2 _ hcommit _ (mem_logOf.mp hrow) _ _ _ _ _ rfl rfl rfl
  rw [hnone, Option.none_or]

end Behind

end Db

end StructureDb
