import StructureDb.Proofs.DbSteps
import StructureDb.Proofs.RowLocks
import StructureDb.Proofs.ServiceSteps

/-! What a thread leaves alone: the transactions that are not its own. A thread begins no
transaction and starts none again, so all that are known have an id below the next one. -/

namespace StructureDb.Service

open Coroutine

section
variable {s s' s'' : TxStorage} {op : Op} {th : Thread} {t : TransactionId}

inductive TxEffect (s : TxStorage) : Op → TxStorage → Prop
  | same (op : Op) : TxEffect s op s
  | begin : TxEffect s (.server .begin) s.begin.1
  | setStatus (tx : TransactionId)
    (status : Status) : TxEffect s (.server (.setStatus tx status)) (s.setStatus tx status)
  | logCommit (tx : TransactionId) : TxEffect s (.server (.logCommit tx)) (s.setStatus tx .commited)
  | grant (tx : TransactionId) (rowKey : Bytes) (s' : TxStorage) (h : s.acquireRowLock tx rowKey = some s') :
      TxEffect s (.server (.acquireRowLock tx rowKey)) s'
  | release (tx : TransactionId) : TxEffect s (.server (.releaseAllLocks tx)) (s.releaseAllLocks tx)

theorem Effect.tx {o : Options} {s s' : Node} (h : Effect o s op s') :
    TxEffect s.context.txStorage op s'.context.txStorage := by
  cases h with
  | same => exact .same _
  | begin => exact .begin
  | setStatus tx status => exact .setStatus tx status
  | logCommit tx => exact .logCommit tx
  | grant tx rowKey txStorage ha => exact .grant tx rowKey txStorage ha
  | sleep tx rowKey => exact .same _
  | release tx => exact .release tx
  | emplace id hid => exact .same _
  | put id key value l hl => exact .same _
  | resume op call walWriter hw => exact .same _
  | createDirectory id => exact .same _
  | lock no id hfree => exact .same _
  | unlock no id => exact .same _
  | edit op no id f l hedit hl => exact .same _

theorem Thread.tx_of_setStatus {tx : TransactionId} {status : Status}
    (h : th.Allows (.server (.setStatus tx status))) : th.tx = some tx := by rw [Thread.tx, h.1]

structure Spares (t : TransactionId) (s s' : TxStorage) : Prop where
  txStatus : s'.txStatus t = s.txStatus t
  rowLocks : ∀ key, s'.rowLocks key = some t ↔ s.rowLocks key = some t

namespace Spares

theorem refl (t : TransactionId) (s : TxStorage) : Spares t s s := ⟨rfl, fun _ => Iff.rfl⟩

theorem trans (h : Spares t s s') (h' : Spares t s' s'') : Spares t s s'' :=
  ⟨h'.txStatus.trans h.txStatus, fun key => (h'.rowLocks key).trans (h.rowLocks key)⟩

theorem setStatus {tx : TransactionId} (status : Status) (h : t ≠ tx) : Spares t s (s.setStatus tx status) :=
  ⟨TxStorage.setStatus_txStatus_of_ne status h, fun _ => Iff.rfl⟩

theorem effect (hop : th.Allows op) (hne : th.tx ≠ some t) (he : TxEffect s op s') : Spares t s s' := by
  cases he with
  | same => exact refl t s
  | begin => exact hop.elim
  | setStatus tx status => exact setStatus status fun h => hne (h ▸ Thread.tx_of_setStatus hop)
  | logCommit tx => exact setStatus .commited fun h => hne (h ▸ hop)
  | grant tx rowKey _ ha =>
    obtain ⟨hfree, -, hstatus, hrow, -⟩ := TxStorage.acquireRowLock_spec ha
    refine ⟨congrFun hstatus t, fun key => ?_⟩
    rw [hrow]
    by_cases hk : key = rowKey
    · subst hk
      rw [Function.update_self, hfree]
      refine ⟨fun h => ?_, fun h => nomatch h⟩
      exact absurd (Option.some.inj h ▸ hop) hne
    · rw [Function.update_of_ne hk]
  | release tx =>
    refine ⟨rfl, fun key => ?_⟩
    rw [TxStorage.releaseAllLocks_rowLocks]
    split_ifs with hheld
    · rw [hheld.2]
      refine ⟨(fun h => nomatch h), fun h => ?_⟩
      exact absurd (Option.some.inj h ▸ hop) hne
    · exact Iff.rfl

end Spares

structure NoneStarts (s s' : TxStorage) : Prop where
  nextTxId : s'.nextTxId = s.nextTxId
  started : ∀ t, s'.txStatus t = some .started → s.txStatus t = some .started

namespace NoneStarts

theorem refl (s : TxStorage) : NoneStarts s s := ⟨rfl, fun _ h => h⟩

theorem trans (h : NoneStarts s s') (h' : NoneStarts s' s'') : NoneStarts s s'' :=
  ⟨h'.nextTxId.trans h.nextTxId, fun t ht => h.started t (h'.started t ht)⟩

theorem setStatus (tx : TransactionId) {status : Status} (hne : status ≠ .started) :
    NoneStarts s (s.setStatus tx status) := by
  refine ⟨rfl, fun t ht => ?_⟩
  by_cases htx : t = tx
  · subst htx
    rw [TxStorage.setStatus_txStatus_self] at ht
    exact absurd (Option.some.inj ht) hne
  · rw [TxStorage.setStatus_txStatus_of_ne _ htx] at ht
    exact ht

theorem effect (hop : th.Allows op) (he : TxEffect s op s') : NoneStarts s s' := by
  cases he with
  | same => exact refl s
  | begin => exact hop.elim
  | setStatus tx status =>
    refine setStatus tx ?_
    rw [hop.2]
    decide
  | logCommit tx => exact setStatus tx (by decide)
  | grant tx rowKey _ ha =>
    obtain ⟨-, hnext, hstatus, -, -⟩ := TxStorage.acquireRowLock_spec ha
    exact ⟨hnext, fun t ht => hstatus ▸ ht⟩
  | release tx => exact ⟨rfl, fun _ h => h⟩

end NoneStarts

end

section
variable {o : Options} {s s' : Node} {op : Op} {th : Thread} {t : TransactionId}

theorem locksAgree_effect (h : Server.LocksAgree s.context) (he : Effect o s op s') : Server.LocksAgree s'.context := by
  have htx := he.tx
  generalize hs : s'.context.txStorage = u at htx
  have hcongr : ∀ c : Context, c.txStorage = s'.context.txStorage → Server.LocksAgree c →
    Server.LocksAgree s'.context := by
    intro c hc hagree key tx
    rw [← hc]
    exact hagree key tx
  cases htx with
  | same => exact hcongr s.context hs.symm h
  | begin => exact hcongr { s.context with txStorage := s.context.txStorage.begin.1 } hs.symm h
  | setStatus tx status =>
    exact hcongr { s.context with txStorage := s.context.txStorage.setStatus tx status } hs.symm h
  | logCommit tx => exact hcongr { s.context with txStorage := s.context.txStorage.setStatus tx .commited } hs.symm h
  | grant tx rowKey _ ha => exact hcongr _ hs.symm (h.acquire ha)
  | release tx => exact hcongr _ hs.symm (h.release tx s.context.lockAvailable)

theorem advance_locksAgree {u u' : Task Res Wait Exception Response} (h : Server.LocksAgree s.context)
    (hall : u.All th.Allows) (ha : (kernel o).advance s u = some (s', u')) : Server.LocksAgree s'.context :=
  (advance_rel (R := fun s s' => Server.LocksAgree s.context → Server.LocksAgree s'.context) (fun _ h => h)
    (fun _ _ _ h h' hs => h' (h hs)) (fun _ _ _ _ he hs => locksAgree_effect hs he) hall ha).1 h

theorem advance_spares {u u' : Task Res Wait Exception Response} (hall : u.All th.Allows) (hne : th.tx ≠ some t)
    (ha : (kernel o).advance s u = some (s', u')) : Spares t s.context.txStorage s'.context.txStorage :=
  (advance_rel (R := fun s s' => Spares t s.context.txStorage s'.context.txStorage)
    (fun s => Spares.refl t s.context.txStorage) (fun _ _ _ => Spares.trans)
    (fun _ _ _ hop he => Spares.effect hop hne he.tx) hall ha).1

theorem advance_noneStarts {u u' : Task Res Wait Exception Response} (hall : u.All th.Allows)
    (ha : (kernel o).advance s u = some (s', u')) : NoneStarts s.context.txStorage s'.context.txStorage :=
  (advance_rel (R := fun s s' => NoneStarts s.context.txStorage s'.context.txStorage)
    (fun s => NoneStarts.refl s.context.txStorage) (fun _ _ _ => NoneStarts.trans)
    (fun _ _ _ hop he => NoneStarts.effect hop he.tx) hall ha).1

/-- `Begin` leaves the transactions alone that are there. -/
theorem Starts.spares {action : Action} {node : Node} {activity : Activity} (h : Starts s action node activity)
    (ht : t < s.context.txStorage.nextTxId) : Spares t s.context.txStorage node.context.txStorage := by
  cases h with
  | begin r htx hfresh hmutates => exact ⟨TxStorage.begin_txStatus_of_ne ht.ne, fun _ => Iff.rfl⟩
  | join r tx htx hfresh hmutates hstarted => exact Spares.refl t _
  | rollback tx hstarted => exact Spares.refl t _
  | flush ids => exact Spares.refl t _

theorem Starts.locksAgree {action : Action} {node : Node} {activity : Activity} (h : Starts s action node activity)
    (hs : Server.LocksAgree s.context) : Server.LocksAgree node.context := by
  cases h with
  | begin r htx hfresh hmutates => exact hs
  | join r tx htx hfresh hmutates hstarted => exact hs
  | rollback tx hstarted => exact hs
  | flush ids => exact hs

theorem init_txStorage (o : Options) (dirs : Bytes → Option (Dir Bytes (List Row))) (wal : Dir Bytes Bytes)
    (events : List Event) (readOnly : Bool) : (Node.init o dirs wal events readOnly).context.txStorage =
      (commitsOf events).foldl TxStorage.recoverFromLog TxStorage.empty := by
  change (events.foldl (Db.apply o) _).txStorage = _
  rw [Db.foldl_apply_txStorage]

theorem foldl_recoverFromLog_locks (cs : List TransactionId) (s : TxStorage) :
    (cs.foldl TxStorage.recoverFromLog s).rowLocks = s.rowLocks ∧
      (cs.foldl TxStorage.recoverFromLog s).txLocks = s.txLocks := by
  induction cs generalizing s with
  | nil => exact ⟨rfl, rfl⟩
  | cons c cs ih => exact ih (s.recoverFromLog c)

theorem init_locksAgree (o : Options) (dirs : Bytes → Option (Dir Bytes (List Row))) (wal : Dir Bytes Bytes)
    (events : List Event) (readOnly : Bool) : Server.LocksAgree (Node.init o dirs wal events readOnly).context := by
  intro key tx
  rw [init_txStorage, (foldl_recoverFromLog_locks _ _).1, (foldl_recoverFromLog_locks _ _).2]
  simp [TxStorage.empty]

/-- All that a log says to be committed has an id below the next one. -/
theorem init_status {o : Options} {dirs : Bytes → Option (Dir Bytes (List Row))} {wal : Dir Bytes Bytes}
    {events : List Event} {readOnly : Bool} {t : TransactionId}
    (h : (Node.init o dirs wal events readOnly).context.txStorage.txStatus t ≠ none) :
    .commit t ∈ events ∧ t < (Node.init o dirs wal events readOnly).context.txStorage.nextTxId := by
  rw [init_txStorage] at h ⊢
  rw [TxStorage.foldl_recoverFromLog_txStatus] at h
  split_ifs at h with hmem
  · exact ⟨mem_commitsOf.mp hmem, ((TxStorage.foldl_recoverFromLog_nextTxId _ _ _).mp le_rfl).2 t hmem⟩
  · exact absurd rfl h

structure Applied (event : Event) (s s' : TxStorage) : Prop where
  rowLocks : s'.rowLocks = s.rowLocks
  txLocks : s'.txLocks = s.txLocks
  nextTxId : s.nextTxId ≤ s'.nextTxId
  txStatus : ∀ t, s'.txStatus t = s.txStatus t ∨
    event = .commit t ∧ s'.txStatus t = some .commited ∧ t < s'.nextTxId

theorem apply_txStorage (o : Options) (s : Node) (event : Event) :
    Applied event s.context.txStorage (s.apply o event).context.txStorage := by
  cases event with
  | upsert id seqNo key value => exact ⟨rfl, rfl, le_rfl, fun t => Or.inl rfl⟩
  | commit tx =>
    refine ⟨rfl, rfl, le_max_left _ _, fun t => ?_⟩
    by_cases heq : t = tx
    · subst heq
      exact Or.inr ⟨rfl, TxStorage.setStatus_txStatus_self .., lt_max_of_lt_right (Nat.lt_succ_self _)⟩
    · exact Or.inl (TxStorage.setStatus_txStatus_of_ne .commited heq)

end

structure Basic (s : Service) : Prop where
  numbered : Numbered s
  allows : ∀ x ∈ s.tasks, x.2.All x.1.Allows
  locks : Server.LocksAgree s.shared.context
  status : ∀ t, s.shared.context.txStorage.txStatus t ≠ none → t < s.shared.context.txStorage.nextTxId
  tasks : ∀ x ∈ s.tasks, ∀ t, x.1.tx = some t → t < s.shared.context.txStorage.nextTxId

namespace Basic

variable {o : Options} {s s' : Service} {action : Action}

theorem init (o : Options) (dirs : Bytes → Option (Dir Bytes (List Row))) (wal : Dir Bytes Bytes) (events : List Event)
    (readOnly : Bool) : Basic (start (Node.init o dirs wal events readOnly)) where
  numbered := rfl
  allows := fun _ hx => absurd hx List.not_mem_nil
  locks := init_locksAgree o dirs wal events readOnly
  status := fun _ ht => (init_status ht).2
  tasks := fun _ hx => absurd hx List.not_mem_nil

theorem spawn (h : Basic s) {node : Node} {activity : Activity} (hs : Starts s.shared action node activity) :
    Basic ⟨node, s.tasks ++ [s.spawned activity]⟩ := by
  have hlocks := hs.locksAgree h.locks
  have hspares := fun t ht => hs.spares (t := t) ht
  have hown : s.shared.context.txStorage.nextTxId ≤ node.context.txStorage.nextTxId ∧
      ∀ t, (s.spawned activity).1.tx = some t → t < node.context.txStorage.nextTxId := by
    cases hs with
    | begin r htx hfresh hmutates =>
      refine ⟨Nat.le_succ _, fun t ht => ?_⟩
      cases ht
      exact Nat.lt_succ_self _
    | join r tx htx hfresh hmutates hstarted =>
      refine ⟨le_rfl, fun t ht => ?_⟩
      cases ht
      exact h.status tx (by rw [TxStorage.isStarted_iff.mp hstarted]; exact Option.some_ne_none _)
    | rollback tx hstarted =>
      refine ⟨le_rfl, fun t ht => ?_⟩
      cases ht
      exact h.status tx (by rw [TxStorage.isStarted_iff.mp hstarted]; exact Option.some_ne_none _)
    | flush ids => exact ⟨le_rfl, fun t ht => nomatch ht⟩
  refine ⟨h.numbered.spawn node activity, ?_, hlocks, ?_, ?_⟩
  · intro x hx
    rcases List.mem_append.mp hx with hx | hx
    · exact h.allows x hx
    · obtain rfl := List.mem_singleton.mp hx
      exact program_allows _
  · intro t ht
    by_contra hlt
    have hle : s.shared.context.txStorage.nextTxId ≤ t := hown.1.trans (not_lt.mp hlt)
    -- a new transaction is the only one whose status may be new
    cases hs with
    | begin r htx hfresh hmutates =>
      rcases hle.eq_or_lt with heq | hlt'
      · exact hlt (heq ▸ Nat.lt_succ_self _)
      · have hstatus : s.shared.context.txStorage.begin.1.txStatus t ≠ none := ht
        rw [TxStorage.begin_txStatus_of_ne hlt'.ne'] at hstatus
        exact absurd (h.status t hstatus) (not_lt.mpr hle)
    | join r tx htx hfresh hmutates hstarted => exact absurd (h.status t ht) (not_lt.mpr hle)
    | rollback tx hstarted => exact absurd (h.status t ht) (not_lt.mpr hle)
    | flush ids => exact absurd (h.status t ht) (not_lt.mpr hle)
  · intro x hx t ht
    rcases List.mem_append.mp hx with hx | hx
    · exact (h.tasks x hx t ht).trans_le hown.1
    · obtain rfl := List.mem_singleton.mp hx
      exact hown.2 t ht

theorem advance {node node' : Node} {pre post : List (Thread × Task Res Wait Exception Response)}
    {x : Thread × Task Res Wait Exception Response} {t' : Task Res Wait Exception Response}
    (h : Basic ⟨node, pre ++ x :: post⟩) (ha : (kernel o).advance node x.2 = some (node', t')) :
    Basic ⟨node', pre ++ (x.1, t') :: post⟩ := by
  have hx : x ∈ pre ++ x :: post := by simp
  have hall := h.allows x hx
  have hnext := advance_noneStarts hall ha
  refine ⟨h.numbered.advance, ?_, advance_locksAgree h.locks hall ha, ?_, ?_⟩
  · intro y hy
    rcases List.mem_append.mp hy with hy | hy
    · exact h.allows y (by simp [hy])
    · rcases List.mem_cons.mp hy with rfl | hy
      · exact (advance_rel (R := fun _ _ => True) (fun _ => trivial) (fun _ _ _ _ _ => trivial)
          (fun _ _ _ _ _ => trivial) hall ha).2
      · exact h.allows y (by simp [hy])
  · intro t ht
    change t < node'.context.txStorage.nextTxId
    rw [hnext.nextTxId]
    by_cases htx : x.1.tx = some t
    · exact h.tasks x hx t htx
    · refine h.status t ?_
      rw [← (advance_spares hall htx ha).txStatus]
      exact ht
  · intro y hy t ht
    change t < node'.context.txStorage.nextTxId
    rw [hnext.nextTxId]
    rcases List.mem_append.mp hy with hy | hy
    · exact h.tasks y (by simp [hy]) t ht
    · rcases List.mem_cons.mp hy with rfl | hy
      · exact h.tasks x hx t ht
      · exact h.tasks y (by simp [hy]) t ht

theorem apply (h : Basic s) (event : Event) : Basic { s with shared := s.shared.apply o event } := by
  have happly := apply_txStorage o s.shared event
  refine ⟨h.numbered, h.allows, ?_, ?_, ?_⟩
  · intro key t
    change (s.shared.apply o event).context.txStorage.rowLocks key = some t ↔ _
    rw [happly.rowLocks, happly.txLocks]
    exact h.locks key t
  · intro t ht
    rcases happly.txStatus t with hold | ⟨-, -, hlt⟩
    · exact (h.status t (hold ▸ ht)).trans_le happly.nextTxId
    · exact hlt
  · intro x hx t ht
    exact (h.tasks x hx t ht).trans_le happly.nextTxId

theorem restart (s : Service) (events : List Event) : Basic (start (s.shared.restart o events)) := by
  have hinit := Basic.init o s.shared.dirs s.shared.context.walWriter.writer.dir events s.shared.readOnly
  exact ⟨rfl, hinit.allows, hinit.locks, hinit.status, hinit.tasks⟩

end Basic

end StructureDb.Service
