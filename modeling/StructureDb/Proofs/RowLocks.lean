import StructureDb.Proofs.ServerSteps

/-! The row lock protocol over every interleaving: the two lock maps agree, a lock passes from
one transaction to another only through its release, and nobody sleeps for a free row. -/

namespace StructureDb.Server

open Coroutine

variable {o : Options} {s s' : Context} {op : Op}

/-- `row_locks_` and `tx_locks_` say the same. -/
def LocksAgree (s : Context) : Prop :=
  ∀ key tx, s.txStorage.rowLocks key = some tx ↔ key ∈ s.txStorage.txLocks tx

theorem LocksAgree.acquire {tx : TransactionId} {rowKey : Bytes} {txStorage : TxStorage} (h : LocksAgree s)
    (ha : s.txStorage.acquireRowLock tx rowKey = some txStorage) : LocksAgree { s with txStorage } := by
  obtain ⟨hfree, -, -, hrow, htx⟩ := TxStorage.acquireRowLock_spec ha
  intro key t
  rw [hrow, htx]
  by_cases hk : key = rowKey
  · subst hk
    have hnot : ∀ t, key ∉ s.txStorage.txLocks t := by
      intro t hin
      rw [← h, hfree] at hin
      cases hin
    by_cases ht : t = tx
    · subst ht
      simp
    · rw [Function.update_self, Function.update_of_ne ht]
      simp [hnot t, Ne.symm ht]
  · rw [Function.update_of_ne hk, h]
    by_cases ht : t = tx
    · subst ht
      simp [hk]
    · rw [Function.update_of_ne ht]

theorem LocksAgree.release (h : LocksAgree s) (tx : TransactionId) (lockAvailable : ConditionVariable) :
    LocksAgree { s with txStorage := s.txStorage.releaseAllLocks tx, lockAvailable } := by
  intro key t
  rw [TxStorage.releaseAllLocks_rowLocks]
  have hkey := h key tx
  by_cases ht : t = tx
  · subst ht
    have hnil : (s.txStorage.releaseAllLocks t).txLocks t = [] := Function.update_self ..
    rw [hnil]
    split_ifs with hheld
    · simp
    · simp only [List.not_mem_nil, iff_false]
      exact fun hk => hheld ⟨hkey.mp hk, hk⟩
  · have hkt := h key t
    rw [TxStorage.releaseAllLocks_txLocks_of_ne ht]
    split_ifs with hheld
    · rw [← hkt, hheld.2]
      simp [Ne.symm ht]
    · exact hkt

theorem LocksAgree.effect (h : LocksAgree s) (he : Effect o s op s') : LocksAgree s' := by
  cases he with
  | same => exact h
  | begin => exact h
  | setStatus tx status => exact h
  | logCommit tx => exact h
  | grant tx rowKey txStorage ha => exact h.acquire ha
  | sleep tx rowKey => exact h
  | release tx => exact h.release tx _
  | emplace id hid => exact h
  | put id key value l hl => exact h
  | resume op call walWriter hw => exact h

inductive Call.Moves (c : Call) (key : Bytes) : Option TransactionId → Option TransactionId → Prop
  | same (holder : Option TransactionId) : Moves c key holder holder
  | grant (tx : TransactionId) (h : c.row = some (tx, key)) : Moves c key none (some tx)
  | release (tx : TransactionId) (h : c.ends = some tx) : Moves c key (some tx) none

theorem Call.row_eq_none_of_ends {c : Call} {tx : TransactionId} (h : c.ends = some tx) : c.row = none := by
  cases c <;> first | rfl | cases h

theorem Call.Moves.trans {c : Call} {key : Bytes} {x y z : Option TransactionId} (h : c.Moves key x y)
    (h' : c.Moves key y z) : c.Moves key x z := by
  cases h with
  | same => exact h'
  | grant tx hrow =>
    cases h' with
    | same => exact .grant tx hrow
    | release _ hends => exact .same none
  | release tx hends =>
    cases h' with
    | same => exact .release tx hends
    | grant _ hrow =>
      rw [Call.row_eq_none_of_ends hends] at hrow
      cases hrow

theorem Call.Moves.effect {c : Call} (hop : c.Allows op) (he : Effect o s op s') (key : Bytes) :
    c.Moves key (s.txStorage.rowLocks key) (s'.txStorage.rowLocks key) := by
  cases he with
  | same => exact .same _
  | begin => exact .same _
  | setStatus tx status => exact .same _
  | logCommit tx => exact .same _
  | grant tx rowKey txStorage ha =>
    by_cases hk : key = rowKey
    · subst hk
      rw [(TxStorage.acquireRowLock_spec ha).1, TxStorage.acquireRowLock_self ha]
      exact .grant tx hop
    · rw [TxStorage.acquireRowLock_of_ne ha hk]
      exact .same _
  | sleep tx rowKey => exact .same _
  | release tx =>
    rw [TxStorage.releaseAllLocks_rowLocks]
    split_ifs with hheld
    · rw [hheld.2]
      exact .release tx hop
    · exact .same _
  | emplace id hid => exact .same _
  | put id key value l hl => exact .same _
  | resume op call walWriter hw => exact .same _

/-- What the other coroutines do to a sleeping one: its timer stays where it is, and then its row stays locked, or the
timer is cancelled. -/
structure KeepsWaiters (s s' : Context) : Prop where
  timer : s.lockAvailable.nextTimer ≤ s'.lockAvailable.nextTimer
  held : ∀ n < s.lockAvailable.nextTimer, n ∈ s'.lockAvailable.waiters → n ∈ s.lockAvailable.waiters ∧
    ∀ key, s.txStorage.rowLocks key ≠ none → s'.txStorage.rowLocks key ≠ none

theorem KeepsWaiters.of_eq (hcv : s'.lockAvailable = s.lockAvailable)
    (hrow : ∀ key, s.txStorage.rowLocks key ≠ none → s'.txStorage.rowLocks key ≠ none) : KeepsWaiters s s' :=
  ⟨by rw [hcv], fun n _ hn => ⟨hcv ▸ hn, hrow⟩⟩

theorem KeepsWaiters.trans {s'' : Context} (h : KeepsWaiters s s') (h' : KeepsWaiters s' s'') : KeepsWaiters s s'' := by
  refine ⟨h.timer.trans h'.timer, ?_⟩
  intro n hn hin
  obtain ⟨hin', hrow'⟩ := h'.held n (hn.trans_le h.timer) hin
  obtain ⟨hin, hrow⟩ := h.held n hn hin'
  exact ⟨hin, fun key hk => hrow' key (hrow key hk)⟩

theorem KeepsWaiters.effect (he : Effect o s op s') : KeepsWaiters s s' := by
  cases he with
  | same => exact .of_eq rfl fun _ h => h
  | begin => exact .of_eq rfl fun _ h => h
  | setStatus tx status => exact .of_eq rfl fun _ h => h
  | logCommit tx => exact .of_eq rfl fun _ h => h
  | grant tx rowKey txStorage ha =>
    refine .of_eq rfl ?_
    intro key hk
    obtain ⟨t, ht⟩ := Option.ne_none_iff_exists'.mp hk
    rw [TxStorage.acquireRowLock_mono ha ht]
    exact Option.some_ne_none t
  | sleep tx rowKey =>
    refine ⟨Nat.le_succ _, ?_⟩
    intro n hn hin
    refine ⟨?_, fun _ h => h⟩
    -- the new timer is a later one
    rcases List.mem_append.mp hin with hin | hin
    · exact hin
    · rw [List.mem_singleton.mp hin] at hn
      exact absurd hn (lt_irrefl _)
  | release tx => exact ⟨le_rfl, fun n _ hin => absurd hin (List.not_mem_nil)⟩
  | emplace id hid => exact .of_eq rfl fun _ h => h
  | put id key value l hl => exact .of_eq rfl fun _ h => h
  | resume op call walWriter hw => exact .of_eq rfl fun _ h => h

/-- A coroutine that sleeps for a row sleeps while the row is locked. -/
def SleepsLocked (s : Context) : Op → Wait → Prop
  | .acquireRowLock _ rowKey, .timer n =>
    n < s.lockAvailable.nextTimer ∧ (n ∈ s.lockAvailable.waiters → s.txStorage.rowLocks rowKey ≠ none)
  | _, _ => True

theorem SleepsLocked.stable {b : Wait} (hk : KeepsWaiters s s') (h : SleepsLocked s op b) : SleepsLocked s' op b := by
  unfold SleepsLocked at h ⊢
  split
  · refine ⟨h.1.trans_le hk.timer, ?_⟩
    intro hin
    obtain ⟨hin, hrow⟩ := hk.held _ h.1 hin
    exact hrow _ (h.2 hin)
  · trivial

theorem acquireRowLock_sleeps {tx : TransactionId} {rowKey : Bytes} {b : Wait}
    (h : acquireRowLock s tx rowKey = (s', .inr b)) : SleepsLocked s' (.acquireRowLock tx rowKey) b := by
  unfold acquireRowLock at h
  rcases ha : s.txStorage.acquireRowLock tx rowKey with _ | txStorage
  · rw [ha] at h
    cases h
    refine ⟨Nat.lt_succ_self _, fun _ hfree => ?_⟩
    rw [TxStorage.acquireRowLock, if_pos hfree] at ha
    cases ha
  · rw [ha] at h
    cases h

theorem perform_sleeps {b : Wait} (h : perform o s op = (s', .inr b)) : SleepsLocked s' op b := by
  cases op with
  | acquireRowLock tx rowKey => exact acquireRowLock_sleeps h
  | _ => trivial

theorem wake_sleeps {b b' : Wait} (h : wake s op b = some (s', .inr b')) : SleepsLocked s' op b' := by
  cases op with
  | acquireRowLock tx rowKey =>
    cases b with
    | timer n =>
      rw [wake] at h
      split_ifs at h
      exact acquireRowLock_sleeps (Option.some.inj h)
    | write call => cases h
    | io => cases h
  | _ => trivial

def Sleeping (s : Context) (t : Task Res Wait Exception Reply) : Prop :=
  ∀ op b k, t = .suspended op b k → SleepsLocked s op b

theorem Sleeping.advance {t t' : Task Res Wait Exception Reply} (h : Sleeping s t)
    (ha : (kernel o).advance s t = some (s', t')) : Sleeping s' t' := by
  refine Kernel.Invariant.advance (I := fun _ _ => True) (F := Sleeping) ?_ h ha
  refine ⟨fun _ _ _ => trivial, ?_, ?_, fun _ _ _ _ _ _ _ => trivial, ?_, fun _ _ _ _ _ _ _ _ => trivial, ?_⟩
  · intro s a _ op b k ht
    cases ht
  · intro s e _ op b k ht
    cases ht
  · intro s op k s' b _ hp op' b' k' ht
    cases ht
    exact perform_sleeps hp
  · intro s op b k s' b' _ hw op' b'' k' ht
    cases ht
    exact wake_sleeps hw

/-- The invariant of the protocol: the maps agree, and every task does only what its call may do and sleeps only for a
locked row. -/
def Protocol (s : Server) : Prop :=
  LocksAgree s.shared ∧ ∀ x ∈ s.tasks, x.2.All x.1.Allows ∧ Sleeping s.shared x.2

theorem Protocol.step {s s' : Server} {action : Action} (h : Protocol s) (hstep : s.step o action = some s') :
    Protocol s' := by
  refine Pool.step_inv (P := LocksAgree) (Q := fun s (c : Call) t => t.All c.Allows ∧ Sleeping s t) (R := KeepsWaiters)
    ?_ ?_ ?_ h hstep
  · rintro c -
    refine ⟨handler_allows c, ?_⟩
    intro op b k ht
    cases ht
  · intro c t u t' hagree hq ha
    obtain ⟨hk, hall⟩ := advance_rel (R := KeepsWaiters) (fun _ => .of_eq rfl fun _ h => h) (fun _ _ _ => .trans)
      (fun _ _ _ _ => .effect) hq.1 ha
    exact ⟨advance_inv (fun _ _ _ _ h he => LocksAgree.effect h he) hq.1 ha hagree, ⟨hall, hq.2.advance ha⟩, hk⟩
  · intro u c t hk hq
    exact ⟨hq.1, fun op b k ht => (hq.2 op b k ht).stable hk⟩

theorem protocol_start (db : Db) : Protocol (start db) := by
  refine ⟨fun key tx => ?_, fun x hx => absurd hx List.not_mem_nil⟩
  simp [start]

theorem Protocol.run {db : Db} {actions : List Action} {s : Server}
    (hr : Machine.run (Server.step o) (start db) actions = some s) : Protocol s := by
  exact Machine.run_inv (G := fun _ _ => True) (P := fun _ s => Protocol s) (protocol_start db)
    (fun _ _ _ _ h _ => h.step) (Machine.guarded_of_forall (fun _ _ _ => trivial) _) hr

theorem advance_moves {c : Call} {t t' : Task Res Wait Exception Reply} (hall : t.All c.Allows)
    (ha : (kernel o).advance s t = some (s', t')) (key : Bytes) :
    c.Moves key (s.txStorage.rowLocks key) (s'.txStorage.rowLocks key) :=
  (advance_rel (R := fun s s' => c.Moves key (s.txStorage.rowLocks key) (s'.txStorage.rowLocks key))
    (fun _ => .same _) (fun _ _ _ => .trans) (fun _ _ _ hop he => .effect hop he key) hall ha).1

/-- A step lets one call go on, and changes the holder of a row only as that call may. -/
theorem step_moves {s s' : Server} {action : Action} (h : Protocol s) (hstep : s.step o action = some s') :
    s'.shared = s.shared ∨ ∃ i c t, action = .resume i ∧ s.tasks[i]? = some (c, t) ∧
      ∀ key, c.Moves key (s.shared.txStorage.rowLocks key) (s'.shared.txStorage.rowLocks key) := by
  rcases Pool.step_cases hstep with ⟨c, -, rfl⟩ | ⟨i, c, t, u, t', pre, post, hi, hget, ha, htasks, rfl⟩
  · exact Or.inl rfl
  · have hall : t.All c.Allows := (h.2 (c, t) (by rw [htasks]; simp)).1
    exact Or.inr ⟨i, c, t, hi, hget, fun key => advance_moves hall ha key⟩

/-- In every reachable state the maps agree, nobody sleeps for a row that is free, and every step grants a row only
while it is free, to the transaction of the call that asks for it, and takes it away only in a `Commit` or `Rollback`
of its holder. -/
theorem row_lock_protocol (o : Options) (db : Db) (actions : List Action) (s : Server)
    (hr : Machine.run (Server.step o) (start db) actions = some s) :
    (∀ key tx, s.shared.txStorage.rowLocks key = some tx ↔ key ∈ s.shared.txStorage.txLocks tx) ∧
    (∀ c tx rowKey n k, (c, .suspended (.acquireRowLock tx rowKey) (.timer n) k) ∈ s.tasks →
      n ∈ s.shared.lockAvailable.waiters → s.shared.txStorage.rowLocks rowKey ≠ none) ∧
    ∀ action s', s.step o action = some s' → ∀ key,
      s'.shared.txStorage.rowLocks key = s.shared.txStorage.rowLocks key ∨
      ∃ i c t, action = .resume i ∧ s.tasks[i]? = some (c, t) ∧
        c.Moves key (s.shared.txStorage.rowLocks key) (s'.shared.txStorage.rowLocks key) := by
  have h := Protocol.run hr
  refine ⟨h.1, ?_, ?_⟩
  · intro c tx rowKey n k hin hn
    exact ((h.2 _ hin).2 _ _ _ rfl).2 hn
  · intro action s' hstep key
    rcases step_moves h hstep with hsame | ⟨i, c, t, hi, hget, hmoves⟩
    · exact Or.inl (by rw [hsame])
    · exact Or.inr ⟨i, c, t, hi, hget, hmoves key⟩

/-- Transaction 11 sleeps for a row of transaction 10, is woken by its `Commit`, and then holds the row. -/
theorem row_lock_protocol_handover :
    ∃ s, Machine.run (Server.step ⟨0⟩) (start (Db.init ⟨0⟩ (fun _ => none) Dir.empty))
        [.start .begin, .resume 0, .start .begin, .resume 1, .start (.acquireRowLock 10 [1]), .resume 2,
          .start (.acquireRowLock 11 [1]), .resume 3, .start (.commit 10), .resume 4, .resume 4, .resume 3] = some s ∧
      s.shared.txStorage.rowLocks [1] = some 11 ∧ [1] ∈ s.shared.txStorage.txLocks 11 := by
  refine Machine.exists_run_of (T := fun s => s.shared.txStorage.rowLocks [1] = some 11) (by decide) ?_
  intro s hs hrow
  exact ⟨hrow, ((row_lock_protocol _ _ _ s hs).1 [1] 11).mp hrow⟩

end StructureDb.Server
