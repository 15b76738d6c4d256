import StructureDb.Spec.Transaction

/-! Small facts about `transaction::Storage`: what releasing and acquiring do to the
row locks, and what recovery makes of the commit events. -/

namespace StructureDb.TxStorage

variable {s s' : TxStorage} {tx t : TransactionId} {key : Bytes}

theorem isStarted_iff : s.isStarted t = true ↔ s.txStatus t = some .started := by simp [isStarted]

theorem isCommited_iff : s.isCommited t = true ↔ s.txStatus t = some .commited := by simp [isCommited]

theorem not_committed_of_started (h : s.isStarted t = true) : s.isCommited t = false := by
  have hs := isStarted_iff.mp h
  simp [isCommited, hs]

theorem foldl_releaseRow (tx : TransactionId) (ks : List Bytes) (locks : Bytes → Option TransactionId) (key : Bytes) :
    ks.foldl (releaseRow tx) locks key = if key ∈ ks ∧ locks key = some tx then none else locks key := by
  induction ks generalizing locks with
  | nil => simp
  | cons k ks ih =>
    rw [List.foldl_cons, ih, releaseRow]
    by_cases hk : key = k
    · subst hk
      by_cases hl : locks key = some tx <;> simp [hl]
    · by_cases hl : locks k = some tx
      · rw [if_pos hl, Function.update_of_ne hk]
        simp [hk]
      · simp [hl, hk]

theorem releaseAllLocks_rowLocks (s : TxStorage) (tx : TransactionId) (key : Bytes) :
    (s.releaseAllLocks tx).rowLocks key =
      if key ∈ s.txLocks tx ∧ s.rowLocks key = some tx then none else s.rowLocks key :=
  foldl_releaseRow ..

theorem releaseAllLocks_txLocks_of_ne (h : t ≠ tx) : (s.releaseAllLocks tx).txLocks t = s.txLocks t :=
  Function.update_of_ne h ..

@[simp] theorem releaseAllLocks_txStatus : (s.releaseAllLocks tx).txStatus = s.txStatus := rfl

theorem setStatus_txStatus_self (s : TxStorage) (tx : TransactionId) (status : Status) :
    (s.setStatus tx status).txStatus tx = some status := Function.update_self ..

theorem setStatus_txStatus_of_ne (status : Status) (h : t ≠ tx) :
    (s.setStatus tx status).txStatus t = s.txStatus t := Function.update_of_ne h ..

theorem begin_txStatus_self (s : TxStorage) : s.begin.1.txStatus s.nextTxId = some .started := Function.update_self ..

theorem begin_txStatus_of_ne (h : t ≠ s.nextTxId) : s.begin.1.txStatus t = s.txStatus t := Function.update_of_ne h ..

theorem acquireRowLock_spec (h : s.acquireRowLock tx key = some s') :
    s.rowLocks key = none ∧ s'.nextTxId = s.nextTxId ∧ s'.txStatus = s.txStatus ∧
      s'.rowLocks = Function.update s.rowLocks key (some tx) ∧
      s'.txLocks = Function.update s.txLocks tx (key :: s.txLocks tx) := by
  unfold acquireRowLock at h
  split_ifs at h with hk
  cases h
  exact ⟨hk, rfl, rfl, rfl, rfl⟩

theorem acquireRowLock_self (h : s.acquireRowLock tx key = some s') : s'.rowLocks key = some tx := by
  rw [(acquireRowLock_spec h).2.2.2.1, Function.update_self]

theorem acquireRowLock_of_ne (h : s.acquireRowLock tx key = some s') {key' : Bytes} (hne : key' ≠ key) :
    s'.rowLocks key' = s.rowLocks key' := by
  rw [(acquireRowLock_spec h).2.2.2.1, Function.update_of_ne hne]

theorem acquireRowLock_mono (h : s.acquireRowLock tx key = some s') {key' : Bytes} (hk : s.rowLocks key' = some t) :
    s'.rowLocks key' = some t := by
  rw [acquireRowLock_of_ne h, hk]
  rintro rfl
  rw [(acquireRowLock_spec h).1] at hk
  cases hk

theorem acquireRowLock_holder (h : s.acquireRowLock tx key = some s') {key' : Bytes} (hk : s'.rowLocks key' = some t) :
    key' = key ∧ t = tx ∨ key' ≠ key ∧ s.rowLocks key' = some t := by
  by_cases hkey : key' = key
  · subst hkey
    exact Or.inl ⟨rfl, Option.some.inj (hk.symm.trans (acquireRowLock_self h))⟩
  · exact Or.inr ⟨hkey, (acquireRowLock_of_ne h hkey).symm.trans hk⟩

/-- The locks that a transaction lists include all that it holds. -/
theorem acquireRowLock_listed (h : s.acquireRowLock tx key = some s')
    (hlisted : ∀ k t, s.rowLocks k = some t → k ∈ s.txLocks t) {key' : Bytes} (hk : s'.rowLocks key' = some t) :
    key' ∈ s'.txLocks t := by
  rw [(acquireRowLock_spec h).2.2.2.2]
  rcases acquireRowLock_holder h hk with ⟨rfl, rfl⟩ | ⟨-, hold⟩
  · rw [Function.update_self]
    exact List.mem_cons_self
  · by_cases ht : t = tx
    · subst ht
      rw [Function.update_self]
      exact List.mem_cons_of_mem _ (hlisted key' t hold)
    · rw [Function.update_of_ne ht]
      exact hlisted key' t hold

/-- After recovery exactly the transactions with a commit event have a status. -/
theorem foldl_recoverFromLog_txStatus (cs : List TransactionId) (s : TxStorage) (t : TransactionId) :
    (cs.foldl recoverFromLog s).txStatus t = if t ∈ cs then some .commited else s.txStatus t := by
  induction cs generalizing s with
  | nil => simp
  | cons c cs ih =>
    rw [List.foldl_cons, ih]
    by_cases hc : t = c
    · subst hc
      have hself : (s.recoverFromLog t).txStatus t = some .commited := setStatus_txStatus_self ..
      simp [hself]
    · have hother : (s.recoverFromLog c).txStatus t = s.txStatus t := setStatus_txStatus_of_ne _ hc
      simp [hother, hc]

theorem foldl_recoverFromLog_nextTxId (cs : List TransactionId) (s : TxStorage) (n : TransactionId) :
    (cs.foldl recoverFromLog s).nextTxId ≤ n ↔ s.nextTxId ≤ n ∧ ∀ c ∈ cs, c < n := by
  induction cs generalizing s with
  | nil => simp
  | cons c cs ih =>
    rw [List.foldl_cons, ih, List.forall_mem_cons]
    have hnext : (s.recoverFromLog c).nextTxId = max s.nextTxId (c + 1) := rfl
    rw [hnext, max_le_iff, and_assoc, Nat.succ_le_iff]

end StructureDb.TxStorage
