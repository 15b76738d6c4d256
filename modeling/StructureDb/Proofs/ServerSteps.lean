import StructureDb.Proofs.Sessions

/-! What an operation of a coroutine does to the shared state, whether it is performed for the
first time or goes on after a wait. -/

namespace StructureDb

theorem Writes.resume_events {w w' : Writes} {i : ℕ} (h : w.step (.resume i) = some w') :
    w'.calls.map Prod.fst = w.calls.map Prod.fst := by
  rw [step] at h
  rcases hi : w.calls[i]? with _ | ⟨event, call⟩
  · rw [hi] at h
    cases h
  · rw [hi] at h
    dsimp only at h
    split_ifs at h
    rw [← Option.some.inj h]
    obtain ⟨pre, post, hcalls, hset⟩ := Splits.of_getElem? hi
    dsimp only
    rw [hset, hcalls]
    simp

namespace Context

variable (s : Context) (event : LogEvent)

@[simp] theorem write_txStorage : (s.write event).1.txStorage = s.txStorage := rfl

theorem write_calls : (s.write event).1.walWriter.calls =
    s.walWriter.calls ++ [(event, (s.walWriter.writer.write (flushEvent event)).2)] := rfl

end Context

namespace Server

open Coroutine

variable {o : Options} {s s' : Context} {op : Op}

inductive Effect (o : Options) (s : Context) : Op → Context → Prop
  | same (op : Op) : Effect o s op s
  | begin : Effect o s .begin { s with txStorage := s.txStorage.begin.1 }
  | setStatus (tx : TransactionId) (status : Status) :
      Effect o s (.setStatus tx status) { s with txStorage := s.txStorage.setStatus tx status }
  | logCommit (tx : TransactionId) :
      Effect o s (.logCommit tx) ({ s with txStorage := s.txStorage.setStatus tx .commited }.write (commitEvent tx)).1
  | grant (tx : TransactionId) (rowKey : Bytes) (txStorage : TxStorage)
      (h : s.txStorage.acquireRowLock tx rowKey = some txStorage) :
      Effect o s (.acquireRowLock tx rowKey) { s with txStorage }
  | sleep (tx : TransactionId) (rowKey : Bytes) :
      Effect o s (.acquireRowLock tx rowKey) { s with lockAvailable := s.lockAvailable.wait.1 }
  | release (tx : TransactionId) :
      Effect o s (.releaseAllLocks tx)
        { s with txStorage := s.txStorage.releaseAllLocks tx, lockAvailable := s.lockAvailable.notifyAll }
  | emplace (id : Bytes) (h : s.storages id = none) :
      Effect o s (.tryEmplace id) { s with storages := Function.update s.storages id (some (Lsm.init Dir.empty)) }
  | put (id key : Bytes) (value : TransactionalValue) (l : Lsm TransactionalValue) (h : s.storages id = some l) :
      Effect o s (.upsert id key value)
        ({ s with storages := Function.update s.storages id (some (l.put o key value).1) }.write
          (upsertEvent id ⟨key, l.nextSeqNo, value⟩)).1
  | resume (op : Op) (call : ℕ) (walWriter : Writes) (h : s.walWriter.step (.resume call) = some walWriter) :
      Effect o s op { s with walWriter }

theorem acquireRowLock_effect (o : Options) (s : Context) (tx : TransactionId) (rowKey : Bytes) :
    Effect o s (.acquireRowLock tx rowKey) (acquireRowLock s tx rowKey).1 := by
  unfold acquireRowLock
  rcases h : s.txStorage.acquireRowLock tx rowKey with _ | txStorage
  · exact .sleep tx rowKey
  · exact .grant tx rowKey txStorage h

theorem perform_effect (o : Options) (s : Context) (op : Op) : Effect o s op (perform o s op).1 := by
  cases op with
  | begin => exact .begin
  | setStatus tx status => exact .setStatus tx status
  | logCommit tx => exact .logCommit tx
  | isCommited tx => exact .same _
  | acquireRowLock tx rowKey => exact acquireRowLock_effect o s tx rowKey
  | releaseAllLocks tx =>
    rw [perform, releaseAllLocks]
    split_ifs with h
    · exact .same _
    · exact .release tx
  | hasStorage id => exact .same _
  | tryEmplace id =>
    rw [perform, tryEmplace]
    split_ifs with h
    · exact .same _
    · exact .emplace id (Option.not_isSome_iff_eq_none.mp h)
  | scan id key => exact .same _
  | upsert id key value =>
    rw [perform, engineUpsert]
    rcases h : s.storages id with _ | l
    · exact .same _
    · exact .put id key value l h
  | io => exact .same _

theorem resumeWrite_effect {call : ℕ} {x : Unit ⊕ Wait} (op : Op) (h : resumeWrite s call = some (s', x)) :
    Effect o s op s' := by
  unfold resumeWrite at h
  rcases hw : s.walWriter.step (.resume call) with _ | walWriter
  · rw [hw] at h
    cases h
  · simp only [hw] at h
    split_ifs at h
    · cases h
      exact .resume op call walWriter hw
    · cases h
      exact .resume op call walWriter hw

theorem wake_effect {b : Wait} {x : Res op ⊕ Wait} (h : wake s op b = some (s', x)) : Effect o s op s' := by
  unfold wake at h
  split at h
  · rename_i tx rowKey n
    split_ifs at h
    have hs := acquireRowLock_effect o s tx rowKey
    rw [Option.some.inj h] at hs
    exact hs
  · exact resumeWrite_effect _ h
  · exact resumeWrite_effect _ h
  · cases h
    exact .same _
  · cases h

/-- What every operation of a task does to the shared state, the task does. -/
theorem advance_rel {A : Op → Prop} {R : Context → Context → Prop} (hrefl : ∀ s, R s s)
    (htrans : ∀ s s' s'', R s s' → R s' s'' → R s s'') (heffect : ∀ s op s', A op → Effect o s op s' → R s s')
    {t t' : Task Res Wait Exception Reply} (ht : t.All A) (ha : (kernel o).advance s t = some (s', t')) :
    R s s' ∧ t'.All A :=
  Kernel.advance_rel hrefl htrans (fun s op hop => heffect s op _ hop (perform_effect o s op))
    (fun s op _ s' _ hop hw => heffect s op s' hop (wake_effect hw)) ht ha

/-- The same for an invariant of the shared state. -/
theorem advance_inv {P : Context → Prop} {A : Op → Prop}
    (heffect : ∀ s op s', A op → P s → Effect o s op s' → P s') {t t' : Task Res Wait Exception Reply}
    (ht : t.All A) (ha : (kernel o).advance s t = some (s', t')) (hs : P s) :
    P s' :=
  (advance_rel (R := fun s s' => P s → P s') (fun _ h => h) (fun _ _ _ h h' hs => h' (h hs))
    (fun s op s' hop he hs => heffect s op s' hop hs he) ht ha).1 hs

/-- A turn of the loop of `Lookup`, with what is done with its answer. -/
theorem lookupRows_cons_bind {α : Type} (tx : TransactionId) (row : Row) (rest : List Row)
    (k : Option Row → Program α) :
    lookupRows tx (row :: rest) >>= k = .call .io fun _ =>
      if row.value.isFrozen || row.value.tx == tx then k (if row.value.isDeleted then none else some row)
      else call (.isCommited row.value.tx) >>= fun found =>
        if found then k (if row.value.isDeleted then none else some row) else lookupRows tx rest >>= k := by
  refine congrArg (Coro.call Op.io) (funext fun _ => ?_)
  have hbody : ∀ found : Bool, ((if found then if row.value.isDeleted then pure none else pure (some row)
      else lookupRows tx rest : Program (Option Row)) >>= k) =
      if found then k (if row.value.isDeleted then none else some row) else lookupRows tx rest >>= k := by
    intro found
    cases found
    · rfl
    · cases row.value.isDeleted <;> rfl
  by_cases hv : (row.value.isFrozen || row.value.tx == tx) = true
  · have hvis : visible tx row.value = pure true := if_pos hv
    rw [hvis, if_pos hv]
    exact hbody true
  · have hvis : visible tx row.value = call (.isCommited row.value.tx) := if_neg hv
    rw [hvis, if_neg hv]
    exact congrArg (Coro.call (Op.isCommited row.value.tx)) (funext hbody)

end Server

end StructureDb
