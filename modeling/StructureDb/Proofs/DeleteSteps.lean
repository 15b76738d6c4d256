import StructureDb.Spec.Deletes
import StructureDb.Proofs.ServerSteps
import StructureDb.Proofs.Rows

/-! The states of a `Delete`. While it looks the key up and waits for the lock, the versions it has still to look at
show the transaction what the storage shows it, as long as nobody else changes what it sees. -/

namespace StructureDb

namespace Deletes

open Coroutine
open Server (Res Wait Exception Reply Program kernel call)

variable {o : Options} {u u' : Context} {tx : TransactionId} {id key : Bytes} {row : Row} {rows rest : List Row}
  {t t' : Task Res Wait Exception Reply}

section Versions

def Ordered (u : Context) : Prop := ∀ id l, u.storages id = some l → l.Ordered

theorem versions_of_some {l : Lsm TransactionalValue} (hl : u.storages id = some l) (key : Bytes) :
    versions u id key = l.scanKey key := by
  rw [versions, hl]
  rfl

theorem versions_congr (hs : u'.storages = u.storages) (id key : Bytes) : versions u' id key = versions u id key := by
  rw [versions, versions, hs]

theorem versions_put {l : Lsm TransactionalValue} (ho : l.Ordered) (hl : u.storages id = some l)
    (hs : u'.storages = Function.update u.storages id (some (l.put o key value).1)) (id' key' : Bytes) :
    versions u' id' key' = (if id' = id ∧ key = key' then [⟨key, l.nextSeqNo, value⟩] else []) ++
      versions u id' key' := by
  by_cases hid : id' = id
  · subst hid
    have hnew : u'.storages id' = some (l.put o key value).1 := by rw [hs, Function.update_self]
    have hput : (l.put o key value).1.Ordered := Lsm.put_ordered o ho key value
    rw [versions_of_some hnew, versions_of_some hl, Lsm.scanKey_eq_filter hput.sorted, Lsm.scanKey_eq_filter ho.sorted]
    refine (Lsm.doPut_filter o { l with nextSeqNo := l.nextSeqNo + 1 } l.nextSeqNo key value ho le_rfl key').trans ?_
    simp only [true_and]
    rfl
  · rw [if_neg fun hc => hid hc.1, List.nil_append, versions, versions, hs, Function.update_of_ne hid]

structure Grows (u u' : Context) : Prop where
  ordered : Ordered u'
  versions : ∀ id key, versions u id key <:+ versions u' id key

theorem Grows.trans {u'' : Context} (h : Grows u u') (h' : Grows u' u'') : Grows u u'' :=
  ⟨h'.ordered, fun id key => (h.versions id key).trans (h'.versions id key)⟩

theorem Grows.of_storages (ho : Ordered u) (hs : u'.storages = u.storages) : Grows u u' :=
  ⟨fun id l hl => ho id l (hs ▸ hl), fun id key => by rw [versions_congr hs]⟩

theorem Grows.effect {op : Server.Op} (ho : Ordered u) (he : Server.Effect o u op u') : Grows u u' := by
  cases he with
  | emplace id hid =>
    refine ⟨Db.storages_update_inv ho (LevelsOk.nil _).empty_cons, fun id' key => ?_⟩
    by_cases hne : id' = id
    · subst hne
      rw [Deletes.versions, hid]
      exact List.nil_suffix
    · dsimp only [Deletes.versions]
      rw [Function.update_of_ne hne]
  | put id key value l hl =>
    refine ⟨Db.storages_update_inv ho (Lsm.put_ordered o (ho id l hl) key value), fun id' key' => ?_⟩
    exact ⟨_, (versions_put (u := u) (ho id l hl) hl rfl id' key').symm⟩
  | _ => exact .of_storages ho rfl

theorem Grows.advance (ho : Ordered u) (ha : (kernel o).advance u t = some (u', t')) : Grows u u' :=
  (Server.advance_rel (A := fun _ => True) (R := fun u u' => Ordered u → Grows u u') (fun _ ho => .of_storages ho rfl)
    (fun _ _ _ h h' ho => (h ho).trans (h' (h ho).ordered)) (fun _ _ _ _ he ho => .effect ho he)
    (Task.all_of_forall (fun _ => trivial) t) ha).1 ho

theorem lookup_eq (u : Context) (tx : TransactionId) (id key : Bytes) :
    lookup u tx id key = (seen u tx id key).head?.bind fun row => row.value.payload := by
  rw [lookup, TransactionalTable.lookupRows_eq, seen, List.head?_filter]
  rfl

end Versions

structure Candidates (u : Context) (tx : TransactionId) (id key : Bytes) (rows : List Row) : Prop where
  stored : ∀ row ∈ rows, row ∈ versions u id key
  shown : rows.filter (fun row => TransactionalTable.visible u.txStorage tx row.value) = seen u tx id key

namespace Candidates

/-- A candidate that could not be seen cannot be seen now, for it would be new among what the storage shows. -/
theorem stable (h : Candidates u tx id key rows) (hg : versions u id key <:+ versions u' id key)
    (hseen : seen u' tx id key = seen u tx id key) : Candidates u' tx id key rows := by
  have hstored : ∀ row ∈ rows, row ∈ versions u' id key := fun row hrow => hg.subset (h.stored row hrow)
  refine ⟨hstored, ?_⟩
  rw [hseen, ← h.shown]
  refine List.filter_congr fun row hrow => Bool.eq_iff_iff.mpr ⟨fun hv => ?_, fun hv => ?_⟩
  · have hmem : row ∈ seen u' tx id key := List.mem_filter.mpr ⟨hstored row hrow, hv⟩
    rw [hseen] at hmem
    exact (List.mem_filter.mp hmem).2
  · have hmem : row ∈ seen u tx id key := List.mem_filter.mpr ⟨h.stored row hrow, hv⟩
    rw [← hseen] at hmem
    exact (List.mem_filter.mp hmem).2

theorem lookup_nil (h : Candidates u tx id key []) : lookup u tx id key = none := by
  rw [lookup_eq, ← h.shown]
  rfl

theorem lookup_cons (h : Candidates u tx id key (row :: rest))
    (hv : TransactionalTable.visible u.txStorage tx row.value = true) : lookup u tx id key = row.value.payload := by
  rw [lookup_eq, ← h.shown, List.filter_cons, if_pos hv]
  rfl

theorem tail (h : Candidates u tx id key (row :: rest))
    (hv : TransactionalTable.visible u.txStorage tx row.value = false) : Candidates u tx id key rest := by
  refine ⟨fun r hr => h.stored r (List.mem_cons_of_mem _ hr), ?_⟩
  rw [← h.shown, List.filter_cons_of_neg (by simp [hv])]

end Candidates

section Programs

def settle (tx : TransactionId) (id key : Bytes) (row : Option Row) : Program Reply :=
  (match row with
  | none => pure false
  | some _ => do
    call (.acquireRowLock tx key)
    call (.upsert id key ⟨tx, true, false, []⟩)
    pure true) >>= fun found => pure (.deleted found)

def writing (tx : TransactionId) (id key : Bytes) : Program Reply :=
  .call (.upsert id key ⟨tx, true, false, []⟩) fun _ => pure (.deleted true)

/-- `Delete` once it has its iterator, and behind the wait for a record. -/
def sift (tx : TransactionId) (id key : Bytes) (rows : List Row) : Program Reply :=
  (Server.lookupRows tx rows >>= fun row =>
    match row with
    | none => pure false
    | some _ => do
      call (.acquireRowLock tx key)
      call (.upsert id key ⟨tx, true, false, []⟩)
      pure true) >>= fun found => pure (.deleted found)

def examine (tx : TransactionId) (id key : Bytes) (row : Row) (rest : List Row) : Program Reply :=
  if row.value.isFrozen || row.value.tx == tx then settle tx id key (if row.value.isDeleted then none else some row)
  else do
    let found ← call (.isCommited row.value.tx)
    if found then settle tx id key (if row.value.isDeleted then none else some row) else sift tx id key rest

theorem sift_eq (tx : TransactionId) (id key : Bytes) (rows : List Row) :
    sift tx id key rows = Server.lookupRows tx rows >>= settle tx id key := Coro.bind_assoc _ _ _

theorem sift_cons (tx : TransactionId) (id key : Bytes) (row : Row) (rest : List Row) :
    sift tx id key (row :: rest) = .call .io fun _ => examine tx id key row rest := by
  unfold examine
  rw [sift_eq, sift_eq]
  exact Server.lookupRows_cons_bind tx row rest _

end Programs

inductive Stage (u : Context) (tx : TransactionId) (id key : Bytes) : Task Res Wait Exception Reply → Prop
  | ready : Stage u tx id key (.ready (handler (.delete tx id key)))
  | scanned (rows : List Row) (h : Candidates u tx id key rows) :
      Stage u tx id key (.suspended .io .io fun _ => sift tx id key rows)
  | read (row : Row) (rest : List Row) (h : Candidates u tx id key (row :: rest)) :
      Stage u tx id key (.suspended .io .io fun _ => examine tx id key row rest)
  | locking (b : Wait) (h : (lookup u tx id key).isSome = true) :
      Stage u tx id key (.suspended (.acquireRowLock tx key) b fun _ => writing tx id key)

inductive Wrote (tx : TransactionId) (id key : Bytes) : Task Res Wait Exception Reply → Prop
  | logging (b : Wait) :
      Wrote tx id key (.suspended (.upsert id key ⟨tx, true, false, []⟩) b fun _ => pure (.deleted true))
  | finished : Wrote tx id key (.finished (.ok (.deleted true)))

inductive Outcome (u : Context) (tx : TransactionId) (id key : Bytes) (u' : Context) :
    Task Res Wait Exception Reply → Prop
  | undecided (t : Task Res Wait Exception Reply) (storages : u'.storages = u.storages)
      (status : u'.txStorage.txStatus = u.txStorage.txStatus) (stage : Stage u' tx id key t) : Outcome u tx id key u' t
  | absent (same : u' = u) (gone : lookup u tx id key = none) :
      Outcome u tx id key u' (.finished (.ok (.deleted false)))
  | written (t : Task Res Wait Exception Reply) (seqNo : ℕ) (found : (lookup u tx id key).isSome = true)
      (free : u.txStorage.rowLocks key = none) (locked : u'.txStorage.rowLocks key = some tx)
      (tombstone : versions u' id key = ⟨key, seqNo, ⟨tx, true, false, []⟩⟩ :: versions u id key)
      (wrote : Wrote tx id key t) : Outcome u tx id key u' t

theorem run_writing (ho : Ordered u) (hl : (lookup u tx id key).isSome = true) {txStorage : TxStorage}
    (hlock : u.txStorage.acquireRowLock tx key = some txStorage) :
    Outcome u tx id key ((kernel o).run { u with txStorage } (writing tx id key)).1
      ((kernel o).run { u with txStorage } (writing tx id key)).2 := by
  obtain ⟨l, hs⟩ : ∃ l, u.storages id = some l := by
    rcases hs : u.storages id with _ | l
    · rw [lookup, versions, hs] at hl
      cases hl
    · exact ⟨l, rfl⟩
  simp only [writing, Kernel.run, kernel, Server.perform, Server.engineUpsert, hs]
  refine .written _ l.nextSeqNo hl (TxStorage.acquireRowLock_spec hlock).1 (TxStorage.acquireRowLock_self hlock) ?_
    (.logging _)
  refine (versions_put (u := u) (ho id l hs) hs rfl id key).trans ?_
  rw [if_pos ⟨rfl, rfl⟩]
  rfl

/-- The `Delete` asks for its lock, for the first time or again. -/
theorem acquire_outcome (ho : Ordered u) (hl : (lookup u tx id key).isSome = true) {s : Context} {x : Unit ⊕ Wait}
    (hx : Server.acquireRowLock u tx key = (s, x)) :
    match x with
    | .inl _ => Outcome u tx id key ((kernel o).run s (writing tx id key)).1 ((kernel o).run s (writing tx id key)).2
    | .inr b => Outcome u tx id key s (.suspended (.acquireRowLock tx key) b fun _ => writing tx id key) := by
  unfold Server.acquireRowLock at hx
  rcases hlock : u.txStorage.acquireRowLock tx key with _ | txStorage
  · rw [hlock] at hx
    cases hx
    exact .undecided _ rfl rfl (.locking _ hl)
  · rw [hlock] at hx
    cases hx
    exact run_writing ho hl hlock

theorem run_settle (ho : Ordered u) (h : lookup u tx id key = row.value.payload)
    (ha : (kernel o).run u (settle tx id key (if row.value.isDeleted then none else some row)) = (u', t')) :
    Outcome u tx id key u' t' := by
  rcases hd : row.value.isDeleted with _ | _
  · have hl : (lookup u tx id key).isSome = true := by
      rw [h, TransactionalValue.payload, if_neg (by simp [hd])]
      rfl
    have hprog : settle tx id key (some row) = .call (.acquireRowLock tx key) fun _ => writing tx id key := rfl
    rw [hd, if_neg Bool.false_ne_true, hprog, Kernel.run] at ha
    rcases hx : (kernel o).perform u (.acquireRowLock tx key) with ⟨s, r | b⟩
    · rw [hx] at ha
      have hout := acquire_outcome (o := o) ho hl hx
      dsimp only at hout ha
      rw [ha] at hout
      exact hout
    · rw [hx] at ha
      cases ha
      exact acquire_outcome (o := o) ho hl hx
  · rw [hd] at ha
    cases ha
    refine .absent rfl ?_
    rw [h, TransactionalValue.payload, if_pos hd]

theorem run_sift (h : Candidates u tx id key rows) (ha : (kernel o).run u (sift tx id key rows) = (u', t')) :
    Outcome u tx id key u' t' := by
  cases rows with
  | nil =>
    cases ha
    exact .absent rfl h.lookup_nil
  | cons row rest =>
    rw [sift_cons] at ha
    cases ha
    exact .undecided _ rfl rfl (.read row rest h)

theorem run_examine (ho : Ordered u) (h : Candidates u tx id key (row :: rest))
    (ha : (kernel o).run u (examine tx id key row rest) = (u', t')) : Outcome u tx id key u' t' := by
  by_cases hv : (row.value.isFrozen || row.value.tx == tx) = true
  · rw [examine, if_pos hv] at ha
    have hvis : TransactionalTable.visible u.txStorage tx row.value = true := by
      rw [TransactionalTable.visible, hv, Bool.true_or]
    exact run_settle ho (h.lookup_cons hvis) ha
  · have hvis : TransactionalTable.visible u.txStorage tx row.value = u.txStorage.isCommited row.value.tx := by
      rw [TransactionalTable.visible, Bool.eq_false_iff.mpr hv, Bool.false_or]
    have hrun : ∀ k : Bool → Program Reply,
        (kernel o).run u (call (.isCommited row.value.tx) >>= k) =
          (kernel o).run u (k (u.txStorage.isCommited row.value.tx)) := fun _ => rfl
    rw [examine, if_neg hv, hrun] at ha
    rcases hc : u.txStorage.isCommited row.value.tx with _ | _
    · rw [hc] at ha hvis
      exact run_sift (h.tail hvis) ha
    · rw [hc] at ha hvis
      exact run_settle ho (h.lookup_cons hvis) ha

theorem Stage.advance (ho : Ordered u) (h : Stage u tx id key t) (ha : (kernel o).advance u t = some (u', t')) :
    Outcome u tx id key u' t' := by
  cases h with
  | ready =>
    have hrun : (kernel o).run u (handler (.delete tx id key)) =
        (u, .suspended .io .io fun _ => sift tx id key (versions u id key)) := rfl
    rw [Kernel.advance, hrun] at ha
    cases ha
    exact .undecided _ rfl rfl (.scanned _ ⟨fun _ hrow => hrow, rfl⟩)
  | scanned rows hrows => exact run_sift hrows (Option.some.inj ha)
  | read row rest hrows => exact run_examine ho hrows (Option.some.inj ha)
  | locking b hl =>
    cases b with
    | timer n =>
      simp only [Kernel.advance, kernel, Server.wake] at ha
      split_ifs at ha
      rcases hx : Server.acquireRowLock u tx key with ⟨s, r | b⟩
      · rw [hx] at ha
        have hout := acquire_outcome (o := o) ho hl hx
        dsimp only at hout ha
        rw [show (kernel o).run s (writing tx id key) = _ from Option.some.inj ha] at hout
        exact hout
      · rw [hx] at ha
        cases ha
        exact acquire_outcome (o := o) ho hl hx
    | write call => cases ha
    | io => cases ha

theorem Stage.stable (h : Stage u tx id key t) (hg : versions u id key <:+ versions u' id key)
    (hseen : seen u' tx id key = seen u tx id key) : Stage u' tx id key t := by
  cases h with
  | ready => exact .ready
  | scanned rows hrows => exact .scanned rows (hrows.stable hg hseen)
  | read row rest hrows => exact .read row rest (hrows.stable hg hseen)
  | locking b hl =>
    refine .locking b ?_
    rw [lookup_eq, hseen, ← lookup_eq]
    exact hl

theorem Wrote.advance (h : Wrote tx id key t) (ha : (kernel o).advance u t = some (u', t')) : Wrote tx id key t' := by
  cases h with
  | logging b =>
    rw [Kernel.advance] at ha
    rcases hw : (kernel o).wake u (.upsert id key ⟨tx, true, false, []⟩) b with _ | ⟨s, r | b'⟩
    · rw [hw] at ha
      cases ha
    · rw [hw] at ha
      cases ha
      exact .finished
    · rw [hw] at ha
      cases ha
      exact .logging b'
  | finished => cases ha

end Deletes

end StructureDb
