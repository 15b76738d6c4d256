import StructureDb.Proofs.DbSteps
import StructureDb.Proofs.RowLocks
import StructureDb.Proofs.Within

/-! `Upsert` and `Commit` change what others see before they write to the log, so a reader may see a version whose
events are still on their way into the log. It does not when no such write is under way. -/

namespace StructureDb

namespace Server

open Coroutine

variable {o : Options} {u u' : Context} {op : Op} {c : Call} {tx : TransactionId} {id key : Bytes} {row : Row}

def events (u : Context) : List LogEvent := u.walWriter.calls.map Prod.fst

def Written (u : Context) (event : LogEvent) : Prop := (event, WriteCall.returned) ∈ u.walWriter.calls

/-- Everything that can be seen was handed to the log writer. -/
structure Logged (u : Context) : Prop where
  ordered : ∀ id l, u.storages id = some l → l.Ordered
  records : ∀ id l, u.storages id = some l → l.Within fun row => upsertEvent id row ∈ events u ∧
    row.value.isFrozen = false
  commits : ∀ tx, u.txStorage.isCommited tx = true → commitEvent tx ∈ events u

theorem Logged.start (o : Options) : Logged (Server.start (Db.init o (fun _ => none) Dir.empty)).shared := by
  refine ⟨?_, ?_, ?_⟩
  · intro id l hl
    rw [World.start_storages (o := o) hl]
    exact (LevelsOk.nil _).empty_cons
  · intro id l hl
    rw [World.start_storages (o := o) hl]
    exact Lsm.within_empty
  · intro tx htx
    have hnone : (Server.start (Db.init o (fun _ => none) Dir.empty)).shared.txStorage.txStatus tx = none := rfl
    rw [TxStorage.isCommited_iff, hnone] at htx
    cases htx

theorem Logged.mono (h : Logged u) (hs : u'.storages = u.storages) (he : ∀ e ∈ events u, e ∈ events u')
    (ht : ∀ tx, u'.txStorage.isCommited tx = true → u.txStorage.isCommited tx = true ∨ commitEvent tx ∈ events u') :
    Logged u' := by
  refine ⟨hs ▸ h.ordered, ?_, ?_⟩
  · intro id l hl
    exact (h.records id l (hs ▸ hl)).mono fun row hrow => ⟨he _ hrow.1, hrow.2⟩
  · intro tx htx
    rcases ht tx htx with hold | hnew
    · exact he _ (h.commits tx hold)
    · exact hnew

theorem events_write (u : Context) (event : LogEvent) : events (u.write event).1 = events u ++ [event] := by
  rw [events, Context.write_calls, List.map_append]
  rfl

theorem Logged.put (h : Logged u) {l : Lsm TransactionalValue} (hl : u.storages id = some l)
    {value : TransactionalValue} (hv : value.isFrozen = false) :
    Logged ({ u with storages := Function.update u.storages id (some (l.put o key value).1) }.write
      (upsertEvent id ⟨key, l.nextSeqNo, value⟩)).1 := by
  have hev : events ({ u with storages := Function.update u.storages id (some (l.put o key value).1) }.write
      (upsertEvent id ⟨key, l.nextSeqNo, value⟩)).1 = events u ++ [upsertEvent id ⟨key, l.nextSeqNo, value⟩] :=
    events_write _ _
  have hold : ∀ id' m, u.storages id' = some m → m.Within fun row =>
      upsertEvent id' row ∈ events u ++ [upsertEvent id ⟨key, l.nextSeqNo, value⟩] ∧ row.value.isFrozen = false :=
    fun id' m hm => (h.records id' m hm).mono fun row hrow => ⟨List.mem_append_left _ hrow.1, hrow.2⟩
  refine ⟨Db.storages_update_inv h.ordered (Lsm.put_ordered o (h.ordered id l hl) key value), ?_, ?_⟩
  · rw [hev]
    exact Db.storages_update_inv hold ((hold id l hl).put o key value ⟨by simp, hv⟩)
  · intro tx htx
    rw [hev]
    exact List.mem_append_left _ (h.commits tx htx)

theorem Logged.effect (h : Logged u) (hop : c.Allows op) (he : Effect o u op u') : Logged u' := by
  cases he with
  | same => exact h
  | begin =>
    refine h.mono rfl (fun _ he => he) ?_
    intro t ht
    left
    by_cases hn : t = u.txStorage.nextTxId
    · subst hn
      rw [TxStorage.isCommited_iff, TxStorage.begin_txStatus_self] at ht
      cases ht
    · rw [TxStorage.isCommited_iff, TxStorage.begin_txStatus_of_ne hn] at ht
      exact TxStorage.isCommited_iff.mpr ht
  | setStatus t status =>
    obtain rfl : status = .rollbacked := hop
    refine h.mono rfl (fun _ he => he) ?_
    intro t' ht
    left
    by_cases hn : t' = t
    · subst hn
      rw [TxStorage.isCommited_iff, TxStorage.setStatus_txStatus_self] at ht
      cases ht
    · rw [TxStorage.isCommited_iff, TxStorage.setStatus_txStatus_of_ne _ hn] at ht
      exact TxStorage.isCommited_iff.mpr ht
  | logCommit t =>
    refine h.mono rfl ?_ ?_
    · intro e he
      rw [events_write]
      exact List.mem_append_left _ he
    · intro t' ht
      rw [events_write]
      by_cases hn : t' = t
      · subst hn
        right
        simp
      · left
        rw [TxStorage.isCommited_iff, Context.write_txStorage, TxStorage.setStatus_txStatus_of_ne _ hn] at ht
        exact TxStorage.isCommited_iff.mpr ht
  | grant t rowKey txStorage ha =>
    refine h.mono rfl (fun _ he => he) ?_
    intro t' ht
    rw [TxStorage.isCommited_iff, (TxStorage.acquireRowLock_spec ha).2.2.1] at ht
    exact Or.inl (TxStorage.isCommited_iff.mpr ht)
  | sleep t rowKey => exact h.mono rfl (fun _ he => he) fun _ ht => Or.inl ht
  | release t => exact h.mono rfl (fun _ he => he) fun _ ht => Or.inl ht
  | emplace id hid =>
    exact ⟨Db.storages_update_inv h.ordered (LevelsOk.nil _).empty_cons,
      Db.storages_update_inv h.records Lsm.within_empty, h.commits⟩
  | put id key value l hl => exact h.put hl hop
  | resume op call walWriter hw =>
    have hev : events { u with walWriter } = events u := Writes.resume_events hw
    exact h.mono rfl (fun _ he => hev ▸ he) fun _ ht => Or.inl ht

def Stored (u : Context) (id key : Bytes) (row : Row) : Prop :=
  ∃ l, u.storages id = some l ∧ row ∈ l.records ∧ row.key = key

theorem Stored.effect (h : Stored u id key row) (he : Effect o u op u') : Stored u' id key row := by
  obtain ⟨l, hl, hin, hk⟩ := h
  cases he with
  | emplace id' hid =>
    have hne : id ≠ id' := by
      rintro rfl
      rw [hid] at hl
      cases hl
    exact ⟨l, (Function.update_of_ne hne ..).trans hl, hin, hk⟩
  | put id' key' value l' hl' =>
    by_cases hid : id = id'
    · subst hid
      obtain rfl := Option.some.inj (hl'.symm.trans hl)
      refine ⟨_, Function.update_self .., ?_, hk⟩
      exact (Lsm.doPut_records_perm o _ _ key' value).mem_iff.mpr (List.mem_cons_of_mem _ hin)
    · exact ⟨l, (Function.update_of_ne hid ..).trans hl, hin, hk⟩
  | _ => exact ⟨l, hl, hin, hk⟩

theorem Logged.stored_of_scan (h : Logged u) {row : Row}
    (hrow : row ∈ (u.storages id).elim [] fun l => l.scanKey key) : Stored u id key row := by
  rcases hl : u.storages id with _ | l
  · rw [hl] at hrow
    cases hrow
  · rw [hl] at hrow
    have hscan : row ∈ l.scanKey key := hrow
    rw [Lsm.scanKey_eq_filter (h.ordered id l hl).sorted, List.mem_filter] at hscan
    exact ⟨l, hl, hscan.1, of_decide_eq_true hscan.2⟩

/-- `Lookup` once it has its iterator, and behind the wait for a record. -/
def answer (tx : TransactionId) (rows : List Row) : Program Reply :=
  lookupRows tx rows >>= fun row => pure (.version row)

def examine (tx : TransactionId) (row : Row) (rest : List Row) : Program Reply :=
  if row.value.isFrozen || row.value.tx == tx then pure (.version (if row.value.isDeleted then none else some row))
  else do
    let found ← call (.isCommited row.value.tx)
    if found then pure (.version (if row.value.isDeleted then none else some row)) else answer tx rest

theorem answer_cons (tx : TransactionId) (row : Row) (rest : List Row) :
    answer tx (row :: rest) = .call .io fun _ => examine tx row rest :=
  lookupRows_cons_bind tx row rest _

def Seen (u : Context) (tx : TransactionId) (id key : Bytes) (row : Row) : Prop :=
  Stored u id key row ∧ (row.value.isFrozen = true ∨ row.value.tx = tx ∨ u.txStorage.isCommited row.value.tx = true)

/-- The states of a `Lookup`: its candidates are versions of the key. -/
inductive LookupTask (u : Context) (tx : TransactionId) (id key : Bytes) : Task Res Wait Exception Reply → Prop
  | ready : LookupTask u tx id key (.ready (handler (.lookup tx id key)))
  | scanned (rows : List Row) (h : ∀ row ∈ rows, Stored u id key row) :
      LookupTask u tx id key (.suspended .io .io fun _ => answer tx rows)
  | read (row : Row) (rest : List Row) (h : ∀ r ∈ row :: rest, Stored u id key r) :
      LookupTask u tx id key (.suspended .io .io fun _ => examine tx row rest)
  | finished (result : Except Exception Reply) : LookupTask u tx id key (.finished result)

/-- Where a `Lookup` stops, it leaves everything as it was; and if it has returned a version, it could be seen. -/
def LookupStops (u : Context) (tx : TransactionId) (id key : Bytes) (x : Context × Task Res Wait Exception Reply) :
    Prop :=
  x.1 = u ∧ LookupTask u tx id key x.2 ∧ ∀ row, x.2 = .finished (.ok (.version (some row))) → Seen u tx id key row

theorem run_answer {rows : List Row} (h : ∀ row ∈ rows, Stored u id key row) :
    LookupStops u tx id key ((kernel o).run u (answer tx rows)) := by
  cases rows with
  | nil =>
    refine ⟨rfl, .finished _, ?_⟩
    intro row hrow
    cases hrow
  | cons row rest =>
    rw [answer_cons]
    refine ⟨rfl, .read row rest h, ?_⟩
    intro row hrow
    cases hrow

/-- The end of a `Lookup` at a version that can be seen. -/
theorem run_version (h : Seen u tx id key row) : LookupStops u tx id key
    ((kernel o).run u (pure (.version (if row.value.isDeleted then none else some row)) : Program Reply)) := by
  refine ⟨rfl, .finished _, ?_⟩
  intro row' hrow
  have hres : (if row.value.isDeleted then none else some row) = some row' := by
    injection hrow with hrow
    injection hrow with hrow
    injection hrow
  split_ifs at hres
  obtain rfl := Option.some.inj hres
  exact h

theorem run_examine {rest : List Row} (h : ∀ r ∈ row :: rest, Stored u id key r) :
    LookupStops u tx id key ((kernel o).run u (examine tx row rest)) := by
  have hrow := h row List.mem_cons_self
  by_cases hv : (row.value.isFrozen || row.value.tx == tx) = true
  · rw [examine, if_pos hv]
    refine run_version ⟨hrow, ?_⟩
    rcases (Bool.or_eq_true _ _).mp hv with hf | ht
    · exact Or.inl hf
    · exact Or.inr (Or.inl (beq_iff_eq.mp ht))
  · have hrun : ∀ k : Bool → Program Reply,
        (kernel o).run u (call (.isCommited row.value.tx) >>= k) =
          (kernel o).run u (k (u.txStorage.isCommited row.value.tx)) := fun _ => rfl
    rw [examine, if_neg hv, hrun]
    rcases hc : u.txStorage.isCommited row.value.tx with _ | _
    · exact run_answer fun r hr => h r (List.mem_cons_of_mem _ hr)
    · exact run_version ⟨hrow, Or.inr (Or.inr hc)⟩

theorem LookupTask.advance {t t' : Task Res Wait Exception Reply} (hlog : Logged u) (h : LookupTask u tx id key t)
    (ha : (kernel o).advance u t = some (u', t')) : LookupStops u tx id key (u', t') := by
  cases h with
  | ready =>
    have hrun : (kernel o).run u (handler (.lookup tx id key)) =
        (u, .suspended .io .io fun _ => answer tx ((u.storages id).elim [] fun l => l.scanKey key)) := rfl
    rw [← Option.some.inj ha, hrun]
    refine ⟨rfl, .scanned _ fun row hrow => hlog.stored_of_scan hrow, ?_⟩
    intro row hrow
    cases hrow
  | scanned rows hrows =>
    rw [← Option.some.inj ha]
    exact run_answer hrows
  | read row rest hrows =>
    rw [← Option.some.inj ha]
    exact run_examine hrows
  | finished result => cases ha

theorem LookupTask.stable {t : Task Res Wait Exception Reply} (h : LookupTask u tx id key t)
    (hs : ∀ row, Stored u id key row → Stored u' id key row) : LookupTask u' tx id key t := by
  cases h with
  | ready => exact .ready
  | scanned rows hrows => exact .scanned rows fun row hrow => hs row (hrows row hrow)
  | read row rest hrows => exact .read row rest fun r hr => hs r (hrows r hr)
  | finished result => exact .finished result

/-- No write of an event of a version of the key, or of the commit event of its writer, is under way. -/
def Settled (u : Context) (id key : Bytes) : Prop :=
  ∀ x ∈ u.walWriter.calls, x.2 ≠ .returned → ∀ row, Stored u id key row →
    x.1 ≠ upsertEvent id row ∧ x.1 ≠ commitEvent row.value.tx

theorem written_of_mem {event : LogEvent} (h : event ∈ events u)
    (hdone : ∀ x ∈ u.walWriter.calls, x.2 ≠ .returned → x.1 ≠ event) : Written u event := by
  obtain ⟨⟨event', call⟩, hin, rfl⟩ := List.mem_map.mp h
  by_cases hc : call = .returned
  · rw [hc] at hin
    exact hin
  · exact absurd rfl (hdone _ hin hc)

theorem Seen.written (hlog : Logged u) (h : Seen u tx id key row) (hother : row.value.tx ≠ tx)
    (hsettled : Settled u id key) : Written u (upsertEvent id row) ∧ Written u (commitEvent row.value.tx) := by
  obtain ⟨⟨l, hl, hin, hk⟩, hvis⟩ := h
  obtain ⟨hup, hfrozen⟩ := (hlog.records id l hl).records row hin
  have hcommit : u.txStorage.isCommited row.value.tx = true := by
    rcases hvis with hf | ht | hc
    · rw [hfrozen] at hf
      cases hf
    · exact absurd ht hother
    · exact hc
  refine ⟨written_of_mem hup ?_, written_of_mem (hlog.commits _ hcommit) ?_⟩
  · intro x hx hx'
    exact (hsettled x hx hx' row ⟨l, hl, hin, hk⟩).1
  · intro x hx hx'
    exact (hsettled x hx hx' row ⟨l, hl, hin, hk⟩).2

/-- The invariant of the server: the shared state is logged, every task does what its call may do, and the candidates of
every `Lookup` are in the storage. -/
def Reading (s : Server) : Prop :=
  Logged s.shared ∧ ∀ x ∈ s.tasks, x.2.All x.1.Allows ∧
    ∀ tx id key, x.1 = .lookup tx id key → LookupTask s.shared tx id key x.2

theorem Reading.step {s s' : Server} {action : Action} (h : Reading s) (hstep : s.step o action = some s') :
    Reading s' := by
  refine Pool.step_inv (P := Logged)
    (Q := fun u (c : Call) t => t.All c.Allows ∧ ∀ tx id key, c = .lookup tx id key → LookupTask u tx id key t)
    (R := fun u u' => ∀ id key row, Stored u id key row → Stored u' id key row) ?_ ?_ ?_ h hstep
  · rintro c -
    refine ⟨handler_allows c, ?_⟩
    rintro tx id key rfl
    exact .ready
  · intro c t u t' hlog hq ha
    obtain ⟨hstored, hall⟩ := advance_rel (R := fun u u' => ∀ id key row, Stored u id key row → Stored u' id key row)
      (fun _ _ _ _ h => h) (fun _ _ _ h h' id key row hs => h' id key row (h id key row hs))
      (fun _ _ _ _ he _ _ _ hs => hs.effect he) hq.1 ha
    refine ⟨advance_inv (fun _ _ _ hop h he => Logged.effect h hop he) hq.1 ha hlog, ⟨hall, ?_⟩, hstored⟩
    intro tx id key hc
    obtain ⟨hu, ht, -⟩ := (hq.2 tx id key hc).advance hlog ha
    exact ht.stable fun row hs => hstored id key row hs
  · intro u c t hstored hq
    exact ⟨hq.1, fun tx id key hc => (hq.2 tx id key hc).stable (hstored id key)⟩

theorem Reading.run {actions : List Action} {s : Server}
    (hr : Machine.run (Server.step o) (start (Db.init o (fun _ => none) Dir.empty)) actions = some s) : Reading s := by
  refine Machine.run_inv (G := fun _ _ => True) (P := fun _ s => Reading s) ?_ (fun _ _ _ _ h _ => h.step)
    (Machine.guarded_of_forall (fun _ _ _ => trivial) _) hr
  exact ⟨Logged.start o, fun x hx => absurd hx List.not_mem_nil⟩

/-- A `Lookup` that returns a version of another transaction, at a moment when no event of a version of the key, or
commit event of its writer, is being written: both events of the version have been written. -/
theorem visible_logged (o : Options) (actions : List Action) (s s' : Server)
    (hr : Machine.run (Server.step o) (start (Db.init o (fun _ => none) Dir.empty)) actions = some s) (i : ℕ)
    (hstep : s.step o (.resume i) = some s') (tx : TransactionId) (id key : Bytes)
    (t : Task Res Wait Exception Reply) (hcall : s.tasks[i]? = some (.lookup tx id key, t)) (row : Row)
    (hfound : s'.tasks[i]? = some (.lookup tx id key, .finished (.ok (.version (some row)))))
    (hother : row.value.tx ≠ tx) (hsettled : Settled s.shared id key) :
    Written s.shared (upsertEvent id row) ∧ Written s.shared (commitEvent row.value.tx) := by
  have h := Reading.run hr
  have hlookup := (h.2 _ (List.mem_of_getElem? hcall)).2 tx id key rfl
  obtain ⟨u, t', ha, -, hget⟩ := Pool.step_resume hcall hstep
  obtain ⟨-, -, hseen⟩ := hlookup.advance h.1 ha
  rw [hget] at hfound
  have ht : t' = .finished (.ok (.version (some row))) := (Prod.mk.inj (Option.some.inj hfound)).2
  exact (hseen row ht).written h.1 hother hsettled

def versionOf : Task Res Wait Exception Reply → Option Row
  | .finished (.ok (.version row)) => row
  | _ => none

theorem finished_of_versionOf {t : Task Res Wait Exception Reply} (h : versionOf t = some row) :
    t = .finished (.ok (.version (some row))) := by
  unfold versionOf at h
  split at h
  · rw [h]
  · cases h

/-- A run on fixed inputs with one more step, in which a task returns a version. -/
theorem exists_version {s₀ : Server} {actions : List Action} {i : ℕ} {T : Server → Server → Row → Bool}
    {Q : Server → Server → Task Res Wait Exception Reply → Row → Prop}
    (h : (Machine.run (Server.step o) s₀ actions).any (fun s => decide (s.tasks[i]?.map Prod.fst = some c ∧
      (s.step o (.resume i)).any (fun s' => (s'.tasks[i]?.bind fun x => versionOf x.2).any (T s s')) = true)) = true)
    (hq : ∀ s s' t row, Machine.run (Server.step o) s₀ actions = some s → s.step o (.resume i) = some s' →
      s.tasks[i]? = some (c, t) → s'.tasks[i]? = some (c, .finished (.ok (.version (some row)))) → T s s' row = true →
      Q s s' t row) :
    ∃ s s' t row, Machine.run (Server.step o) s₀ actions = some s ∧ s.step o (.resume i) = some s' ∧
      s.tasks[i]? = some (c, t) ∧ s'.tasks[i]? = some (c, .finished (.ok (.version (some row)))) ∧ Q s s' t row := by
  obtain ⟨s, hs, hp⟩ := Machine.exists_of_any h
  obtain ⟨hc, hv⟩ := of_decide_eq_true hp
  obtain ⟨⟨c', t⟩, hi, rfl⟩ := Option.map_eq_some_iff.mp hc
  rcases hstep : s.step o (.resume i) with _ | s'
  · rw [hstep] at hv
    cases hv
  obtain ⟨u, t', -, -, hget⟩ := Pool.step_resume hi hstep
  rw [hstep, Option.any_some, hget, Option.bind_some] at hv
  rcases hrow : versionOf t' with _ | row
  · rw [hrow] at hv
    cases hv
  · rw [hrow] at hv
    have hfound : s'.tasks[i]? = some (c', .finished (.ok (.version (some row)))) := by
      rw [hget, finished_of_versionOf hrow]
    exact ⟨s, s', t, row, hs, hstep, hi, hfound, hq s s' t row hs hstep hi hfound hv⟩

/-- Transaction 10 creates a table and commits, and transaction 11 sees the row of the catalog. -/
theorem visible_logged_after_commit :
    ∃ s s' t row, Machine.run (Server.step ⟨0⟩) (start (Db.init ⟨0⟩ (fun _ => none) Dir.empty))
        [.start .begin, .resume 0, .start .begin, .resume 1, .start (.createTable 10 [116] [7]), .resume 2, .resume 2,
          .resume 2, .resume 2, .resume 2, .start (.commit 10), .resume 3, .resume 3,
          .start (.lookup 11 kSysTables [116]), .resume 4, .resume 4] = some s ∧
      s.step ⟨0⟩ (.resume 4) = some s' ∧ s.tasks[4]? = some (.lookup 11 kSysTables [116], t) ∧
      s'.tasks[4]? = some (.lookup 11 kSysTables [116], .finished (.ok (.version (some row)))) ∧ row.value.tx = 10 ∧
      Written s.shared (upsertEvent kSysTables row) ∧ Written s.shared (commitEvent row.value.tx) := by
  refine exists_version (T := fun s _ row => row.value.tx == 10 && s.shared.walWriter.calls.all (·.2 == .returned))
    (by decide +kernel) ?_
  intro s s' t row hs hstep hcall hfound hrow
  rw [Bool.and_eq_true, beq_iff_eq, List.all_eq_true] at hrow
  obtain ⟨htx, hdone⟩ := hrow
  refine ⟨htx, visible_logged _ _ s s' hs 4 hstep 11 kSysTables [116] t hcall row hfound (by rw [htx]; decide) ?_⟩
  exact fun x hx hx' => absurd (beq_iff_eq.mp (hdone x hx)) hx'

def isPadding : WriteCall → Bool
  | .padding _ => true
  | _ => false

/-- The commit event of transaction 10 finds no room on the page. While its write waits for the padding, transaction 11
sees what transaction 10 has written. -/
theorem visible_before_commit_logged :
    ∃ s s' t row, Machine.run (Server.step ⟨10⟩) (start (Db.init ⟨10⟩ (fun _ => none) Dir.empty))
        [.start .begin, .resume 0, .start .begin, .resume 1, .start (.createTable 10 [116] [7]), .resume 2, .resume 2,
          .resume 2, .resume 2, .resume 2, .start (.upsert 10 [116] [1] (List.replicate 941 0)), .resume 3, .resume 3,
          .resume 3, .resume 3, .start (.upsert 10 [116] [2] (List.replicate 941 0)), .resume 4, .resume 4, .resume 4,
          .resume 4, .start (.upsert 10 [116] [3] (List.replicate 941 0)), .resume 5, .resume 5, .resume 5, .resume 5,
          .start (.upsert 10 [116] [4] (List.replicate 941 0)), .resume 6, .resume 6, .resume 6, .resume 6,
          .start (.commit 10), .resume 7, .start (.lookup 11 [7] [1]), .resume 8, .resume 8] = some s ∧
      s.step ⟨10⟩ (.resume 8) = some s' ∧ s.tasks[8]? = some (.lookup 11 [7] [1], t) ∧
      s'.tasks[8]? = some (.lookup 11 [7] [1], .finished (.ok (.version (some row)))) ∧ row.value.tx = 10 ∧
      ∀ x ∈ s'.shared.walWriter.calls, x.1 = commitEvent 10 → isPadding x.2 = true := by
  refine exists_version (T := fun _ s' row => row.value.tx == 10 &&
    s'.shared.walWriter.calls.all fun x => x.1 != commitEvent 10 || isPadding x.2) (by decide +kernel) ?_
  intro s s' t row hs hstep hcall hfound hrow
  rw [Bool.and_eq_true, beq_iff_eq, List.all_eq_true] at hrow
  obtain ⟨htx, hpad⟩ := hrow
  refine ⟨htx, fun x hx hcommit => ?_⟩
  simpa [hcommit] using hpad x hx

end Server

end StructureDb
