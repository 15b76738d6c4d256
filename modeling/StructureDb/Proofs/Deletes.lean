import StructureDb.Proofs.DeleteSteps
import StructureDb.Proofs.DbSteps

/-! `Delete` looks the key up before it asks for the lock. Its answer is right about the moment at which it writes the
tombstone when nobody changes what the transaction sees of the key until then; and of several such deletes of one row,
all of them committed, one finds it: who gets the lock later sees the tombstone of the first. -/

namespace StructureDb

namespace Deletes

open Coroutine
open Server (Res Wait Exception Reply Program kernel call)

variable {o : Options} {u u' : Context} {p p' : Tables} {a : Action} {i j : ℕ} {tx tx' : TransactionId} {id key : Bytes}
  {t t' : Task Res Wait Exception Reply}

def writes : Server.Op → Bool
  | .upsert _ _ _ => true
  | _ => false

/-- While the `Delete` of task `i` is on its way to its tombstone, no other coroutine changes which versions of the key
its transaction sees. -/
def undisturbed (o : Options) (i : ℕ) (p : Tables) : Action → Bool
  | .start _ => true
  | .resume n =>
    n == i || match p.tasks[i]? with
      | some (.delete tx id key, .suspended op _ _) =>
        writes op || (step o p (.resume n)).all fun p' => decide (seen p'.shared tx id key = seen p.shared tx id key)
      | _ => true

/-- A step of the `Delete` of task `i`: it answers what `Lookup` would have returned just then, and a tombstone is
written in this step if that was a value. -/
def Decided (o : Options) (db : Db) (actions : List Action) (i : ℕ) (tx : TransactionId) (id key : Bytes)
    (found : Bool) : Prop :=
  ∃ before after q q', actions = before ++ .resume i :: after ∧ Machine.run (step o) (start db) before = some q ∧
    step o q (.resume i) = some q' ∧ found = (lookup q.shared tx id key).isSome ∧
    ∃ seqNo, versions q'.shared id key =
      (if found then [⟨key, seqNo, ⟨tx, true, false, []⟩⟩] else []) ++ versions q.shared id key

theorem Decided.append {db : Db} {actions : List Action} {found : Bool} (h : Decided o db actions i tx id key found)
    (a : Action) : Decided o db (actions ++ [a]) i tx id key found := by
  obtain ⟨before, after, q, q', rfl, h⟩ := h
  exact ⟨before, after ++ [a], q, q', by simp, h⟩

inductive Answers (tx : TransactionId) (id key : Bytes) : Bool → Task Res Wait Exception Reply → Prop
  | wrote {t : Task Res Wait Exception Reply} (h : Wrote tx id key t) : Answers tx id key true t
  | absent : Answers tx id key false (.finished (.ok (.deleted false)))

theorem Answers.advance {found : Bool} (h : Answers tx id key found t)
    (ha : (kernel o).advance u t = some (u', t')) : Answers tx id key found t' := by
  cases h with
  | wrote h => exact .wrote (h.advance ha)
  | absent => cases ha

/-- Where a `Delete` is after a step; `D` is known of an answer that it had before. -/
inductive Progress (p p' : Tables) (a : Action) (i : ℕ) (tx : TransactionId) (id key : Bytes) (D : Bool → Prop)
    (t' : Task Res Wait Exception Reply) : Prop
  | undecided (stage : Stage p'.shared tx id key t')
  | decided (found : Bool) (seqNo : ℕ) (own : a = .resume i) (answer : found = (lookup p.shared tx id key).isSome)
      (tombstone : versions p'.shared id key =
        (if found then [⟨key, seqNo, ⟨tx, true, false, []⟩⟩] else []) ++ versions p.shared id key)
      (locks : found = true → p.shared.txStorage.rowLocks key = none ∧ p'.shared.txStorage.rowLocks key = some tx)
      (answers : Answers tx id key found t')
  | later (found : Bool) (t : Task Res Wait Exception Reply) (before : p.tasks[i]? = some (.delete tx id key, t))
      (known : D found) (answered : Answers tx id key found t) (answers : Answers tx id key found t')

theorem step_grows (ho : Ordered p.shared) (hs : step o p a = some p') : Grows p.shared p'.shared := by
  rcases Pool.step_cases hs with ⟨l, -, rfl⟩ | ⟨n, l, t, s, t', pre, post, -, -, ha, -, rfl⟩
  · exact .of_storages ho rfl
  · exact .advance ho ha

theorem Outcome.progress {D : Bool → Prop} (h : Outcome p.shared tx id key p'.shared t') :
    Progress p p' (.resume i) i tx id key D t' := by
  cases h with
  | undecided _ hs hstatus hstage => exact .undecided hstage
  | absent hsame hgone =>
    refine .decided false 0 rfl (by rw [hgone]; rfl) (by rw [hsame]; rfl) (fun hf => by cases hf) .absent
  | written _ seqNo hfound hfree hlocked htomb hwrote =>
    exact .decided true seqNo rfl hfound.symm htomb (fun _ => ⟨hfree, hlocked⟩) (.wrote hwrote)

/-- What another coroutine does leaves a `Delete` where it is. -/
theorem Stage.other {n : ℕ} (ho : Ordered p.shared) (hg : undisturbed o i p (.resume n) = true) (hn : n ≠ i)
    (hs : step o p (.resume n) = some p') (ht : p.tasks[i]? = some (.delete tx id key, t))
    (h : Stage p.shared tx id key t) : Stage p'.shared tx id key t := by
  have hgrows := (step_grows ho hs).versions id key
  have hseen {op : Server.Op} {b : Wait} {k : Res op → Program Reply} (hsus : t = .suspended op b k)
    (hop : writes op = false) :
      seen p'.shared tx id key = seen p.shared tx id key := by
    subst hsus
    simpa [undisturbed, hn, ht, hop, hs] using hg
  cases h with
  | ready => exact .ready
  | scanned rows hrows => exact Stage.stable (.scanned rows hrows) hgrows (hseen rfl rfl)
  | read row rest hrows => exact Stage.stable (.read row rest hrows) hgrows (hseen rfl rfl)
  | locking b hl => exact Stage.stable (.locking b hl) hgrows (hseen rfl rfl)

theorem progress {D : Bool → Prop} (ho : Ordered p.shared) (hg : undisturbed o i p a = true)
    (hs : step o p a = some p')
    (hprev : ∀ t, p.tasks[i]? = some (.delete tx id key, t) →
      Stage p.shared tx id key t ∨ ∃ found, D found ∧ Answers tx id key found t)
    (ht' : p'.tasks[i]? = some (.delete tx id key, t')) : Progress p p' a i tx id key D t' := by
  cases a with
  | start l =>
    obtain ⟨hshared, htasks⟩ := Pool.step_start hs
    rcases htasks i _ ht' with ht | heq
    · rcases hprev t' ht with hstage | ⟨found, hd, hans⟩
      · exact .undecided (hshared ▸ hstage)
      · exact .later found t' ht hd hans hans
    · obtain ⟨rfl, rfl⟩ := Prod.mk.inj heq
      exact .undecided .ready
  | resume n =>
    by_cases hn : n = i
    · subst hn
      rcases hget : p.tasks[n]? with _ | ⟨c, t⟩
      · have hnone : step o p (.resume n) = none := by rw [step, Pool.step, hget]
        rw [hs] at hnone
        cases hnone
      · obtain ⟨s, t'', ha, rfl, htask⟩ := Pool.step_resume hget hs
        obtain ⟨rfl, rfl⟩ := Prod.mk.inj (Option.some.inj (htask.symm.trans ht'))
        rcases hprev t hget with hstage | ⟨found, hd, hans⟩
        · exact (hstage.advance ho ha).progress
        · exact .later found t hget hd hans (hans.advance ha)
    · have ht : p.tasks[i]? = some (.delete tx id key, t') := (Pool.step_other hs (Ne.symm hn)).symm.trans ht'
      rcases hprev t' ht with hstage | ⟨found, hd, hans⟩
      · exact .undecided (hstage.other ho hg hn hs ht)
      · exact .later found t' ht hd hans hans

theorem run_decided {db : Db} (ho : db.Ordered) {actions : List Action}
    (hg : Machine.Guarded (step o) (fun p a => undisturbed o i p a = true) (start db) actions)
    (hr : Machine.run (step o) (start db) actions = some p) (ht : p.tasks[i]? = some (.delete tx id key, t)) :
    Stage p.shared tx id key t ∨ ∃ found, Decided o db actions i tx id key found ∧ Answers tx id key found t := by
  suffices h : Machine.run (step o) (start db) actions = some p ∧ Ordered p.shared ∧
      ∀ t, p.tasks[i]? = some (.delete tx id key, t) →
        Stage p.shared tx id key t ∨ ∃ found, Decided o db actions i tx id key found ∧ Answers tx id key found t from
    h.2.2 t ht
  refine Machine.run_inv (P := fun tr (p : Tables) => Machine.run (step o) (start db) tr = some p ∧ Ordered p.shared ∧
    ∀ t, p.tasks[i]? = some (.delete tx id key, t) →
      Stage p.shared tx id key t ∨ ∃ found, Decided o db tr i tx id key found ∧ Answers tx id key found t)
    ⟨rfl, ho, fun t ht => by cases ht⟩ ?_ hg hr
  rintro tr q a q' ⟨hrun, hord, htask⟩ hundisturbed hstep
  refine ⟨Machine.run_append hrun (Machine.run_cons.mpr ⟨q', hstep, rfl⟩), (step_grows hord hstep).ordered,
    fun t' ht' => ?_⟩
  cases progress hord hundisturbed hstep htask ht' with
  | undecided hstage => exact Or.inl hstage
  | decided found seqNo hown hanswer htomb _ hans =>
    subst hown
    exact Or.inr ⟨found, ⟨tr, [], q, q', rfl, hrun, hstep, hanswer, seqNo, htomb⟩, hans⟩
  | later found t _ hdecided _ hans => exact Or.inr ⟨found, hdecided.append a, hans⟩

section Locks

/-- `Session::Start` lets a request in only while its transaction is started. -/
def checked (p : Tables) : Action → Bool
  | .start _ => true
  | .resume n =>
    match p.tasks[n]? with
    | some (.session (.commit tx), .ready _) => p.shared.txStorage.isStarted tx
    | some (.session (.rollback tx), .ready _) => p.shared.txStorage.isStarted tx
    | _ => true

def Ended (u : Context) (tx : TransactionId) : Prop :=
  u.txStorage.txStatus tx = some .commited ∨ u.txStorage.txStatus tx = some .rollbacked

def Known (u : Context) : Prop := ∀ tx, u.txStorage.txStatus tx ≠ none → tx < u.txStorage.nextTxId

structure Keeps (u u' : Context) : Prop where
  known : Known u'
  ended : ∀ tx, Ended u tx → u'.txStorage.txStatus tx = u.txStorage.txStatus tx
  locks : ∀ key tx, u.txStorage.rowLocks key = some tx → u'.txStorage.rowLocks key = some tx ∨ Ended u' tx

theorem Keeps.stays (h : Keeps u u') (he : Ended u tx) : Ended u' tx := by
  unfold Ended
  rw [h.ended tx he]
  exact he

theorem Keeps.trans {u'' : Context} (h : Keeps u u') (h' : Keeps u' u'') : Keeps u u'' := by
  refine ⟨h'.known, fun tx he => ?_, fun key tx hl => ?_⟩
  · rw [h'.ended tx (h.stays he), h.ended tx he]
  · rcases h.locks key tx hl with hl | he
    · exact h'.locks key tx hl
    · exact Or.inr (h'.stays he)

theorem Keeps.of_same (hk : Known u) (hstatus : u'.txStorage.txStatus = u.txStorage.txStatus)
    (hnext : u'.txStorage.nextTxId = u.txStorage.nextTxId)
    (hlocks : ∀ key tx, u.txStorage.rowLocks key = some tx → u'.txStorage.rowLocks key = some tx ∨ Ended u' tx) :
    Keeps u u' := by
  refine ⟨fun tx htx => ?_, fun tx _ => by rw [hstatus], hlocks⟩
  rw [hstatus] at htx
  rw [hnext]
  exact hk tx htx

theorem Keeps.setStatus (hk : Known u) (hs : u.txStorage.txStatus tx = some .started) (status : Status)
    (hu : u'.txStorage = u.txStorage.setStatus tx status) : Keeps u u' := by
  refine ⟨fun tx' htx => ?_, fun tx' he => ?_, fun key tx' hl => Or.inl (by rw [hu]; exact hl)⟩
  · rw [hu] at htx ⊢
    by_cases hne : tx' = tx
    · subst hne
      exact hk tx' (by rw [hs]; exact Option.some_ne_none _)
    · rw [TxStorage.setStatus_txStatus_of_ne _ hne] at htx
      exact hk tx' htx
  · have hne : tx' ≠ tx := by
      rintro rfl
      rcases he with he | he <;> rw [hs] at he <;> cases he
    rw [hu, TxStorage.setStatus_txStatus_of_ne _ hne]

theorem Keeps.release (hk : Known u) (he : Ended u tx) (hstatus : u'.txStorage = u.txStorage.releaseAllLocks tx) :
    Keeps u u' := by
  refine .of_same hk (by rw [hstatus]; rfl) (by rw [hstatus]; rfl) fun key tx' hl => ?_
  by_cases hne : tx' = tx
  · subst hne
    right
    unfold Ended
    rw [hstatus]
    exact he
  · left
    rw [hstatus, TxStorage.releaseAllLocks_rowLocks, if_neg, hl]
    rintro ⟨-, hheld⟩
    exact hne (Option.some.inj (hl.symm.trans hheld))

def Mild : Server.Op → Prop
  | .setStatus _ _ => False
  | .logCommit _ => False
  | .releaseAllLocks _ => False
  | _ => True

theorem Keeps.effect {op : Server.Op} (hop : Mild op) (hk : Known u) (he : Server.Effect o u op u') : Keeps u u' := by
  cases he with
  | begin =>
    refine ⟨fun tx htx => ?_, fun tx hended => ?_, fun _ _ hl => Or.inl hl⟩
    · by_cases hne : tx = u.txStorage.nextTxId
      · subst hne
        exact Nat.lt_succ_self _
      · dsimp only at htx
        rw [TxStorage.begin_txStatus_of_ne hne] at htx
        exact (hk tx htx).trans (Nat.lt_succ_self _)
    · refine TxStorage.begin_txStatus_of_ne ?_
      refine (hk tx ?_).ne
      rcases hended with h | h <;> rw [h] <;> exact Option.some_ne_none _
  | setStatus => exact hop.elim
  | logCommit => exact hop.elim
  | release => exact hop.elim
  | grant t rowKey txStorage ha =>
    obtain ⟨-, hnext, hstatus, -, -⟩ := TxStorage.acquireRowLock_spec ha
    exact .of_same hk hstatus hnext fun _ _ hl => Or.inl (TxStorage.acquireRowLock_mono ha hl)
  | _ => exact .of_same hk rfl rfl fun _ _ hl => Or.inl hl

theorem mild_reads : Server.Reads Mild := ⟨fun _ _ => trivial, fun _ => trivial, fun _ => trivial, trivial⟩

theorem mild_writesRow (tx : TransactionId) (id key : Bytes) : Server.WritesRow Mild tx id key :=
  ⟨mild_reads, trivial, fun _ _ _ => trivial⟩

inductive Sound (u : Context) : Call → Task Res Wait Exception Reply → Prop
  | ready (c : Call) : Sound u c (.ready (handler c))
  | mild (c : Call) (t : Task Res Wait Exception Reply) (h : t.All Mild) : Sound u c t
  | committing (tx : TransactionId) (b : Wait) (h : Ended u tx) :
      Sound u (.session (.commit tx)) (.suspended (.logCommit tx) b fun _ =>
        call (.releaseAllLocks tx) >>= fun _ => pure .done)

theorem handler_mild (c : Call) (hcommit : ∀ tx, c ≠ .session (.commit tx))
    (hrollback : ∀ tx, c ≠ .session (.rollback tx)) :
    (handler c).All Mild := by
  cases c with
  | delete tx id key => exact (mild_writesRow tx id key).delete.bind fun _ => trivial
  | session c =>
    cases c with
    | begin => exact (Server.all_call trivial).bind fun _ => trivial
    | commit tx => exact absurd rfl (hcommit tx)
    | rollback tx => exact absurd rfl (hrollback tx)
    | acquireRowLock tx rowKey => exact (Server.all_call trivial).bind fun _ => trivial
    | lookup tx id key => exact (mild_reads.lookup tx id key).bind fun _ => trivial
    | upsert tx table key value =>
      exact Server.all_onTable mild_reads fun id => ((mild_writesRow tx id key).upsert value).bind fun _ => trivial
    | delete tx table key =>
      exact Server.all_onTable mild_reads fun id => (mild_writesRow tx id key).delete.bind fun _ => trivial
    | createTable tx name id =>
      exact ((mild_writesRow tx _ name).createTable trivial).bind fun _ => trivial
    | dropTable tx name =>
      exact Coro.All.bind ((mild_writesRow tx _ name).deleteStorage.handle fun _ => trivial) fun _ => trivial

theorem advance_mild {c : Call} (hk : Known u) (h : t.All Mild) (ha : (kernel o).advance u t = some (u', t')) :
    Keeps u u' ∧ Sound u' c t' := by
  obtain ⟨hkeeps, hall⟩ := Server.advance_rel (R := fun u u' => Known u → Keeps u u')
    (fun _ hk => .of_same hk rfl rfl fun _ _ hl => Or.inl hl)
    (fun _ _ _ h h' hk => (h hk).trans (h' (h hk).known)) (fun _ _ _ hop he hk => .effect hop hk he) h ha
  exact ⟨hkeeps hk, .mild c t' hall⟩

theorem Keeps.releaseAllLocks (hk : Known u) (he : Ended u tx) : Keeps u (Server.releaseAllLocks u tx) := by
  unfold Server.releaseAllLocks
  split_ifs
  · exact .of_same hk rfl rfl fun _ _ hl => Or.inl hl
  · exact .release hk he rfl

theorem advance_commit (hk : Known u) (hs : u.txStorage.txStatus tx = some .started)
    (ha : (kernel o).advance u (.ready (handler (.session (.commit tx)))) = some (u', t')) :
    Keeps u u' ∧ Sound u' (.session (.commit tx)) t' := by
  cases ha
  have hu : (Server.logCommit u tx).1.txStorage = u.txStorage.setStatus tx .commited := rfl
  refine ⟨.setStatus hk hs .commited hu, .committing tx _ (Or.inl ?_)⟩
  exact (congrArg (TxStorage.txStatus · tx) hu).trans (TxStorage.setStatus_txStatus_self ..)

theorem advance_rollback (hk : Known u) (hs : u.txStorage.txStatus tx = some .started)
    (ha : (kernel o).advance u (.ready (handler (.session (.rollback tx)))) = some (u', t')) :
    Keeps u u' ∧ Sound u' (.session (.rollback tx)) t' := by
  cases ha
  have hset : Keeps u { u with txStorage := u.txStorage.setStatus tx .rollbacked } := .setStatus hk hs .rollbacked rfl
  refine ⟨hset.trans (.releaseAllLocks hset.known (Or.inr ?_)), .mild _ _ trivial⟩
  exact TxStorage.setStatus_txStatus_self ..

theorem advance_committing {b : Wait} (hk : Known u) (he : Ended u tx)
    (ha : (kernel o).advance u (.suspended (.logCommit tx) b fun _ =>
      call (.releaseAllLocks tx) >>= fun _ => pure .done) = some (u', t')) :
    Keeps u u' ∧ Sound u' (.session (.commit tx)) t' := by
  rw [Kernel.advance] at ha
  rcases hw : (kernel o).wake u (.logCommit tx) b with _ | ⟨s, x⟩
  · rw [hw] at ha
    cases ha
  · have hkeeps : Keeps u s := by
      cases b with
      | write n =>
        have heffect : Server.Effect o u .io s := Server.resumeWrite_effect .io hw
        exact Keeps.effect (show Mild .io from trivial) hk heffect
      | timer n => cases hw
      | io => cases hw
    rw [hw] at ha
    cases x with
    | inl r =>
      cases ha
      exact ⟨hkeeps.trans (.releaseAllLocks hkeeps.known (hkeeps.stays he)), .mild _ _ trivial⟩
    | inr b' =>
      cases ha
      exact ⟨hkeeps, .committing tx b' (hkeeps.stays he)⟩

theorem Sound.advance {c : Call} (h : Sound u c t) (hk : Known u)
    (hc : ∀ tx program, t = .ready program → c = .session (.commit tx) ∨ c = .session (.rollback tx) →
      u.txStorage.txStatus tx = some .started)
    (ha : (kernel o).advance u t = some (u', t')) : Keeps u u' ∧ Sound u' c t' := by
  cases h with
  | mild _ _ hall => exact advance_mild hk hall ha
  | committing tx b he => exact advance_committing hk he ha
  | ready =>
    by_cases hcommit : ∃ tx, c = .session (.commit tx)
    · obtain ⟨tx, rfl⟩ := hcommit
      exact advance_commit hk (hc tx _ rfl (Or.inl rfl)) ha
    by_cases hrollback : ∃ tx, c = .session (.rollback tx)
    · obtain ⟨tx, rfl⟩ := hrollback
      exact advance_rollback hk (hc tx _ rfl (Or.inr rfl)) ha
    have hall : (Task.ready (handler c) : Task Res Wait Exception Reply).All Mild :=
      handler_mild c (fun tx heq => hcommit ⟨tx, heq⟩) fun tx heq => hrollback ⟨tx, heq⟩
    exact advance_mild hk hall ha

theorem Sound.stable {c : Call} (h : Sound u c t) (hkeeps : Keeps u u') : Sound u' c t := by
  cases h with
  | ready => exact .ready c
  | mild _ _ hall => exact .mild c t hall
  | committing tx b he => exact .committing tx b (hkeeps.stays he)

structure Base (p : Tables) : Prop where
  ordered : Ordered p.shared
  known : Known p.shared
  tasks : ∀ x ∈ p.tasks, Sound p.shared x.1 x.2

theorem base_start {dirs : Bytes → Option (Dir Bytes (List Row))} {wal : Dir Bytes (List Event)}
    (ho : (Db.init o dirs wal).Ordered) : Base (start (Db.init o dirs wal)) := by
  refine ⟨ho, fun tx htx => ?_, fun x hx => absurd hx List.not_mem_nil⟩
  have htx' : (Db.init o dirs wal).txStorage.txStatus tx ≠ none := htx
  show tx < (Db.init o dirs wal).txStorage.nextTxId
  rw [Db.init_txStorage] at htx' ⊢
  rw [TxStorage.foldl_recoverFromLog_txStatus] at htx'
  split_ifs at htx' with hmem
  · exact ((TxStorage.foldl_recoverFromLog_nextTxId _ _ _).mp le_rfl).2 tx hmem
  · exact absurd rfl htx'

theorem Base.step (h : Base p) (hg : checked p a = true) (hs : step o p a = some p') :
    Base p' ∧ Keeps p.shared p'.shared := by
  have hgrows := step_grows h.ordered hs
  rcases Pool.step_cases hs with ⟨l, rfl, rfl⟩ | ⟨n, c, t, s, t', pre, post, rfl, hget, ha, htasks, rfl⟩
  · refine ⟨⟨hgrows.ordered, h.known, fun x hx => ?_⟩, .of_same h.known rfl rfl fun _ _ hl => Or.inl hl⟩
    rcases List.mem_append.mp hx with hx | hx
    · exact h.tasks x hx
    · rw [List.mem_singleton.mp hx]
      exact .ready l
  · have hstarted : ∀ tx program, t = .ready program → c = .session (.commit tx) ∨ c = .session (.rollback tx) →
        p.shared.txStorage.txStatus tx = some .started := by
      rintro tx program rfl (rfl | rfl)
      · exact TxStorage.isStarted_iff.mp (by simpa [checked, hget] using hg)
      · exact TxStorage.isStarted_iff.mp (by simpa [checked, hget] using hg)
    obtain ⟨hkeeps, hown⟩ := (h.tasks (c, t) (List.mem_of_getElem? hget)).advance h.known hstarted ha
    refine ⟨⟨hgrows.ordered, hkeeps.known, fun x hx => ?_⟩, hkeeps⟩
    rcases List.mem_append.mp hx with hx | hx
    · exact (h.tasks x (htasks ▸ List.mem_append_left _ hx)).stable hkeeps
    · rcases List.mem_cons.mp hx with rfl | hx
      · exact hown
      · exact (h.tasks x (htasks ▸ List.mem_append_right _ (List.mem_cons_of_mem _ hx))).stable hkeeps

end Locks

section Pairs

variable {old : List Row}

/-- The tombstone of `tx` is among the versions above `old`, and its lock is held until `tx` ends. -/
def Marked (old : List Row) (u : Context) (tx : TransactionId) (id key : Bytes) : Prop :=
  (∃ news, versions u id key = news ++ old ∧ ∃ d ∈ news, d.value = ⟨tx, true, false, []⟩) ∧
    (u.txStorage.rowLocks key = some tx ∨ Ended u tx)

/-- A value was written above `old`, or one of the two was rolled back. -/
def Apart (old : List Row) (u : Context) (tx tx' : TransactionId) (id key : Bytes) : Prop :=
  (∃ news, versions u id key = news ++ old ∧ ∃ r ∈ news, r.value.isDeleted = false) ∨
    u.txStorage.txStatus tx = some .rollbacked ∨ u.txStorage.txStatus tx' = some .rollbacked

theorem news_mono {P : Row → Prop} (hg : Grows u u')
    (h : ∃ news, versions u id key = news ++ old ∧ ∃ r ∈ news, P r) :
    ∃ news, versions u' id key = news ++ old ∧ ∃ r ∈ news, P r := by
  obtain ⟨news, hnews, r, hr, hP⟩ := h
  obtain ⟨more, hmore⟩ := hg.versions id key
  exact ⟨more ++ news, by rw [← hmore, hnews, List.append_assoc], r, List.mem_append_right _ hr, hP⟩

theorem Marked.mono (h : Marked old u tx id key) (hg : Grows u u') (hk : Keeps u u') : Marked old u' tx id key := by
  refine ⟨news_mono hg h.1, ?_⟩
  rcases h.2 with hl | he
  · exact hk.locks key tx hl
  · exact Or.inr (hk.stays he)

theorem Apart.mono (h : Apart old u tx tx' id key) (hg : Grows u u') (hk : Keeps u u') :
    Apart old u' tx tx' id key := by
  rcases h with hnews | hrolled | hrolled
  · exact Or.inl (news_mono hg hnews)
  · exact Or.inr (Or.inl (by rw [hk.ended tx (Or.inr hrolled), hrolled]))
  · exact Or.inr (Or.inr (by rw [hk.ended tx' (Or.inr hrolled), hrolled]))

theorem Apart.symm (h : Apart old u tx tx' id key) : Apart old u tx' tx id key := h.imp_right Or.symm

/-- Who finds a value and the lock free, where the first has its tombstone: the first has committed, so it shows, and
the value is above it. -/
theorem Marked.apart (h : Marked old u tx id key) (hfree : u.txStorage.rowLocks key = none)
    (hl : (lookup u tx' id key).isSome = true) : Apart old u tx tx' id key := by
  obtain ⟨⟨news, hnews, d, hd, hdv⟩, hlock⟩ := h
  rw [hfree] at hlock
  rcases hlock with hlock | hcommitted | hrolled
  · cases hlock
  · left
    have hvis : TransactionalTable.visible u.txStorage tx' d.value = true := by
      rw [TransactionalTable.visible, hdv, TxStorage.isCommited_iff.mpr hcommitted, Bool.or_true]
    rw [lookup, TransactionalTable.lookupRows_eq, TransactionalTable.firstVisible, hnews, List.find?_append] at hl
    rcases hfind : news.find? (fun row => TransactionalTable.visible u.txStorage tx' row.value) with _ | r
    · exact absurd hvis (List.find?_eq_none.mp hfind d hd)
    · rw [hfind, Option.some_or, Option.bind_some, TransactionalValue.payload] at hl
      refine ⟨news, hnews, r, List.mem_of_find?_eq_some hfind, ?_⟩
      split_ifs at hl with hdel
      · cases hl
      · exact Bool.eq_false_iff.mpr hdel
  · exact Or.inr (Or.inl hrolled)

/-- The `Delete` of task `i`, started after the versions were `old`. -/
def Follows (old : List Row) (p : Tables) (i : ℕ) (tx : TransactionId) (id key : Bytes) : Prop :=
  ∀ t, p.tasks[i]? = some (.delete tx id key, t) → Stage p.shared tx id key t ∨
    ∃ found, (found = true → Marked old p.shared tx id key) ∧ Answers tx id key found t

def WroteAt (p : Tables) (i : ℕ) (tx : TransactionId) (id key : Bytes) : Prop :=
  ∃ t, p.tasks[i]? = some (.delete tx id key, t) ∧ Wrote tx id key t

theorem Stage.not_wrote (h : Stage u tx id key t) : ¬ Wrote tx id key t := by
  cases h <;> intro hw <;> cases hw

theorem Follows.marked (h : Follows old p i tx id key) (hw : WroteAt p i tx id key) :
    Marked old p.shared tx id key := by
  obtain ⟨t, ht, hwrote⟩ := hw
  rcases h t ht with hstage | ⟨found, hmarked, hans⟩
  · exact absurd hwrote hstage.not_wrote
  · cases hans with
    | wrote => exact hmarked rfl
    | absent => cases hwrote

/-- One step of one `Delete`: when its tombstone comes, it had found a value and the lock free. -/
theorem Follows.step (h : Follows old p i tx id key) (hb : Base p) (hold : old <:+ versions p.shared id key)
    (hg : undisturbed o i p a = true) (hc : checked p a = true) (hs : step o p a = some p') :
    Follows old p' i tx id key ∧ (WroteAt p' i tx id key → WroteAt p i tx id key ∨
      a = .resume i ∧ (lookup p.shared tx id key).isSome = true ∧ p.shared.txStorage.rowLocks key = none) := by
  obtain ⟨-, hkeeps⟩ := hb.step hc hs
  have hgrows := step_grows hb.ordered hs
  refine ⟨fun t' ht' => ?_, fun ⟨t', ht', hwrote⟩ => ?_⟩
  · cases progress hb.ordered hg hs h ht' with
    | undecided hstage => exact Or.inl hstage
    | decided found seqNo hown hanswer htomb hlocks hans =>
      refine Or.inr ⟨found, fun hf => ?_, hans⟩
      subst hf
      obtain ⟨news, hnews⟩ := hold
      refine ⟨⟨⟨key, seqNo, ⟨tx, true, false, []⟩⟩ :: news, ?_, _, List.mem_cons_self, rfl⟩,
        Or.inl (hlocks rfl).2⟩
      rw [htomb, ← hnews]
      rfl
    | later found t _ hmarked _ hans => exact Or.inr ⟨found, fun hf => (hmarked hf).mono hgrows hkeeps, hans⟩
  · cases progress hb.ordered hg hs h ht' with
    | undecided hstage => exact absurd hwrote hstage.not_wrote
    | decided found seqNo hown hanswer htomb hlocks hans =>
      cases hans with
      | wrote => exact Or.inr ⟨hown, hanswer.symm, (hlocks rfl).1⟩
      | absent => cases hwrote
    | later found t ht _ hbefore hans =>
      cases hans with
      | wrote =>
        cases hbefore with
        | wrote hw => exact Or.inl ⟨t, ht, hw⟩
      | absent => cases hwrote

structure Rivals (old : List Row) (p : Tables) (i j : ℕ) (tx tx' : TransactionId) (id key : Bytes) : Prop where
  base : Base p
  above : old <:+ versions p.shared id key
  left : Follows old p i tx id key
  right : Follows old p j tx' id key
  apart : WroteAt p i tx id key → WroteAt p j tx' id key → Apart old p.shared tx tx' id key

theorem Rivals.step (h : Rivals old p i j tx tx' id key) (hij : i ≠ j) (hi : undisturbed o i p a = true)
    (hj : undisturbed o j p a = true) (hc : checked p a = true) (hs : step o p a = some p') :
    Rivals old p' i j tx tx' id key := by
  obtain ⟨hbase, hkeeps⟩ := h.base.step hc hs
  have hgrows := step_grows h.base.ordered hs
  obtain ⟨hleft, hwi⟩ := h.left.step h.base h.above hi hc hs
  obtain ⟨hright, hwj⟩ := h.right.step h.base h.above hj hc hs
  refine ⟨hbase, h.above.trans (hgrows.versions id key), hleft, hright, fun hi' hj' => ?_⟩
  refine Apart.mono ?_ hgrows hkeeps
  rcases hwi hi', hwj hj' with ⟨hi₀ | ⟨ha, hl, hfree⟩, hj₀ | ⟨ha', hl', hfree'⟩⟩
  · exact h.apart hi₀ hj₀
  · exact (h.left.marked hi₀).apart hfree' hl'
  · exact ((h.right.marked hj₀).apart hfree hl).symm
  · rw [ha] at ha'
    injection ha' with heq
    exact absurd heq hij

end Pairs

/-- `Delete` answers true exactly if `Lookup` would have returned a value at the moment of its tombstone, for a
`Delete` that nobody disturbs; and of two such deletes of a key whose versions since are all tombstones, both of them
committed, at most one answers true. -/
theorem delete_reports (o : Options) (dirs : Bytes → Option (Dir Bytes (List Row))) (wal : Dir Bytes (List Event))
    (ho : (Db.init o dirs wal).Ordered) (actions : List Action) (p : Tables)
    (hr : Machine.run (step o) (start (Db.init o dirs wal)) actions = some p) :
    (∀ i tx id key found,
      Machine.Guarded (step o) (fun p a => undisturbed o i p a = true) (start (Db.init o dirs wal)) actions →
      p.tasks[i]? = some (.delete tx id key, .finished (.ok (.deleted found))) →
      Decided o (Db.init o dirs wal) actions i tx id key found) ∧
    ∀ later p', Machine.Guarded (step o) (fun p a => checked p a = true) (start (Db.init o dirs wal)) actions →
      Machine.run (step o) p later = some p' → ∀ i j tx tx' id key, p.tasks.length ≤ i → p.tasks.length ≤ j →
      Machine.Guarded (step o)
        (fun p a => checked p a = true ∧ undisturbed o i p a = true ∧ undisturbed o j p a = true) p later →
      p'.tasks[i]? = some (.delete tx id key, .finished (.ok (.deleted true))) →
      p'.tasks[j]? = some (.delete tx' id key, .finished (.ok (.deleted true))) →
      p'.shared.txStorage.isCommited tx = true → p'.shared.txStorage.isCommited tx' = true →
      (∃ news, versions p'.shared id key = news ++ versions p.shared id key ∧ ∀ row ∈ news,
        row.value.isDeleted = true) →
      i = j := by
  refine ⟨fun i tx id key found hg ht => ?_,
    fun later p' hchecked hlater i j tx tx' id key hi hj hg hti htj hc hc' hnews => ?_⟩
  · rcases run_decided ho hg hr ht with hstage | ⟨found', hdecided, hans⟩
    · cases hstage
    · cases hans with
      | wrote hw =>
        cases hw
        exact hdecided
      | absent => exact hdecided
  · by_contra hij
    have hbase : Base p :=
      Machine.run_inv (P := fun _ p => Base p) (base_start ho) (fun _ _ _ _ h hg hs => (h.step hg hs).1)
      hchecked hr
    have habsent {n : ℕ} (hn : p.tasks.length ≤ n) : p.tasks[n]? = none := List.getElem?_eq_none hn
    have hstart : Rivals (versions p.shared id key) p i j tx tx' id key := by
      refine ⟨hbase, List.suffix_refl _, fun t ht => ?_, fun t ht => ?_, fun ⟨t, ht, _⟩ => ?_⟩
      · rw [habsent hi] at ht
        cases ht
      · rw [habsent hj] at ht
        cases ht
      · rw [habsent hi] at ht
        cases ht
    have hrivals := Machine.run_inv (P := fun _ q => Rivals (versions p.shared id key) q i j tx tx' id key) hstart
      (fun _ _ _ _ h hg hs => h.step hij hg.2.1 hg.2.2 hg.1 hs) hg hlater
    rcases hrivals.apart ⟨_, hti, .finished⟩ ⟨_, htj, .finished⟩ with ⟨news, hnews', r, hr, hlive⟩ |
      hrolled | hrolled
    · obtain ⟨news', heq, hall⟩ := hnews
      obtain rfl := List.append_cancel_right (heq.symm.trans hnews')
      rw [hall r hr] at hlive
      cases hlive
    · rw [TxStorage.isCommited_iff, hrolled] at hc
      cases hc
    · rw [TxStorage.isCommited_iff, hrolled] at hc'
      cases hc'

def answerOf (p : Tables) (i : ℕ) : Option (Call × Bool) :=
  match p.tasks[i]? with
  | some (c, .finished (.ok (.deleted found))) => some (c, found)
  | _ => none

theorem task_of_answerOf {c : Call} {found : Bool} (h : answerOf p i = some (c, found)) :
    p.tasks[i]? = some (c, .finished (.ok (.deleted found))) := by
  unfold answerOf at h
  split at h
  · cases h
    assumption
  · cases h

theorem empty_ordered (o : Options) : (Db.init o (fun _ => none) Dir.empty).Ordered := by
  intro id l hl
  rw [World.start_storages (o := o) hl]
  exact (LevelsOk.nil _).empty_cons

def existingRow : List Action :=
  [.start (.session .begin), .resume 0, .start (.session (.createTable 10 [116] [7])), .resume 1, .resume 1, .resume 1,
    .resume 1, .resume 1, .start (.session (.upsert 10 [116] [1] [5])), .resume 2, .resume 2, .resume 2, .resume 2,
    .start (.session (.commit 10)), .resume 3, .resume 3, .start (.session .begin), .resume 4, .start (.session .begin),
    .resume 5]

/-- A `Delete` beside a write to another row, and one that comes after its commit. -/
def deleteTwice : List Action :=
  existingRow.append [.start (.delete 12 [7] [1]), .resume 6, .start (.session (.upsert 11 [116] [2] [6])), .resume 7,
    .resume 6, .resume 7, .resume 7, .resume 6, .resume 6, .start (.session (.commit 12)), .resume 8, .resume 8,
    .start (.delete 11 [7] [1]), .resume 9, .resume 9, .resume 9]

theorem delete_reports_twice :
    ∃ p, Machine.run (step ⟨0⟩) (start (Db.init ⟨0⟩ (fun _ => none) Dir.empty)) deleteTwice = some p ∧
      Decided ⟨0⟩ (Db.init ⟨0⟩ (fun _ => none) Dir.empty) deleteTwice 6 12 [7] [1] true ∧
      Decided ⟨0⟩ (Db.init ⟨0⟩ (fun _ => none) Dir.empty) deleteTwice 9 11 [7] [1] false := by
  refine Machine.exists_run_of (T := fun p => answerOf p 6 = some (.delete 12 [7] [1], true) ∧
    answerOf p 9 = some (.delete 11 [7] [1], false)) (by decide +kernel) ?_
  intro p hp ht
  obtain ⟨htrue, hfalse⟩ := ht
  have h := (delete_reports ⟨0⟩ _ _ (empty_ordered ⟨0⟩) _ p hp).1
  exact ⟨h 6 12 [7] [1] true (by decide +kernel) (task_of_answerOf htrue),
    h 9 11 [7] [1] false (by decide +kernel) (task_of_answerOf hfalse)⟩

/-- A `Delete` that finds the row, and waits for the lock of another until that has committed. -/
def deleteWaits : List Action :=
  existingRow.append [.start (.delete 12 [7] [1]), .resume 6, .resume 6, .resume 6, .start (.delete 11 [7] [1]),
    .resume 7, .resume 7, .resume 7, .resume 7, .resume 6, .start (.session (.commit 12)), .resume 8, .resume 8]

/-- When the second `Delete` writes its tombstone the row is gone, and it answers true as the first did. -/
theorem delete_answers_late :
    ∃ q q' p, Machine.run (step ⟨0⟩) (start (Db.init ⟨0⟩ (fun _ => none) Dir.empty)) deleteWaits = some q ∧
      lookup q.shared 11 [7] [1] = none ∧ step ⟨0⟩ q (.resume 7) = some q' ∧
      (versions q'.shared [7] [1]).map Record.value =
        ⟨11, true, false, []⟩ :: (versions q.shared [7] [1]).map Record.value ∧
      Machine.run (step ⟨0⟩) q' [.resume 7, .start (.session (.commit 11)), .resume 9, .resume 9] = some p ∧
      p.tasks[6]? = some (.delete 12 [7] [1], .finished (.ok (.deleted true))) ∧
      p.tasks[7]? = some (.delete 11 [7] [1], .finished (.ok (.deleted true))) ∧
      p.shared.txStorage.isCommited 11 = true ∧ p.shared.txStorage.isCommited 12 = true := by
  have h : (Machine.run (step ⟨0⟩) (start (Db.init ⟨0⟩ (fun _ => none) Dir.empty)) deleteWaits).any
    (fun q => decide (lookup q.shared 11 [7] [1] = none) && (step ⟨0⟩ q (.resume 7)).any fun q' =>
        decide ((versions q'.shared [7] [1]).map Record.value =
          ⟨11, true, false, []⟩ :: (versions q.shared [7] [1]).map Record.value) &&
        (Machine.run (step ⟨0⟩) q' [.resume 7, .start (.session (.commit 11)), .resume 9, .resume 9]).any fun p =>
          decide (answerOf p 6 = some (.delete 12 [7] [1], true) ∧ answerOf p 7 = some (.delete 11 [7] [1], true) ∧
            p.shared.txStorage.isCommited 11 = true ∧ p.shared.txStorage.isCommited 12 = true)) = true := by
    decide +kernel
  obtain ⟨q, hq, h⟩ := Machine.exists_of_any h
  obtain ⟨hl, h⟩ := (Bool.and_eq_true _ _).mp h
  obtain ⟨q', hq', h⟩ := Option.any_eq_true _ _ |>.mp h
  obtain ⟨hv, h⟩ := (Bool.and_eq_true _ _).mp h
  obtain ⟨p, hp, h⟩ := Machine.exists_of_any h
  obtain ⟨h6, h7, h11, h12⟩ := of_decide_eq_true h
  exact ⟨q, q', p, hq, of_decide_eq_true hl, hq', of_decide_eq_true hv, hp, task_of_answerOf h6, task_of_answerOf h7,
    h11, h12⟩

end Deletes

end StructureDb
