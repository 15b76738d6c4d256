import StructureDb.Proofs.Autocommit
import StructureDb.Proofs.Versions

/-! A transaction that is over. Behind the end of its transaction a thread takes no lock and
writes nothing; other threads of the transaction may, so they have to be finished before. -/

namespace StructureDb.Service

open Coroutine

def Op.Marks : Op → Prop
  | .server .begin => True
  | .server (.setStatus _ _) => True
  | .server (.logCommit _) => True
  | _ => False

def Op.Calm : Op → Prop
  | .server (.acquireRowLock _ _) => False
  | .server (.upsert _ _ _) => False
  | _ => True

theorem Op.Marks.calm {op : Op} (h : op.Marks) : op.Calm := by
  cases op with
  | server op => cases op <;> trivial
  | _ => trivial

section
variable {no : ℕ} {tx : TransactionId} {request : Request}

theorem unmarked_maintains (no : ℕ) : Maintains (fun op => ¬ op.Marks) no where
  server := ⟨fun _ _ => not_false, fun _ => not_false, fun _ => not_false, not_false⟩
  getStatus := fun _ => not_false
  scanRange := fun _ _ => not_false
  tree := fun _ => not_false
  lock := fun _ => not_false
  unlock := fun _ => not_false
  writeTable := fun _ _ => not_false
  publishFlush := fun _ _ => not_false
  publishCompact := fun _ _ => not_false
  remove := fun _ _ => not_false

theorem unmarked_writesFor (tx : TransactionId) : WritesFor (fun op => ¬ op.Marks) tx :=
  ⟨(unmarked_maintains 0).toReads, fun _ _ => ⟨(unmarked_maintains 0).server, not_false, fun _ _ _ => not_false⟩⟩

theorem unmarked_body (h : request.ends = false) : (body no tx request).All fun op => ¬ op.Marks :=
  Handles.body ⟨(unmarked_maintains 0).toReads, fun _ => unmarked_writesFor tx, fun _ => unmarked_maintains no,
    fun he => absurd (h.symm.trans he) Bool.false_ne_true, fun _ _ => ⟨not_false, not_false⟩⟩

theorem Request.ends_of_tx (h : request.tx = some tx) (hne : request ≠ .commit tx) : request.ends = false := by
  cases request with
  | begin => rfl
  | commit carried => exact absurd (congrArg Request.commit (Option.some.inj h)) hne
  | compactTable carried table => rfl
  | compaction => rfl
  | _ => exact congrArg Option.isNone h

theorem then_finish {carried : Option TransactionId} {response : Response} :
    (finish carried tx >>= fun _ => (pure response : Program Response)).Then Op.Marks Op.Calm := by
  cases carried with
  | none => exact ⟨fun _ _ => ⟨trivial, fun _ => trivial⟩, fun _ => ⟨fun h => h.elim, fun _ => trivial⟩⟩
  | some _ => trivial

theorem then_withTable {name : Bytes} {body : Table → Program Response} (hbody : ∀ t, (body t).Then Op.Marks Op.Calm) :
    (withTable tx name body).Then Op.Marks Op.Calm := by
  refine ((unmarked_maintains 0).getTable tx name).bind_then fun table => ?_
  cases table with
  | none => trivial
  | some table => exact hbody table

/-- Behind the commit a handler only releases its locks. -/
theorem then_body : (body no tx request).Then Op.Marks Op.Calm := by
  have hreads := (unmarked_maintains 0).toReads
  have hwrites := unmarked_writesFor tx
  cases request with
  | commit carried =>
    exact ⟨fun _ _ => ⟨trivial, fun _ => trivial⟩, fun _ => ⟨fun h => h.elim, fun _ => trivial⟩⟩
  | upsert carried table key value =>
    exact then_withTable fun t => (hwrites.tableUpsert key value t).bind_then fun _ => then_finish
  | lookup carried table key =>
    exact then_withTable fun t => (hreads.tableLookup tx key t).bind_then fun _ => then_finish
  | delete carried table key => exact then_withTable fun t => (hwrites.tableDelete key t).bind_then fun _ => then_finish
  | createTable carried name id => exact (hwrites.createTable not_false not_false).bind_then fun _ => then_finish
  | dropTable carried name => exact hwrites.dropTable.bind_then fun _ => then_finish
  | scan carried table lowerBound upperBound =>
    exact then_withTable fun t => (hreads.tableScan tx _ t).bind_then fun _ => then_finish
  | begin => trivial
  | compactTable carried table => exact (unmarked_body rfl).then_of_not
  | compaction => exact (unmarked_body rfl).then_of_not

end

def Thread.ender (th : Thread) : Bool :=
  match th.activity with
  | .session request _ => request.ends
  | .rollback _ => true
  | .flush _ => false

theorem unmarked_program {th : Thread} (h : th.ender = false) : (program th).All fun op => ¬ op.Marks := by
  obtain ⟨no, activity⟩ := th
  cases activity with
  | session request tx => exact (unmarked_body h).handle fun _ => trivial
  | rollback tx => cases h
  | flush ids => exact ((unmarked_maintains no).flushAll ids).bind fun _ => trivial

theorem then_program (th : Thread) : (program th).Then Op.Marks Op.Calm := by
  obtain ⟨no, activity⟩ := th
  cases activity with
  | session request tx => exact then_body.handle (fun _ => trivial) fun _ => trivial
  | rollback tx => exact ⟨fun _ _ => ⟨trivial, fun _ => trivial⟩, fun _ => ⟨fun h => h.elim, fun _ => trivial⟩⟩
  | flush ids =>
    have hflush : (program ⟨no, .flush ids⟩).All fun op => ¬ op.Marks := unmarked_program rfl
    exact hflush.then_of_not

section
variable {o : Options} {s s' : Node} {op : Op} {t : TransactionId} {th : Thread}
  {u u' : Task Res Wait Exception Response}

theorem TxEffect.txStatus {s s' : TxStorage} (h : TxEffect s op s') (hop : ¬ op.Marks) : s'.txStatus = s.txStatus := by
  cases h with
  | same => rfl
  | begin => exact absurd trivial hop
  | setStatus tx status => exact absurd trivial hop
  | logCommit tx => exact absurd trivial hop
  | grant tx rowKey _ ha => exact (TxStorage.acquireRowLock_spec ha).2.2.1
  | release tx => rfl

theorem advance_unmarked (hall : u.All fun op => ¬ op.Marks) (ha : (kernel o).advance s u = some (s', u')) :
    s'.context.txStorage.txStatus = s.context.txStorage.txStatus ∧ u'.All fun op => ¬ op.Marks :=
  advance_rel (R := fun s s' => s'.context.txStorage.txStatus = s.context.txStorage.txStatus) (fun _ => rfl)
    (fun _ _ _ h h' => by rw [h', h]) (fun _ _ _ hop he => he.tx.txStatus hop) hall ha

theorem advance_then (hthen : u.Then Op.Marks Op.Calm) (ha : (kernel o).advance s u = some (s', u')) :
    u'.Then Op.Marks Op.Calm ∧
      (s'.context.txStorage.txStatus = s.context.txStorage.txStatus ∨ u'.All Op.Calm) :=
  Kernel.advance_then (R := fun s s' => s'.context.txStorage.txStatus = s.context.txStorage.txStatus) (fun _ => rfl)
    (fun _ _ _ h h' => by rw [h', h]) (fun _ h => h.calm)
    (fun s op hop => (perform_effect o s op).tx.txStatus hop)
    (fun _ _ _ _ _ hop hw => (wake_effect (o := o) hw).tx.txStatus hop) hthen ha

/-- The operations that take no lock for `t` and write no version of it. -/
def Op.Spares (t : TransactionId) : Op → Prop
  | .server (.acquireRowLock tx _) => tx ≠ t
  | .server (.upsert _ _ value) => value.tx ≠ t
  | _ => True

def Idle (t : TransactionId) (s s' : Node) : Prop :=
  (∀ key, s'.context.txStorage.rowLocks key = some t → s.context.txStorage.rowLocks key = some t) ∧
    ∃ events, s'.log = s.log ++ events ∧ ∀ id row, upsertOf id row ∈ events → row.value.tx ≠ t

theorem Idle.of_eq
    (hlocks : ∀ key, s'.context.txStorage.rowLocks key = some t → s.context.txStorage.rowLocks key = some t)
    (hlog : s'.log = s.log) : Idle t s s' :=
  ⟨hlocks, [], hlog.trans (List.append_nil _).symm, fun _ _ h => absurd h List.not_mem_nil⟩

theorem Idle.refl (t : TransactionId) (s : Node) : Idle t s s := of_eq (fun _ h => h) rfl

theorem Idle.trans {s'' : Node} (h : Idle t s s') (h' : Idle t s' s'') : Idle t s s'' := by
  obtain ⟨hlocks, es, hlog, hes⟩ := h
  obtain ⟨hlocks', es', hlog', hes'⟩ := h'
  refine ⟨fun key hk => hlocks key (hlocks' key hk), es ++ es', by rw [hlog', hlog, List.append_assoc], ?_⟩
  intro id row hrow
  rcases List.mem_append.mp hrow with hrow | hrow
  · exact hes id row hrow
  · exact hes' id row hrow

theorem Idle.effect (hop : op.Spares t) (he : Effect o s op s') : Idle t s s' := by
  cases he with
  | same => exact Idle.refl t s
  | begin => exact Idle.of_eq (fun _ h => h) rfl
  | setStatus tx status => exact Idle.of_eq (fun _ h => h) rfl
  | logCommit tx =>
    refine ⟨fun _ h => h, _, rfl, fun id row hrow => ?_⟩
    cases List.mem_singleton.mp hrow
  | grant tx rowKey txStorage ha =>
    refine Idle.of_eq (fun key hk => ?_) rfl
    rw [(TxStorage.acquireRowLock_spec ha).2.2.2.1] at hk
    by_cases heq : key = rowKey
    · rw [heq, Function.update_self] at hk
      exact absurd (Option.some.inj hk) hop
    · rwa [Function.update_of_ne heq] at hk
  | sleep tx rowKey => exact Idle.of_eq (fun _ h => h) rfl
  | release tx =>
    refine Idle.of_eq (fun key hk => ?_) rfl
    rw [TxStorage.releaseAllLocks_rowLocks] at hk
    split_ifs at hk
    exact hk
  | emplace id hnone => exact Idle.of_eq (fun _ h => h) rfl
  | put id key value l hl =>
    refine ⟨fun _ h => h, _, rfl, fun id' row hrow => ?_⟩
    have heq := List.mem_singleton.mp hrow
    rw [upsertOf, Event.upsert.injEq] at heq
    rw [heq.2.2.2]
    exact hop
  | resume op call walWriter hw => exact Idle.of_eq (fun _ h => h) rfl
  | createDirectory id => exact Idle.of_eq (fun _ h => h) rfl
  | lock n id hfree => exact Idle.of_eq (fun _ h => h) rfl
  | unlock n id => exact Idle.of_eq (fun _ h => h) rfl
  | edit op n id f l hedit hl => exact Idle.of_eq (fun _ h => h) rfl

theorem advance_idle (hall : u.All (Op.Spares t)) (ha : (kernel o).advance s u = some (s', u')) : Idle t s s' :=
  (advance_rel (R := Idle t) (Idle.refl t) (fun _ _ _ => Idle.trans) (fun _ _ _ hop he => Idle.effect hop he) hall ha).1

theorem Op.Calm.spares (h : op.Calm) : op.Spares t := by
  cases op with
  | server op => cases op <;> trivial
  | _ => trivial

theorem Thread.Allows.spares (h : th.Allows op) (hne : th.tx ≠ some t) : op.Spares t := by
  cases op with
  | server op =>
    cases op with
    | acquireRowLock tx rowKey => exact fun heq => hne (heq ▸ h)
    | upsert id key value => exact fun heq => hne (heq ▸ h.1)
    | _ => trivial
  | _ => trivial

end

def Thread.Ending (th : Thread) (t : TransactionId) : Prop :=
  match th.activity with
  | .session (.commit _) tx => tx = t
  | .rollback tx => tx = t
  | _ => False

theorem Thread.Ending.tx {th : Thread} {t : TransactionId} (h : th.Ending t) : th.tx = some t := by
  obtain ⟨no, activity⟩ := th
  cases activity with
  | session request tx =>
    cases request with
    | commit carried => exact congrArg some h
    | _ => exact h.elim
  | rollback tx => exact congrArg some h
  | flush ids => exact h.elim

theorem Thread.ender_cases {th : Thread} {t : TransactionId} (h : th.ender = true) (htx : th.tx = some t) :
    th.Ending t ∨ th.Implicit t := by
  obtain ⟨no, activity⟩ := th
  cases activity with
  | session request tx =>
    obtain rfl := Option.some.inj htx
    cases request with
    | commit carried => exact Or.inl rfl
    | begin => cases h
    | compactTable carried table => cases h
    | compaction => cases h
    | _ => exact Or.inr ⟨rfl, Option.isNone_iff_eq_none.mp h, rfl⟩
  | rollback tx => exact Or.inl (Option.some.inj htx)
  | flush ids => cases h

/-- The end of a transaction comes before the first wait. -/
theorem Thread.Ending.advance {o : Options} {th : Thread} {t : TransactionId} {s s' : Node}
    {u' : Task Res Wait Exception Response} (h : th.Ending t)
    (ha : (kernel o).advance s (.ready (program th)) = some (s', u')) :
    s'.context.txStorage.txStatus t ≠ some .started := by
  obtain ⟨no, activity⟩ := th
  rw [Kernel.advance, Option.some_inj] at ha
  cases activity with
  | session request tx =>
    cases request with
    | commit carried =>
      obtain rfl : tx = t := h
      have hstatus : ((kernel o).run s (program ⟨no, .session (.commit carried) tx⟩)).1.context.txStorage.txStatus tx =
          some .commited := TxStorage.setStatus_txStatus_self ..
      rw [ha] at hstatus
      rw [hstatus]
      decide
    | _ => exact h.elim
  | rollback tx =>
    obtain rfl : tx = t := h
    have hstatus : ((kernel o).run s (program ⟨no, .rollback tx⟩)).1.context.txStorage.txStatus tx =
        some .rollbacked := by
      change (Server.releaseAllLocks { s.context with txStorage := s.context.txStorage.setStatus tx .rollbacked }
        tx).txStorage.txStatus tx = _
      unfold Server.releaseAllLocks
      split_ifs <;> exact TxStorage.setStatus_txStatus_self ..
    rw [ha] at hstatus
    rw [hstatus]
    decide
  | flush ids => exact h.elim

/-- Of two threads of a transaction that is started, one is finished or the other one does not end it. -/
def Alone (s : Node) (x y : Thread × Task Res Wait Exception Response) : Prop :=
  ∀ t, x.1.tx = some t → y.1.tx = some t → s.context.txStorage.txStatus t = some .started →
    (y.2.Unfinished → x.2.All fun op => ¬ op.Marks) ∧ (x.2.Unfinished → y.2.All fun op => ¬ op.Marks)

structure Orderly (s : Service) : Prop where
  basic : Basic s
  behind : ∀ x ∈ s.tasks, x.2.Then Op.Marks Op.Calm
  unmarked : ∀ x ∈ s.tasks, x.1.ender = false → x.2.All fun op => ¬ op.Marks
  calm : ∀ x ∈ s.tasks, ∀ t, x.1.tx = some t → s.shared.context.txStorage.txStatus t ≠ some .started →
    x.2.All Op.Calm
  alone : s.tasks.Pairwise (Alone s.shared)

theorem Orderly.advance {o : Options} {node node' : Node} {pre post : List (Thread × Task Res Wait Exception Response)}
    {x : Thread × Task Res Wait Exception Response} {t' : Task Res Wait Exception Response}
    (h : Orderly ⟨node, pre ++ x :: post⟩) (ha : (kernel o).advance node x.2 = some (node', t')) :
    Orderly ⟨node', pre ++ (x.1, t') :: post⟩ := by
  have hx : x ∈ pre ++ x :: post := by simp
  have hall := h.basic.allows x hx
  have hunf := Live.of_advance ha
  have hnone := advance_noneStarts hall ha
  obtain ⟨hthen, hends⟩ := advance_then (h.behind x hx) ha
  have hold : ∀ y, y ∈ pre ∨ y ∈ post → y ∈ pre ++ x :: post := by
    intro y hy
    simp only [List.mem_append, List.mem_cons]
    tauto
  have hmem : ∀ y ∈ pre ++ (x.1, t') :: post, y = (x.1, t') ∨ y ∈ pre ∨ y ∈ post := by
    intro y hy
    simp only [List.mem_append, List.mem_cons] at hy
    tauto
  obtain ⟨hpre, hcons, hacross⟩ := List.pairwise_append.mp h.alone
  obtain ⟨hhead, hpost⟩ := List.pairwise_cons.mp hcons
  refine ⟨h.basic.advance ha, ?_, ?_, ?_, ?_⟩
  · intro y hy
    rcases hmem y hy with rfl | hy
    · exact hthen
    · exact h.behind y (hold y hy)
  · intro y hy he
    rcases hmem y hy with rfl | hy
    · exact (advance_unmarked (h.unmarked x hx he) ha).2
    · exact h.unmarked y (hold y hy) he
  · intro y hy t hyt hover
    have hover : node'.context.txStorage.txStatus t ≠ some .started := hover
    by_cases hstarted : node.context.txStorage.txStatus t = some .started
    · -- this step has ended `t`
      have hxt : x.1.tx = some t := by
        by_contra hne
        rw [(advance_spares hall hne ha).txStatus] at hover
        exact hover hstarted
      have hmarked : ¬ x.2.All fun op => ¬ op.Marks := by
        intro hall'
        rw [(advance_unmarked hall' ha).1] at hover
        exact hover hstarted
      rcases hmem y hy with rfl | hy
      · rcases hends with hsame | hcalm
        · rw [hsame] at hover
          exact absurd hstarted hover
        · exact hcalm
      · have hdone : ¬ y.2.Unfinished := by
          intro hy'
          rcases hy with hy | hy
          · exact hmarked ((hacross y hy x List.mem_cons_self t hyt hxt hstarted).2 hy')
          · exact hmarked ((hhead y hy t hxt hyt hstarted).1 hy')
        exact Task.all_of_not_unfinished hdone
    · rcases hmem y hy with rfl | hy
      · exact (Service.advance_rel (R := fun _ _ => True) (fun _ => trivial) (fun _ _ _ _ _ => trivial)
          (fun _ _ _ _ _ => trivial) (h.calm x hx t hyt hstarted) ha).2
      · exact h.calm y (hold y hy) t hyt hstarted
  · have hothers : ∀ y z, Alone node y z → Alone node' y z :=
      fun y z hyz t hyt hzt hstarted => hyz t hyt hzt (hnone.started t hstarted)
    have hown : ∀ y, Alone node x y → Alone node' (x.1, t') y := by
      intro y hxy t hxt hyt hstarted
      obtain ⟨hleft, hright⟩ := hxy t hxt hyt (hnone.started t hstarted)
      exact ⟨fun hy => (advance_unmarked (hleft hy) ha).2, fun _ => hright hunf⟩
    have hswap : ∀ (s : Node) y z, Alone s y z → Alone s z y :=
      fun s y z hyz t hzt hyt hstarted => (hyz t hyt hzt hstarted).symm
    refine List.pairwise_append.mpr ⟨hpre.imp fun hyz => hothers _ _ hyz,
      List.pairwise_cons.mpr ⟨fun y hy => hown y (hhead y hy), hpost.imp fun hyz => hothers _ _ hyz⟩, ?_⟩
    intro y hy z hz
    rcases List.mem_cons.mp hz with rfl | hz
    · exact hswap _ _ _ (hown y (hswap _ _ _ (hacross y hy x List.mem_cons_self)))
    · exact hothers _ _ (hacross y hy z (List.mem_cons_of_mem _ hz))

/-- When `Commit` or `Rollback` is called, no other request of the transaction is under way, and nobody uses a
transaction that was begun for a request which is. -/
def Quiet (s : Service) : Action → Prop
  | .request r =>
    ∀ t ∈ r.tx, ∀ x ∈ s.tasks, x.2.Unfinished → ¬ x.1.Implicit t ∧ (r = .commit t → x.1.tx ≠ some t)
  | .rollback t => ∀ x ∈ s.tasks, x.2.Unfinished → x.1.tx ≠ some t
  | _ => True

theorem Quiet.isPrivate {s : Service} {action : Action} (h : Quiet s action) : Private s action := by
  cases action with
  | request r => exact fun t ht x hx hu => (h t ht x hx hu).1
  | rollback t => exact fun x hx hu hi => h x hx hu hi.tx
  | _ => trivial

structure Finishing (o : Options) (s : Service) : Prop where
  closing : Closing o s
  tended : Tended o s
  orderly : Orderly s
  ended : ∀ x ∈ s.tasks, ∀ t, x.1.Ending t → s.shared.context.txStorage.txStatus t ≠ some .started

namespace Finishing

variable {o : Options} {s s' : Service} {action : Action} {t : TransactionId}

/-- A thread of a transaction that others may use does not end it. -/
theorem unmarked (h : Finishing o s) (hstarted : s.shared.context.txStorage.txStatus t = some .started)
    (hg : ∀ x ∈ s.tasks, x.2.Unfinished → ¬ x.1.Implicit t) {x : Thread × Task Res Wait Exception Response}
    (hx : x ∈ s.tasks) (hxt : x.1.tx = some t) : x.2.All fun op => ¬ op.Marks := by
  by_cases he : x.1.ender = true
  · refine Task.all_of_not_unfinished fun hu => ?_
    rcases Thread.ender_cases he hxt with hend | hi
    · exact h.ended x hx t hend hstarted
    · exact hg x hx hu hi
  · exact h.orderly.unmarked x hx (Bool.not_eq_true _ ▸ he)

theorem spawn (h : Finishing o s) (hg : Quiet s action) {node : Node} {activity : Activity}
    (hs : Starts s.shared action node activity) : Orderly ⟨node, s.tasks ++ [s.spawned activity]⟩ := by
  have hbasic := h.orderly.basic
  have hstatus : ∀ x ∈ s.tasks, ∀ t, x.1.tx = some t →
      node.context.txStorage.txStatus t = s.shared.context.txStorage.txStatus t :=
    fun x hx t hxt => (hs.spares (hbasic.tasks x hx t hxt)).txStatus
  refine ⟨hbasic.spawn hs, ?_, ?_, ?_, ?_⟩
  · intro x hx
    rcases List.mem_append.mp hx with hx | hx
    · exact h.orderly.behind x hx
    · obtain rfl := List.mem_singleton.mp hx
      exact then_program _
  · intro x hx he
    rcases List.mem_append.mp hx with hx | hx
    · exact h.orderly.unmarked x hx he
    · obtain rfl := List.mem_singleton.mp hx
      exact unmarked_program he
  · intro x hx t hxt hover
    rcases List.mem_append.mp hx with hx | hx
    · refine h.orderly.calm x hx t hxt ?_
      rw [← hstatus x hx t hxt]
      exact hover
    · obtain rfl := List.mem_singleton.mp hx
      -- a session joins a transaction that is started
      refine absurd ?_ hover
      cases hs with
      | begin r htx hfresh hmutates =>
        cases hxt
        exact TxStorage.setStatus_txStatus_self ..
      | join r tx htx hfresh hmutates hstarted =>
        cases hxt
        exact TxStorage.isStarted_iff.mp hstarted
      | rollback tx hstarted =>
        cases hxt
        exact TxStorage.isStarted_iff.mp hstarted
      | flush ids => cases hxt
  · refine List.pairwise_append.mpr ⟨?_, List.pairwise_singleton _ _, ?_⟩
    · refine h.orderly.alone.imp_of_mem ?_
      intro x y hx hy hxy t hxt hyt hstarted
      rw [hstatus x hx t hxt] at hstarted
      exact hxy t hxt hyt hstarted
    · intro x hx y hy t hxt hyt hstarted
      obtain rfl := List.mem_singleton.mp hy
      rw [hstatus x hx t hxt] at hstarted
      have hprivate := hg.isPrivate
      cases hs with
      | begin r htx hfresh hmutates =>
        cases hyt
        exact absurd (hbasic.tasks x hx _ hxt) (lt_irrefl _)
      | join r tx htx hfresh hmutates hjoined =>
        cases hyt
        refine ⟨fun _ => h.unmarked hstarted (hprivate t htx) hx hxt, fun hu => unmarked_program ?_⟩
        exact Request.ends_of_tx htx fun heq => (hg t htx x hx hu).2 heq hxt
      | rollback tx hjoined =>
        cases hyt
        exact ⟨fun _ => h.unmarked hstarted hprivate hx hxt, fun hu => absurd hxt (hg x hx hu)⟩
      | flush ids => cases hyt

theorem step (h : Finishing o s) (hg : Quiet s action) (hleader : ∀ event, action ≠ .apply event)
    (hstep : s.step o action = some s') : Finishing o s' := by
  have hclosing := h.closing.step hg.isPrivate hstep
  have htended := h.tended.step hstep
  have hbasic := h.orderly.basic
  rcases step_cases hstep with ⟨node, activity, hs, node', t', ha, rfl⟩ |
    ⟨i, x, pre, post, -, -, htasks, node', t', ha, rfl⟩ | ⟨event, hevent, -⟩ | ⟨events, -, rfl⟩
  · have hspawn := h.spawn hg hs
    refine ⟨hclosing, htended, hspawn.advance ha, fun x hx t hend => ?_⟩
    rcases List.mem_append.mp hx with hx | hx
    · intro hstarted
      have hnone := advance_noneStarts (hspawn.basic.allows (s.spawned activity) (by simp)) ha
      have hnode := hnone.started t hstarted
      rw [(hs.spares (hbasic.tasks x hx t hend.tx)).txStatus] at hnode
      exact h.ended x hx t hend hnode
    · obtain rfl := List.mem_singleton.mp hx
      exact hend.advance ha
  · have hpool : Orderly ⟨s.shared, pre ++ x :: post⟩ := htasks ▸ h.orderly
    refine ⟨hclosing, htended, hpool.advance ha, fun y hy t hend hstarted => ?_⟩
    have hx : x ∈ s.tasks := by rw [htasks]; simp
    have hnone := advance_noneStarts (hbasic.allows x hx) ha
    have hlabel : y.1 ∈ s.tasks.map Prod.fst := by
      rw [htasks]
      have := List.mem_map_of_mem (f := Prod.fst) hy
      simpa using this
    obtain ⟨z, hz, hzy⟩ := List.mem_map.mp hlabel
    exact h.ended z hz t (hzy ▸ hend) (hnone.started t hstarted)
  · exact absurd hevent (hleader event)
  · exact ⟨hclosing, htended, ⟨Basic.restart s events, fun x hx => absurd hx List.not_mem_nil,
      fun x hx => absurd hx List.not_mem_nil, fun x hx => absurd hx List.not_mem_nil, List.Pairwise.nil⟩,
      fun x hx => absurd hx List.not_mem_nil⟩

/-- The threads of a transaction that is over leave it alone, and so do the others. -/
theorem spares (h : Orderly s) (hover : s.shared.context.txStorage.txStatus t ≠ some .started)
    {x : Thread × Task Res Wait Exception Response} (hx : x ∈ s.tasks) : x.2.All (Op.Spares t) := by
  by_cases hxt : x.1.tx = some t
  · exact Task.All.mono (h.calm x hx t hxt hover) fun _ hop => hop.spares
  · exact Task.All.mono (h.basic.allows x hx) fun _ hop => hop.spares hxt

theorem quiet_step (h : Finishing o s) (hover : s.shared.context.txStorage.txStatus t ≠ some .started)
    (hlt : t < s.shared.context.txStorage.nextTxId) (happly : ∀ event, action ≠ .apply event)
    (hrestart : ∀ events, action ≠ .restart events) (hstep : s.step o action = some s') :
    Idle t s.shared s'.shared ∧ Adds s.shared s'.shared := by
  rcases step_cases hstep with ⟨node, activity, hs, node', t', ha, rfl⟩ |
    ⟨i, x, pre, post, -, -, htasks, node', t', ha, rfl⟩ | ⟨event, hevent, -⟩ | ⟨events, hevents, -⟩
  · have hstart : Idle t s.shared node ∧ Adds s.shared node := by
      have hlog : node.log = s.shared.log := by cases hs <;> rfl
      exact ⟨.of_eq (fun key => ((hs.spares hlt).rowLocks key).mp) hlog,
        .of_eq hs.keeps.2 ⟨[], hlog.trans (List.append_nil _).symm⟩⟩
    have htx : (s.spawned activity).1.tx ≠ some t := by
      intro htx
      cases hs with
      | begin r hr hfresh hmutates =>
        cases htx
        exact absurd hlt (lt_irrefl _)
      | join r tx hr hfresh hmutates hstarted =>
        cases htx
        exact hover (TxStorage.isStarted_iff.mp hstarted)
      | rollback tx hstarted =>
        cases htx
        exact hover (TxStorage.isStarted_iff.mp hstarted)
      | flush ids => cases htx
    have hall : (s.spawned activity).2.All (Op.Spares t) :=
      Coro.All.mono (program_allows _) fun _ hop => hop.spares htx
    exact ⟨hstart.1.trans (advance_idle hall ha), hstart.2.trans ((h.tended.spawn hs).advance ha).1.adds⟩
  · have hpool : Tended o ⟨s.shared, pre ++ x :: post⟩ := htasks ▸ h.tended
    have hx : x ∈ s.tasks := by rw [htasks]; simp
    exact ⟨advance_idle (spares h.orderly hover hx) ha, (hpool.advance ha).1.adds⟩
  · exact absurd hevent (happly event)
  · exact absurd hevents (hrestart events)

end Finishing

/-- On a leader, in whatever state it was opened: when `Commit` or `Rollback` of `t` has answered, or a request has
that `t` was begun for, no step makes `t` the holder of a row lock or adds a version written by `t` to a storage. -/
theorem finished_stays_finished (o : Options) (dirs : Bytes → Option (Dir Bytes (List Row))) (wal : Dir Bytes Bytes)
    (events : List Event) (readOnly : Bool) (actions : List Action) (s : Service)
    (hleader : ∀ event, .apply event ∉ actions)
    (hg : Machine.Guarded (step o) Quiet (start (Node.init o dirs wal events readOnly)) actions)
    (hr : Machine.run (step o) (start (Node.init o dirs wal events readOnly)) actions = some s)
    (t : TransactionId) (th : Thread) (u : Task Res Wait Exception Response) (response : Response)
    (hx : (th, u) ∈ s.tasks) (hend : th.Ending t ∨ th.Implicit t) (ha : answer u = some response)
    (hok : response.isOk = true) (action : Action) (s' : Service) (happly : ∀ event, action ≠ .apply event)
    (hrestart : ∀ events, action ≠ .restart events) (hstep : s.step o action = some s') :
    (∀ key, s'.shared.context.txStorage.rowLocks key = some t → s.shared.context.txStorage.rowLocks key = some t) ∧
    ∀ id l' version, s'.shared.context.storages id = some l' → version ∈ versions l' → version.value.tx = t →
      ∃ l, s.shared.context.storages id = some l ∧ version ∈ versions l := by
  have hfin : Finishing o s := by
    refine Machine.run_inv (P := fun tr s => (∀ event, .apply event ∉ tr) → Finishing o s) (fun _ => ?_) ?_ hg
      hr hleader
    · have hbasic := Basic.init o dirs wal events readOnly
      exact ⟨⟨hbasic, List.Pairwise.nil, fun x hx => absurd hx List.not_mem_nil⟩,
        ⟨hbasic, fun x hx => absurd hx List.not_mem_nil⟩,
        ⟨hbasic, fun x hx => absurd hx List.not_mem_nil, fun x hx => absurd hx List.not_mem_nil,
          fun x hx => absurd hx List.not_mem_nil, List.Pairwise.nil⟩, fun x hx => absurd hx List.not_mem_nil⟩
    · intro tr s a s' h hg hstep htr
      exact (h fun event he => htr event (by simp [he])).step hg (fun event he => htr event (by simp [he])) hstep
  have htx : th.tx = some t := hend.elim (fun h => h.tx) fun h => h.tx
  have hover : s.shared.context.txStorage.txStatus t ≠ some .started := by
    rcases hend with hend | hi
    · exact hfin.ended _ hx t hend
    · rw [(hfin.closing.closed hx hi ha hok).1]
      decide
  obtain ⟨⟨hlocks, es, hlog, hes⟩, es', hlog', hadds⟩ :=
    hfin.quiet_step hover (hfin.orderly.basic.tasks _ hx t htx) happly hrestart hstep
  obtain rfl : es = es' := List.append_cancel_left (hlog.symm.trans hlog')
  refine ⟨hlocks, fun id l' version hl' hv ht => ?_⟩
  rcases hadds id version ⟨l', hl', hv⟩ with hold | ⟨row, rfl, hrow⟩
  · exact hold
  · exact absurd ht (hes id row hrow)

instance (s : Service) : (action : Action) → Decidable (Quiet s action)
  | .request r => inferInstanceAs (Decidable (∀ t ∈ r.tx, _))
  | .rollback t => inferInstanceAs (Decidable (∀ x ∈ s.tasks, x.2.Unfinished → x.1.tx ≠ some t))
  | .flush _ => isTrue trivial
  | .resume _ => isTrue trivial
  | .apply _ => isTrue trivial
  | .restart _ => isTrue trivial

/-- A write of 11 and its commit; then another request takes the lock on the same key and writes. -/
theorem finished_stays_finished_upsert : ∃ s : Service,
    Machine.run (step ⟨10⟩) (leader ⟨10⟩)
      [.request (.createTable none [1] [2]), .resume 0, .resume 0, .resume 0, .resume 0, .resume 0, .request .begin,
        .request (.upsert (some 11) [1] [3] [4]), .resume 2, .resume 2, .resume 2, .request (.commit 11), .resume 3,
        .request (.upsert none [1] [3] [5]), .resume 4] = some s ∧
    ∃ s', s.step ⟨10⟩ (.resume 4) = some s' ∧ s'.shared.context.txStorage.rowLocks [3] = some 12 ∧
    (∀ key, s'.shared.context.txStorage.rowLocks key = some 11 → s.shared.context.txStorage.rowLocks key = some 11) ∧
    ∀ id l' version, s'.shared.context.storages id = some l' → version ∈ versions l' → version.value.tx = 11 →
      ∃ l, s.shared.context.storages id = some l ∧ version ∈ versions l := by
  refine Machine.exists_run_of
    (T := fun s =>
      ((⟨3, .session (.commit 11) 11⟩ : Thread), some Response.ok) ∈ s.tasks.map (fun x => (x.1, answer x.2)) ∧
      (s.step ⟨10⟩ (.resume 4)).any (fun s' => decide (s'.shared.context.txStorage.rowLocks [3] = some 12)) = true)
    (by decide +kernel) fun s hr ⟨hmem, hany⟩ => ?_
  obtain ⟨⟨th, u⟩, hx, heq⟩ := List.mem_map.mp hmem
  obtain ⟨rfl, ha⟩ := Prod.mk.inj heq
  rcases hstep : s.step ⟨10⟩ (.resume 4) with _ | s'
  · rw [hstep] at hany
    cases hany
  · rw [hstep] at hany
    refine ⟨s', rfl, of_decide_eq_true hany, ?_⟩
    exact finished_stays_finished ⟨10⟩ (fun _ => none) Dir.empty [] false _ s (by simp) (by decide +kernel)
      hr 11 _ u .ok hx
      (Or.inl rfl) ha rfl (.resume 4) s' (fun _ h => nomatch h) (fun _ h => nomatch h) hstep

/-- An upsert of 11 waits for the lock on a key that 12 has written. 11 is committed, then 12; the upsert gets the lock,
and writes. -/
theorem upsert_behind_commit : ∃ s : Service,
    Machine.run (step ⟨10⟩) (leader ⟨10⟩)
      [.request (.createTable none [1] [2]), .resume 0, .resume 0, .resume 0, .resume 0, .resume 0, .request .begin,
        .request .begin, .request (.upsert (some 12) [1] [3] [5]), .resume 3, .resume 3, .resume 3,
        .request (.upsert (some 11) [1] [3] [4]), .resume 4, .resume 4, .request (.commit 11), .resume 5,
        .request (.commit 12), .resume 6] = some s ∧
    ((⟨5, .session (.commit 11) 11⟩ : Thread), some Response.ok) ∈ s.tasks.map (fun x => (x.1, answer x.2)) ∧
    s.shared.context.txStorage.rowLocks [3] = none ∧
    (s.shared.context.storages [2]).map versions = some [⟨[3], 1, ⟨12, false, false, [5]⟩⟩] ∧
    ∃ s', s.step ⟨10⟩ (.resume 4) = some s' ∧ s'.shared.context.txStorage.rowLocks [3] = some 11 ∧
      (s'.shared.context.storages [2]).map versions =
        some [⟨[3], 2, ⟨11, false, false, [4]⟩⟩, ⟨[3], 1, ⟨12, false, false, [5]⟩⟩] := by
  refine Machine.exists_run_of (T := fun s =>
    (((⟨5, .session (.commit 11) 11⟩ : Thread), some Response.ok) ∈ s.tasks.map (fun x => (x.1, answer x.2)) ∧
      s.shared.context.txStorage.rowLocks [3] = none ∧
      (s.shared.context.storages [2]).map versions = some [⟨[3], 1, ⟨12, false, false, [5]⟩⟩]) ∧
    (s.step ⟨10⟩ (.resume 4)).any (fun s' => decide (s'.shared.context.txStorage.rowLocks [3] = some 11 ∧
      (s'.shared.context.storages [2]).map versions =
        some [⟨[3], 2, ⟨11, false, false, [4]⟩⟩, ⟨[3], 1, ⟨12, false, false, [5]⟩⟩])) = true)
          (by decide +kernel) ?_
  rintro s - ⟨⟨hok, hlock, hversions⟩, hany⟩
  refine ⟨hok, hlock, hversions, ?_⟩
  rcases hstep : s.step ⟨10⟩ (.resume 4) with _ | s'
  · rw [hstep] at hany
    cases hany
  · rw [hstep] at hany
    exact ⟨s', rfl, of_decide_eq_true hany⟩

end StructureDb.Service
