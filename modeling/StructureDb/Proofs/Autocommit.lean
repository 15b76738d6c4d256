import StructureDb.Lib.Interference
import StructureDb.Proofs.Ownership

/-! Requests without a transaction: when a handler that finishes its session has answered OK,
the transaction that was begun for it is committed and holds no row lock. -/

namespace StructureDb.Service

open Coroutine

section
variable {o : Options} {s s' : Node} {t : TransactionId}

def Closed (t : TransactionId) (s : Node) : Prop :=
  s.context.txStorage.txStatus t = some .commited ∧ ∀ key, s.context.txStorage.rowLocks key ≠ some t

/-- What others do not do to a transaction: they do not take a commit back, and they take no lock for it. -/
structure Respects (t : TransactionId) (s s' : Node) : Prop where
  commited : s.context.txStorage.txStatus t = some .commited → s'.context.txStorage.txStatus t = some .commited
  rowLocks : ∀ key, s'.context.txStorage.rowLocks key = some t → s.context.txStorage.rowLocks key = some t

theorem Respects.of_spares (h : Spares t s.context.txStorage s'.context.txStorage) : Respects t s s' :=
  ⟨fun hc => h.txStatus.trans hc, fun key => (h.rowLocks key).mp⟩

theorem Closed.respects (h : Closed t s) (hr : Respects t s s') : Closed t s' :=
  ⟨hr.commited h.1, fun key hk => h.2 key (hr.rowLocks key hk)⟩

def alone (t : TransactionId) : Terms Node Op where
  inv := fun s => Server.LocksAgree s.context
  check := fun _ _ => True
  rely := Respects t
  guarantee := fun _ _ => True

variable {α β : Type} {X : Node → Exception → Prop}

theorem sat_behind {c : Program α} {f : α → Program β} {Q : Node → β → Prop}
    (hf : ∀ a s, (f a).Sat (kernel o) (alone t) Q X s) (hx : ∀ s e, X s e) :
    (c >>= f).Sat (kernel o) (alone t) Q X s := by
  have hall : c.All fun _ => True := by
    induction c with
    | ret a => trivial
    | raise e => trivial
    | call op k ih => exact ⟨trivial, ih⟩
  have hsat : c.Sat (kernel o) (alone t) (fun _ _ => True) (fun _ _ => True) s :=
    hall.sat (P := fun _ => True) (fun _ _ _ _ => trivial)
      (fun s op _ _ hi _ => ⟨locksAgree_effect hi (perform_effect o s op), trivial, trivial⟩)
      (fun _ _ _ _ _ _ hi _ hw => ⟨locksAgree_effect hi (wake_effect (o := o) hw), trivial, trivial⟩) trivial
  exact (hsat.mono (fun s a _ => hf a s) (fun s e _ => hx s e)).bind

/-- `Storage::Commit` sets the status first; nobody takes it back while the event is written. -/
theorem sat_commit : (lift (Server.commit t)).Sat (kernel o) (alone t) (fun s _ => Closed t s) X s := by
  have hrelease : ∀ s : Node, s.context.txStorage.txStatus t = some .commited →
      Calls (kernel o) (alone t) (.server (.releaseAllLocks t)) (fun s _ => Closed t s) s := by
    intro s hs
    refine calls_now (r := ()) rfl fun hi _ => ?_
    have heffect := perform_effect o s (.server (.releaseAllLocks t))
    refine ⟨locksAgree_effect hi heffect, trivial, ?_, ?_⟩
    · change (Server.releaseAllLocks s.context t).txStorage.txStatus t = _
      unfold Server.releaseAllLocks
      split_ifs <;> exact hs
    · intro key
      change (Server.releaseAllLocks s.context t).txStorage.rowLocks key ≠ some t
      unfold Server.releaseAllLocks
      split_ifs with hnil
      · intro hkey
        have hmem := (hi key t).mp hkey
        rw [hnil] at hmem
        cases hmem
      · change (s.context.txStorage.releaseAllLocks t).rowLocks key ≠ some t
        rw [TxStorage.releaseAllLocks_rowLocks]
        split_ifs with hheld
        · exact (nomatch ·)
        · exact fun hkey => hheld ⟨(hi key t).mp hkey, hkey⟩
  refine calls_of (P := fun s => s.context.txStorage.txStatus t = some .commited) (fun _ _ h hr => hr.commited h) ?_ ?_
  · intro hi _
    have heffect := perform_effect o s (.server (.logCommit t))
    exact ⟨locksAgree_effect hi heffect, trivial, TxStorage.setStatus_txStatus_self ..⟩
  · rintro u b ⟨u', x⟩ hu hi - hw
    have heffect : Effect o u (.server (.logCommit t)) u' := wake_effect hw
    have hstatus : u'.context.txStorage.txStatus t = some .commited := by
      cases heffect with
      | same => exact hu
      | logCommit => exact TxStorage.setStatus_txStatus_self ..
      | resume op call walWriter hres => exact hu
      | edit op no id f l hedit hl => cases hedit
    refine ⟨locksAgree_effect hi heffect, trivial, ?_⟩
    cases x with
    | inl r => exact hrelease u' hstatus
    | inr b => exact hstatus

def Request.finishes : Request → Bool
  | .begin => false
  | .commit _ => false
  | .compactTable _ _ => false
  | .compaction => false
  | _ => true

def ClosedIfOk (t : TransactionId) (s : Node) (response : Response) : Prop := response.isOk = true → Closed t s

theorem sat_finish {response : Response} :
    (finish none t >>= fun _ => (pure response : Program Response)).Sat (kernel o) (alone t) (ClosedIfOk t)
      (fun _ _ => True) s :=
  Coro.Sat.bind (sat_commit.mono (fun _ _ h _ => h) fun _ _ h => h)

theorem sat_withTable {name : Bytes} {body : Table → Program Response}
    (hbody : ∀ table s, (body table).Sat (kernel o) (alone t) (ClosedIfOk t) (fun _ _ => True) s) :
    (withTable t name body).Sat (kernel o) (alone t) (ClosedIfOk t) (fun _ _ => True) s := by
  refine sat_behind (fun table s => ?_) fun _ _ => trivial
  cases table with
  | none =>
    intro hok
    cases hok
  | some table => exact hbody table s

theorem sat_body (no : ℕ) {request : Request} (htx : request.tx = none) (hf : request.finishes = true) :
    (body no t request).Sat (kernel o) (alone t) (ClosedIfOk t) (fun _ _ => True) s := by
  cases request with
  | begin => cases hf
  | commit carried => cases hf
  | upsert carried table key value =>
    cases htx
    exact sat_withTable fun table s => sat_behind (fun _ s => sat_finish) fun _ _ => trivial
  | lookup carried table key =>
    cases htx
    exact sat_withTable fun table s => sat_behind (fun _ s => sat_finish) fun _ _ => trivial
  | delete carried table key =>
    cases htx
    exact sat_withTable fun table s => sat_behind (fun _ s => sat_finish) fun _ _ => trivial
  | createTable carried name id =>
    cases htx
    exact sat_behind (fun _ s => sat_finish) fun _ _ => trivial
  | dropTable carried name =>
    cases htx
    exact sat_behind (fun _ s => sat_finish) fun _ _ => trivial
  | scan carried table lowerBound upperBound =>
    cases htx
    exact sat_withTable fun table s => sat_behind (fun _ s => sat_finish) fun _ _ => trivial
  | compactTable carried table => cases hf
  | compaction => cases hf

end

/-- A thread whose transaction was begun for it and is to be committed by it. -/
def Thread.Implicit (th : Thread) (t : TransactionId) : Prop :=
  match th.activity with
  | .session request tx => tx = t ∧ request.tx = none ∧ request.finishes = true
  | _ => False

instance (th : Thread) (t : TransactionId) : Decidable (th.Implicit t) := by
  unfold Thread.Implicit
  split <;> infer_instance

theorem sat_program {o : Options} {th : Thread} {t : TransactionId} (h : th.Implicit t) (s : Node) :
    (program th).Sat (kernel o) (alone t) (ClosedIfOk t) (fun _ _ => True) s := by
  obtain ⟨no, activity⟩ := th
  cases activity with
  | session request tx =>
    obtain ⟨rfl, htx, hf⟩ := h
    refine Coro.Sat.handle ((sat_body no htx hf).mono (fun _ _ h => h) fun s e _ => ?_)
    intro hok
    cases hok
  | rollback tx => exact h.elim
  | flush ids => exact h.elim

def answer : Task Res Wait Exception Response → Option Response
  | .finished (.ok response) => some response
  | _ => none

def Live (u : Task Res Wait Exception Response) : Prop :=
  u.Unfinished ∨ ∃ response, answer u = some response ∧ response.isOk = true

theorem Live.of_advance {o : Options} {s s' : Node} {u u' : Task Res Wait Exception Response}
    (h : (kernel o).advance s u = some (s', u')) : u.Unfinished := by
  cases u with
  | ready p => trivial
  | suspended op b k => trivial
  | finished result => cases h

variable {o : Options} {s s' : Service} {action : Action} {t : TransactionId}

/-- Of two threads of a transaction that was begun for one of them, the other has finished. -/
def Apart (x y : Thread × Task Res Wait Exception Response) : Prop :=
  ∀ t, x.1.tx = some t → y.1.tx = some t →
    (x.1.Implicit t → Live x.2 → ¬ y.2.Unfinished) ∧ (y.1.Implicit t → Live y.2 → ¬ x.2.Unfinished)

structure Closing (o : Options) (s : Service) : Prop where
  basic : Basic s
  apart : s.tasks.Pairwise Apart
  sat : ∀ x ∈ s.tasks, ∀ t, x.1.Implicit t →
    x.2.Sat (kernel o) (alone t) (ClosedIfOk t) (fun _ _ => True) s.shared

/-- While a request without a transaction is under way, nobody else uses the one that was begun for it. -/
def Private (s : Service) : Action → Prop
  | .request r => ∀ t ∈ r.tx, ∀ x ∈ s.tasks, x.2.Unfinished → ¬ x.1.Implicit t
  | .rollback t => ∀ x ∈ s.tasks, x.2.Unfinished → ¬ x.1.Implicit t
  | _ => True

theorem Thread.Implicit.tx {th : Thread} (h : th.Implicit t) : th.tx = some t := by
  obtain ⟨no, activity⟩ := th
  cases activity with
  | session request tx => exact congrArg some h.1
  | rollback tx => exact h.elim
  | flush ids => exact h.elim

theorem sat_stable {node node' : Node} {u : Task Res Wait Exception Response} (hr : Respects t node node')
    (h : u.Sat (kernel o) (alone t) (ClosedIfOk t) (fun _ _ => True) node) :
    u.Sat (kernel o) (alone t) (ClosedIfOk t) (fun _ _ => True) node' :=
  h.stable (fun _ hq hok => (hq hok).respects hr) (fun _ hx => hx) hr

namespace Closing

/-- The transaction of a thread that has answered OK is closed. -/
theorem closed (h : Closing o s) {x : Thread × Task Res Wait Exception Response} (hx : x ∈ s.tasks)
    (hi : x.1.Implicit t) {response : Response} (ha : answer x.2 = some response) (hok : response.isOk = true) :
    Closed t s.shared := by
  have hsat := h.sat x hx t hi
  obtain ⟨th, u⟩ := x
  cases u with
  | ready c => cases ha
  | suspended op b k => cases ha
  | finished result =>
    cases result with
    | ok a =>
      cases ha
      exact hsat hok
    | error e => cases ha

/-- Nobody uses a transaction that was begun for a thread which is live. -/
theorem not_live (h : Closing o s) (hstarted : s.shared.context.txStorage.isStarted t = true)
    (hg : ∀ x ∈ s.tasks, x.2.Unfinished → ¬ x.1.Implicit t) {x : Thread × Task Res Wait Exception Response}
    (hx : x ∈ s.tasks) (hi : x.1.Implicit t) : ¬ Live x.2 := by
  rintro (hu | ⟨response, ha, hok⟩)
  · exact hg x hx hu hi
  · have hstatus := (h.closed hx hi ha hok).1
    rw [TxStorage.isStarted_iff.mp hstarted] at hstatus
    cases hstatus

theorem spawn (h : Closing o s) (hg : Private s action) {node : Node} {activity : Activity}
    (hs : Starts s.shared action node activity) : Closing o ⟨node, s.tasks ++ [s.spawned activity]⟩ := by
  refine ⟨h.basic.spawn hs, ?_, ?_⟩
  · refine List.pairwise_append.mpr ⟨h.apart, List.pairwise_singleton _ _, ?_⟩
    intro x hx y hy t hxt hyt
    obtain rfl := List.mem_singleton.mp hy
    cases hs with
    | begin r htx hfresh hmutates =>
      cases hyt
      exact absurd (h.basic.tasks x hx _ hxt) (lt_irrefl _)
    | join r tx htx hfresh hmutates hstarted =>
      cases hyt
      refine ⟨fun hi hl => absurd hl (h.not_live hstarted (hg t htx) hx hi), fun hi => ?_⟩
      have hnone : r.tx = none := hi.2.1
      rw [htx] at hnone
      cases hnone
    | rollback tx hstarted =>
      cases hyt
      exact ⟨fun hi hl => absurd hl (h.not_live hstarted hg hx hi), fun hi => hi.elim⟩
    | flush ids => cases hyt
  · intro x hx t hi
    rcases List.mem_append.mp hx with hx | hx
    · exact sat_stable (.of_spares (hs.spares (h.basic.tasks x hx t hi.tx))) (h.sat x hx t hi)
    · obtain rfl := List.mem_singleton.mp hx
      exact ⟨fun _ => True, fun _ _ _ _ => trivial, trivial, fun node _ => sat_program hi node⟩

theorem advance {node node' : Node} {pre post : List (Thread × Task Res Wait Exception Response)}
    {x : Thread × Task Res Wait Exception Response} {t' : Task Res Wait Exception Response}
    (h : Closing o ⟨node, pre ++ x :: post⟩) (ha : (kernel o).advance node x.2 = some (node', t')) :
    Closing o ⟨node', pre ++ (x.1, t') :: post⟩ := by
  have hx : x ∈ pre ++ x :: post := by simp
  have hunf := Live.of_advance ha
  obtain ⟨hpre, hcons, hacross⟩ := List.pairwise_append.mp h.apart
  obtain ⟨hhead, hpost⟩ := List.pairwise_cons.mp hcons
  refine ⟨h.basic.advance ha, ?_, ?_⟩
  · refine List.pairwise_append.mpr ⟨hpre, List.pairwise_cons.mpr ⟨?_, hpost⟩, ?_⟩
    · intro y hy t hxt hyt
      obtain ⟨hxy, hyx⟩ := hhead y hy t hxt hyt
      exact ⟨fun hi _ => hxy hi (Or.inl hunf), fun hi hl => absurd hunf (hyx hi hl)⟩
    · intro y hy z hz t hyt hzt
      rcases List.mem_cons.mp hz with rfl | hz
      · obtain ⟨hyx, hxy⟩ := hacross y hy x List.mem_cons_self t hyt hzt
        exact ⟨fun hi hl => absurd hunf (hyx hi hl), fun hi _ => hxy hi (Or.inl hunf)⟩
      · exact hacross y hy z (List.mem_cons_of_mem _ hz) t hyt hzt
  · -- the threads beside the one that goes on
    have hothers : ∀ y, y ∈ pre ∨ y ∈ post → ∀ t, y.1.Implicit t →
        y.2.Sat (kernel o) (alone t) (ClosedIfOk t) (fun _ _ => True) node' := by
      intro y hy t hi
      have hmem : y ∈ pre ++ x :: post := by
        simp only [List.mem_append, List.mem_cons]
        tauto
      have hsat := h.sat y hmem t hi
      by_cases hxt : x.1.tx = some t
      · -- then that one has failed, and nothing is said of it
        have hdead : ¬ Live y.2 := by
          intro hl
          rcases hy with hy | hy
          · exact (hacross y hy x List.mem_cons_self t hi.tx hxt).1 hi hl hunf
          · exact (hhead y hy t hxt hi.tx).2 hi hl hunf
        obtain ⟨th, u⟩ := y
        cases u with
        | ready c => exact absurd (Or.inl trivial) hdead
        | suspended op b k => exact absurd (Or.inl trivial) hdead
        | finished result =>
          cases result with
          | ok response => exact fun hok => absurd (Or.inr ⟨response, rfl, hok⟩) hdead
          | error e => trivial
      · exact sat_stable (.of_spares (advance_spares (h.basic.allows x hx) hxt ha)) hsat
    intro y hy t hi
    rcases List.mem_append.mp hy with hy | hy
    · exact hothers y (Or.inl hy) t hi
    · rcases List.mem_cons.mp hy with rfl | hy
      · exact ((h.sat x hx t hi).advance (fun _ => trivial) (fun _ _ _ _ _ => trivial) h.basic.locks
          ((kernel o).meets_of_forall (fun _ _ => trivial) _ _) ha).2.2
      · exact hothers y (Or.inr hy) t hi

theorem apply (h : Closing o s) (event : Event) : Closing o { s with shared := s.shared.apply o event } := by
  have happly := apply_txStorage o s.shared event
  refine ⟨h.basic.apply event, h.apart, fun x hx t hi => sat_stable ⟨fun hc => ?_, fun key hk => ?_⟩
    (h.sat x hx t hi)⟩
  · rcases happly.txStatus t with hold | ⟨-, hnew, -⟩
    · exact hold.trans hc
    · exact hnew
  · rw [happly.rowLocks] at hk
    exact hk

theorem step (h : Closing o s) (hg : Private s action) (hstep : s.step o action = some s') : Closing o s' := by
  rcases step_cases hstep with ⟨node, activity, hs, node', t', ha, rfl⟩ |
    ⟨i, x, pre, post, -, -, htasks, node', t', ha, rfl⟩ | ⟨event, -, rfl⟩ | ⟨events, -, rfl⟩
  · exact (h.spawn hg hs).advance ha
  · have hpool : Closing o ⟨s.shared, pre ++ x :: post⟩ := htasks ▸ h
    exact hpool.advance ha
  · exact h.apply event
  · exact ⟨Basic.restart s events, List.Pairwise.nil, fun x hx => absurd hx List.not_mem_nil⟩

end Closing

instance (s : Service) : (action : Action) → Decidable (Private s action)
  | .request r => inferInstanceAs (Decidable (∀ t ∈ r.tx, _))
  | .rollback _ => inferInstanceAs (Decidable (∀ x ∈ s.tasks, _))
  | .flush _ => isTrue trivial
  | .resume _ => isTrue trivial
  | .apply _ => isTrue trivial
  | .restart _ => isTrue trivial

def leader (o : Options) : Service := start (Node.init o (fun _ => none) Dir.empty [] false)

end StructureDb.Service
