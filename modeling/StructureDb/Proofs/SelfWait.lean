import StructureDb.Proofs.RowLocks

/-! A transaction waits for a row that it holds itself when it writes the row a second time,
or a row of another table, or of the catalog, under the same key. While it does not, no
transaction waits for itself. -/

namespace StructureDb.Server

open Coroutine

variable {o : Options} {u u' : Context} {c c' : Call} {op : Op} {k : Res op → Program Reply}

/-! ### Until the lock is granted -/

theorem acquireRowLock_blocked {tx : TransactionId} {rowKey : Bytes} {b : Wait}
    (h : acquireRowLock u tx rowKey = (u', .inr b)) : u'.txStorage = u.txStorage := by
  unfold acquireRowLock at h
  rcases ha : u.txStorage.acquireRowLock tx rowKey with _ | txStorage
  · rw [ha] at h
    cases h
    rfl
  · rw [ha] at h
    cases h

theorem perform_blocked {b : Wait} (h : perform o u op = (u', .inr b)) (hop : IsLock op) :
    u'.txStorage = u.txStorage := by
  cases op with
  | acquireRowLock tx rowKey => exact acquireRowLock_blocked h
  | _ => cases hop

theorem wake_blocked {b b' : Wait} (h : wake u op b = some (u', .inr b')) (hop : IsLock op) :
    u'.txStorage = u.txStorage := by
  cases op with
  | acquireRowLock tx rowKey =>
    cases b with
    | timer n =>
      rw [wake] at h
      split_ifs at h
      exact acquireRowLock_blocked (Option.some.inj h)
    | write call => cases h
    | io => cases h
  | _ => cases hop

/-- What is left of a coroutine asks for at most one lock, and `G` holds until that is granted. -/
structure Pending (G : Context → Prop) (u : Context) (p : Program Reply) : Prop where
  once : p.Once IsLock
  until_lock : (p.All fun op => ¬IsLock op) ∨ G u

def PendingTask (G : Context → Prop) (u : Context) : Task Res Wait Exception Reply → Prop
  | .ready p => Pending G u p
  | .suspended op _ k => Pending G u (.call op k)
  | .finished _ => True

section
variable {G : Context → Prop} (heffect : ∀ u op u', G u → Effect o u op u' → ¬IsLock op → G u')
  (hsame : ∀ u u' : Context, G u → u'.txStorage = u.txStorage → G u')
include heffect

theorem Pending.done (h : Pending G u (.call op k)) (he : Effect o u op u') (r : Res op) : Pending G u' (k r) := by
  refine ⟨h.once.2 r, ?_⟩
  rcases h.until_lock with hno | hg
  · exact .inl (hno.2 r)
  · by_cases hop : IsLock op
    · exact .inl (h.once.1 hop r)
    · exact .inr (heffect u op u' hg he hop)

include hsame

theorem Pending.blocked (h : Pending G u (.call op k)) (he : Effect o u op u')
    (hlock : IsLock op → u'.txStorage = u.txStorage) : Pending G u' (.call op k) := by
  refine ⟨h.once, h.until_lock.imp_right fun hg => ?_⟩
  by_cases hop : IsLock op
  · exact hsame u u' hg (hlock hop)
  · exact heffect u op u' hg he hop

theorem PendingTask.advance {t t' : Task Res Wait Exception Reply} (h : PendingTask G u t)
    (ha : (kernel o).advance u t = some (u', t')) : PendingTask G u' t' := by
  refine Kernel.Invariant.advance (I := Pending G) (F := PendingTask G) ?_ h ha
  refine ⟨fun _ _ h => h, fun _ _ _ => trivial, fun _ _ _ => trivial, ?_, ?_, ?_, ?_⟩
  · intro u op k u' r h hp
    have he := perform_effect o u op
    rw [show perform o u op = (u', .inl r) from hp] at he
    exact h.done heffect he r
  · intro u op k u' b h hp
    have he := perform_effect o u op
    rw [show perform o u op = (u', .inr b) from hp] at he
    exact h.blocked heffect hsame he (perform_blocked hp)
  · intro u op b k u' r h hw
    exact h.done heffect (wake_effect hw) r
  · intro u op b k u' b' h hw
    exact h.blocked heffect hsame (wake_effect hw) (wake_blocked hw)

end

theorem PendingTask.mono {G G' : Context → Prop} {t : Task Res Wait Exception Reply} (h : PendingTask G u t)
    (hg : t.Unfinished → G u → G' u') : PendingTask G' u' t := by
  cases t with
  | ready p => exact ⟨h.once, h.until_lock.imp_right (hg trivial)⟩
  | suspended op b k => exact ⟨h.once, h.until_lock.imp_right (hg trivial)⟩
  | finished result => trivial

theorem unfinished_of_advance {t t' : Task Res Wait Exception Reply}
    (ha : (kernel o).advance u t = some (u', t')) : t.Unfinished := by
  cases t with
  | ready p => trivial
  | suspended op b k => trivial
  | finished result => cases ha

/-- What `Cond` says of a call is only changed by the lock it asks for, if the calls beside it are `Apart` from it. -/
structure LockRule (o : Options) (Cond : Call → Context → Prop) (Apart : Call → Call → Prop) : Prop where
  symm : ∀ {c c'}, Apart c c' → Apart c' c
  same : ∀ {c} {u u' : Context}, Cond c u → u'.txStorage = u.txStorage → Cond c u'
  effect : ∀ {c u op u'}, Cond c u → Effect o u op u' → ¬IsLock op → Cond c u'
  other : ∀ {c c' u u'} {t t' : Task Res Wait Exception Reply}, Cond c u → Apart c c' → t.All c'.Allows →
    (kernel o).advance u t = some (u', t') → Cond c u'

structure Waiting (Cond : Call → Context → Prop) (Apart : Call → Call → Prop) (s : Server) : Prop where
  protocol : Protocol s
  apart : s.tasks.Pairwise fun x y => x.2.Unfinished → y.2.Unfinished → Apart x.1 y.1
  pending : ∀ x ∈ s.tasks, PendingTask (Cond x.1) s.shared x.2

namespace Waiting

variable {Cond : Call → Context → Prop} {Apart : Call → Call → Prop} {s s' : Server} {action : Action}

theorem add (h : Waiting Cond Apart s) (hc : Cond c s.shared) (hapart : ∀ x ∈ s.tasks, x.2.Unfinished → Apart x.1 c)
    (hp : Protocol s') (hs : s' = ⟨s.shared, s.tasks ++ [(c, .ready (handler c))]⟩) : Waiting Cond Apart s' := by
  refine ⟨hp, ?_, ?_⟩
  · rw [hs]
    refine List.pairwise_append.mpr ⟨h.apart, List.pairwise_singleton _ _, ?_⟩
    intro x hx y hy hux _
    obtain rfl := List.mem_singleton.mp hy
    exact hapart x hx hux
  · rw [hs]
    intro x hx
    rcases List.mem_append.mp hx with hx | hx
    · exact h.pending x hx
    · obtain rfl := List.mem_singleton.mp hx
      exact ⟨handler_locks_once c, .inr hc⟩

theorem resume (hk : LockRule o Cond Apart) (h : Waiting Cond Apart s) (hp : Protocol s')
    {t t' : Task Res Wait Exception Reply} {pre post : List (Call × Task Res Wait Exception Reply)}
    (ha : (kernel o).advance s.shared t = some (u, t')) (htasks : s.tasks = pre ++ (c, t) :: post)
    (hs : s' = ⟨u, pre ++ (c, t') :: post⟩) : Waiting Cond Apart s' := by
  have hu := unfinished_of_advance ha
  have hall : t.All c.Allows := (h.protocol.2 (c, t) (by rw [htasks]; simp)).1
  have hapart := h.apart
  have hpending := h.pending
  rw [htasks] at hapart hpending
  obtain ⟨hpre, hcons, hacross⟩ := List.pairwise_append.mp hapart
  obtain ⟨hhead, hpost⟩ := List.pairwise_cons.mp hcons
  refine ⟨hp, ?_, ?_⟩
  · rw [hs]
    refine List.pairwise_append.mpr ⟨hpre, List.pairwise_cons.mpr ⟨?_, hpost⟩, ?_⟩
    · intro y hy _ huy
      exact hhead y hy hu huy
    · intro x hx y hy hux huy
      rcases List.mem_cons.mp hy with rfl | hy
      · exact hacross x hx (c, t) List.mem_cons_self hux hu
      · exact hacross x hx y (List.mem_cons_of_mem _ hy) hux huy
  · -- the others are apart from the one that goes on
    have hother : ∀ x, x ∈ pre ∨ x ∈ post → PendingTask (Cond x.1) u x.2 := by
      intro x hx
      refine (hpending x (by simp; tauto)).mono fun hux hc => hk.other hc ?_ hall ha
      exact hx.elim (fun hx => hacross x hx _ List.mem_cons_self hux hu) fun hx => hk.symm (hhead x hx hu hux)
    rw [hs]
    intro x hx
    rcases List.mem_append.mp hx with hx | hx
    · exact hother x (.inl hx)
    · rcases List.mem_cons.mp hx with rfl | hx
      · exact (hpending (c, t) (by simp)).advance (fun _ _ _ => hk.effect) (fun _ _ => hk.same) ha
      · exact hother x (.inr hx)

theorem run (hk : LockRule o Cond Apart) {db : Db} {Guard : Server → Action → Prop} {actions : List Action}
    (hstart : ∀ {s c}, Guard s (.start c) → Cond c s.shared ∧ ∀ x ∈ s.tasks, x.2.Unfinished → Apart x.1 c)
    (hg : Machine.Guarded (Server.step o) Guard (start db) actions)
    (hr : Machine.run (Server.step o) (start db) actions = some s) : Waiting Cond Apart s := by
  refine Machine.run_inv (P := fun _ s => Waiting Cond Apart s) ?_ ?_ hg hr
  · exact ⟨protocol_start db, List.Pairwise.nil, fun x hx => absurd hx List.not_mem_nil⟩
  · intro _ s action s' h hg hstep
    have hp := h.protocol.step hstep
    rcases Pool.step_cases hstep with ⟨c, rfl, hs⟩ | ⟨i, c, t, u, t', pre, post, -, -, ha, htasks, hs⟩
    · exact h.add (hstart hg).1 (hstart hg).2 hp hs
    · exact h.resume hk hp ha htasks hs

end Waiting

/-! ### Rows that are new to a transaction -/

def Call.New (c : Call) (u : Context) : Prop :=
  match c.row with
  | none => True
  | some (tx, key) => u.txStorage.rowLocks key ≠ some tx

theorem Call.new_iff : c.New u ↔ ∀ tx key, c.row = some (tx, key) → u.txStorage.rowLocks key ≠ some tx := by
  unfold Call.New
  split
  · rename_i h
    simp [h]
  · rename_i tx key h
    simp [h]

theorem Call.New.of_rowLocks (h : c.New u) (hrow : u'.txStorage.rowLocks = u.txStorage.rowLocks) : c.New u' := by
  unfold Call.New at h ⊢
  rw [hrow]
  exact h

/-- An operation that asks for no lock gives nobody a row. -/
theorem Call.New.effect (h : c.New u) (he : Effect o u op u') (hop : ¬ IsLock op) : c.New u' := by
  cases he with
  | grant tx rowKey txStorage ha => exact absurd trivial hop
  | release tx =>
    rw [Call.new_iff] at h ⊢
    intro t key hrow
    rw [TxStorage.releaseAllLocks_rowLocks]
    split_ifs
    · simp
    · exact h t key hrow
  | _ => exact h.of_rowLocks rfl

/-- A task of another row gives the transaction of the call no row. -/
theorem Call.New.moves (h : c.New u) (hne : c.row = none ∨ c.row ≠ c'.row)
    (hmoves : ∀ key, c'.Moves key (u.txStorage.rowLocks key) (u'.txStorage.rowLocks key)) : c.New u' := by
  rw [Call.new_iff] at h ⊢
  intro tx key hrow hheld
  have hold := h tx key hrow
  have hmove := hmoves key
  rw [hheld] at hmove
  generalize u.txStorage.rowLocks key = holder at hold hmove
  cases hmove with
  | same => exact hold rfl
  | grant _ hrow' =>
    rcases hne with hnone | hne
    · rw [hnone] at hrow
      cases hrow
    · exact hne (hrow.trans hrow'.symm)

/-- A call that asks for a row lock is made only when its transaction does not hold the row, and when no other call of
the transaction that may ask for it is still on the way. -/
def NewRow (s : Server) : Action → Prop
  | .start c => c.New s.shared ∧ ∀ x ∈ s.tasks, x.2.Unfinished → x.1.row = none ∨ x.1.row ≠ c.row
  | .resume _ => True

instance (c : Call) (u : Context) : Decidable (c.New u) :=
  match h : c.row with
  | none => isTrue (by rw [Call.New, h]; trivial)
  | some (tx, key) => decidable_of_iff (u.txStorage.rowLocks key ≠ some tx) (by rw [Call.New, h])

instance (s : Server) : (action : Action) → Decidable (NewRow s action)
  | .start _ => inferInstanceAs (Decidable (_ ∧ _))
  | .resume _ => isTrue trivial

def Differ (c c' : Call) : Prop := c.row = none ∨ c.row ≠ c'.row

theorem lockRule_new : LockRule o Call.New Differ where
  symm := by
    rintro c c' (hnone | hne)
    · rw [Differ, hnone]
      exact eq_or_ne c'.row none
    · exact .inr hne.symm
  same h hsame := h.of_rowLocks (by rw [hsame])
  effect h he hop := h.effect he hop
  other h hne hall ha := h.moves hne fun key => advance_moves hall ha key

/-- In every run whose calls ask for rows that are new to their transactions, nobody waits for a row that the same
transaction holds. -/
theorem no_self_wait (o : Options) (db : Db) (actions : List Action)
    (hg : Machine.Guarded (Server.step o) NewRow (start db) actions) (s : Server)
    (hr : Machine.run (Server.step o) (start db) actions = some s) :
    ∀ c tx rowKey b k, (c, .suspended (.acquireRowLock tx rowKey) b k) ∈ s.tasks →
      s.shared.txStorage.rowLocks rowKey ≠ some tx := by
  have h : Waiting Call.New Differ s := Waiting.run lockRule_new (fun hg => hg) hg hr
  intro c tx rowKey b k hin
  have hrow : c.row = some (tx, rowKey) := (h.protocol.2 _ hin).1.1
  rcases (h.pending _ hin).until_lock with hno | hnew
  · exact absurd trivial hno.1
  · exact Call.new_iff.mp hnew tx rowKey hrow

def waitsFor (tx : TransactionId) (rowKey : Bytes) : Task Res Wait Exception Reply → Bool
  | .suspended (.acquireRowLock tx' rowKey') _ _ => tx' = tx && rowKey' = rowKey
  | _ => false

theorem suspended_of_waitsFor {t : Task Res Wait Exception Reply} {tx : TransactionId} {rowKey : Bytes}
    (h : waitsFor tx rowKey t = true) : ∃ b k, t = .suspended (.acquireRowLock tx rowKey) b k := by
  unfold waitsFor at h
  split at h
  · rename_i tx' rowKey' b k
    simp only [Bool.and_eq_true, decide_eq_true_eq] at h
    obtain ⟨rfl, rfl⟩ := h
    exact ⟨b, k, rfl⟩
  · cases h

/-- Transaction 10 creates a table and writes a row, transaction 11 waits for the row and not for itself. -/
theorem no_self_wait_two_writers :
    ∃ s, Machine.run (Server.step ⟨0⟩) (start (Db.init ⟨0⟩ (fun _ => none) Dir.empty))
        [.start .begin, .resume 0, .start .begin, .resume 1, .start (.createTable 10 [116] [7]), .resume 2, .resume 2,
          .resume 2, .resume 2, .resume 2, .start (.upsert 10 [116] [1] [5]), .resume 3, .resume 3, .resume 3,
            .resume 3,
          .start (.createTable 11 [116] [8]), .resume 4, .resume 4, .resume 4] = some s ∧
      (∃ c b k, (c, .suspended (.acquireRowLock 11 [116]) b k) ∈ s.tasks) ∧
      s.shared.txStorage.rowLocks [116] ≠ some 11 := by
  refine Machine.exists_run_of (T := fun s => s.tasks.any (fun x => waitsFor 11 [116] x.2) = true)
    (by decide +kernel) ?_
  intro s hs hp
  obtain ⟨⟨c, t⟩, hin, hw⟩ := List.any_eq_true.mp hp
  obtain ⟨b, k, rfl⟩ := suspended_of_waitsFor hw
  exact ⟨⟨c, b, k, hin⟩, no_self_wait _ _ _ (by decide +kernel) s hs c 11 [116] b k hin⟩

/-- A transaction that writes a row twice waits for itself. -/
theorem second_write_waits :
    ∃ s, Machine.run (Server.step ⟨0⟩) (start (Db.init ⟨0⟩ (fun _ => none) Dir.empty))
        [.start .begin, .resume 0, .start (.createTable 10 [116] [7]), .resume 1, .resume 1, .resume 1, .resume 1,
          .resume 1, .start (.upsert 10 [116] [1] [5]), .resume 2, .resume 2, .resume 2, .resume 2,
          .start (.upsert 10 [116] [1] [6]), .resume 3, .resume 3, .resume 3] = some s ∧
      (∃ c b k, (c, .suspended (.acquireRowLock 10 [1]) b k) ∈ s.tasks) ∧
      s.shared.txStorage.rowLocks [1] = some 10 := by
  refine Machine.exists_run_of (T := fun s => s.tasks.any (fun x => waitsFor 10 [1] x.2) = true ∧
    s.shared.txStorage.rowLocks [1] = some 10) (by decide +kernel) ?_
  intro s hs hp
  obtain ⟨hp, hrow⟩ := hp
  obtain ⟨⟨c, t⟩, hin, hw⟩ := List.any_eq_true.mp hp
  obtain ⟨b, k, rfl⟩ := suspended_of_waitsFor hw
  exact ⟨⟨c, b, k, hin⟩, hrow⟩

end StructureDb.Server
