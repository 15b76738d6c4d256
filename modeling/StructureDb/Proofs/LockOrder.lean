import StructureDb.Lib.Ranked
import StructureDb.Proofs.SelfWait

/-! Row locks that are taken in ascending order. A transaction that waits for a row holds only rows with smaller keys,
so along a chain of transactions that wait for each other the keys ascend: there is no deadlock, and at the end of
every chain stands a transaction that waits for nobody. -/

namespace StructureDb.Server

open Coroutine

variable {o : Options} {u u' : Context} {c c' : Call} {op : Op} {k : Res op → Program Reply}

/-! ### The order -/

/-- All the rows that the transaction of the call holds have smaller keys than the row it may ask for. -/
def Call.Above (c : Call) (u : Context) : Prop :=
  match c.row with
  | none => True
  | some (tx, key) => ∀ held ∈ u.txStorage.txLocks tx, held < key

theorem Call.above_iff :
    c.Above u ↔ ∀ tx key, c.row = some (tx, key) → ∀ held ∈ u.txStorage.txLocks tx, held < key := by
  unfold Call.Above
  split
  · rename_i h
    simp [h]
  · rename_i tx key h
    simp [h]

instance (c : Call) (u : Context) : Decidable (c.Above u) :=
  match h : c.row with
  | none => isTrue (by rw [Call.Above, h]; trivial)
  | some (tx, key) => decidable_of_iff (∀ held ∈ u.txStorage.txLocks tx, held < key) (by rw [Call.Above, h])

/-- Nobody but the transaction of the call gets a row, and it gets the row of the call. -/
def Gains (c : Call) (u u' : Context) : Prop :=
  ∀ tx held, held ∈ u'.txStorage.txLocks tx → held ∈ u.txStorage.txLocks tx ∨ c.row = some (tx, held)

theorem Gains.of_txLocks (h : u'.txStorage.txLocks = u.txStorage.txLocks) : Gains c u u' := by
  intro tx held hm
  rw [h] at hm
  exact .inl hm

theorem Gains.trans {u'' : Context} (h : Gains c u u') (h' : Gains c u' u'') : Gains c u u'' := by
  intro tx held hm
  rcases h' tx held hm with hm | hrow
  · exact h tx held hm
  · exact .inr hrow

theorem mem_txLocks_release {s : TxStorage} {tx t : TransactionId} {held : Bytes}
    (hm : held ∈ (s.releaseAllLocks tx).txLocks t) : held ∈ s.txLocks t := by
  by_cases ht : t = tx
  · subst ht
    rw [show (s.releaseAllLocks t).txLocks t = [] from Function.update_self ..] at hm
    cases hm
  · rwa [TxStorage.releaseAllLocks_txLocks_of_ne ht] at hm

theorem Gains.effect (hop : c.Allows op) (he : Effect o u op u') : Gains c u u' := by
  cases he with
  | grant tx rowKey txStorage ha =>
    intro t held hm
    change held ∈ txStorage.txLocks t at hm
    rw [(TxStorage.acquireRowLock_spec ha).2.2.2.2] at hm
    by_cases ht : t = tx
    · subst ht
      rw [Function.update_self] at hm
      rcases List.mem_cons.mp hm with rfl | hm
      · exact .inr hop
      · exact .inl hm
    · rw [Function.update_of_ne ht] at hm
      exact .inl hm
  | release tx => exact fun t held hm => .inl (mem_txLocks_release hm)
  | _ => exact .of_txLocks rfl

theorem Call.Above.gains (h : c.Above u) (hg : Gains c' u u')
    (hne : c.row = none ∨ c.row.map Prod.fst ≠ c'.row.map Prod.fst) : c.Above u' := by
  rw [Call.above_iff] at h ⊢
  intro tx key hrow held hm
  rcases hg tx held hm with hm | hrow'
  · exact h tx key hrow held hm
  · rcases hne with hnone | hne
    · rw [hnone] at hrow
      cases hrow
    · rw [hrow, hrow'] at hne
      exact absurd rfl hne

/-- An operation that asks for no lock gives nobody a row. -/
theorem Call.Above.effect (h : c.Above u) (he : Effect o u op u') (hop : ¬IsLock op) : c.Above u' := by
  rw [Call.above_iff] at h ⊢
  intro tx key hrow held hm
  refine h tx key hrow held ?_
  cases he with
  | grant tx' rowKey txStorage ha => exact absurd trivial hop
  | release tx' => exact mem_txLocks_release hm
  | _ => exact hm

/-- A call that may ask for a row is made only when its transaction holds only rows with smaller keys, and has no
other such call on the way. -/
def InOrder (s : Server) : Action → Prop
  | .start c => c.Above s.shared ∧
      ∀ x ∈ s.tasks, x.2.Unfinished → x.1.row = none ∨ x.1.row.map Prod.fst ≠ c.row.map Prod.fst
  | .resume _ => True

instance (s : Server) : (action : Action) → Decidable (InOrder s action)
  | .start _ => inferInstanceAs (Decidable (_ ∧ _))
  | .resume _ => isTrue trivial

def Separate (c c' : Call) : Prop := c.row = none ∨ c.row.map Prod.fst ≠ c'.row.map Prod.fst

theorem lockRule_above : LockRule o Call.Above Separate where
  symm := by
    rintro c c' (hnone | hne)
    · rw [Separate, hnone]
      rcases c'.row with _ | row
      · exact .inl rfl
      · exact .inr (Option.some_ne_none _)
    · exact .inr hne.symm
  same h hsame := by
    rw [Call.above_iff] at h ⊢
    rwa [hsame]
  effect h he hop := h.effect he hop
  other h hne hall ha := h.gains (advance_rel (R := Gains _) (fun _ => .of_txLocks rfl) (fun _ _ _ => .trans)
    (fun _ _ _ => .effect) hall ha).1 hne

abbrev Ordered : Server → Prop := Waiting Call.Above Separate

/-! ### Who waits for whom -/

variable {s : Server} {tx t : TransactionId} {key : Bytes}

def Sleeps (s : Server) (tx : TransactionId) (key : Bytes) : Prop :=
  ∃ c n k, (c, .suspended (.acquireRowLock tx key) (.timer n) k) ∈ s.tasks ∧ n ∈ s.shared.lockAvailable.waiters

def WaitsFor (s : Server) (tx t : TransactionId) : Prop :=
  ∃ key, Sleeps s tx key ∧ s.shared.txStorage.rowLocks key = some t

def askedRows (s : Server) : List Bytes := s.tasks.filterMap fun x => x.1.row.map Prod.snd

theorem row_of_sleeps (h : Ordered s) (hs : Sleeps s tx key) :
    key ∈ askedRows s ∧ ∀ held, s.shared.txStorage.rowLocks held = some tx → held < key := by
  obtain ⟨c, n, k, hin, -⟩ := hs
  have hrow : c.row = some (tx, key) := (h.protocol.2 _ hin).1.1
  refine ⟨List.mem_filterMap.mpr ⟨_, hin, by rw [hrow]; rfl⟩, fun held hheld => ?_⟩
  rcases (h.pending _ hin).until_lock with hno | habove
  · exact absurd trivial hno.1
  · exact Call.above_iff.mp habove tx key hrow held ((h.protocol.1 held tx).mp hheld)

theorem ascending (h : Ordered s) : Ranked.Ascending (WaitsFor s) (Sleeps s) (askedRows s) := by
  -- whoever holds a row that somebody sleeps for asks only for greater ones
  have hbelow : ∀ key t, s.shared.txStorage.rowLocks key = some t → ∀ key', Sleeps s t key' → key < key' :=
    fun key t hheld key' hs => (row_of_sleeps h hs).2 key hheld
  refine ⟨fun tx key hs => (row_of_sleeps h hs).1, ?_, ?_⟩
  · rintro tx t ⟨key, hs, hheld⟩
    exact ⟨key, hs, hbelow key t hheld⟩
  · intro tx key hs
    obtain ⟨c, n, k, hin, hn⟩ := hs
    obtain ⟨t, ht⟩ := Option.ne_none_iff_exists'.mp (((h.protocol.2 _ hin).2 _ _ _ rfl).2 hn)
    exact ⟨t, ⟨key, ⟨c, n, k, hin, hn⟩, ht⟩, hbelow key t ht⟩

/-- In every run in which each transaction asks for its rows one after another in ascending order, no transactions
wait for each other in a circle, and from each one that sleeps the chain of holders ends at one that sleeps for no
row. -/
theorem ascending_locks_never_deadlock (o : Options) (db : Db) (actions : List Action)
    (hg : Machine.Guarded (Server.step o) InOrder (start db) actions) (s : Server)
    (hr : Machine.run (Server.step o) (start db) actions = some s) :
    (∀ tx, ¬Relation.TransGen (WaitsFor s) tx tx) ∧
      ∀ tx key, Sleeps s tx key → ∃ t, Relation.TransGen (WaitsFor s) tx t ∧ ∀ key', ¬Sleeps s t key' := by
  have h : Ordered s := Waiting.run lockRule_above (fun hg => hg) hg hr
  exact ⟨fun tx => (ascending h).acyclic, fun tx key hs => (ascending h).exists_end hs⟩

def sleepsFor (waiters : List ℕ) (tx : TransactionId) (key : Bytes) : Task Res Wait Exception Reply → Bool
  | .suspended (.acquireRowLock tx' key') (.timer n) _ => tx' = tx && key' = key && waiters.contains n
  | _ => false

theorem suspended_of_sleepsFor {waiters : List ℕ} {t : Task Res Wait Exception Reply}
    (h : sleepsFor waiters tx key t = true) :
    ∃ n k, t = .suspended (.acquireRowLock tx key) (.timer n) k ∧ n ∈ waiters := by
  unfold sleepsFor at h
  split at h
  · rename_i tx' key' n k
    simp only [Bool.and_eq_true, decide_eq_true_eq, List.contains_iff_mem] at h
    obtain ⟨⟨rfl, rfl⟩, hn⟩ := h
    exact ⟨n, k, rfl, hn⟩
  · cases h

theorem sleeps_of_any (h : s.tasks.any (fun x => sleepsFor s.shared.lockAvailable.waiters tx key x.2) = true) :
    Sleeps s tx key := by
  obtain ⟨⟨c, t⟩, hin, hs⟩ := List.any_eq_true.mp h
  obtain ⟨n, k, rfl, hn⟩ := suspended_of_sleepsFor hs
  exact ⟨c, n, k, hin, hn⟩

/-- Transaction 12 waits for 11, which waits for 10. -/
theorem ascending_locks_never_deadlock_chain :
    ∃ s, Machine.run (Server.step ⟨0⟩) (start (Db.init ⟨0⟩ (fun _ => none) Dir.empty))
        [.start .begin, .resume 0, .start .begin, .resume 1, .start .begin, .resume 2,
          .start (.acquireRowLock 10 [2]), .resume 3, .start (.acquireRowLock 11 [1]), .resume 4,
            .start (.acquireRowLock 11 [2]), .resume 5,
          .start (.acquireRowLock 12 [1]), .resume 6] = some s ∧
      WaitsFor s 11 10 ∧ ∃ t, Relation.TransGen (WaitsFor s) 12 t ∧ ∀ key', ¬Sleeps s t key' := by
  refine Machine.exists_run_of (T := fun s => s.shared.txStorage.rowLocks [2] = some 10 ∧
    s.tasks.any (fun x => sleepsFor s.shared.lockAvailable.waiters 11 [2] x.2) = true ∧
    s.tasks.any (fun x => sleepsFor s.shared.lockAvailable.waiters 12 [1] x.2) = true) (by decide +kernel) ?_
  intro s hs hp
  obtain ⟨hheld, h11, h12⟩ := hp
  refine ⟨⟨[2], sleeps_of_any h11, hheld⟩, ?_⟩
  exact (ascending_locks_never_deadlock _ _ _ (by decide +kernel) s hs).2 12 [1] (sleeps_of_any h12)

/-- In the other order two transactions wait for each other. -/
example : ∃ s, Machine.run (Server.step ⟨0⟩) (start (Db.init ⟨0⟩ (fun _ => none) Dir.empty))
      [.start .begin, .resume 0, .start .begin, .resume 1, .start (.acquireRowLock 10 [1]), .resume 2,
        .start (.acquireRowLock 11 [2]), .resume 3, .start (.acquireRowLock 10 [2]), .resume 4,
        .start (.acquireRowLock 11 [1]), .resume 5] = some s ∧
    s.shared.txStorage.rowLocks [1] = some 10 ∧ s.shared.txStorage.rowLocks [2] = some 11 ∧
    s.tasks.any (fun x => sleepsFor s.shared.lockAvailable.waiters 10 [2] x.2) = true ∧
    s.tasks.any (fun x => sleepsFor s.shared.lockAvailable.waiters 11 [1] x.2) = true :=
  Machine.exists_run (by decide +kernel)

end StructureDb.Server
