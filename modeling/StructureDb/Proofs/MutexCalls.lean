import StructureDb.Proofs.SharedCalls
import StructureDb.Spec.MutexCalls

/-! `SharedMutex` under any calls: who has it, and that nobody sleeps who could have it. Locking
makes no predicate true that was false, and unlocking leaves no one asleep. -/

namespace StructureDb

namespace SharedMutex

variable {m : SharedMutex} {no : ℕ} {mode mode' : Mode}

/-- What a lock is refused for does not go away by another lock. -/
theorem not_predicate_locked (hp : m.predicate mode) (hnot : ¬ m.predicate mode') :
    ¬ (m.locked no mode).predicate mode' := by
  cases mode with
  | shared =>
    change 0 ≤ m.state at hp
    cases mode' with
    | shared => exact absurd hp hnot
    | exclusive =>
      change ¬ m.state + 1 = 0
      omega
  | exclusive =>
    cases mode' with
    | shared =>
      change ¬ (0 : ℤ) ≤ -1
      omega
    | exclusive =>
      change ¬ (-1 : ℤ) = 0
      omega

theorem predicate_of_free (h : m.state = 0) (mode : Mode) : m.predicate mode := by
  cases mode with
  | shared => exact h.ge
  | exclusive => exact h

end SharedMutex

namespace MutexCalls

variable {s s' : MutexCalls} {no : ℕ} {mode : Mode}

/-- `state_` counts the holders, and whoever sleeps has a predicate that is false. -/
structure Inv (s : MutexCalls) : Prop where
  owned : s.mutex.Owned
  distinct : (s.waiting.map Waiter.no).Nodup
  -- timers are used once
  timers : ∀ w ∈ s.waiting, w.timer < s.mutex.timers
  sleepers : ∀ t ∈ s.mutex.waiters, ∃ w ∈ s.waiting, w.timer = t
  refused : ∀ w ∈ s.waiting, s.asleep w → ¬ s.mutex.predicate w.mode

theorem Inv.start : Inv start :=
  ⟨SharedMutex.owned_unlocked, List.nodup_nil, fun _ hw => absurd hw List.not_mem_nil,
    fun _ ht => absurd ht List.not_mem_nil, fun _ hw => absurd hw List.not_mem_nil⟩

theorem Inv.tryLock (h : Inv s) (hfree : ¬ s.blocked no) (mode : Mode) : Inv (s.tryLock no mode) := by
  unfold MutexCalls.tryLock SharedMutex.tryLock
  split_ifs with hp
  · refine ⟨h.owned.locked hp no, h.distinct, h.timers, h.sleepers, ?_⟩
    intro w hw hasleep
    exact SharedMutex.not_predicate_locked hp (h.refused w hw hasleep)
  · -- one more sleeper, with a timer that nobody had
    refine ⟨?_, ?_, ?_, ?_, ?_⟩
    · cases h.owned with
      | shared hstate hmode => exact .shared hstate hmode
      | exclusive no' hstate howners => exact .exclusive no' hstate howners
    · rw [List.map_append]
      exact List.nodup_append_comm.mp (List.nodup_cons.mpr ⟨hfree, h.distinct⟩)
    · intro w hw
      rcases List.mem_append.mp hw with hw | hw
      · exact (h.timers w hw).trans (Nat.lt_succ_self _)
      · rw [List.mem_singleton.mp hw]
        exact Nat.lt_succ_self _
    · intro t ht
      rcases List.mem_append.mp ht with ht | ht
      · obtain ⟨w, hw, he⟩ := h.sleepers t ht
        exact ⟨w, List.mem_append_left _ hw, he⟩
      · exact ⟨_, List.mem_append_right _ (List.mem_singleton_self _), (List.mem_singleton.mp ht).symm⟩
    · intro w hw hasleep
      rcases List.mem_append.mp hw with hw | hw
      · refine h.refused w hw ?_
        rcases List.mem_append.mp hasleep with ht | ht
        · exact ht
        · exact absurd (List.mem_singleton.mp ht) (h.timers w hw).ne
      · rw [List.mem_singleton.mp hw]
        exact hp

theorem Inv.unlock (h : Inv s) (hmem : (no, mode) ∈ s.mutex.owners) :
    Inv { s with mutex := s.mutex.unlock no mode } :=
  ⟨h.owned.unlock hmem, h.distinct, h.timers, fun _ ht => absurd ht List.not_mem_nil,
    fun _ _ ht => absurd ht List.not_mem_nil⟩

/-- A coroutine that does not sleep any more leaves the others as they are. -/
theorem Inv.wake (h : Inv s) {w : Waiter} (hw : w ∈ s.waiting) (hawake : ¬ s.asleep w) :
    Inv { s with waiting := s.waiting.filter fun w' => w'.no ≠ w.no } := by
  refine ⟨h.owned, h.distinct.sublist (List.filter_sublist.map _),
    fun w' hw' => h.timers w' (List.mem_filter.mp hw').1, ?_, fun w' hw' => h.refused w' (List.mem_filter.mp hw').1⟩
  intro t ht
  obtain ⟨w', hw', rfl⟩ := h.sleepers t ht
  refine ⟨w', List.mem_filter.mpr ⟨hw', ?_⟩, rfl⟩
  rw [decide_eq_true_eq]
  intro he
  rw [List.inj_on_of_nodup_map h.distinct hw' hw he] at ht
  exact hawake ht

theorem Inv.step {a : Action} (h : Inv s) (hstep : MutexCalls.step s a = some s') : Inv s' := by
  cases a with
  | lock no mode =>
    rw [MutexCalls.step] at hstep
    split_ifs at hstep with hblocked
    rw [← Option.some.inj hstep]
    exact h.tryLock hblocked mode
  | unlock no mode =>
    rw [MutexCalls.step] at hstep
    split_ifs at hstep with hnot
    rw [← Option.some.inj hstep]
    exact h.unlock (not_not.mp (not_or.mp hnot).2)
  | resume no =>
    rw [MutexCalls.step] at hstep
    cases hfind : s.waiting.find? fun w => w.no = no with
    | none =>
      rw [hfind] at hstep
      cases hstep
    | some w =>
      obtain rfl : w.no = no := by simpa using List.find?_some hfind
      simp only [hfind] at hstep
      split_ifs at hstep with hasleep
      rw [← Option.some.inj hstep]
      refine (h.wake (List.mem_of_find?_eq_some hfind) hasleep).tryLock ?_ w.mode
      intro hblocked
      obtain ⟨w', hw', he⟩ := List.mem_map.mp hblocked
      exact absurd he (of_decide_eq_true (List.mem_filter.mp hw').2)

theorem Inv.run {actions : List Action} (hr : Machine.run MutexCalls.step MutexCalls.start actions = some s) : Inv s :=
  Machine.run_inv (G := fun _ _ => True) (P := fun _ s => Inv s) .start (fun _ _ _ _ h _ hstep => h.step hstep)
    (Machine.guarded_of_forall (fun _ _ _ => trivial) _) hr

/-- After any calls in any order: `state_` says who has the mutex, and nobody sleeps in `TryLock` who could have it. -/
theorem mutex_safe (actions : List Action) (s : MutexCalls)
    (hr : Machine.run MutexCalls.step MutexCalls.start actions = some s) :
    (s.mutex.state = -1 ↔ ∃ no, s.mutex.owners = [(no, .exclusive)]) ∧
      (s.mutex.state ≠ -1 →
        s.mutex.state = s.mutex.owners.length ∧ ∀ owner ∈ s.mutex.owners, owner.2 = .shared) ∧
      (∀ w ∈ s.waiting, s.asleep w → ¬ s.mutex.predicate w.mode) ∧
      (s.mutex.state = 0 → ∀ w ∈ s.waiting, ¬ s.asleep w) := by
  have h := Inv.run hr
  refine ⟨?_, ?_, h.refused, ?_⟩
  · cases h.owned with
    | shared hstate hmode =>
      constructor
      · intro he
        omega
      · rintro ⟨no, howners⟩
        cases hmode (no, .exclusive) (by rw [howners]; exact List.mem_singleton_self _)
    | exclusive no hstate howners => exact ⟨fun _ => ⟨no, howners⟩, fun _ => hstate⟩
  · intro hne
    cases h.owned with
    | shared hstate hmode => exact ⟨hstate, hmode⟩
    | exclusive no hstate howners => exact absurd hstate hne
  · intro hfree w hw hasleep
    exact h.refused w hw hasleep (SharedMutex.predicate_of_free hfree w.mode)

/-- A writer and then a reader wait for an exclusive lock; the reader goes on first, and the writer sleeps again. -/
theorem mutex_safe_queue :
    ∃ s, Machine.run MutexCalls.step MutexCalls.start
        [.lock 0 .exclusive, .lock 1 .exclusive, .lock 2 .shared, .unlock 0 .exclusive, .resume 2, .resume 1] = some s ∧
      (s.mutex.state = 1 ∧ s.mutex.owners = [(2, .shared)] ∧ ∃ w ∈ s.waiting, s.asleep w) ∧
      (∀ w ∈ s.waiting, s.asleep w → ¬ s.mutex.predicate w.mode) :=
  Machine.exists_run_of
    (T := fun s : MutexCalls => s.mutex.state = 1 ∧ s.mutex.owners = [(2, .shared)] ∧ ∃ w ∈ s.waiting, s.asleep w)
    (by decide) fun s hs ht => ⟨ht, (mutex_safe _ s hs).2.2.1⟩

end MutexCalls

end StructureDb
