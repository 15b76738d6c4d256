import StructureDb.Proofs.SharedRuns

/-! Calls in which a file operation throws. No lock is released on the way out: `Get` leaves
`shared_mutex_` locked and `Flush` and `Compact` leave `maintenance_mutex_` locked. The records
stay as they are, up to what has been published before. -/

namespace StructureDb.SharedLsm

open Coroutine

variable {V : Type} [LinearOrder V] {o : Options}

def Merged (strategy : List (Record V) → List (Record V)) (tables tables' : List (SSTable V)) : Prop :=
  ∃ path, tables' = [⟨path, strategy (mergeIterator (tables.map fun t => t.scan .fullScan))⟩]

/-- What a call keeps. A flush moves the frozen mem tables that it has published, from the front; a compaction puts its
output in the place of the tables. -/
def Call.Keeps : Call V → Lsm V → Lsm V → Prop
  | .put _ _, _, _ => True
  | .putSeq _, _, _ => True
  | .get _, l, l' => l' = { l with dir := l'.dir }
  | .flush, l, l' => ∃ published, l.roMemTables = published ++ l'.roMemTables ∧ l'.memTable = l.memTable ∧
      l'.ssTables.map SSTable.records = l.ssTables.map SSTable.records ++ published.map MemTable.impl ∧
      l'.maxPersistentSeqNo =
        (published.flatMap MemTable.impl).foldl (fun n r => max n r.seqNo) l.maxPersistentSeqNo
  | .compact strategy, l, l' => l' = { l with ssTables := l'.ssTables, dir := l'.dir } ∧
      Relation.ReflTransGen (Merged strategy) l.ssTables l'.ssTables

omit [LinearOrder V] in
theorem foldl_max_seqNo (records : List (Record V)) (n : ℕ) :
    records.foldl (fun n r => max n r.seqNo) n = max n (records.foldl (fun n r => max n r.seqNo) 0) := by
  induction records generalizing n with
  | nil => simp
  | cons r records ih => rw [List.foldl_cons, ih, List.foldl_cons, ih (max 0 r.seqNo), Nat.zero_max, max_assoc]

theorem keeps_of_effect {c : Call V} {l l' : Lsm V} (h : Relation.ReflTransGen (Effect c) l l') : c.Keeps l l' := by
  induction h with
  | refl =>
    cases c with
    | put key value => trivial
    | putSeq r => trivial
    | get key => rfl
    | flush => exact ⟨[], rfl, rfl, (List.append_nil _).symm, rfl⟩
    | compact strategy => exact ⟨rfl, .refl⟩
  | @tail l₁ l₂ _ heffect ih =>
    cases heffect with
    | put => trivial
    | putSeq => trivial
    | files _ _ dir =>
      cases c with
      | put key value => trivial
      | putSeq r => trivial
      | get key =>
        have heq : l₁ = { l with dir := l₁.dir } := ih
        change ({ l₁ with dir } : Lsm V) = { l with dir }
        rw [heq]
      | flush => exact ih
      | compact strategy =>
        obtain ⟨heq, hmerged⟩ := ih
        refine ⟨?_, hmerged⟩
        change ({ l₁ with dir } : Lsm V) = { l with ssTables := l₁.ssTables, dir }
        rw [heq]
    | flush _ m rest hro =>
      obtain ⟨published, hpublished, hmem, hss, hmax⟩ := ih
      refine ⟨published ++ [m], ?_, hmem, ?_, ?_⟩
      · change l.roMemTables = published ++ [m] ++ l₁.roMemTables.tail
        rw [hpublished, hro, List.append_assoc]
        rfl
      · change (l₁.ssTables ++ [l₁.flushTable m]).map SSTable.records = _
        rw [List.map_append, hss, List.map_append, List.append_assoc]
        rfl
      · change max l₁.maxPersistentSeqNo (l₁.flushTable m).getMaxSeqNo = _
        rw [List.flatMap_append, List.foldl_append, ← hmax, List.flatMap_singleton, foldl_max_seqNo]
        rfl
    | compact strategy _ =>
      obtain ⟨heq, hmerged⟩ := ih
      refine ⟨?_, hmerged.tail ⟨_, rfl⟩⟩
      change ({ l₁ with ssTables := [l₁.compactTable strategy] } : Lsm V) = _
      rw [heq]
      rfl

theorem ssRecords_of_merged {l l' : Lsm V} {strategy : List (Record V) → List (Record V)}
    (h : (Call.compact strategy).Keeps l l') (hcopy : ∀ rows, strategy rows = rows) :
    l'.ssRecords.Perm l.ssRecords := by
  have hperm (tables : List (SSTable V)) : (tables.reverse.map SSTable.records).flatten.Perm
      (mergeIterator (tables.map fun t => t.scan .fullScan)) :=
    ((Lsm.mergedRecords_perm { l with ssTables := tables })).symm
  obtain ⟨-, hmerged⟩ := h
  rw [Lsm.ssRecords, Lsm.ssRecords]
  generalize l'.ssTables = tables at hmerged
  induction hmerged with
  | refl => rfl
  | tail _ hmerge ih =>
    obtain ⟨path, rfl⟩ := hmerge
    simp only [List.reverse_singleton, List.map_cons, List.map_nil, List.flatten_cons, List.flatten_nil,
      List.append_nil, hcopy]
    exact (hperm _).symm.trans ih

section Ends

variable {fs : List Bool} {base : ℕ} {p : CallPool V} {x : Caller V × Task (Res (V := V)) Wait Exception (Answer V)}

theorem not_mem_of_locks {s : SharedLsm V} {no : ℕ} (h : s.locks no = noLocks) (m : Mutex) (mode : Mode) :
    (no, mode) ∉ (s.mutex m).owners := by
  rw [← List.count_eq_zero]
  exact congrFun (congrFun h m) mode

theorem Running.returned (h : Running o fs base p) (hx : x ∈ p.tasks) (hend : ¬ x.2.Unfinished) (hthrew : ¬ x.2.Threw) :
    p.shared.locks x.1.no = noLocks := by
  have hsat := h.sat x hx
  obtain ⟨c, t⟩ := x
  cases t with
  | ready _ => exact absurd trivial hend
  | suspended _ _ _ => exact absurd trivial hend
  | finished result =>
    cases result with
    | ok a => exact hsat
    | error e => exact absurd trivial hthrew

theorem Running.threw (h : Running o fs base p) (hx : x ∈ p.tasks) (hthrew : x.2.Threw) :
    ∃ y ∈ x.1.call.leaves, p.shared.locks x.1.no = plus noLocks y.1 y.2 ∧ true ∈ fs := by
  have hsat := h.sat x hx
  obtain ⟨c, t⟩ := x
  cases t with
  | ready _ => cases hthrew
  | suspended _ _ _ => cases hthrew
  | finished result =>
    cases result with
    | ok a => cases hthrew
    | error e => exact hsat

/-- Where every call has returned, the mutexes are free. -/
theorem Running.free (h : Running o fs base p) (hend : ∀ x ∈ p.tasks, ¬ x.2.Unfinished ∧ ¬ x.2.Threw) (m : Mutex) :
    (p.shared.mutex m).state = 0 := by
  have hnone : (p.shared.mutex m).owners = [] := by
    refine List.eq_nil_iff_forall_not_mem.mpr ?_
    rintro ⟨no, mode⟩
    refine not_mem_of_locks ?_ m mode
    by_cases hno : p.tasks.length ≤ no
    · exact h.fresh no hno
    · have hmem : no ∈ p.tasks.map fun x => x.1.no := by
        rw [h.numbered]
        exact List.mem_range.mpr (not_le.mp hno)
      obtain ⟨x, hx, rfl⟩ := List.mem_map.mp hmem
      exact h.returned hx (hend x hx).1 (hend x hx).2
  cases h.inv.owned m with
  | shared hstate hmode => rw [hstate, hnone]; rfl
  | exclusive no hstate howners => rw [hnone] at howners; cases howners

end Ends

/-- Without faults no call throws, and the mutexes are free again when all are over. A call that throws keeps the one
lock that it holds across its file operations. In every case the tables keep their records. -/
theorem failed_calls (o : Options) (dir : Dir Bytes (List (Record V))) (faults : List Bool) (acts : List (Action V))
    (p : CallPool V) (hr : Machine.run (step o) (start dir faults) acts = some p) :
    (∀ x ∈ p.tasks, ¬ x.2.Unfinished → ¬ x.2.Threw → ∀ m mode, (x.1.no, mode) ∉ (p.shared.mutex m).owners) ∧
      (true ∉ faults → (∀ x ∈ p.tasks, ¬ x.2.Threw) ∧
        ((∀ x ∈ p.tasks, ¬ x.2.Unfinished) → ∀ m, (p.shared.mutex m).state = 0)) ∧
      (∀ x ∈ p.tasks, x.2.Threw → ∃ y ∈ x.1.call.leaves, ∀ m mode,
        (x.1.no, mode) ∈ (p.shared.mutex m).owners ↔ m = y.1 ∧ mode = y.2) ∧
      (∀ m, (p.shared.mutex m).Owned) ∧
      ∀ a p' c, step o p a = some p' → c ∈ caller p a → c.call.Keeps p.shared.lsm p'.shared.lsm ∧
        ∀ strategy, c.call = .compact strategy → (∀ rows, strategy rows = rows) →
          p'.shared.lsm.ssRecords.Perm p.shared.lsm.ssRecords := by
  have hrun := Running.run hr
  have hnone : true ∉ faults → ∀ x ∈ p.tasks, ¬ x.2.Threw := fun hf x hx hthrew => by
    obtain ⟨y, -, -, hfs⟩ := hrun.threw hx hthrew
    exact hf hfs
  refine ⟨?_, ?_, ?_, hrun.inv.owned, ?_⟩
  · exact fun x hx hend hthrew => not_mem_of_locks (hrun.returned hx hend hthrew)
  · exact fun hf => ⟨hnone hf, fun hend => hrun.free fun x hx => ⟨hend x hx, hnone hf x hx⟩⟩
  · intro x hx hthrew
    obtain ⟨y, hy, hlocks, -⟩ := hrun.threw hx hthrew
    refine ⟨y, hy, fun m mode => ?_⟩
    have hcount : (p.shared.mutex m).owners.count (x.1.no, mode) = plus noLocks y.1 y.2 m mode :=
      congrFun (congrFun hlocks m) mode
    rw [← List.count_pos_iff, hcount, plus, noLocks]
    split_ifs with he
    · exact ⟨fun _ => he, fun _ => Nat.one_pos⟩
    · exact ⟨fun h => absurd h (lt_irrefl 0), fun h => absurd h he⟩
  · intro a p' c hstep hc
    have hkeeps := keeps_of_effect ((hrun.step hstep).2 c hc).effect
    refine ⟨hkeeps, fun strategy hcompact hcopy => ?_⟩
    rw [hcompact] at hkeeps
    exact ssRecords_of_merged hkeeps hcopy

/-- A flush whose first file operation throws, and one that works. -/
theorem failed_calls_flush :
    ∃ p, Machine.run (step ⟨0⟩) (start (Dir.empty : Dir Bytes (List (Record ℕ))) [true])
        [.call (.put [1] 5), .call .flush, .resume 1] = some p ∧
      (p.tasks.map fun x => decide x.2.Threw) = [false, true] ∧
      (∀ x ∈ p.tasks, x.2.Threw → ∃ y ∈ x.1.call.leaves, ∀ m mode,
        (x.1.no, mode) ∈ (p.shared.mutex m).owners ↔ m = y.1 ∧ mode = y.2) ∧
      ∀ m, (p.shared.mutex m).Owned :=
  Machine.exists_run_of (T := fun p : CallPool ℕ => (p.tasks.map fun x => decide x.2.Threw) = [false, true])
    (by decide +kernel) fun p hp ht =>
      ⟨ht, (failed_calls _ _ _ _ p hp).2.2.1, (failed_calls _ _ _ _ p hp).2.2.2.1⟩

/-- A page load of `Get` throws, and a `Put` waits for ever; a file operation of `Flush` or of `Compact` throws, and
the next `Flush` waits for ever. -/
theorem failed_call_keeps_lock :
    (∃ p ∈ Machine.run (step ⟨0⟩) (start (Dir.empty.create (sstName 0) [⟨[1], 1, 4⟩]) [true])
        [.call (.get [1]), .resume 0, .call (.put [2] 5)],
      (p.tasks.map fun x => (decide x.2.Threw, decide x.2.Unfinished)) = [(true, false), (false, true)] ∧
      (p.shared.mutex .shared).state = 1 ∧ (step ⟨0⟩ p (.resume 1)).isNone) ∧
    (∃ p ∈ Machine.run (step ⟨0⟩) (start Dir.empty [true])
        [.call (.put [1] 4), .call .flush, .resume 1, .call .flush],
      (p.tasks.map fun x => (decide x.2.Threw, decide x.2.Unfinished)) = [(false, false), (true, false),
        (false, true)] ∧
      (p.shared.mutex .maintenance).state = -1 ∧ (step ⟨0⟩ p (.resume 2)).isNone) ∧
    ∃ p ∈ Machine.run (step ⟨0⟩) (start (Dir.empty.create (sstName 0) [⟨[1], 1, 4⟩]) [true])
        [.call (.compact id), .resume 0, .call .flush],
      (p.tasks.map fun x => (decide x.2.Threw, decide x.2.Unfinished)) = [(true, false), (false, true)] ∧
      (p.shared.mutex .maintenance).state = -1 ∧ (step ⟨0⟩ p (.resume 1)).isNone := by
  decide +kernel

end StructureDb.SharedLsm
