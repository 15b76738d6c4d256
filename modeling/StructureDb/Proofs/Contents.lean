import StructureDb.Spec.Background
import StructureDb.Proofs.LsmSteps

/-! Reads of a tree while puts, flushes and compactions interleave: in every
intermediate state the levels hold exactly the records put so far, and the
iterators deliver them in order. -/

namespace StructureDb

namespace Served

section Puts

variable {V : Type}

def puts (acts : List (Action V)) : List (Bytes × V) :=
  acts.filterMap fun
    | .put key value => some (key, value)
    | _ => none

def putRecords (acts : List (Action V)) : List (Record V) :=
  ((puts acts).zipIdx 1).map fun p => ⟨p.1.1, p.2, p.1.2⟩

theorem putRecords_put (acts : List (Action V)) (key : Bytes) (value : V) :
    putRecords (acts ++ [.put key value]) = putRecords acts ++ [⟨key, (puts acts).length + 1, value⟩] := by
  simp [putRecords, puts, List.zipIdx_append, Nat.add_comm]

theorem putRecords_other (acts : List (Action V)) {a : Action V} (ha : ∀ key value, a ≠ .put key value) :
    putRecords (acts ++ [a]) = putRecords acts ∧ puts (acts ++ [a]) = puts acts := by
  have h : puts (acts ++ [a]) = puts acts := by
    cases a with
    | put key value => exact absurd rfl (ha key value)
    | _ => simp [puts]
  exact ⟨by rw [putRecords, h, putRecords], h⟩

theorem putRecords_ascending (acts : List (Action V)) :
    (putRecords acts).Pairwise fun r s => r.seqNo < s.seqNo := by
  have h : (putRecords acts).map Record.seqNo = List.range' 1 (puts acts).length := by
    rw [putRecords, List.map_map, ← List.zipIdx_map_snd]
    rfl
  exact List.pairwise_map.mp (h ▸ List.pairwise_lt_range')

theorem putRecords_find (acts : List (Action V)) (key : Bytes) :
    ((putRecords acts).reverse.find? fun r => r.key = key).map Record.value =
      ((puts acts).reverse.find? fun p => p.1 = key).map Prod.snd := by
  have h : puts acts = (putRecords acts).map fun r => (r.key, r.value) := by
    rw [putRecords, List.map_map]
    exact (List.zipIdx_map_fst 1 (puts acts)).symm
  rw [h, ← List.map_reverse, List.find?_map, Option.map_map]
  rfl

end Puts

end Served

variable {V : Type} [LinearOrder V]

namespace Lsm

theorem mergedRecords_congr {l l' : Lsm V} (h : l.ssTables = l'.ssTables) : l.mergedRecords = l'.mergedRecords := by
  rw [mergedRecords, mergedRecords, h]

end Lsm

namespace Served

/-- What the job in progress relies on: nothing else moves the tables it works on. -/
def JobOk (s : Served V) : Prop :=
  match s.job with
  | .idle => True
  | .flush pending => pending ≤ s.lsm.roMemTables.length
  | .flushWritten pending t =>
    ∃ m rest, s.lsm.roMemTables = m :: rest ∧ t.records = m.impl ∧ pending ≤ rest.length
  | .compact _ t => t.records = s.lsm.mergedRecords
  | .compactWritten _ t => t.records = s.lsm.mergedRecords
  | .remove _ => True

structure Inv (s : Served V) : Prop where
  ordered : s.lsm.Ordered
  job : s.JobOk

theorem inv_start : (start (Dir.empty : Dir Bytes (List (Record V)))).Inv :=
  ⟨(LevelsOk.nil _).empty_cons, trivial⟩

/-- A job step leaves the levels as they are or puts one merged table for all the others. -/
theorem advance_lsm {s t : Served V} (hj : s.JobOk) (h : s.advance = some t) :
    t.lsm.nextSeqNo = s.lsm.nextSeqNo ∧
      (t.lsm.levels = s.lsm.levels ∨
        ∃ u, u.records = s.lsm.mergedRecords ∧ t.lsm = s.lsm.publishCompact u) := by
  unfold advance at h
  unfold JobOk at hj
  rcases hs : s.job with _ | (_ | p) | ⟨p, u⟩ | ⟨ps, u⟩ | ⟨ps, u⟩ | (_ | ⟨path, ps⟩) <;>
    simp only [hs] at h hj
  · cases h
  · cases h
    exact ⟨rfl, Or.inl rfl⟩
  · rcases hro : s.lsm.roMemTables with _ | ⟨m, rest⟩ <;> simp only [hro] at h
    · cases h
    · cases h
      exact ⟨rfl, Or.inl rfl⟩
  · cases h
    obtain ⟨m, rest, hro, hu, -⟩ := hj
    exact ⟨rfl, Or.inl (Lsm.publishFlush_levels hro hu)⟩
  · cases h
    exact ⟨rfl, Or.inl rfl⟩
  · cases h
    exact ⟨rfl, Or.inr ⟨u, hj, rfl⟩⟩
  · cases h
    exact ⟨rfl, Or.inl rfl⟩
  · cases h
    exact ⟨rfl, Or.inl rfl⟩

theorem advance_jobOk {s t : Served V} (hj : s.JobOk) (h : s.advance = some t) : t.JobOk := by
  unfold advance at h
  unfold JobOk at hj
  rcases hs : s.job with _ | (_ | p) | ⟨p, u⟩ | ⟨ps, u⟩ | ⟨ps, u⟩ | (_ | ⟨path, ps⟩) <;>
    simp only [hs] at h hj
  · cases h
  · cases h
    trivial
  · rcases hro : s.lsm.roMemTables with _ | ⟨m, rest⟩ <;> simp only [hro] at h
    · cases h
    · cases h
      rw [hro] at hj
      exact ⟨m, rest, hro, rfl, Nat.le_of_succ_le_succ hj⟩
  · cases h
    obtain ⟨m, rest, hro, -, hp⟩ := hj
    change p ≤ (s.lsm.roMemTables.tail).length
    rw [hro]
    exact hp
  · cases h
    exact hj
  · cases h
    trivial
  · cases h
    trivial
  · cases h
    trivial

theorem put_jobOk (o : Options) {s : Served V} (hj : s.JobOk) (key : Bytes) (value : V) (log : List (Record V)) :
    JobOk { s with lsm := (s.lsm.put o key value).1, log := log } := by
  obtain ⟨ms, hms⟩ := Lsm.doPut_roMemTables o { s.lsm with nextSeqNo := s.lsm.nextSeqNo + 1 } s.lsm.nextSeqNo key value
  have hro : (s.lsm.put o key value).1.roMemTables = s.lsm.roMemTables ++ ms := hms.symm
  have hmerged : (s.lsm.put o key value).1.mergedRecords = s.lsm.mergedRecords :=
    Lsm.mergedRecords_congr (Lsm.doPut_ssTables ..)
  unfold JobOk at hj ⊢
  rcases hs : s.job with _ | p | ⟨p, u⟩ | ⟨ps, u⟩ | ⟨ps, u⟩ | ps <;> simp only [hs] at hj ⊢
  · rw [hro, List.length_append]
    omega
  · obtain ⟨m, rest, hr, hu, hp⟩ := hj
    rw [hro, hr]
    refine ⟨m, rest ++ ms, rfl, hu, ?_⟩
    rw [List.length_append]
    omega
  · rw [hmerged, hj]
  · rw [hmerged, hj]

/-- A step other than a restart is a put, or it is a job step on the levels. -/
theorem step_lsm (o : Options) {s t : Served V} {a : Action V} (hj : s.JobOk) (ha : a ≠ .restart)
    (h : s.step o a = some t) :
    (∃ key value, a = .put key value ∧ t = { s with
      lsm := (s.lsm.put o key value).1, log := s.log ++ [⟨key, s.lsm.nextSeqNo, value⟩] }) ∨
    (∀ key value, a ≠ .put key value) ∧ t.JobOk ∧ t.lsm.nextSeqNo = s.lsm.nextSeqNo ∧
      (t.lsm.levels = s.lsm.levels ∨
        ∃ u, u.records = s.lsm.mergedRecords ∧ t.lsm = s.lsm.publishCompact u) := by
  cases a with
  | put key value =>
    cases h
    exact Or.inl ⟨key, value, rfl, rfl⟩
  | beginFlush =>
    simp only [step] at h
    split at h <;> cases h
    exact Or.inr ⟨by simp, le_refl _, rfl, Or.inl rfl⟩
  | beginCompact =>
    simp only [step] at h
    split at h <;> cases h
    exact Or.inr ⟨by simp, rfl, rfl, Or.inl rfl⟩
  | advance => exact Or.inr ⟨by simp, advance_jobOk hj h, advance_lsm hj h⟩
  | restart => exact absurd rfl ha

/-- The rest of the flush loop, when nothing comes between. -/
theorem flush_turns (o : Options) (pending : ℕ) (s : Served V) (hs : s.job = .flush pending)
    (hp : pending ≤ s.lsm.roMemTables.length) :
    Machine.run (step o) s (List.replicate (2 * pending + 1) .advance) =
      some { s with lsm := Lsm.flushFront^[pending] s.lsm, job := .idle } := by
  induction pending generalizing s with
  | zero =>
    refine Machine.run_cons.mpr ⟨{ s with job := .idle }, ?_, rfl⟩
    simp only [step, advance, hs]
  | succ n ih =>
    rcases hro : s.lsm.roMemTables with _ | ⟨m, rest⟩
    · rw [hro] at hp
      exact absurd hp (by simp)
    · have hfront : s.lsm.flushFront = (s.lsm.writeTable (s.lsm.flushTable m)).publishFlush (s.lsm.flushTable m) := by
        simp only [Lsm.flushFront, hro]
      have hwrite : s.step o .advance = some { s with
          lsm := s.lsm.writeTable (s.lsm.flushTable m), job := .flushWritten n (s.lsm.flushTable m) } := by
        simp only [step, advance, hs, hro]
      rw [show 2 * (n + 1) + 1 = 2 * n + 1 + 1 + 1 by ring, List.replicate_succ, List.replicate_succ]
      refine Machine.run_cons.mpr ⟨_, hwrite, Machine.run_cons.mpr ⟨_, rfl, ?_⟩⟩
      rw [← hfront, ih { s with lsm := s.lsm.flushFront, job := .flush n } rfl]
      · rfl
      · rw [hro] at hp
        simpa [hfront, Lsm.publishFlush, Lsm.writeTable, hro] using hp

/-- A flush that nothing interrupts is `Lsm.flush`. -/
theorem flush_job (o : Options) (s : Served V) (hs : s.job = .idle) :
    Machine.run (step o) s (.beginFlush :: List.replicate (2 * s.lsm.roMemTables.length + 1) .advance) =
      some { s with lsm := s.lsm.flush, job := .idle } := by
  refine Machine.run_cons.mpr ⟨{ s with job := .flush s.lsm.roMemTables.length }, ?_, ?_⟩
  · simp only [step, hs]
  · exact flush_turns o _ { s with job := .flush s.lsm.roMemTables.length } rfl le_rfl

theorem remove_turns (o : Options) (paths : List Bytes) (s : Served V) (hs : s.job = .remove paths) :
    Machine.run (step o) s (List.replicate (paths.length + 1) .advance) =
      some { s with lsm := s.lsm.removeFiles paths, job := .idle } := by
  induction paths generalizing s with
  | nil =>
    refine Machine.run_cons.mpr ⟨{ s with job := .idle }, ?_, rfl⟩
    simp only [step, advance, hs]
  | cons path paths ih =>
    rw [List.length_cons, List.replicate_succ]
    refine Machine.run_cons.mpr ⟨{ s with lsm := s.lsm.removeFiles [path], job := .remove paths }, ?_, ?_⟩
    · simp only [step, advance, hs]
    · rw [ih { s with lsm := s.lsm.removeFiles [path], job := .remove paths } rfl]
      rfl

/-- A compaction that nothing interrupts is `Lsm.compact`. -/
theorem compact_job (o : Options) (s : Served V) (hs : s.job = .idle) :
    Machine.run (step o) s (.beginCompact :: List.replicate (s.lsm.ssTables.length + 3) .advance) =
      some { s with lsm := s.lsm.compact copyRows, job := .idle } := by
  have hlen : s.lsm.filesToDelete.length = s.lsm.ssTables.length := List.length_map _
  rw [← hlen]
  refine Machine.run_cons.mpr
    ⟨{ s with job := .compact s.lsm.filesToDelete (s.lsm.compactTable copyRows) }, ?_, ?_⟩
  · simp only [step, hs]
  · rw [List.replicate_succ, List.replicate_succ]
    refine Machine.run_cons.mpr ⟨_, rfl, Machine.run_cons.mpr ⟨_, rfl, ?_⟩⟩
    exact remove_turns o _ _ rfl

/-- The levels stay ordered and the job's assumptions true. -/
theorem step_inv (o : Options) {s t : Served V} {a : Action V} (hs : s.Inv) (ha : a ≠ .restart)
    (h : s.step o a = some t) : t.Inv := by
  rcases step_lsm o hs.job ha h with ⟨key, value, -, rfl⟩ | ⟨-, hj, hn, hl | ⟨u, hu, hl⟩⟩
  · exact ⟨Lsm.put_ordered o hs.ordered key value, put_jobOk o hs.job key value _⟩
  · refine ⟨?_, hj⟩
    unfold Lsm.Ordered
    rw [hn, hl]
    exact hs.ordered
  · refine ⟨?_, hj⟩
    rw [hl]
    apply Lsm.publishCompact_ordered hs.ordered
    · rw [hu]
      exact Lsm.mergedRecords_sorted hs.ordered.ssTables_sorted
    · rw [hu]

structure Holds (acts : List (Action V)) (s : Served V) : Prop extends Inv s where
  perm : s.lsm.records.Perm (putRecords acts)
  next : s.lsm.nextSeqNo = (puts acts).length + 1

theorem publishCompact_records_perm {l : Lsm V} {u : SSTable V} (hu : u.records = l.mergedRecords) :
    (l.publishCompact u).records.Perm l.records := by
  have h : (l.publishCompact u).records = l.memRecords ++ l.mergedRecords := by
    simp [Lsm.records, Lsm.publishCompact_levels, Lsm.memRecords, hu]
  rw [h, l.records_eq]
  exact l.mergedRecords_perm.append_left _

theorem step_holds (o : Options) {acts : List (Action V)} {s t : Served V} {a : Action V} (hs : s.Holds acts)
    (ha : a ≠ .restart) (h : s.step o a = some t) : t.Holds (acts ++ [a]) := by
  have hinv := step_inv o hs.toInv ha h
  rcases step_lsm o hs.job ha h with ⟨key, value, rfl, rfl⟩ | ⟨hp, -, hn, hl⟩
  · refine ⟨hinv, ?_, ?_⟩
    · rw [putRecords_put, ← hs.next]
      refine (Lsm.doPut_records_perm ..).trans ?_
      exact (hs.perm.cons _).trans (List.perm_append_singleton _ _).symm
    · rw [Lsm.put, Lsm.doPut_nextSeqNo, hs.next]
      simp [puts]
  · refine ⟨hinv, ?_, ?_⟩
    · rw [(putRecords_other acts hp).1]
      refine List.Perm.trans ?_ hs.perm
      rcases hl with hl | ⟨u, hu, hl⟩
      · rw [Lsm.records, hl, Lsm.records]
      · rw [hl]
        exact publishCompact_records_perm hu
    · rw [hn, hs.next, (putRecords_other acts hp).2]

/-- The versions of a key, newest first, are its puts from the last to the first. -/
theorem Holds.scanKey_eq {acts : List (Action V)} {s : Served V} (h : s.Holds acts) (key : Bytes) :
    s.lsm.scanKey key = (putRecords acts).reverse.filter fun r => r.key = key := by
  have hlt : (s.lsm.scanKey key).Pairwise fun r s => s.seqNo < r.seqNo := by
    rw [Lsm.scanKey_eq_filter h.ordered.sorted, List.pairwise_filter]
    refine (LevelsOk.desc h.ordered).imp ?_
    intro r s hrs hr hs
    simp only [decide_eq_true_eq] at hr hs
    exact hrs (hr.trans hs.symm)
  refine List.Perm.eq_of_pairwise (fun _ _ _ _ hab hba => absurd hab (lt_asymm hba)) hlt ?_ ?_
  · exact (List.pairwise_reverse.mpr (putRecords_ascending acts)).sublist List.filter_sublist
  · rw [Lsm.scanKey_eq_filter h.ordered.sorted]
    exact (h.perm.trans (List.reverse_perm _).symm).filter _

theorem Holds.scanRange_strict {acts : List (Action V)} {s : Served V} (h : s.Holds acts) (range : ScanRange) :
    (s.lsm.scanRange range).Pairwise fun r s => r.key < s.key ∨ r.key = s.key ∧ s.seqNo < r.seqNo := by
  have hnodup : ((s.lsm.scanRange range).map Record.seqNo).Nodup := by
    rw [((Lsm.scanRange_perm h.ordered.sorted range).map _).nodup_iff]
    exact (LevelsOk.nodup h.ordered).sublist (List.filter_sublist.map _)
  refine ((Lsm.scanRange_sorted h.ordered.sorted range).and (List.pairwise_map.mp hnodup)).imp ?_
  intro r s hp
  obtain ⟨hle, hne⟩ := hp
  rcases (Record.key_le_of_le hle).lt_or_eq with hk | hk
  · exact Or.inl hk
  · exact Or.inr ⟨hk, lt_of_le_of_ne (Record.seqNo_le_of_le hle hk) (Ne.symm hne)⟩

theorem run_holds (o : Options) {acts : List (Action V)} {s : Served V} (hr : .restart ∉ acts)
    (h : Machine.run (step o) (start Dir.empty) acts = some s) : s.Holds acts := by
  refine Machine.run_inv (G := fun _ a => a ≠ .restart) (P := fun acts s => s.Holds acts) ?_ ?_ ?_ h
  · exact ⟨inv_start, List.Perm.refl _, rfl⟩
  · intro acts s a t hs ha ht
    exact step_holds o hs ha ht
  · apply Machine.guarded_of_forall
    rintro a ha - rfl
    exact hr ha

/-- Contents and recency in every intermediate state. -/
theorem run_contents (o : Options) (acts : List (Action V)) (s : Served V) (hr : .restart ∉ acts)
    (h : Machine.run (step o) (start Dir.empty) acts = some s) :
    s.lsm.records.Perm (putRecords acts) ∧
      (∀ range, (s.lsm.scanRange range).Perm ((putRecords acts).filter fun r => range.contains r.key) ∧
        (s.lsm.scanRange range).Pairwise fun r s => r.key < s.key ∨ r.key = s.key ∧ s.seqNo < r.seqNo) ∧
      (∀ key, (s.lsm.scanKey key).Perm ((putRecords acts).filter fun r => r.key = key) ∧
        (s.lsm.scanKey key).Pairwise fun r s => s.seqNo < r.seqNo) ∧
      ∀ key, s.lsm.get key = ((puts acts).reverse.find? fun p => p.1 = key).map Prod.snd := by
  have hs := run_holds o hr h
  refine ⟨hs.perm, ?_, ?_, ?_⟩
  · intro range
    exact ⟨(Lsm.scanRange_perm hs.ordered.sorted range).trans (hs.perm.filter _), hs.scanRange_strict range⟩
  · intro key
    rw [hs.scanKey_eq]
    refine ⟨(List.reverse_perm _).filter _, ?_⟩
    exact (List.pairwise_reverse.mpr (putRecords_ascending acts)).sublist List.filter_sublist
  · intro key
    rw [Lsm.get_eq, hs.scanKey_eq, List.head?_filter, putRecords_find]

/-- A put between the write and the publication of a flush. -/
theorem run_contents_during_flush :
    ∃ s : Served Bytes, Machine.run (step ⟨0⟩) (start Dir.empty)
        [.put [1] [5], .beginFlush, .advance, .put [1] [7], .advance, .advance, .beginCompact, .advance] = some s ∧
      s.lsm.get [1] = some [7] := by
  refine Machine.exists_run_of (T := fun _ => True) (by decide) ?_
  intro s hs _
  exact (run_contents ⟨0⟩ _ s (by simp) hs).2.2.2 [1]

end Served

end StructureDb
