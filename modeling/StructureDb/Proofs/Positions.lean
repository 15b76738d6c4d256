import StructureDb.Proofs.DbSteps
import StructureDb.Proofs.WalSteps

/-! Segment numbers over the life of a database. A number is taken once and its segment
only grows, as long as every restart finds the segment that was open: it is the
last one listed, and the writer goes on behind it. -/

namespace StructureDb

namespace Wal

variable {w w' w'' : Wal} {e : Event}

/-- The segments in `w'` with numbers that `w` had given out were there, with the same events so far. -/
structure Continues (w w' : Wal) : Prop where
  le : w.currentSegmentNo ≤ w'.currentSegmentNo
  grown : ∀ n ≤ w.currentSegmentNo, ∀ es', (walName n, es') ∈ w'.dir.files →
    ∃ es, (walName n, es) ∈ w.dir.files ∧ es <+: es'

def Numbered (w : Wal) : Prop := ∀ f ∈ w.dir.files, ∃ n ≤ w.currentSegmentNo, f.1 = walName n

theorem Continues.refl (w : Wal) : w.Continues w := ⟨le_rfl, fun _ _ es h => ⟨es, h, List.prefix_refl es⟩⟩

theorem Continues.trans (h : w.Continues w') (h' : w'.Continues w'') : w.Continues w'' := by
  refine ⟨h.le.trans h'.le, ?_⟩
  intro n hn es'' hf
  obtain ⟨es', hf', hp'⟩ := h'.grown n (hn.trans h.le) es'' hf
  obtain ⟨es, hf, hp⟩ := h.grown n hn es' hf'
  exact ⟨es, hf, hp.trans hp'⟩

theorem Continues.touch (h : w.Numbered) {m : ℕ} (hm : m = w.currentSegmentNo + 1) (pageSize pages : ℕ) :
    w.Continues ⟨w.dir.touch (walName m) [], m, pageSize, pages⟩ ∧
      Numbered ⟨w.dir.touch (walName m) [], m, pageSize, pages⟩ := by
  subst hm
  refine ⟨⟨Nat.le_succ _, ?_⟩, ?_⟩
  · intro n hn es' hf
    rcases Dir.mem_touch.mp hf with hf | ⟨-, he⟩
    · exact ⟨es', hf, List.prefix_refl es'⟩
    · have hname := walName_injective (Prod.mk.inj he).1
      omega
  · intro f hf
    rcases Dir.mem_touch.mp hf with hf | ⟨-, rfl⟩
    · obtain ⟨n, hn, he⟩ := h f hf
      exact ⟨n, Nat.le_succ_of_le hn, he⟩
    · exact ⟨_, le_rfl, rfl⟩

theorem Continues.append (h : w.Numbered) (n : ℕ) (new : List Event) (pageSize pages : ℕ) :
    w.Continues ⟨w.dir.modify (walName n) fun events => events ++ new, w.currentSegmentNo, pageSize, pages⟩ ∧
      Numbered ⟨w.dir.modify (walName n) fun events => events ++ new, w.currentSegmentNo, pageSize, pages⟩ := by
  refine ⟨⟨le_rfl, ?_⟩, ?_⟩
  · intro m _ es' hf
    rcases Dir.mem_modify.mp hf with ⟨hf, -⟩ | ⟨es, hes, he⟩
    · exact ⟨es', hf, List.prefix_refl es'⟩
    · obtain ⟨hname, rfl⟩ := Prod.mk.inj he
      exact ⟨es, hname ▸ hes, List.prefix_append es new⟩
  · intro f hf
    rcases Dir.mem_modify.mp hf with ⟨hf, -⟩ | ⟨es, hes, rfl⟩
    · exact h f hf
    · have hn := h (walName n, es) hes
      exact hn

theorem Continues.write (h : w.Numbered) (e : Event) : w.Continues (w.write e) ∧ (w.write e).Numbered := by
  obtain ⟨-, hw⟩ | ⟨-, hw⟩ := write_cases w e <;> rw [hw]
  · exact Continues.append h _ _ _ _
  · obtain ⟨ht, hn⟩ := Continues.touch h rfl 0 0
    obtain ⟨ha, hn⟩ := Continues.append hn (w.currentSegmentNo + 1) e.readable e.size 0
    exact ⟨ht.trans ha, hn⟩

theorem Continues.unlinkAll (h : w.Numbered) (names : List Bytes) :
    w.Continues { w with dir := w.dir.unlinkAll names } ∧ Numbered { w with dir := w.dir.unlinkAll names } :=
  ⟨⟨le_rfl, fun _ _ es' hf => ⟨es', (Dir.mem_unlinkAll.mp hf).1, List.prefix_refl es'⟩⟩,
    fun f hf => h f (Dir.mem_unlinkAll.mp hf).1⟩

/-- The open segment is still there, and its name has four digits. -/
def Listed (w : Wal) : Prop := walName w.currentSegmentNo ∈ w.dir.names ∧ w.currentSegmentNo < 10000

instance (w : Wal) : Decidable w.Listed := inferInstanceAs (Decidable (_ ∧ _))

/-- With names of four digits a restart goes on behind every number that is in use. -/
theorem Numbered.initialSegmentNo (h : w.Numbered) (hfew : w.currentSegmentNo < 10000) :
    initialSegmentNo w.dir ≤ w.currentSegmentNo + 1 ∧
      ∀ f ∈ w.dir.files, ∃ n < initialSegmentNo w.dir, f.1 = walName n := by
  rcases hlast : w.dir.listing.getLast? with _ | g
  · have hnil : w.dir.listing = [] := List.getLast?_eq_none_iff.mp hlast
    refine ⟨by simp [StructureDb.initialSegmentNo, hlast], ?_⟩
    intro f hf
    have hmem := Dir.mem_listing.mpr hf
    rw [hnil] at hmem
    cases hmem
  · obtain ⟨front, hsplit⟩ := List.getLast?_eq_some_iff.mp hlast
    obtain ⟨m, hm, hg⟩ := h g (Dir.mem_listing.mp (List.mem_of_getLast? hlast))
    have hno : StructureDb.initialSegmentNo w.dir = m + 1 := by
      simp only [StructureDb.initialSegmentNo, hlast, hg, getSegmentNoFromName_walName]
      omega
    rw [hno]
    refine ⟨Nat.succ_le_succ hm, ?_⟩
    intro f hf
    obtain ⟨n, hn, he⟩ := h f hf
    refine ⟨n, ?_, he⟩
    by_contra hlt
    -- a greater number would sort behind the last name
    have hmn : g.1 < f.1 := by
      rw [hg, he]
      exact walName_lt (by omega) (by omega)
    have hmem := Dir.mem_listing.mpr hf
    have hsorted := w.dir.listing_sorted
    rw [hsplit] at hmem hsorted
    rcases List.mem_append.mp hmem with hmem | hmem
    · exact lt_asymm hmn ((List.pairwise_append.mp hsorted).2.2 f hmem g (List.mem_singleton_self g))
    · rw [List.mem_singleton.mp hmem] at hmn
      exact lt_irrefl _ hmn

theorem Listed.init (h : w.Numbered) (hl : w.Listed) : (init w.dir).currentSegmentNo = w.currentSegmentNo + 1 := by
  obtain ⟨hle, hall⟩ := h.initialSegmentNo hl.2
  obtain ⟨es, hes⟩ := Dir.mem_names.mp hl.1
  obtain ⟨n, hn, he⟩ := hall _ hes
  obtain rfl := walName_injective he
  exact le_antisymm hle hn

theorem Continues.init (h : w.Numbered) (hl : w.Listed) : w.Continues (Wal.init w.dir) ∧ (Wal.init w.dir).Numbered := by
  have hno := hl.init h
  have hinit : Wal.init w.dir = ⟨w.dir.touch (walName (w.currentSegmentNo + 1)) [], w.currentSegmentNo + 1, 0, 0⟩ := by
    rw [← hno]
    rfl
  rw [hinit]
  exact Continues.touch h rfl 0 0

end Wal

namespace Db

variable {o : Options} {db db' : Db} {op : Op}

def Op.Logs : Op → Event → Prop
  | .commit tx, e => e = .commit tx
  | .put id key value, e => ∃ seqNo, e = .upsert id seqNo key value
  | _, _ => False

theorem step_wal (hs : db.step o op = some db') :
    db'.wal = db.wal ∨ (∃ e, op.Logs e ∧ db'.wal = db.wal.write e) ∨
      (op = .clean ∧ db'.wal = { db.wal with dir := db.wal.dir.unlinkAll db.obsoleteSegments }) ∨
      op = .restart ∧ db'.wal = Wal.init db.wal.dir := by
  cases op with
  | begin =>
    cases hs
    exact Or.inl rfl
  | commit tx =>
    cases hs
    exact Or.inr (Or.inl ⟨_, rfl, rfl⟩)
  | rollback tx =>
    cases hs
    exact Or.inl rfl
  | lock tx key =>
    obtain ⟨s, -, rfl⟩ := Option.map_eq_some_iff.mp hs
    exact Or.inl rfl
  | put id key value =>
    obtain ⟨⟨db1, n⟩, he, rfl⟩ := Option.map_eq_some_iff.mp hs
    obtain ⟨l, -, -, rfl⟩ := engineUpsert_cases he
    exact Or.inr (Or.inl ⟨_, ⟨n, rfl⟩, rfl⟩)
  | addStorage id =>
    obtain ⟨-, -, rfl⟩ := addStorage_cases hs
    exact Or.inl rfl
  | flush =>
    cases hs
    exact Or.inl rfl
  | compact id =>
    cases hs
    left
    unfold Db.compact
    split <;> rfl
  | clean =>
    cases hs
    exact Or.inr (Or.inr (Or.inl ⟨rfl, rfl⟩))
  | restart =>
    cases hs
    exact Or.inr (Or.inr (Or.inr ⟨rfl, rfl⟩))

def FindsOpenSegment (db : Db) : Op → Prop
  | .restart => db.wal.Listed
  | _ => True

instance (db : Db) : (op : Op) → Decidable (db.FindsOpenSegment op)
  | .restart => inferInstanceAs (Decidable (Wal.Listed _))
  | .begin | .commit _ | .rollback _ | .lock _ _ | .put _ _ _ | .addStorage _ | .flush | .compact _ | .clean =>
    isTrue trivial

theorem step_continues (h : db.wal.Numbered) (hg : db.FindsOpenSegment op) (hs : db.step o op = some db') :
    db.wal.Continues db'.wal ∧ db'.wal.Numbered := by
  obtain he | ⟨e, -, hw⟩ | ⟨-, he⟩ | ⟨rfl, he⟩ := step_wal hs
  · rw [he]
    exact ⟨Wal.Continues.refl _, h⟩
  · rw [hw]
    exact Wal.Continues.write h e
  · rw [he]
    exact Wal.Continues.unlinkAll h _
  · rw [he]
    exact Wal.Continues.init h hg

theorem start_wal_numbered (o : Options) : (init o (fun _ => none) Dir.empty).wal.Numbered := by
  intro f hf
  have hf : f ∈ [(walName 0, [])] := hf
  rw [List.mem_singleton.mp hf]
  exact ⟨0, Nat.zero_le _, rfl⟩

theorem run_continues {ops : List Op} (h : db.wal.Numbered)
    (hg : Machine.Guarded (step o) FindsOpenSegment db ops) (hr : Machine.run (step o) db ops = some db') :
    db.wal.Continues db'.wal ∧ db'.wal.Numbered := by
  refine Machine.run_inv (P := fun _ d => db.wal.Continues d.wal ∧ d.wal.Numbered) ⟨Wal.Continues.refl _, h⟩ ?_ hg hr
  intro _ d op d' ⟨hc, hn⟩ hg hs
  obtain ⟨hc', hn'⟩ := step_continues hn hg hs
  exact ⟨hc.trans hc', hn'⟩

/-- A segment number names one segment for ever: what it holds later begins with what it held. -/
theorem positions_not_reused (o : Options) (before later : List Op) (db db' : Db)
    (hg : Machine.Guarded (step o) FindsOpenSegment (init o (fun _ => none) Dir.empty) before)
    (hr : Machine.run (step o) (init o (fun _ => none) Dir.empty) before = some db)
    (hg' : Machine.Guarded (step o) FindsOpenSegment db later) (hr' : Machine.run (step o) db later = some db')
    (n : ℕ) (es es' : List Event) (hes : (walName n, es) ∈ db.wal.dir.files)
    (hes' : (walName n, es') ∈ db'.wal.dir.files) :
    es <+: es' := by
  obtain ⟨-, hn⟩ := run_continues (start_wal_numbered o) hg hr
  obtain ⟨hc, -⟩ := run_continues hn hg' hr'
  obtain ⟨m, hm, hname⟩ := hn _ hes
  obtain rfl := walName_injective hname
  obtain ⟨es'', hes'', hp⟩ := hc.grown n hm es' hes'
  rw [Dir.unique hes hes'']
  exact hp

/-- The cleaner removes an old segment, the open one grows, and the database restarts. -/
theorem positions_not_reused_after_clean :
    ∃ db db', Machine.run (step ⟨0⟩) (init ⟨0⟩ (fun _ => none) Dir.empty)
        [.addStorage [84], .begin, .commit 10, .restart, .put [84] [1] ⟨11, false, false, [5]⟩] = some db ∧
      Machine.run (step ⟨0⟩) db [.clean, .begin, .commit 11, .restart] = some db' ∧
      (walName 1, [.upsert [84] 1 [1] ⟨11, false, false, [5]⟩]) ∈ db.wal.dir.files ∧
      (walName 1, [.upsert [84] 1 [1] ⟨11, false, false, [5]⟩, .commit 11]) ∈ db'.wal.dir.files ∧
      [Event.upsert [84] 1 [1] ⟨11, false, false, [5]⟩] <+:
        [.upsert [84] 1 [1] ⟨11, false, false, [5]⟩, .commit 11] := by
  refine Machine.exists_runs_of (T := fun db db' =>
    (walName 1, [.upsert [84] 1 [1] ⟨11, false, false, [5]⟩]) ∈ db.wal.dir.files ∧
    Machine.Guarded (step ⟨0⟩) FindsOpenSegment db [.clean, .begin, .commit 11, .restart] ∧
    (walName 1, [.upsert [84] 1 [1] ⟨11, false, false, [5]⟩, .commit 11]) ∈ db'.wal.dir.files) (by decide) ?_
  rintro db db' hdb hdb' ⟨hfile, hg, hfile'⟩
  exact ⟨hfile, hfile', positions_not_reused ⟨0⟩ _ _ db db' (by decide) hdb hg hdb' 1 _ _ hfile hfile'⟩

/-- The cleaner takes the open segment away, and after the restart its number is given out again. -/
theorem restart_reuses_segment :
    ∃ db db', Machine.run (step ⟨0⟩) (init ⟨0⟩ (fun _ => none) Dir.empty) [.begin, .commit 10] = some db ∧
      Machine.run (step ⟨0⟩) db [.clean, .restart, .begin, .begin, .commit 11] = some db' ∧
      (walName 0, [.commit 10]) ∈ db.wal.dir.files ∧ (walName 0, [.commit 11]) ∈ db'.wal.dir.files := by
  exact Machine.exists_runs_of (by decide) fun _ _ _ _ h => h

end Db

end StructureDb
