import StructureDb.Proofs.DbSteps
import StructureDb.Proofs.Restart
import StructureDb.Spec.Startup

/-! Crashes while the database starts. Recovery writes no table file and no event, so however often a start is
cut off and wherever, the one that gets to its end comes up with what the first one would have come up with. -/

namespace StructureDb

namespace Wal

theorem flatten_orderedInsert_nil (n : Bytes) (l : List (Bytes × List Event)) :
    ((l.orderedInsert (fun a b => a.1 ≤ b.1) (n, [])).map Prod.snd).flatten = (l.map Prod.snd).flatten := by
  induction l with
  | nil => rfl
  | cons f l ih =>
    rw [List.orderedInsert_cons]
    split_ifs
    · rfl
    · rw [List.map_cons, List.flatten_cons, ih, List.map_cons, List.flatten_cons]

/-- An empty segment, wherever its name stands, holds no event. -/
theorem events_touch (dir : Dir Bytes (List Event)) (n : Bytes) : events (dir.touch n []) = events dir := by
  unfold Dir.touch
  split_ifs with hn
  · rfl
  · have hunlink : (dir.unlink n).files = dir.files := by
      refine List.filter_eq_self.mpr fun f hf => decide_eq_true ?_
      rintro rfl
      exact hn (Dir.mem_names.mpr ⟨f.2, hf⟩)
    rw [events, Dir.listing, Dir.create, List.insertionSort_cons, flatten_orderedInsert_nil, hunlink]
    rfl

end Wal

namespace Db

variable {o : Options} {f f' : Files} {id : Bytes}

/-- Another disk from which recovery gives the same: a directory that recovery would make may be there already. -/
structure Alike (f f' : Files) : Prop where
  events : Wal.events f'.wal = Wal.events f.wal
  unlogged : ∀ id, logOf id (Wal.events f.wal) = [] → openStorages f'.dirs id = openStorages f.dirs id
  logged : ∀ id,
    (openStorages f'.dirs id).getD (Lsm.init Dir.empty) = (openStorages f.dirs id).getD (Lsm.init Dir.empty)

theorem Alike.refl (f : Files) : Alike f f := ⟨rfl, fun _ _ => rfl, fun _ => rfl⟩

theorem Alike.trans {f'' : Files} (h : Alike f f') (h' : Alike f' f'') : Alike f f'' := by
  refine ⟨h'.events.trans h.events, fun id hid => ?_, fun id => (h'.logged id).trans (h.logged id)⟩
  rw [h'.unlogged id (by rw [h.events, hid]), h.unlogged id hid]

theorem Alike.storages (h : Alike f f') : (init o f'.dirs f'.wal).storages = (init o f.dirs f.wal).storages := by
  funext id
  rw [init_storages, init_storages, h.events]
  split_ifs with hlog
  · exact h.unlogged id hlog
  · rw [h.logged id]

theorem Alike.txStorage (h : Alike f f') : (init o f'.dirs f'.wal).txStorage = (init o f.dirs f.wal).txStorage := by
  rw [init_txStorage, init_txStorage, h.events]

/-- Opening the directories of the storages that are open again. -/
theorem openStorages_of_open {dirs : Bytes → Option (Dir Bytes (List Row))}
    (dirs' : Bytes → Option (Dir Bytes (List Row))) (h : dirs' id = (openStorages dirs id).map Lsm.dir) :
    openStorages dirs' id = openStorages dirs id := by
  unfold openStorages at h ⊢
  split_ifs at h ⊢
  · rw [h]
    rfl
  · rfl
  · rw [h, Option.map_map, Option.map_map]
    rfl

/-- Opening the directory that recovery has made for a storage. -/
theorem openStorages_of_made {dirs : Bytes → Option (Dir Bytes (List Row))}
    (dirs' : Bytes → Option (Dir Bytes (List Row))) (hnone : openStorages dirs id = none)
    (h : dirs' id = some Dir.empty) : (openStorages dirs' id).getD (Lsm.init Dir.empty) = Lsm.init Dir.empty := by
  unfold openStorages at hnone ⊢
  split_ifs at hnone ⊢
  · rfl
  · rw [h]
    rfl

/-- Recovery up to any point leaves the files of every storage as they are. -/
theorem recovering_dirs (o : Options) (f : Files) (applied : ℕ) (id : Bytes) :
    (recovering o f applied).dirs id = (openStorages f.dirs id).map Lsm.dir ∨
      logOf id (Wal.events f.wal) ≠ [] ∧ openStorages f.dirs id = none ∧
        (recovering o f applied).dirs id = some Dir.empty := by
  have hsplit : logOf id (Wal.events f.wal) = logOf id ((Wal.events f.wal).take applied) ++
      logOf id ((Wal.events f.wal).drop applied) := by rw [← logOf_append, List.take_append_drop]
  unfold dirs recovering
  rw [foldl_apply_storages]
  split_ifs with hlog
  · exact .inl rfl
  · dsimp only
    rcases hopen : openStorages f.dirs id with _ | l
    · refine .inr ⟨?_, rfl, ?_⟩
      · rw [hsplit]
        exact List.append_ne_nil_of_left_ne_nil hlog _
      · rw [Option.map_some, (Lsm.replay_files ..).2]
        rfl
    · refine .inl ?_
      rw [Option.map_some, (Lsm.replay_files ..).2]
      rfl

theorem alike_recovering (o : Options) (f : Files) (applied : ℕ) :
    Alike f ⟨(recovering o f applied).dirs, f.wal⟩ := by
  refine ⟨rfl, fun id hid => ?_, fun id => ?_⟩
  · rcases recovering_dirs o f applied id with hdirs | ⟨hlog, -, -⟩
    · exact openStorages_of_open _ hdirs
    · exact absurd hid hlog
  · rcases recovering_dirs o f applied id with hdirs | ⟨-, hnone, hmade⟩
    · rw [openStorages_of_open (recovering o f applied).dirs hdirs]
    · rw [openStorages_of_made (recovering o f applied).dirs hnone hmade, hnone]
      rfl

/-- A start that gets to its end has applied all events, and its new log segment is empty. -/
theorem alike_opened (o : Options) (f : Files) : Alike f (init o f.dirs f.wal).files := by
  have hall : (init o f.dirs f.wal).dirs = (recovering o f (Wal.events f.wal).length).dirs := by
    funext id
    rw [dirs, dirs, recovering, List.take_length]
    rfl
  have h := alike_recovering o f (Wal.events f.wal).length
  rw [← hall] at h
  exact ⟨Wal.events_touch .., h.unlogged, h.logged⟩

theorem alike_cuts (o : Options) (f : Files) (cuts : List Cut) : Alike f (cuts.foldl (cutOff o) f) := by
  induction cuts generalizing f with
  | nil => exact .refl f
  | cons cut cuts ih =>
    have hcut : Alike f (cutOff o f cut) := by
      cases cut with
      | recovering applied => exact alike_recovering o f applied
      | opened => exact alike_opened o f
    exact hcut.trans (ih (cutOff o f cut))

/-- However often the database crashes while it starts, behind any number of events or with its new log segment open,
the start that gets to its end finds the same events, and comes up with the same storages, with the same next
sequence numbers, and the same transactions. -/
theorem crash_loop_recovers (o : Options) (db : Db) (cuts : List Cut) :
    (startAgain o db.files cuts).storages = (db.restart o).storages ∧
      (startAgain o db.files cuts).txStorage = (db.restart o).txStorage ∧
      Wal.events (startAgain o db.files cuts).wal.dir = Wal.events (db.restart o).wal.dir := by
  have h := alike_cuts o db.files cuts
  refine ⟨h.storages, h.txStorage, ?_⟩
  exact ((alike_opened o _).events.trans h.events).trans (alike_opened o db.files).events.symm

end Db

end StructureDb
