import StructureDb.Spec.Engines
import StructureDb.Proofs.Complete
import StructureDb.Proofs.DbRecovery

/-! Recovery of databases that are neither compacted nor cleaned: each storage holds the
records of its acknowledged upserts, each once, in this life and in the next. -/

namespace StructureDb

namespace Db

variable {o : Options} {db db' : Db} {events : List Event} {id : Bytes}

/-- The log holds all events there ever were, and each storage what the log says. -/
structure Whole (db : Db) (events : List Event) : Prop where
  durable : db.Durable events
  trees : ∀ id l, db.storages id = some l → l.Complete (logOf id events)

namespace Whole

theorem start (o : Options) : Whole (init o (fun _ => none) Dir.empty) [] := by
  refine ⟨start_durable o, ?_⟩
  intro id l hl
  rw [World.start_storages (o := o) hl]
  exact Lsm.Complete.empty

theorem congr (h : db.Whole events) (hs : db'.storages = db.storages) (hw : db'.wal = db.wal) : db'.Whole events :=
  ⟨h.durable.congr hs hw, hs ▸ h.trees⟩

theorem put (h : db.Whole events) {key : Bytes} {value : TransactionalValue} {seqNo : ℕ}
    (hsize : (Event.upsert id seqNo key value).size ≤ kWalPageSize)
    (he : db.engineUpsert o id key value = some (db', seqNo)) : db'.Whole (events ++ [.upsert id seqNo key value]) := by
  refine ⟨h.durable.put hsize he, ?_⟩
  obtain ⟨l, hl, rfl, rfl⟩ := engineUpsert_cases he
  intro id' m hm
  rw [logOf_append, logOf_singleton]
  by_cases hid : id' = id
  · subst hid
    rw [if_pos rfl, ← Option.some.inj ((setStorage_self ..).symm.trans hm)]
    exact (h.trees id' l hl).put o key value
  · rw [if_neg (Ne.symm hid), List.append_nil]
    exact h.trees id' m ((setStorage_of_ne _ _ hid).symm.trans hm)

theorem addStorage (h : db.Whole events) (ha : db.addStorage id = some db') : db'.Whole events := by
  refine ⟨h.durable.addStorage ha, ?_⟩
  obtain ⟨-, hnone, -⟩ := addStorage_cases ha
  refine addStorage_inv (P := fun id l => l.Complete (logOf id events)) h.trees ha ?_
  have hlog : logOf id events = [] := by
    by_contra hne
    have hknown := h.durable.known id hne
    rw [hnone] at hknown
    cases hknown
  rw [hlog]
  exact Lsm.Complete.empty

theorem commit (h : db.Whole events) (tx : TransactionId) : (db.commit tx).Whole (events ++ [.commit tx]) := by
  refine ⟨h.durable.commit tx, ?_⟩
  intro id l hl
  have hlog : logOf id (events ++ [.commit tx]) = logOf id events := (logOf_append ..).trans (List.append_nil _)
  rw [hlog]
  exact h.trees id l hl

theorem flush (h : db.Whole events) : db.flush.Whole events :=
  ⟨h.durable.flush, flush_inv (P := fun id l => l.Complete (logOf id events)) fun id m hm => (h.trees id m hm).flush⟩

theorem flushStorage (h : db.Whole events) (hf : db.flushStorage id = some db') : db'.Whole events := by
  unfold Db.flushStorage at hf
  rcases hl : db.storages id with _ | l <;> simp only [hl] at hf
  · cases hf
  · cases hf
    have hc := (h.trees id l hl).flush
    exact ⟨h.durable.update (h.durable.not_internal hl) (h.durable.tidy id l hl).flush hc.recoverable (fun _ _ => rfl)
      h.durable.segments, setStorage_inv (P := fun id l => l.Complete (logOf id events)) h.trees hc⟩

theorem restart (h : db.Whole events) (hno : db.wal.currentSegmentNo < 10000) : (db.restart o).Whole events := by
  refine ⟨h.durable.restart hno, ?_⟩
  intro id l hl
  rw [h.durable.restart_storages hno] at hl
  obtain ⟨m, hm, rfl⟩ := Option.map_eq_some_iff.mp hl
  exact (h.trees id m hm).restart o

end Whole

end Db

namespace Engines

variable {o : Options} {s s' : Engines} {events : List Event} {op : Op}

theorem mem_ackedOf {id : Bytes} {row : Row} : row ∈ s.ackedOf id ↔ (id, row) ∈ s.acked := by
  rw [ackedOf, List.mem_filterMap]
  constructor
  · rintro ⟨⟨id', row'⟩, ha, h⟩
    simp only [Option.ite_none_right_eq_some, Option.some.injEq] at h
    obtain ⟨rfl, rfl⟩ := h
    exact ha
  · exact fun h => ⟨_, h, by simp⟩

theorem ackedOf_append (s : Engines) (db : Db) (id id' : Bytes) (row : Row) :
    ackedOf { s with db, acked := s.acked ++ [(id, row)] } id' = s.ackedOf id' ++ if id = id' then [row] else [] := by
  rw [ackedOf, List.filterMap_append, ← ackedOf]
  split_ifs with hid <;> simp [hid]

/-- An event fits in a page, and the log has segments `0000` to `9999` at most when the next `Init` reads it. -/
def WithinLimits (s : Engines) : Op → Prop
  | .upsert id key value => (Event.upsert id 0 key value).size ≤ kWalPageSize
  | .crash => s.db.wal.currentSegmentNo < 10000
  | _ => True

instance (s : Engines) : (op : Op) → Decidable (s.WithinLimits op)
  | .upsert _ _ _ => inferInstanceAs (Decidable (_ ≤ _))
  | .crash => inferInstanceAs (Decidable (_ < _))
  | .create _ | .flush _ | .clean => isTrue trivial

inductive Stepped (o : Options) (s : Engines) : Op → Engines → Prop
  | create {id : Bytes} {db : Db} (added : s.db.addStorage id = some db) : Stepped o s (.create id) { s with db }
  | upsert {id key : Bytes} {value : TransactionalValue} {db : Db} {seqNo : ℕ}
      (put : s.db.engineUpsert o id key value = some (db, seqNo)) :
      Stepped o s (.upsert id key value) { s with db, acked := s.acked ++ [(id, ⟨key, seqNo, value⟩)] }
  | flush {id : Bytes} {db : Db} (flushed : s.db.flushStorage id = some db) : Stepped o s (.flush id) { s with db }
  | clean : Stepped o s .clean { s with db := s.db.clean }
  | crash : Stepped o s .crash { s with db := s.db.restart o }

theorem step_cases (hs : s.step o op = some s') : Stepped o s op s' := by
  cases op with
  | create id =>
    simp only [step] at hs
    split at hs
    · cases hs
    · next db hadd =>
      cases hs
      exact .create hadd
  | upsert id key value =>
    simp only [step] at hs
    split at hs
    · cases hs
    · next db seqNo hput =>
      cases hs
      exact .upsert hput
  | flush id =>
    simp only [step] at hs
    split at hs
    · cases hs
    · next db hflush =>
      cases hs
      exact .flush hflush
  | clean =>
    cases hs
    exact .clean
  | crash =>
    cases hs
    exact .crash

structure Inv (s : Engines) (events : List Event) : Prop where
  whole : s.db.Whole events
  logged : ∀ id, logOf id events = s.ackedOf id

theorem start_inv (o : Options) : (start o).Inv [] := ⟨Db.Whole.start o, fun _ => rfl⟩

theorem Inv.step (h : s.Inv events) (hg : s.WithinLimits op) (hc : op ≠ .clean) (hs : s.step o op = some s') :
    ∃ events', s'.Inv events' := by
  cases step_cases hs with
  | create hadd => exact ⟨events, h.whole.addStorage hadd, h.logged⟩
  | @upsert id key value db seqNo hput =>
    have hsize : (Event.upsert id seqNo key value).size ≤ kWalPageSize := hg
    refine ⟨_, h.whole.put hsize hput, ?_⟩
    intro id'
    rw [logOf_append, h.logged, logOf_singleton, ackedOf_append]
  | flush hflush => exact ⟨events, h.whole.flushStorage hflush, h.logged⟩
  | clean => exact absurd rfl hc
  | crash => exact ⟨events, h.whole.restart hg, h.logged⟩

/-- Without cleaning, in every life each storage holds exactly the acknowledged records, and counts them. -/
theorem run_rebuilds (o : Options) (ops : List Op) (hclean : .clean ∉ ops)
    (hg : Machine.Guarded (step o) WithinLimits (start o) ops) (s : Engines)
    (hr : Machine.run (step o) (start o) ops = some s) :
    (∀ a ∈ s.acked, (s.db.storages a.1).isSome = true) ∧
      ∀ id l, s.db.storages id = some l → l.records.Perm (s.ackedOf id) ∧ l.nextSeqNo = (s.ackedOf id).length + 1 := by
  obtain ⟨events, h⟩ := Machine.run_inv (P := fun tr s => .clean ∉ tr → ∃ events, s.Inv events)
    (fun _ => ⟨[], start_inv o⟩) (by
      intro tr s op s' h hc hs hn
      rw [List.mem_append, List.mem_singleton, not_or] at hn
      obtain ⟨events, h⟩ := h hn.1
      exact h.step hc (Ne.symm hn.2) hs) hg hr hclean
  refine ⟨?_, ?_⟩
  · intro a ha
    have hmem := mem_ackedOf.mpr ha
    rw [← h.logged] at hmem
    exact h.whole.durable.known a.1 (List.ne_nil_of_mem hmem)
  · intro id l hl
    have hc := h.whole.trees id l hl
    rw [h.logged] at hc
    exact ⟨hc.records, hc.next⟩

/-- Two storages, a flush and two crashes. -/
theorem run_rebuilds_two_crashes :
    ∃ s l, Machine.run (step ⟨0⟩) (start ⟨0⟩)
        [.create [84], .create [85], .upsert [84] [1] ⟨10, false, false, [5]⟩, .upsert [85] [1] ⟨10, false, false,
          [6]⟩, .flush [84], .upsert [84] [2] ⟨10, true, false, []⟩, .crash, .upsert [84] [1] ⟨11, false, false,
            [7]⟩,
          .crash] = some s ∧
      (s.ackedOf [84]).map Record.seqNo = [1, 2, 3] ∧
      s.db.storages [84] = some l ∧ l.records.Perm (s.ackedOf [84]) ∧ l.nextSeqNo = (s.ackedOf [84]).length + 1 := by
  have h : (Machine.run (step ⟨0⟩) (start ⟨0⟩)
      [.create [84], .create [85], .upsert [84] [1] ⟨10, false, false, [5]⟩, .upsert [85] [1] ⟨10, false, false,
        [6]⟩, .flush [84], .upsert [84] [2] ⟨10, true, false, []⟩, .crash, .upsert [84] [1] ⟨11, false, false,
          [7]⟩,
        .crash]).any (fun s => decide ((s.ackedOf [84]).map Record.seqNo = [1, 2, 3] ∧
          (s.db.storages [84]).isSome = true)) = true := by
    decide
  obtain ⟨s, hs, hp⟩ := Machine.exists_of_any h
  obtain ⟨hseq, hsome⟩ := of_decide_eq_true hp
  obtain ⟨l, hl⟩ := Option.isSome_iff_exists.mp hsome
  exact ⟨s, l, hs, hseq, hl, (run_rebuilds ⟨0⟩ _ (by decide) (by decide) s hs).2 [84] l hl⟩

end Engines

end StructureDb
