import StructureDb.Proofs.FileReads
import StructureDb.Proofs.Harmless
import StructureDb.Proofs.Within

/-! Without a restart, and while compactions are harmless, the database refines the map
of its history: whatever the interleaving, a started transaction looks up its own
last write, or else that of the most recently committed writer. If all records fit in a
page, that is also what it reads from the table files. -/

namespace StructureDb

namespace Db

def CompactHarmless (db : Db) (id : Bytes) : Prop :=
  match db.storages id with
  | none => True
  | some l => ∀ row ∈ l.ssRecords, Harmless db.txStorage (db.ssRows id row.key)

instance (db : Db) (id : Bytes) : Decidable (db.CompactHarmless id) :=
  match h : db.storages id with
  | none => isTrue (by rw [CompactHarmless, h]; trivial)
  | some l =>
    decidable_of_iff (∀ row ∈ l.ssRecords, Harmless db.txStorage (db.ssRows id row.key)) (by rw [CompactHarmless, h])

theorem CompactHarmless.key {db : Db} {id : Bytes} (h : db.CompactHarmless id) (key : Bytes) :
    Harmless db.txStorage (db.ssRows id key) := by
  rcases hrows : db.ssRows id key with _ | ⟨row, rest⟩
  · trivial
  · have hrow : row ∈ db.ssRows id key := by rw [hrows]; exact List.mem_cons_self
    unfold CompactHarmless at h
    rcases hl : db.storages id with _ | l
    · rw [ssRows, hl] at hrow
      cases hrow
    · rw [hl] at h
      rw [ssRows, hl, List.mem_filter, decide_eq_true_eq] at hrow
      obtain ⟨hrow, rfl⟩ := hrow
      rw [← hrows]
      exact h row hrow

end Db

def Op.plain : Op → Bool
  | .compact _ => false
  | .restart => false
  | _ => true

def Op.FitsRecord (pageSize : ℕ) : Op → Prop
  | .upsert _ _ key value => 16 + 24 + key.length + (18 + value.length) ≤ pageSize
  | .delete _ _ key | .deleteFound _ _ key => 16 + 24 + key.length + 18 ≤ pageSize
  | _ => True

instance (pageSize : ℕ) : (op : Op) → Decidable (op.FitsRecord pageSize)
  | .upsert _ _ _ _ | .delete _ _ _ | .deleteFound _ _ _ => inferInstanceAs (Decidable (_ ≤ _))
  | .begin _ | .commit _ | .rollback _ | .addStorage _ | .flush | .compact _ | .clean | .restart => isTrue trivial

theorem Op.FitsRecord.size_le {pageSize : ℕ} {op : Op} (hf : op.FitsRecord pageSize) {t : TransactionId} {h : Label}
    {id key : Bytes} {value : TransactionalValue} (hv : op.version t = some (h, id, key, value)) :
    16 + 24 + key.length + (18 + value.value.length) ≤ pageSize := by
  cases op <;> cases hv <;> exact hf

namespace World

variable {o : Options}

structure Inv (w : World) : Prop where
  ordered : w.db.Ordered
  refines : Refines w.db.txStorage w.db.rows w.begun w.hist

/-- The server goes on running, and a compaction is harmless. -/
def Calm (w : World) : Op → Prop
  | .compact id => w.db.CompactHarmless id
  | .restart => False
  | _ => True

instance (w : World) : (op : Op) → Decidable (w.Calm op)
  | .compact id => inferInstanceAs (Decidable (w.db.CompactHarmless id))
  | .restart => isFalse id
  | .begin _ | .upsert _ _ _ _ | .delete _ _ _ | .deleteFound _ _ _ | .commit _ | .rollback _ | .addStorage _ | .flush
  | .clean => isTrue trivial

theorem start_rows (o : Options) (id key : Bytes) : (start o).db.rows id key = [] := by
  rcases hl : (start o).db.storages id with _ | l
  · exact Db.rows_of_none hl key
  · rw [Db.rows_of_some hl, start_storages hl]
    rfl

theorem start_inv (o : Options) : (start o).Inv := by
  refine ⟨?_, ?_⟩
  · intro id l hl
    rw [start_storages hl]
    exact (LevelsOk.nil _).empty_cons
  · exact Refines.empty.congr (start_rows o)

theorem Effect.inv {w w' : World} {op : Op} (he : Effect o w op w') (hw : w.Inv) (hc : w.Calm op) : w'.Inv := by
  obtain ⟨hord, hr⟩ := hw
  cases he with
  | begin hh => exact ⟨hord, hr.begin hh⟩
  | write hv ht _ hs =>
    obtain ⟨-, rfl, hf⟩ := Op.version_spec hv
    obtain ⟨txStorage, db, seqNo, hl, hu, rfl⟩ := writeRow_cases hs
    have hord' : Db.Ordered { w.db with txStorage } := hord
    obtain ⟨h1, h2, h3⟩ := Db.engineUpsert_spec hord' hu
    refine ⟨h1, ?_⟩
    rw [h2]
    exact hr.write ht ⟨hl, rfl, hf, h3⟩
  | absent => exact ⟨hord, hr⟩
  | commit ht => exact ⟨hord, hr.commit ht⟩
  | rollback ht => exact ⟨hord, hr.rollback ht⟩
  | addStorage hdb =>
    obtain ⟨h1, h2, h3⟩ := Db.addStorage_spec hord hdb
    refine ⟨h1, ?_⟩
    rw [h2]
    exact hr.congr h3
  | flush => exact ⟨Db.flush_ordered hord, hr.congr (Db.flush_rows w.db)⟩
  | compact id =>
    refine ⟨Db.compact_ordered hord id, ?_⟩
    rw [Db.compact_txStorage]
    exact hr.compact (fun _ _ => rfl) hc.key (Db.compact_rows hord id)
  | clean => exact ⟨hord, hr⟩
  | restart => exact hc.elim

theorem Inv.run_calm {w w' : World} (hw : w.Inv) {ops : List Op} (hg : Machine.Guarded (step o) Calm w ops)
    (hr : Machine.run (step o) w ops = some w') : w'.Inv :=
  Machine.run_inv (P := fun _ w => w.Inv) hw (fun _ _ _ _ hw hc hs => (step_effect hs).inv hw hc) hg hr

theorem guarded_plain {w : World} {ops : List Op} (hops : ∀ op ∈ ops, op.plain = true) :
    Machine.Guarded (step o) Calm w ops := by
  refine Machine.guarded_of_forall (fun op hop v => ?_) _
  have hp := hops op hop
  cases op <;> trivial

theorem Inv.run {w w' : World} (hw : w.Inv) {ops : List Op} (hops : ∀ op ∈ ops, op.plain = true)
    (hr : Machine.run (step o) w ops = some w') : w'.Inv := hw.run_calm (guarded_plain hops) hr

theorem Inv.lookup_eq {w : World} (hw : w.Inv) {h : Label} {t : TransactionId} (ht : w.tx h = some t)
    (id key : Bytes) : w.db.lookup t id key = (TxMap.read h (id, key) w.hist).join := by
  rw [Db.lookup_eq_rows hw.ordered, hw.refines.read ht]

/-! ### Records that fit in a page -/

/-- The numbers that were given out in `n` steps, and the size of what is stored. -/
structure Limited (pageSize n : ℕ) (w : World) : Prop where
  nextTxId : w.db.txStorage.nextTxId ≤ 10 + n
  trees : ∀ id l, w.db.storages id = some l → l.nextSeqNo ≤ 1 + n ∧
    l.Within fun row => 16 + 24 + row.key.length + (18 + row.value.value.length) ≤ pageSize

namespace Limited

variable {pageSize n : ℕ} {w w' : World}

theorem start (o : Options) (pageSize : ℕ) : (start o).Limited pageSize 0 := by
  refine ⟨le_rfl, ?_⟩
  intro id l hl
  rw [start_storages hl]
  exact ⟨le_rfl, Lsm.within_empty⟩

theorem trees_mono (h : w.Limited pageSize n) : ∀ id l, w.db.storages id = some l → l.nextSeqNo ≤ 1 + (n + 1) ∧
    l.Within fun row => 16 + 24 + row.key.length + (18 + row.value.value.length) ≤ pageSize :=
  fun id l hl => ⟨(h.trees id l hl).1.trans (by omega), (h.trees id l hl).2⟩

theorem write (h : w.Limited pageSize n) {label : Label} {id key : Bytes} {value : TransactionalValue}
    (hsize : 16 + 24 + key.length + (18 + value.value.length) ≤ pageSize)
    (hs : w.writeRow o label id key value = some w') : w'.Limited pageSize (n + 1) := by
  obtain ⟨txStorage, db, seqNo, hl, hu, rfl⟩ := writeRow_cases hs
  refine ⟨?_, Db.engineUpsert_inv hu h.trees_mono fun l hl _ => ?_⟩
  · obtain ⟨l, -, -, rfl⟩ := Db.engineUpsert_cases hu
    have hnext := (TxStorage.acquireRowLock_spec hl).2.1
    exact hnext.le.trans (h.nextTxId.trans (Nat.le_succ _))
  · obtain ⟨hnext, hwithin⟩ := h.trees id l hl
    refine ⟨?_, hwithin.put o key value hsize⟩
    have hput : (l.put o key value).1.nextSeqNo = l.nextSeqNo + 1 := Lsm.doPut_nextSeqNo ..
    omega

theorem step (h : w.Limited pageSize n) {op : Op} (he : Effect o w op w') (hfits : op.FitsRecord pageSize)
    (hop : op ≠ .restart) : w'.Limited pageSize (n + 1) := by
  have hnext : w.db.txStorage.nextTxId ≤ 10 + (n + 1) := h.nextTxId.trans (Nat.le_succ _)
  cases he with
  | begin hh => exact ⟨Nat.succ_le_succ h.nextTxId, h.trees_mono⟩
  | write hv ht _ hs => exact h.write (hfits.size_le hv) hs
  | absent | commit _ | rollback _ | clean => exact ⟨hnext, h.trees_mono⟩
  | addStorage ha =>
    refine ⟨?_, Db.addStorage_inv h.trees_mono ha ⟨Nat.le_add_right 1 _, Lsm.within_empty⟩⟩
    obtain ⟨-, -, rfl⟩ := Db.addStorage_cases ha
    exact hnext
  | flush =>
    refine ⟨hnext, Db.flush_inv fun id l hl => ?_⟩
    rw [Lsm.flush_nextSeqNo]
    exact ⟨(h.trees_mono id l hl).1, (h.trees_mono id l hl).2.flush⟩
  | compact id =>
    refine ⟨by rwa [Db.compact_txStorage], Db.compact_inv h.trees_mono fun l hl => ?_⟩
    refine ⟨(h.trees_mono id l hl).1, (h.trees_mono id l hl).2.compact fun rows hrows row hrow => ?_⟩
    obtain ⟨old, hold, rfl⟩ := TransactionalTable.mem_compactRows hrow
    rw [TransactionalTable.freezeRow_key, TransactionalTable.freezeRow_data]
    exact hrows old hold
  | restart => exact absurd rfl hop

theorem run (h : w.Limited pageSize n) {ops : List Op} (hops : ∀ op ∈ ops, op.FitsRecord pageSize ∧ op ≠ .restart)
    (hr : Machine.run (World.step o) w ops = some w') : w'.Limited pageSize (n + ops.length) :=
  Machine.run_inv (P := fun tr v => v.Limited pageSize (n + tr.length))
    (G := fun _ op => op.FitsRecord pageSize ∧ op ≠ .restart) h
    (fun tr v op v' hv hg hs => by
      rw [List.length_append, ← Nat.add_assoc]
      exact hv.step (step_effect hs) hg.1 hg.2)
    (Machine.guarded_of_forall (fun op hop _ => hops op hop) _) hr

theorem onDisk {f : FileOptions} (h : w.Limited f.pageSize n) (hw : w.Inv) (hsmall : f.pageSize < 2 ^ 31)
    (hn : n < 2 ^ 62) : w.db.OnDisk f := by
  intro id l hl
  obtain ⟨hnext, hwithin⟩ := h.trees id l hl
  refine (hw.ordered id l hl).onDisk hsmall (fun row hrow => ⟨hwithin.records row hrow, ?_⟩) (by omega)
  have hmem : row ∈ w.db.rows id row.key := by
    rw [Db.rows_of_some hl, List.mem_filter]
    exact ⟨hrow, decide_eq_true rfl⟩
  exact (hw.refines.bounded id row.key row hmem).trans_le (h.nextTxId.trans (Nat.le_trans
    (Nat.add_le_add_left hn.le 10) (by decide)))

/-- A run from the start in which compactions are harmless. -/
theorem run_calm {f : FileOptions} {ops : List Op} (hg : Machine.Guarded (World.step o) Calm (World.start o) ops)
    (hr : Machine.run (World.step o) (World.start o) ops = some w) (hfits : ∀ op ∈ ops, op.FitsRecord f.pageSize)
    (hlen : ops.length < 2 ^ 62) (hsmall : f.pageSize < 2 ^ 31) : w.db.OnDisk f := by
  have hgoes : ∀ op ∈ ops, op ≠ .restart := by
    refine Machine.run_inv (P := fun tr _ => ∀ op ∈ tr, op ≠ .restart) (by simp) ?_ hg hr
    intro tr v op v' htr hc _ op' hop'
    rcases List.mem_append.mp hop' with hop' | hop'
    · exact htr op' hop'
    · rw [List.mem_singleton.mp hop']
      rintro rfl
      exact hc
  have hlimited := (Limited.start o f.pageSize).run (fun op hop => ⟨hfits op hop, hgoes op hop⟩) hr
  exact hlimited.onDisk ((start_inv o).run_calm hg hr) hsmall (by omega)

end Limited

/-- A started transaction looks up its own last write, or else that of the most recently committed writer; a delete
and no write at all both read as absent. -/
theorem lookup_refines_map (o : Options) (f : FileOptions) (hsmall : f.pageSize < 2 ^ 31) (ops : List Op)
    (hops : ∀ op ∈ ops, op.plain = true ∧ op.FitsRecord f.pageSize) (hlen : ops.length < 2 ^ 62) (w : World)
    (hr : Machine.run (step o) (start o) ops = some w) (h : Label) (t : TransactionId) (ht : w.tx h = some t)
    (id key : Bytes) : w.db.lookupFiles f t id key = some (TxMap.read h (id, key) w.hist).join := by
  have hplain : ∀ op ∈ ops, op.plain = true := fun op hop => (hops op hop).1
  have hdisk := Limited.run_calm (guarded_plain hplain) hr (fun op hop => (hops op hop).2) hlen hsmall
  rw [hdisk.lookup, ((start_inv o).run hplain hr).lookup_eq ht]

/-- A reader with a delete of its own, between a committed and a started writer of other keys; one of the versions
is in a file with pages of 64 bytes. -/
theorem lookup_refines_map_three_clients :
    ∃ w, Machine.run (step ⟨0⟩) (start ⟨0⟩)
        [.addStorage [84], .begin 0, .upsert 0 [84] [1] [5], .upsert 0 [84] [2] [6], .commit 0, .begin 1, .begin 2,
          .flush, .delete 1 [84] [1], .upsert 2 [84] [2] [7]] = some w ∧
      w.tx 1 = some 11 ∧ w.db.lookupFiles ⟨fun _ => 0, 64, 3⟩ 11 [84] [1] = some none ∧
      w.db.lookupFiles ⟨fun _ => 0, 64, 3⟩ 11 [84] [2] = some (some [6]) := by
  refine Machine.exists_run_of (T := fun w => w.tx 1 = some 11 ∧ (TxMap.read 1 ([84], [1]) w.hist).join = none ∧
    (TxMap.read 1 ([84], [2]) w.hist).join = some [6]) (by decide) ?_
  intro w hw hp
  obtain ⟨ht, h1, h2⟩ := hp
  have hread := lookup_refines_map ⟨0⟩ ⟨fun _ => 0, 64, 3⟩ (by decide) _ (by decide) (by decide) w hw 1 11 ht [84]
  exact ⟨ht, (hread [1]).trans (congrArg some h1), (hread [2]).trans (congrArg some h2)⟩

/-- In pages of 59 bytes a record of 44 bytes has no room. Behind a flush its writer's lookup of it fails, with the
write in the history. -/
theorem long_record_unreadable :
    ∃ w, Machine.run (step ⟨1⟩) (start ⟨1⟩)
        [.addStorage [84], .begin 0, .upsert 0 [84] [1] [], .upsert 0 [84] [2] [7], .flush] = some w ∧
      w.tx 0 = some 10 ∧ (TxMap.read 0 ([84], [2]) w.hist).join = some [7] ∧
      w.db.lookupFiles ⟨fun _ => 0, 59, 3⟩ 10 [84] [2] = none :=
  Machine.exists_run (by decide +kernel)

end World

end StructureDb
