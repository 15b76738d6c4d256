import StructureDb.Proofs.Backing
import StructureDb.Proofs.DbRecovery
import StructureDb.Proofs.Rows

/-! What a restart brings back. Where the files back the open tables and the log holds
the pending records, every tree comes back with the same versions of every key,
and exactly the transactions with a commit event in the log are committed. -/

namespace StructureDb

namespace Lsm

variable {V : Type} [LinearOrder V] {l : Lsm V} {log : List (Record V)}

theorem Numbered.reopen_ordered (hn : l.Numbered) (ho : l.Ordered) : (init l.dir).Ordered :=
  init_ordered hn.backed.only (List.pairwise_map.mp (hn.ascending.imp le_of_lt)) ho.ssLevels

theorem Ordered.memRecords_sorted (ho : l.Ordered) (key : Bytes) :
    (l.memRecords.filter fun r => r.key = key).Pairwise (· ≤ ·) := by
  have hs := ho.scanKey_sorted key
  rw [scanKey_eq_filter ho.sorted, records_eq, List.filter_append] at hs
  exact (List.pairwise_append.mp hs).1

/-- The versions of a key are back in the same order. -/
theorem Recoverable.restart_records (h : l.Recoverable log) (hn : l.Numbered) (ho : l.Ordered) (o : Options) :
    ((init l.dir).replay o log).Ordered ∧ ∀ key, ((init l.dir).replay o log).records.filter (fun r => r.key = key) =
      l.records.filter fun r => r.key = key := by
  have hord := replay_ordered o log (hn.reopen_ordered ho)
  have hss := (replay_files o log (init l.dir)).1
  rw [hn.backed.reload] at hss
  obtain ⟨hrec, hmax, -⟩ := h.restart o
  have hpending : ((init l.dir).replay o log).pending log = l.pending log := by rw [pending, pending, hmax]
  have hperm : ((init l.dir).replay o log).memRecords.Perm l.memRecords :=
    (hpending ▸ hrec.inMemory).trans h.inMemory.symm
  refine ⟨hord, ?_⟩
  intro key
  have hmem := List.Perm.eq_of_pairwise (fun a b _ _ => (le_antisymm : a ≤ b → b ≤ a → a = b))
    (hord.memRecords_sorted key) (ho.memRecords_sorted key) (hperm.filter _)
  rw [records_eq, records_eq, List.filter_append, List.filter_append, hmem, ssRecords, hss, ssRecords]

end Lsm

namespace Db

variable {o : Options} {db : Db} {events : List Event}

theorem Durable.restart_rows (h : db.Durable events) (hno : db.wal.currentSegmentNo < 10000) (ho : db.Ordered)
    (hn : ∀ id l, db.storages id = some l → l.Numbered) :
    (db.restart o).Ordered ∧ ∀ id key, (db.restart o).rows id key = db.rows id key := by
  have hstorages := h.restart_storages (o := o) hno
  refine ⟨?_, ?_⟩
  · intro id l hl
    rw [hstorages] at hl
    obtain ⟨m, hm, rfl⟩ := Option.map_eq_some_iff.mp hl
    exact ((h.trees id m hm).restart_records (hn id m hm) (ho id m hm) o).1
  · intro id key
    have hid := hstorages id
    rcases hl : db.storages id with _ | l
    · rw [hl] at hid
      rw [rows_of_none hl, rows_of_none hid]
    · rw [hl] at hid
      rw [rows_of_some hl, rows_of_some hid]
      exact ((h.trees id l hl).restart_records (hn id l hl) (ho id l hl) o).2 key

theorem Durable.mem_events (h : db.Durable events) {e : Event} :
    e ∈ events ↔ ∃ f ∈ db.wal.dir.files, e ∈ f.2 := by
  obtain ⟨old, last, hseg, rfl⟩ := h.segments
  have hwritten : Wal.written old last = (old ++ [(db.wal.currentSegmentNo, last)]).flatMap Prod.snd := by
    simp [Wal.written]
  rw [hwritten, List.mem_flatMap]
  constructor
  · rintro ⟨seg, hs, he⟩
    exact ⟨_, (hseg.files _).mpr (List.mem_map_of_mem hs), he⟩
  · rintro ⟨f, hf, he⟩
    obtain ⟨seg, hs, rfl⟩ := List.mem_map.mp ((hseg.files f).mp hf)
    exact ⟨seg, hs, he⟩

theorem Durable.restart_txStatus (h : db.Durable events) (hno : db.wal.currentSegmentNo < 10000) (t : TransactionId) :
    (db.restart o).txStorage.txStatus t = if .commit t ∈ events then some .commited else none := by
  rw [Db.restart, init_txStorage, TxStorage.foldl_recoverFromLog_txStatus, h.wal_events hno]
  simp only [mem_commitsOf]
  rfl

/-- The first id after a restart is the initial one, or follows the greatest committed one. -/
theorem Durable.restart_nextTxId (h : db.Durable events) (hno : db.wal.currentSegmentNo < 10000) (n : TransactionId) :
    (db.restart o).txStorage.nextTxId ≤ n ↔
      TxStorage.kInitialTxId ≤ n ∧ ∀ t, .commit t ∈ events → t < n := by
  rw [Db.restart, init_txStorage, TxStorage.foldl_recoverFromLog_nextTxId, h.wal_events hno]
  simp only [mem_commitsOf]
  rfl

end Db

end StructureDb
