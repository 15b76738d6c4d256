import StructureDb.Proofs.DbSteps

/-! Single reads in any reachable state: when a compaction leaves the answer of a
`Lookup` as it was, and when `Scan` returns what `Lookup` does. -/

namespace StructureDb

variable {V : Type} [LinearOrder V]

namespace Lsm

/-- The tables, and the files that a restart would load, are sorted. -/
structure Tidy (l : Lsm V) : Prop where
  tables : ∀ t ∈ l.ssTables, t.records.Pairwise (· ≤ ·)
  files : ∀ f ∈ l.dir.files, f.2.Pairwise (· ≤ ·)

theorem Tidy.levels {l : Lsm V} (h : l.Tidy) : ∀ a ∈ l.levels, a.Pairwise (· ≤ ·) := by
  intro a ha
  obtain rfl | ⟨m, -, rfl⟩ | ⟨t, ht, rfl⟩ := mem_levels.mp ha
  · exact l.memTable.sorted
  · exact m.sorted
  · exact h.tables t ht

theorem Tidy.congr {l l' : Lsm V} (h : l.Tidy) (hss : l'.ssTables = l.ssTables) (hdir : l'.dir = l.dir) : l'.Tidy :=
  ⟨hss ▸ h.tables, hdir ▸ h.files⟩

theorem Tidy.flushFront {l : Lsm V} (h : l.Tidy) : l.flushFront.Tidy := by
  unfold Lsm.flushFront
  split
  · exact h
  · rename_i m rest hro
    refine ⟨?_, ?_⟩
    · intro t ht
      rcases List.mem_append.mp ht with ht | ht
      · exact h.tables t ht
      · rw [List.mem_singleton.mp ht]
        exact m.sorted
    · intro f hf
      rcases Dir.mem_create.mp hf with rfl | ⟨hf, -⟩
      · exact m.sorted
      · exact h.files f hf

theorem Tidy.flush {l : Lsm V} (h : l.Tidy) : l.flush.Tidy :=
  flush_of_flushFront (fun _ hm => hm.flushFront) h

theorem Tidy.compact {l : Lsm V} (h : l.Tidy) {strategy : List (Record V) → List (Record V)}
    (hs : StrategyOk strategy) : (l.compact strategy).Tidy := by
  have hout := (hs _ (mergedRecords_sorted h.tables)).1
  refine ⟨?_, ?_⟩
  · intro t ht
    rw [List.mem_singleton.mp ht]
    exact hout
  · intro f hf
    rcases Dir.mem_create.mp (Dir.mem_unlinkAll.mp hf).1 with rfl | ⟨hf, -⟩
    · exact hout
    · exact h.files f hf

theorem Tidy.reopen {l : Lsm V} (h : l.Tidy) : (init l.dir).Tidy := by
  refine ⟨?_, h.files⟩
  intro t ht
  obtain ⟨f, hf, rfl⟩ := List.mem_map.mp ht
  exact h.files f (Dir.mem_listing.mp hf)

theorem treeInv_tidy (o : Options) : Db.TreeInv o Lsm.Tidy where
  empty := by
    refine ⟨?_, ?_⟩
    · intro t ht
      cases ht
    · intro f hf
      cases hf
  put l key value h := h.congr (doPut_ssTables ..) (doPut_dir ..)
  putSeq l seqNo key value h := h.congr (putSeq_files ..).1 (putSeq_files ..).2
  flush l h := h.flush
  compact s l h := h.compact (TransactionalTable.compactRows_strategyOk s)
  reopen l h := h.reopen

/-- The part of a range scan that belongs to one key. -/
theorem scanRange_filter {l : Lsm V} (h : ∀ a ∈ l.levels, a.Pairwise (· ≤ ·)) (range : ScanRange) (key : Bytes) :
    (l.scanRange range).filter (fun r => r.key = key) =
      if range.contains key then l.scanRange (.only key) else [] := by
  have hperm := scanRange_perm h range
  split_ifs with hk
  · refine List.Perm.eq_of_pairwise (fun a b _ _ => (le_antisymm : a ≤ b → b ≤ a → a = b))
      ((scanRange_sorted h range).sublist List.filter_sublist) (scanRange_sorted h _) ?_
    refine (hperm.filter _).trans ((scanRange_perm h (.only key)).trans ?_).symm
    rw [List.filter_filter]
    refine List.Perm.of_eq (List.filter_congr ?_)
    intro r _
    rw [ScanRange.contains_only]
    by_cases hr : r.key = key
    · simp [hr, hk]
    · simp [hr]
  · rw [List.filter_eq_nil_iff]
    intro r hr he
    have hc := (List.mem_filter.mp (hperm.subset hr)).2
    rw [of_decide_eq_true he] at hc
    exact hk hc

end Lsm

namespace TransactionalTable

variable (s : TxStorage) (t : TransactionId) (l : Lsm TransactionalValue) (key : Bytes)

def memRow : Option Row := firstVisible s t (l.memRecords.filter fun row => row.key = key)

/-- The version in the tables that `t` is shown when there is none in memory. -/
def shownRow : Option Row := firstVisible s t (l.ssRecords.filter fun row => row.key = key)

/-- The newest version in the tables that is no tombstone and belongs to a started or committed
transaction. -/
def leftRow : Option Row := (l.mergedRecords.filter fun row => row.key = key).find? (kept s)

/-- Either `t` sees a version in memory; or what it is shown of the tables is nothing, a tombstone
under which no started or committed value is visible to it, or the value of the newest such. -/
def CompactSafe : Prop :=
  memRow s t l key ≠ none ∨
    match shownRow s t l key with
    | none => True
    | some row =>
      if row.value.isDeleted then ∀ r, leftRow s l key = some r → visible s t r.value = false
      else ∃ r, leftRow s l key = some r ∧ visible s t r.value = true ∧ r.value.value = row.value.value

theorem lookup_eq {l : Lsm TransactionalValue} (h : l.Tidy) :
    lookup s t l key = ((memRow s t l key).or (shownRow s t l key)).bind fun row => row.value.payload := by
  rw [lookup, lookupRows_eq, Lsm.scanKey_eq_filter h.levels, l.records_eq, List.filter_append, firstVisible,
    List.find?_append]
  rfl

/-- After the compaction the tables show what is left, if it is visible. -/
theorem lookup_compact_eq {l : Lsm TransactionalValue} (h : l.Tidy) :
    lookup s t (compact s l) key =
      ((memRow s t l key).or ((leftRow s l key).filter fun row => visible s t row.value)).bind
        fun row => row.value.payload := by
  have hc : (compact s l).Tidy := h.compact (compactRows_strategyOk s)
  have hfind : lookup s t (compact s l) key = ((memRow s t l key).or
      (((leftRow s l key).toList.map (freezeRow s)).find? fun row => visible s t row.value)).bind
        fun row => row.value.payload := by
    rw [lookup, lookupRows_eq, Lsm.scanKey_eq_filter hc.levels, compact, Lsm.compact_records, List.filter_append,
      compactRows_filter s (Lsm.mergedRecords_sorted h.tables), firstVisible, List.find?_append]
    rfl
  rw [hfind]
  cases memRow s t l key with
  | some r => rfl
  | none =>
    cases leftRow s l key with
    | none => rfl
    | some r => cases hv : visible s t r.value <;> simp [hv, Option.filter]

theorem leftRow_kept {r : Row} (h : leftRow s l key = some r) : kept s r = true := List.find?_some h

theorem payload_of_not_deleted {v : TransactionalValue} (h : v.isDeleted = false) : v.payload = some v.value := by
  simp [TransactionalValue.payload, h]

theorem lookup_compact_iff {l : Lsm TransactionalValue} (h : l.Tidy) :
    lookup s t (compact s l) key = lookup s t l key ↔ CompactSafe s t l key := by
  rw [lookup_eq s t key h, lookup_compact_eq s t key h, CompactSafe]
  rcases memRow s t l key with _ | r
  · simp only [ne_eq, not_true_eq_false, false_or, Option.none_or]
    rcases hshown : shownRow s t l key with _ | row
    · -- nothing in the tables is visible, so neither is what is left
      have hleft : (leftRow s l key).filter (fun row => visible s t row.value) = none := by
        rcases hl : leftRow s l key with _ | r
        · rfl
        · have hmem : r ∈ l.ssRecords.filter fun row => row.key = key :=
            (l.mergedRecords_perm.filter _).subset (List.mem_of_find?_eq_some hl)
          simpa [Option.filter] using List.find?_eq_none.mp hshown r hmem
      simp [hleft]
    · simp only [Option.bind_some]
      rcases hl : leftRow s l key with _ | r
      · cases hd : row.value.isDeleted <;> simp [TransactionalValue.payload, hd, Option.filter]
      · have hr := ((kept_iff s r).mp (leftRow_kept s l key hl)).1
        cases hd : row.value.isDeleted <;> cases hv : visible s t r.value <;>
          simp [TransactionalValue.payload, hd, hv, hr, Option.filter]
  · simp

/-- For a key whose first visible version is a tombstone, no value that `Scan` would return is
left; for one whose first visible version is a value, the newest row that `Scan` would return
has that value. -/
def ScanSafe : Prop :=
  match firstVisible s t (l.scanKey key) with
  | none => True
  | some row =>
    if row.value.isDeleted then ∀ r ∈ l.records, r.key = key → returned s t r = false
    else ∃ r, (l.scanRange (.only key)).find? (returned s t) = some r ∧ r.value.value = row.value.value

instance : Decidable (ScanSafe s t l key) :=
  match h : firstVisible s t (l.scanKey key) with
  | none => isTrue (by rw [ScanSafe, h]; trivial)
  | some row =>
    decidable_of_iff
      (if row.value.isDeleted then ∀ r ∈ l.records, r.key = key → returned s t r = false
        else ∃ r ∈ (l.scanRange (.only key)).find? (returned s t), r.value.value = row.value.value) (by
      rw [ScanSafe, h]
      rfl)

theorem returned_visible {r : Row} (h : returned s t r = true) : visible s t r.value = true := by
  have hl : listed s t r.value = true := (Bool.and_eq_true _ _ ▸ h).1
  unfold listed at hl
  unfold visible
  rw [Bool.or_assoc, hl, Bool.or_true]

theorem scan_eq (lowerBound upperBound : Option Bytes) :
    scan s t l lowerBound upperBound =
      (FirstOf.pick Record.key (returned s t) none (l.scanRange ⟨lowerBound, upperBound⟩)).map
        fun row => (row.key, row.value.value) := by
  rw [scan, scanRows_eq]
  rfl

theorem scan_ascending {l : Lsm TransactionalValue} (h : ∀ a ∈ l.levels, a.Pairwise (· ≤ ·))
    (lowerBound upperBound : Option Bytes) :
    ((scan s t l lowerBound upperBound).map Prod.fst).Pairwise (· < ·) := by
  rw [scan_eq, List.map_map, List.pairwise_map]
  exact (FirstOf.pick_ascending (keys_of_sorted (Lsm.scanRange_sorted h _)) (last_none _)).1

/-- A row is returned for a key in the range when it is the newest that `Scan` accepts. -/
theorem mem_scan {l : Lsm TransactionalValue} (h : ∀ a ∈ l.levels, a.Pairwise (· ≤ ·))
    (lowerBound upperBound : Option Bytes) (value : Bytes) :
    (key, value) ∈ scan s t l lowerBound upperBound ↔
      ScanRange.contains ⟨lowerBound, upperBound⟩ key = true ∧
        ∃ r, (l.scanRange (.only key)).find? (returned s t) = some r ∧ r.value.value = value := by
  have hsorted := keys_of_sorted (Lsm.scanRange_sorted h ⟨lowerBound, upperBound⟩)
  have hpick := FirstOf.pick_filter (p := returned s t) hsorted (last_none _) key
  rw [if_neg (by simp), Lsm.scanRange_filter h] at hpick
  have hmem (r : Row) : r ∈ FirstOf.pick Record.key (returned s t) none (l.scanRange ⟨lowerBound, upperBound⟩) ∧
      r.key = key ↔ ScanRange.contains ⟨lowerBound, upperBound⟩ key = true ∧
        (l.scanRange (.only key)).find? (returned s t) = some r := by
    have := congrArg (r ∈ ·) hpick
    simp only [List.mem_filter, decide_eq_true_eq, eq_iff_iff] at this
    rw [this]
    split_ifs with hc <;> simp [hc]
  rw [scan_eq, List.mem_map]
  constructor
  · rintro ⟨r, hr, he⟩
    obtain ⟨hk, hv⟩ := Prod.mk.inj he
    obtain ⟨hc, hf⟩ := (hmem r).mp ⟨hr, hk⟩
    exact ⟨hc, r, hf, hv⟩
  · rintro ⟨hc, r, hf, hv⟩
    obtain ⟨hr, hk⟩ := (hmem r).mpr ⟨hc, hf⟩
    exact ⟨r, hr, by rw [hk, hv]⟩

theorem find_returned_eq_none {l : Lsm TransactionalValue} (h : ∀ a ∈ l.levels, a.Pairwise (· ≤ ·)) :
    (l.scanRange (.only key)).find? (returned s t) = none ↔ ∀ r ∈ l.records, r.key = key →
      returned s t r = false := by
  rw [List.find?_eq_none]
  constructor
  · intro hn r hr hk
    have := hn r ((Lsm.scanRange_perm h _).mem_iff.mpr (List.mem_filter.mpr ⟨hr, by simp [hk]⟩))
    simpa using this
  · intro hn r hr
    obtain ⟨hr, hk⟩ := List.mem_filter.mp ((Lsm.scanRange_perm h _).mem_iff.mp hr)
    have := hn r hr (by simpa using hk)
    simp [this]

theorem scan_agrees_key {l : Lsm TransactionalValue} (h : ∀ a ∈ l.levels, a.Pairwise (· ≤ ·)) :
    (∀ value, (∃ r, (l.scanRange (.only key)).find? (returned s t) = some r ∧ r.value.value = value) ↔
      lookup s t l key = some value) ↔ ScanSafe s t l key := by
  rw [lookup, lookupRows_eq, ScanSafe]
  rcases hv : firstVisible s t (l.scanKey key) with _ | row
  · -- no version is visible, so none is returned
    have hnone : (l.scanRange (.only key)).find? (returned s t) = none := by
      rw [find_returned_eq_none s t key h]
      intro r hr hk
      by_contra hc
      refine List.find?_eq_none.mp hv r ?_ (returned_visible s t (by simpa using hc))
      rw [Lsm.scanKey_eq_filter h]
      exact List.mem_filter.mpr ⟨hr, by simpa using hk⟩
    simp [hnone]
  · dsimp only
    rw [Option.bind_some]
    by_cases hd : row.value.isDeleted = true
    · rw [if_pos hd, ← find_returned_eq_none s t key h]
      have hp : row.value.payload = none := if_pos hd
      rcases (l.scanRange (.only key)).find? (returned s t) with _ | r
      · simp [hp]
      · simp [hp]
    · rw [if_neg hd, payload_of_not_deleted (by simpa using hd)]
      constructor
      · intro hall
        exact (hall row.value.value).mpr rfl
      · rintro ⟨r, hr, hrv⟩ value
        rw [hr]
        simp [hrv]

end TransactionalTable

namespace World

open TransactionalTable

/-- For every reader, a compaction of a reachable table leaves the answer of `Lookup` as it was
exactly in the safe cases. -/
theorem lookup_after_compact_iff (o : Options) (ops : List Op) (w : World)
    (hr : Machine.run (step o) (start o) ops = some w) (id : Bytes) (l : Lsm TransactionalValue)
    (hl : w.db.storages id = some l) (t : TransactionId) (key : Bytes) :
    (w.db.compact id).lookup t id key = w.db.lookup t id key ↔ CompactSafe w.db.txStorage t l key := by
  have htidy := run_tree_inv (Lsm.treeInv_tidy o) hr id l hl
  rw [← lookup_compact_iff _ t key htidy]
  simp only [Db.compact, hl, Db.lookup, Db.setStorage_self]
  rfl

/-- A value, a delete and a value again, all committed and in the tables. -/
theorem lookup_after_compact_rewritten :
    ∃ w, Machine.run (step ⟨0⟩) (start ⟨0⟩)
        [.addStorage [84], .begin 0, .upsert 0 [84] [1] [5], .commit 0, .begin 1, .delete 1 [84] [1], .commit 1,
          .begin 2, .upsert 2 [84] [1] [6], .commit 2, .flush, .begin 3] = some w ∧
      ∃ l ∈ w.db.storages [84], l.records.length = 3 ∧ (w.db.compact [84]).lookup 13 [84] [1] = some [6] ∧
        CompactSafe w.db.txStorage 13 l [1] := by
  refine Machine.exists_run_of (T := fun w => ∃ l ∈ w.db.storages [84], l.records.length = 3 ∧
    (w.db.compact [84]).lookup 13 [84] [1] = some [6] ∧ w.db.lookup 13 [84] [1] = some [6]) (by decide) ?_
  rintro w hw ⟨l, hl, hlen, hafter, hbefore⟩
  refine ⟨l, hl, hlen, hafter, ?_⟩
  exact (lookup_after_compact_iff ⟨0⟩ _ w hw [84] l hl 13 [1]).mp (hafter.trans hbefore.symm)

/-- A committed delete above a committed value, both flushed: the compaction drops the delete and
the value is back. -/
theorem compact_revives_deleted :
    ∃ w, Machine.run (step ⟨0⟩) (start ⟨0⟩)
        [.addStorage [84], .begin 0, .upsert 0 [84] [1] [5], .commit 0, .begin 1, .delete 1 [84] [1], .commit 1,
          .flush, .begin 2] = some w ∧
      w.tx 2 = some 12 ∧ (w.db.compact [84]).lookup 12 [84] [1] ≠ w.db.lookup 12 [84] [1] := by
  exact Machine.exists_run (by decide)

/-- `Scan` returns ascending keys, and it agrees with `Lookup` exactly in the safe cases. -/
theorem scan_agrees_iff (o : Options) (ops : List Op) (w : World)
    (hr : Machine.run (step o) (start o) ops = some w) (id : Bytes) (l : Lsm TransactionalValue)
    (hl : w.db.storages id = some l) (t : TransactionId) (lowerBound upperBound : Option Bytes) :
    ((w.db.scan t id lowerBound upperBound).map Prod.fst).Pairwise (· < ·) ∧
      ((∀ key value, (key, value) ∈ w.db.scan t id lowerBound upperBound ↔
        ScanRange.contains ⟨lowerBound, upperBound⟩ key = true ∧ w.db.lookup t id key = some value) ↔
      ∀ key, ScanRange.contains ⟨lowerBound, upperBound⟩ key = true → ScanSafe w.db.txStorage t l key) := by
  have htidy := run_tree_inv (Lsm.treeInv_tidy o) hr id l hl
  simp only [Db.scan, Db.lookup, hl]
  refine ⟨scan_ascending _ t htidy.levels lowerBound upperBound, forall_congr' fun key => ?_⟩
  simp only [mem_scan _ t key htidy.levels]
  rw [← scan_agrees_key _ t key htidy.levels]
  constructor
  · intro hall hc value
    simpa [hc] using hall value
  · intro hall value
    exact and_congr_right fun hc => hall hc value

/-- Between the bounds there are a value, a delete and a value again, in a table and in memory. -/
theorem scan_agrees_rewritten :
    ∃ w, Machine.run (step ⟨0⟩) (start ⟨0⟩)
        [.addStorage [84], .begin 0, .upsert 0 [84] [1] [5], .commit 0, .begin 1, .delete 1 [84] [1], .commit 1, .flush,
          .begin 2, .upsert 2 [84] [1] [6], .upsert 2 [84] [2] [7], .commit 2, .begin 3] = some w ∧
      w.db.lookup 13 [84] [1] = some [6] ∧
      ∀ key value, (key, value) ∈ w.db.scan 13 [84] (some [1]) (some [1]) ↔
        ScanRange.contains ⟨some [1], some [1]⟩ key = true ∧ w.db.lookup 13 [84] key = some value := by
  refine Machine.exists_run_of (T := fun w => w.db.lookup 13 [84] [1] = some [6] ∧
    ∃ l ∈ w.db.storages [84], ScanSafe w.db.txStorage 13 l [1]) (by decide) ?_
  rintro w hw ⟨hlookup, l, hl, hsafe⟩
  refine ⟨hlookup, (scan_agrees_iff ⟨0⟩ _ w hw [84] l hl 13 (some [1]) (some [1])).2.mpr ?_⟩
  intro key hkey
  have honly : (ScanRange.only [1]).contains key = true := hkey
  rw [ScanRange.contains_only, decide_eq_true_eq] at honly
  exact honly ▸ hsafe

/-- A committed delete does not hide the value below it from `Scan`. -/
theorem scan_returns_deleted :
    ∃ w, Machine.run (step ⟨0⟩) (start ⟨0⟩)
        [.addStorage [84], .begin 0, .upsert 0 [84] [1] [5], .commit 0, .begin 1, .delete 1 [84] [1], .commit 1,
          .begin 2] = some w ∧
      w.tx 2 = some 12 ∧ ([1], [5]) ∈ w.db.scan 12 [84] none none ∧ w.db.lookup 12 [84] [1] = none := by
  exact Machine.exists_run (by decide)

end World

end StructureDb
