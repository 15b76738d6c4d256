import StructureDb.Lib.FirstOf
import StructureDb.Spec.Table
import StructureDb.Proofs.LsmSteps

/-! The loops of `TransactionalTable` as searches: `Lookup` takes the first visible
version, `Scan` and `CompactRows` the first version per key with a property. -/

namespace StructureDb.TransactionalTable

variable (s : TxStorage) (tx : TransactionId)

def firstVisible (rows : List Row) : Option Row := rows.find? fun row => visible s tx row.value

theorem lookupRows_eq (rows : List Row) :
    lookupRows s tx rows = (firstVisible s tx rows).bind fun row => row.value.payload := by
  induction rows with
  | nil => rfl
  | cons row rest ih =>
    unfold firstVisible at ih ⊢
    rw [lookupRows, List.find?_cons]
    split_ifs with hv hd
    · simp [hv, TransactionalValue.payload, hd]
    · simp [hv, TransactionalValue.payload, hd]
    · simpa [hv] using ih

def kept (row : Row) : Bool :=
  !row.value.isDeleted &&
    (s.getStatus row.value.tx = some .commited ∨ s.getStatus row.value.tx = some .started)

theorem kept_iff (row : Row) : kept s row = true ↔ row.value.isDeleted = false ∧
    (s.getStatus row.value.tx = some .commited ∨ s.getStatus row.value.tx = some .started) := by
  simp [kept]

theorem compactRows_eq (last : Option Bytes) (rows : List Row) :
    compactRows s last rows = (FirstOf.pick Record.key (kept s) last rows).map (freezeRow s) := by
  induction rows generalizing last with
  | nil => rfl
  | cons row rest ih =>
    rw [compactRows, FirstOf.pick]
    have hiff := kept_iff s row
    split_ifs with h1 h2 h3 h4 h5 h6 h7
    · exact absurd (hiff.mp h2.1).1 (by simp [h1])
    · exact ih last
    · exact absurd (hiff.mp h4.1).2 (by simp [h3])
    · exact ih last
    · rw [List.map_cons, ih]
    · refine absurd ⟨hiff.mpr ⟨by simpa using h1, ?_⟩, h5⟩ h6
      by_contra hc
      exact h3 (not_or.mp hc)
    · exact absurd h7.2 h5
    · exact ih last

def returned (row : Row) : Bool := listed s tx row.value && !row.value.isDeleted

theorem scanRows_eq (result : List (Bytes × Bytes)) (rows : List Row) :
    scanRows s tx result rows = result ++
      (FirstOf.pick Record.key (returned s tx) (result.getLast?.map Prod.fst) rows).map
        fun row => (row.key, row.value.value) := by
  induction rows generalizing result with
  | nil => simp [scanRows, FirstOf.pick]
  | cons row rest ih =>
    rw [scanRows, FirstOf.pick]
    by_cases hl : listed s tx row.value = true
    · by_cases hd : row.value.isDeleted = true
      · rw [if_pos hl, if_pos hd, if_neg (by simp [returned, hd])]
        exact ih result
      · have hr : returned s tx row = true := by simp [returned, hl, hd]
        by_cases hk : result.getLast?.map Prod.fst = some row.key
        · rw [if_pos hl, if_neg hd, if_pos hk, if_neg (fun h => h.2 hk)]
          exact ih result
        · rw [if_pos hl, if_neg hd, if_neg hk, if_pos ⟨hr, hk⟩, ih, List.getLast?_concat]
          simp
    · rw [if_neg hl, if_neg (by simp [returned, hl])]
      exact ih result

theorem mem_compactRows {s : TxStorage} {rows : List Row} {row : Row} (h : row ∈ compactRows s none rows) :
    ∃ old ∈ rows, row = freezeRow s old := by
  rw [compactRows_eq] at h
  obtain ⟨old, hold, rfl⟩ := List.mem_map.mp h
  exact ⟨old, (FirstOf.pick_sublist _ _ _ _).subset hold, rfl⟩

@[simp] theorem freezeRow_key (row : Row) : (freezeRow s row).key = row.key := by
  unfold freezeRow
  split_ifs <;> rfl

@[simp] theorem freezeRow_seqNo (row : Row) : (freezeRow s row).seqNo = row.seqNo := by
  unfold freezeRow
  split_ifs <;> rfl

@[simp] theorem freezeRow_tx (row : Row) : (freezeRow s row).value.tx = row.value.tx := by
  unfold freezeRow
  split_ifs <;> rfl

@[simp] theorem freezeRow_data (row : Row) : (freezeRow s row).value.value = row.value.value := by
  unfold freezeRow
  split_ifs <;> rfl

@[simp] theorem freezeRow_payload (row : Row) : (freezeRow s row).value.payload = row.value.payload := by
  unfold freezeRow
  split_ifs <;> rfl

theorem freezeRow_isFrozen (row : Row) :
    (freezeRow s row).value.isFrozen = (row.value.isFrozen || s.isCommited row.value.tx) := by
  unfold freezeRow
  unfold TxStorage.getStatus TxStorage.isCommited
  split_ifs with h
  · simp [h.1]
  · rcases hf : row.value.isFrozen with _ | _
    · have hc : s.txStatus row.value.tx ≠ some .commited := fun hc => h ⟨hc, hf⟩
      simpa using hc
    · rfl

@[simp] theorem freezeRow_visible (row : Row) :
    visible s tx (freezeRow s row).value = visible s tx row.value := by
  unfold visible
  rw [freezeRow_isFrozen, freezeRow_tx]
  cases row.value.isFrozen <;> cases s.isCommited row.value.tx <;> simp

theorem keys_of_sorted {rows : List Row} (h : rows.Pairwise (· ≤ ·)) :
    rows.Pairwise fun a b => a.key ≤ b.key := h.imp Record.key_le_of_le

theorem last_none (rows : List Row) : ∀ k ∈ (none : Option Bytes), ∀ row ∈ rows, k ≤ row.key := by simp

/-- Of every key, compaction keeps the first row that it does not skip. -/
theorem compactRows_filter {rows : List Row} (h : rows.Pairwise (· ≤ ·)) (key : Bytes) :
    (compactRows s none rows).filter (fun row => row.key = key) =
      ((rows.filter fun row => row.key = key).find? (kept s)).toList.map (freezeRow s) := by
  have hpick := FirstOf.pick_filter (p := kept s) (keys_of_sorted h) (last_none _) key
  rw [if_neg (by simp)] at hpick
  rw [compactRows_eq, List.filter_map, ← hpick]
  congr 1
  refine List.filter_congr ?_
  intro row _
  simp

theorem compactRows_strategyOk : Lsm.StrategyOk (compactRows s none) := by
  intro rows h
  rw [compactRows_eq]
  refine ⟨?_, ?_⟩
  · rw [List.pairwise_map]
    have hasc := (FirstOf.pick_ascending (p := kept s) (keys_of_sorted h) (last_none _)).1
    refine hasc.imp ?_
    intro a b hab
    refine ((Record.lt_iff _ _).mpr (Or.inl ?_)).le
    simpa using hab
  · rw [List.map_map]
    have hseq : Record.seqNo ∘ freezeRow s = Record.seqNo := funext (freezeRow_seqNo s)
    rw [hseq]
    exact (FirstOf.pick_sublist _ _ _ _).map _

end StructureDb.TransactionalTable
