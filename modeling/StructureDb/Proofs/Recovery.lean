import StructureDb.Lib.Consecutive
import StructureDb.Proofs.Visibility

/-! What makes a tree recoverable from its files and its logged records: the files hold
the greatest persistent number, and the records above it, which are exactly those
in memory, follow it in the log without a gap. Then a restart refuses only what is
in tables already, and goes on with the same next number. -/

namespace StructureDb

namespace Lsm

section
variable {V : Type} [LinearOrder V]

def pending (l : Lsm V) (log : List (Record V)) : List (Record V) :=
  log.filter fun r => l.maxPersistentSeqNo < r.seqNo

def refused (o : Options) : Lsm V → List (Record V) → List (Record V)
  | _, [] => []
  | l, r :: log =>
    let (l', accepted) := l.putSeq o r.seqNo r.key r.value
    if accepted then refused o l' log else r :: refused o l' log

theorem mem_of_refused {o : Options} {l : Lsm V} {log : List (Record V)} {r : Record V} (h : r ∈ l.refused o log) :
    r ∈ log := by
  induction log generalizing l with
  | nil => cases h
  | cons x log ih =>
    rw [refused] at h
    dsimp only at h
    split_ifs at h
    · exact List.mem_cons_of_mem _ (ih h)
    · rcases List.mem_cons.mp h with h | h
      · rw [h]
        exact List.mem_cons_self
      · exact List.mem_cons_of_mem _ (ih h)

structure Recoverable (l : Lsm V) (log : List (Record V)) : Prop where
  ascending : (l.roMemTables.map MemTable.impl ++ [l.memTable.impl]).Pairwise
    fun a b => ∀ x ∈ a, ∀ y ∈ b, x.seqNo < y.seqNo
  frozen : ∀ m ∈ l.roMemTables, m.impl ≠ []
  inMemory : l.memRecords.Perm (l.pending log)
  consecutive : Consecutive.From Record.seqNo (l.maxPersistentSeqNo + 1) (l.pending log)
  next : l.nextSeqNo = l.maxPersistentSeqNo + 1 + (l.pending log).length
  tables : ∀ r ∈ l.ssRecords, r.seqNo ≤ l.maxPersistentSeqNo
  files : ∀ f ∈ l.dir.files, ∀ r ∈ f.2, r.seqNo ≤ l.maxPersistentSeqNo
  newest : l.maxPersistentSeqNo = 0 ∨ ∃ f ∈ l.dir.files, ∃ r ∈ f.2, r.seqNo = l.maxPersistentSeqNo

variable {l : Lsm V} {log log' : List (Record V)}

theorem mem_memRecords {r : Record V} :
    r ∈ l.memRecords ↔ r ∈ l.memTable.impl ∨ ∃ m ∈ l.roMemTables, r ∈ m.impl := by
  simp [memRecords]

theorem mem_ssRecords {r : Record V} : r ∈ l.ssRecords ↔ ∃ t ∈ l.ssTables, r ∈ t.records := by simp [ssRecords]

theorem pending_append (l : Lsm V) (log log' : List (Record V)) :
    l.pending (log ++ log') = l.pending log ++ l.pending log' := List.filter_append ..

/-- Recovery takes the next record as a put would. -/
theorem putSeq_next (o : Options) (l : Lsm V) (key : Bytes) (value : V) :
    l.putSeq o l.nextSeqNo key value = ((l.put o key value).1, true) := by
  rw [putSeq, if_neg (by simp)]
  simp only [put, doPut]
  split_ifs <;> rfl

namespace Recoverable

theorem congr (h : l.Recoverable log) (hp : l.pending log' = l.pending log) : l.Recoverable log' :=
  ⟨h.ascending, h.frozen, hp ▸ h.inMemory, hp ▸ h.consecutive, hp ▸ h.next, h.tables, h.files, h.newest⟩

theorem bounds (h : l.Recoverable log) :
    ∀ r ∈ l.memRecords, l.maxPersistentSeqNo < r.seqNo ∧ r.seqNo < l.nextSeqNo := by
  intro r hr
  have := h.consecutive.bounds r (h.inMemory.mem_iff.mp hr)
  have := h.next
  omega

theorem empty : (init (Dir.empty : Dir Bytes (List (Record V)))).Recoverable [] where
  ascending := by simp [init]
  frozen := by simp [init]
  inMemory := List.Perm.refl _
  consecutive := trivial
  next := rfl
  tables := by simp [mem_ssRecords, init, Dir.empty, Dir.listing]
  files := by simp [init, Dir.empty]
  newest := Or.inl rfl

theorem put (h : l.Recoverable log) (o : Options) (key : Bytes) (value : V) :
    (l.put o key value).1.Recoverable (log ++ [⟨key, l.nextSeqNo, value⟩]) := by
  have hmax : (l.put o key value).1.maxPersistentSeqNo = l.maxPersistentSeqNo := doPut_maxPersistentSeqNo ..
  have hlt : l.maxPersistentSeqNo < l.nextSeqNo := by
    have := h.next
    omega
  have hp : (l.put o key value).1.pending (log ++ [⟨key, l.nextSeqNo, value⟩]) =
      l.pending log ++ [⟨key, l.nextSeqNo, value⟩] := by
    simp [pending, hmax, hlt]
  have hins : (l.roMemTables.map MemTable.impl ++ [(l.memTable.put ⟨key, l.nextSeqNo, value⟩).impl]).Pairwise
      fun a b => ∀ x ∈ a, ∀ y ∈ b, x.seqNo < y.seqNo := by
    obtain ⟨hro, -, hcross⟩ := List.pairwise_append.mp h.ascending
    refine List.pairwise_append.mpr ⟨hro, by simp, ?_⟩
    intro a ha b hb x hx y hy
    obtain rfl := List.mem_singleton.mp hb
    rcases List.mem_cons.mp ((List.perm_orderedInsert _ _ _).mem_iff.mp hy) with rfl | hy
    · obtain ⟨m, hm, rfl⟩ := List.mem_map.mp ha
      exact (h.bounds x (mem_memRecords.mpr (Or.inr ⟨m, hm, hx⟩))).2
    · exact hcross a ha _ (by simp) x hx y hy
  constructor
  case ascending =>
    simp only [Lsm.put, doPut]
    split_ifs
    · refine List.pairwise_append.mpr ⟨by simpa using hins, by simp, ?_⟩
      simp [MemTable.empty]
    · exact hins
  case frozen =>
    simp only [Lsm.put, doPut]
    split_ifs
    · intro m hm
      rcases List.mem_append.mp hm with hm | hm
      · exact h.frozen m hm
      · rw [List.mem_singleton.mp hm]
        exact List.ne_nil_of_mem ((List.perm_orderedInsert _ _ _).mem_iff.mpr List.mem_cons_self)
    · exact h.frozen
  case inMemory =>
    rw [hp]
    refine List.Perm.trans ?_ (List.perm_append_singleton (⟨key, l.nextSeqNo, value⟩ : Record V) _).symm
    refine List.Perm.trans ?_ (h.inMemory.cons _)
    rw [Lsm.put, doPut_memRecords]
    exact (List.perm_orderedInsert _ _ _).append_right _
  case consecutive =>
    rw [hp, hmax]
    exact Consecutive.from_append.mpr ⟨h.consecutive, h.next, trivial⟩
  case next =>
    rw [hp, hmax, List.length_append, List.length_singleton, ← add_assoc, ← h.next]
    exact doPut_nextSeqNo ..
  case tables =>
    rw [hmax, ssRecords, show (l.put o key value).1.ssTables = l.ssTables from doPut_ssTables ..]
    exact h.tables
  case files =>
    rw [hmax, show (l.put o key value).1.dir = l.dir from doPut_dir ..]
    exact h.files
  case newest =>
    rw [hmax, show (l.put o key value).1.dir = l.dir from doPut_dir ..]
    exact h.newest

section FlushFront

variable {m : MemTable V} {rest : List (MemTable V)} {n : ℕ}

/-- What the front mem table persists, where `n` is its greatest number. -/
structure Front (l : Lsm V) (log : List (Record V)) (m : MemTable V) (n : ℕ) : Prop where
  above : l.maxPersistentSeqNo < n
  next : n < l.nextSeqNo
  most : ∀ x ∈ m.impl, x.seqNo ≤ n
  newest : ∃ r ∈ m.impl, r.seqNo = n
  flushed : l.flushFront.maxPersistentSeqNo = n
  pending : l.flushFront.pending log = (l.pending log).filter fun x => n + 1 ≤ x.seqNo

theorem exists_front (h : l.Recoverable log) (hro : l.roMemTables = m :: rest) : ∃ n, Front l log m n := by
  obtain ⟨r, hr, hmax⟩ := SSTable.exists_maxSeqNo (t := l.flushTable m) (h.frozen m (by simp [hro]))
  obtain ⟨hlt, hnext⟩ := h.bounds r (mem_memRecords.mpr (Or.inr ⟨m, by simp [hro], hr⟩))
  have hflushed : l.flushFront.maxPersistentSeqNo = r.seqNo := by
    rw [flushFront_cons hro]
    change max l.maxPersistentSeqNo (l.flushTable m).getMaxSeqNo = r.seqNo
    rw [← hmax]
    omega
  have hle : ∀ x ∈ m.impl, x.seqNo ≤ r.seqNo := fun x hx => hmax ▸ SSTable.getMaxSeqNo_le.mp le_rfl x hx
  refine ⟨r.seqNo, hlt, hnext, hle, ⟨r, hr, rfl⟩, hflushed, ?_⟩
  rw [Lsm.pending, Lsm.pending, List.filter_filter, hflushed]
  refine List.filter_congr ?_
  intro x _
  rw [← Bool.decide_and, decide_eq_decide]
  omega

theorem Front.lt_seqNo (hf : Front l log m n) (h : l.Recoverable log) (hro : l.roMemTables = m :: rest) :
    ∀ x ∈ l.flushFront.memRecords, n < x.seqNo := by
  have hasc := h.ascending
  rw [hro, List.map_cons, List.cons_append, List.pairwise_cons] at hasc
  obtain ⟨r, hr, rfl⟩ := hf.newest
  intro x hx
  rw [flushFront_cons hro, mem_memRecords] at hx
  rcases hx with hx | ⟨m', hm', hx⟩
  · exact hasc.1 l.memTable.impl (by simp) r hr x hx
  · have hm' : m' ∈ rest := by simpa [publishFlush, writeTable, hro] using hm'
    exact hasc.1 m'.impl (List.mem_append_left _ (List.mem_map_of_mem hm')) r hr x hx

/-- The numbers above those of the front mem table stay in memory. -/
theorem Front.inMemory (hf : Front l log m n) (h : l.Recoverable log) (hro : l.roMemTables = m :: rest) :
    l.flushFront.memRecords.Perm (l.flushFront.pending log) := by
  have hsplit : l.memRecords = l.flushFront.memRecords ++ m.impl := by
    rw [flushFront_cons hro]
    simp [memRecords, publishFlush, writeTable, hro]
  have hkeep : l.memRecords.filter (fun x => n + 1 ≤ x.seqNo) = l.flushFront.memRecords := by
    rw [hsplit, List.filter_append, List.filter_eq_self.mpr, List.filter_eq_nil_iff.mpr, List.append_nil]
    · intro x hx
      have := hf.most x hx
      simp only [decide_eq_true_eq]
      omega
    · intro x hx
      simpa using hf.lt_seqNo h hro x hx
  rw [hf.pending, ← hkeep]
  exact h.inMemory.filter _

theorem Front.tables (hf : Front l log m n) (h : l.Recoverable log) (hro : l.roMemTables = m :: rest) :
    ∀ x ∈ l.flushFront.ssRecords, x.seqNo ≤ n := by
  intro x hx
  rw [flushFront_cons hro, mem_ssRecords] at hx
  obtain ⟨t, ht, hx⟩ := hx
  rcases List.mem_append.mp ht with ht | ht
  · exact (h.tables x (mem_ssRecords.mpr ⟨t, ht, hx⟩)).trans hf.above.le
  · rw [List.mem_singleton.mp ht] at hx
    exact hf.most x hx

/-- A turn of the flush loop persists the oldest of the pending records. -/
theorem flushFront (h : l.Recoverable log) : l.flushFront.Recoverable log := by
  rcases hro : l.roMemTables with _ | ⟨m, rest⟩
  · rw [flushFront_nil hro]
    exact h
  obtain ⟨n, hf⟩ := exists_front h hro
  have he := flushFront_cons hro
  have hnext := h.next
  have habove := hf.above
  have hbelow := hf.next
  obtain ⟨hcons, hlen⟩ := h.consecutive.filter (m := n + 1) (by omega) (by omega)
  constructor
  case ascending =>
    have hasc := h.ascending
    rw [hro, List.map_cons, List.cons_append, List.pairwise_cons] at hasc
    rw [he]
    simpa [publishFlush, writeTable, hro] using hasc.2
  case frozen =>
    rw [he]
    intro m' hm'
    have hm' : m' ∈ rest := by simpa [publishFlush, writeTable, hro] using hm'
    exact h.frozen m' (by simp [hro, hm'])
  case inMemory => exact hf.inMemory h hro
  case consecutive =>
    rw [hf.pending, hf.flushed]
    exact hcons
  case next =>
    rw [hf.pending, hf.flushed, flushFront_nextSeqNo]
    omega
  case tables =>
    rw [hf.flushed]
    exact hf.tables h hro
  case files =>
    rw [hf.flushed, he]
    intro f hfile x hx
    rcases Dir.mem_create.mp hfile with rfl | ⟨hfile, -⟩
    · exact hf.most x hx
    · exact (h.files f hfile x hx).trans habove.le
  case newest =>
    rw [hf.flushed, he]
    exact Or.inr ⟨_, Dir.mem_create.mpr (Or.inl rfl), hf.newest⟩

end FlushFront

theorem flush (h : l.Recoverable log) : l.flush.Recoverable log :=
  flush_of_flushFront (P := fun m => m.Recoverable log) (fun _ hm => hm.flushFront) h

theorem init_maxPersistentSeqNo (h : l.Recoverable log) :
    (init l.dir).maxPersistentSeqNo = l.maxPersistentSeqNo := by
  refine le_antisymm (init_maxPersistentSeqNo_le.mpr h.files) ?_
  rcases h.newest with hz | ⟨f, hf, r, hr, he⟩
  · rw [hz]
    exact Nat.zero_le _
  · rw [← he]
    exact init_maxPersistentSeqNo_le.mp le_rfl f hf r hr

/-- The tree that `Init` opens, before recovery. -/
theorem init_recoverable (dir : Dir Bytes (List (Record V))) : (init dir).Recoverable [] := by
  have hle := init_maxPersistentSeqNo_le.mp (le_refl (init dir).maxPersistentSeqNo)
  refine ⟨by simp [init], by simp [init], List.Perm.refl _, trivial, rfl, ?_, hle, ?_⟩
  · intro r hr
    obtain ⟨t, ht, hr⟩ := mem_ssRecords.mp hr
    obtain ⟨f, hf, rfl⟩ := List.mem_map.mp ht
    exact hle f (Dir.mem_listing.mp hf) r hr
  · rcases foldl_max_eq SSTable.getMaxSeqNo (init dir).ssTables 0 with he | ⟨t, ht, he⟩
    · exact Or.inl he
    · obtain ⟨f, hf, rfl⟩ := List.mem_map.mp ht
      rcases foldl_max_eq Record.seqNo f.2 0 with hz | ⟨r, hr, hmax⟩
      · exact Or.inl (he.symm.trans hz)
      · exact Or.inr ⟨f, Dir.mem_listing.mp hf, r, hr, hmax.trans he⟩

/-- Recovery takes the pending records one by one and refuses the others. -/
theorem replay (h : l.Recoverable log) (o : Options) {rest : List (Record V)}
    (hc : Consecutive.From Record.seqNo (l.maxPersistentSeqNo + 1) (l.pending (log ++ rest))) :
    (l.replay o rest).Recoverable (log ++ rest) ∧
      (l.replay o rest).maxPersistentSeqNo = l.maxPersistentSeqNo ∧
      ∀ r ∈ l.refused o rest, r.seqNo ≤ l.maxPersistentSeqNo := by
  induction rest generalizing l log with
  | nil =>
    rw [List.append_nil]
    exact ⟨h, rfl, by simp [refused]⟩
  | cons r rest ih =>
    rw [List.append_cons] at hc ⊢
    by_cases hr : l.maxPersistentSeqNo < r.seqNo
    · have hr' : l.pending [r] = [r] := by simp [pending, hr]
      have hnum : r.seqNo = l.nextSeqNo := by
        rw [pending_append, pending_append, hr', Consecutive.from_append, Consecutive.from_append] at hc
        rw [h.next]
        exact hc.1.2.1
      have hput : l.putSeq o r.seqNo r.key r.value = ((l.put o r.key r.value).1, true) := by
        rw [hnum, putSeq_next]
      have hmax : (l.put o r.key r.value).1.maxPersistentSeqNo = l.maxPersistentSeqNo := doPut_maxPersistentSeqNo ..
      have hl := h.put o r.key r.value
      rw [← hnum] at hl
      have ih := ih hl (by rw [hmax, pending, hmax]; exact hc)
      rw [hmax] at ih
      have hrun : l.replay o (r :: rest) = (l.put o r.key r.value).1.replay o rest := by
        rw [Lsm.replay, List.foldl_cons, hput]
        rfl
      rw [hrun, refused, hput]
      exact ih
    · have hr' : l.pending [r] = [] := by simp [pending, hr]
      have hne : r.seqNo ≠ l.nextSeqNo := by
        have := h.next
        omega
      have hput : l.putSeq o r.seqNo r.key r.value = (l, false) := by rw [putSeq, if_pos hne]
      have hl : l.Recoverable (log ++ [r]) := h.congr (by rw [pending_append, hr', List.append_nil])
      obtain ⟨h1, h2, h3⟩ := ih hl hc
      have hrun : l.replay o (r :: rest) = l.replay o rest := by
        rw [Lsm.replay, List.foldl_cons, hput]
        rfl
      rw [hrun, refused, hput]
      refine ⟨h1, h2, ?_⟩
      intro x hx
      rcases List.mem_cons.mp hx with rfl | hx
      · omega
      · exact h3 x hx

theorem restart (h : l.Recoverable log) (o : Options) :
    ((init l.dir).replay o log).Recoverable log ∧
      ((init l.dir).replay o log).maxPersistentSeqNo = l.maxPersistentSeqNo ∧
      ((init l.dir).replay o log).nextSeqNo = l.nextSeqNo ∧
      ∀ r ∈ (init l.dir).refused o log, r.seqNo ≤ l.maxPersistentSeqNo := by
  have hmax := h.init_maxPersistentSeqNo
  have hpend : (init l.dir).pending log = l.pending log := by rw [pending, pending, hmax]
  obtain ⟨h1, h2, h3⟩ :=
    @replay _ _ _ _ (init_recoverable l.dir) o log (by rw [List.nil_append, hpend, hmax]; exact h.consecutive)
  rw [List.nil_append] at h1
  rw [hmax] at h2 h3
  refine ⟨h1, h2, ?_, h3⟩
  rw [h1.next, pending, h2, h.next]
  rfl

end Recoverable

end

end Lsm

namespace TransactionalTable

/-- The newest record in the tables is one that compaction keeps, and the new file is not one of the old ones. -/
def KeepsNewest (s : TxStorage) (l : Lsm TransactionalValue) : Prop :=
  l.maxPersistentSeqNo = 0 ∨
    (∃ row ∈ l.ssRecords, row.seqNo = l.maxPersistentSeqNo ∧ kept s row = true) ∧
      sstName l.compactNo.toNat ∉ l.filesToDelete

instance (s : TxStorage) (l : Lsm TransactionalValue) : Decidable (KeepsNewest s l) :=
  inferInstanceAs (Decidable (_ ∨ _))

variable {s : TxStorage} {l : Lsm TransactionalValue} {log : List Row}

/-- A kept record with the greatest number is the one that stays for its key, or another with that number. -/
theorem exists_compactRows {rows : List Row} (hs : rows.Pairwise (· ≤ ·)) {row : Row} (hrow : row ∈ rows)
    (hk : kept s row = true) (hmax : ∀ r ∈ rows, r.seqNo ≤ row.seqNo) :
    ∃ r ∈ compactRows s none rows, r.seqNo = row.seqNo := by
  have hmem : row ∈ rows.filter fun r => r.key = row.key := List.mem_filter.mpr ⟨hrow, by simp⟩
  obtain ⟨first, hfirst⟩ : ∃ first, (rows.filter fun r => r.key = row.key).find? (kept s) = some first := by
    rw [← Option.isSome_iff_exists, List.find?_isSome]
    exact ⟨row, hmem, hk⟩
  have hout := compactRows_filter s hs row.key
  rw [hfirst] at hout
  have hin : freezeRow s first ∈ (compactRows s none rows).filter fun r => r.key = row.key := by
    rw [hout]
    simp
  refine ⟨freezeRow s first, (List.mem_filter.mp hin).1, ?_⟩
  have hfmem := List.mem_of_find?_eq_some hfirst
  have hfrows := (List.mem_filter.mp hfmem).1
  rw [freezeRow_seqNo]
  refine le_antisymm (hmax first hfrows) ?_
  obtain ⟨-, pre, post, hsplit, hpre⟩ := List.find?_eq_some_iff_append.mp hfirst
  have hsorted := hs.filter fun r => decide (r.key = row.key)
  rw [hsplit] at hmem hsorted
  rcases List.mem_append.mp hmem with hr | hr
  · have hnot := hpre row hr
    rw [hk] at hnot
    cases hnot
  · rcases List.mem_cons.mp hr with he | hr
    · rw [he]
    · have hle := (List.pairwise_cons.mp (List.pairwise_append.mp hsorted).2.1).1 row hr
      exact Record.seqNo_le_of_le hle (by simpa using (List.mem_filter.mp hfmem).2)

theorem compact_recoverable (h : l.Recoverable log) (hsorted : ∀ t ∈ l.ssTables, t.records.Pairwise (· ≤ ·))
    (hk : KeepsNewest s l) : (compact s l).Recoverable log := by
  have hout : ∀ row ∈ compactRows s none l.mergedRecords, row.seqNo ≤ l.maxPersistentSeqNo := by
    intro row hrow
    obtain ⟨old, hold, rfl⟩ := mem_compactRows hrow
    rw [freezeRow_seqNo]
    exact h.tables old (l.mergedRecords_perm.mem_iff.mp hold)
  refine ⟨h.ascending, h.frozen, h.inMemory, h.consecutive, h.next, ?_, ?_, ?_⟩
  · intro row hrow
    obtain ⟨t, ht, hrow⟩ := Lsm.mem_ssRecords.mp hrow
    rw [List.mem_singleton.mp ht] at hrow
    exact hout row hrow
  · intro f hf row hrow
    rcases Dir.mem_create.mp (Dir.mem_unlinkAll.mp hf).1 with rfl | ⟨hf, -⟩
    · exact hout row hrow
    · exact h.files f hf row hrow
  · rcases hk with hz | ⟨⟨row, hrow, hseq, hkept⟩, hname⟩
    · exact Or.inl hz
    · obtain ⟨r, hr, he⟩ := exists_compactRows (Lsm.mergedRecords_sorted hsorted)
        (l.mergedRecords_perm.mem_iff.mpr hrow) hkept
        (fun r hr => hseq ▸ h.tables r (l.mergedRecords_perm.mem_iff.mp hr))
      refine Or.inr ⟨(sstName l.compactNo.toNat, compactRows s none l.mergedRecords), ?_, r, hr, he.trans hseq⟩
      exact Dir.mem_unlinkAll.mpr ⟨Dir.mem_create.mpr (Or.inl rfl), hname⟩

end TransactionalTable

end StructureDb
