import StructureDb.Proofs.LsmSteps
import StructureDb.Proofs.TableScan

/-! Table files of what `Lsm::Put` accepts. Nothing checks the size of a record on the way: one
that does not fit behind the header of an empty page violates the assertion of `FlushPage`,
or makes a page that is longer than the others. Records that fit are flushed and scanned
back. -/

namespace StructureDb

namespace Disk

variable {pageSize : ℕ}

def putAll (o : Options) (pairs : List (Bytes × Bytes)) : Lsm Bytes :=
  pairs.foldl (fun l p => (l.put o p.1 p.2).1) (Lsm.init Dir.empty)

def memTables (l : Lsm Bytes) : List (MemTable Bytes) := l.memTable :: l.roMemTables

def numbered (pairs : List (Bytes × Bytes)) : List (Record Bytes) := (pairs.zipIdx 1).map fun p => ⟨p.1.1, p.2, p.1.2⟩

theorem numbered_append (pairs : List (Bytes × Bytes)) (p : Bytes × Bytes) :
    numbered (pairs ++ [p]) = numbered pairs ++ [⟨p.1, pairs.length + 1, p.2⟩] := by
  simp [numbered, List.zipIdx_append, Nat.add_comm]

theorem mem_numbered {pairs : List (Bytes × Bytes)} {r : Record Bytes} (hr : r ∈ numbered pairs) :
    (r.key, r.value) ∈ pairs ∧ r.seqNo ≤ pairs.length := by
  obtain ⟨⟨p, i⟩, hp, rfl⟩ := List.mem_map.mp hr
  obtain ⟨hge, hlt, hget⟩ := List.mem_zipIdx hp
  refine ⟨?_, ?_⟩
  · dsimp only
    rw [hget]
    exact List.getElem_mem _
  · dsimp only
    omega

theorem putAll_inv (o : Options) (pairs : List (Bytes × Bytes)) :
    (putAll o pairs).nextSeqNo = pairs.length + 1 ∧ (putAll o pairs).ssTables = [] ∧
      (putAll o pairs).records.Perm (numbered pairs) := by
  induction pairs using List.reverseRecOn with
  | nil => exact ⟨rfl, rfl, List.Perm.refl _⟩
  | append_singleton pairs p ih =>
    obtain ⟨hnext, hss, hrecords⟩ := ih
    have hput : putAll o (pairs ++ [p]) = ((putAll o pairs).put o p.1 p.2).1 := by
      rw [putAll, List.foldl_append]
      rfl
    rw [hput, Lsm.put, numbered_append, hnext]
    refine ⟨?_, ?_, ?_⟩
    · rw [Lsm.doPut_nextSeqNo]
      simp
    · rw [Lsm.doPut_ssTables]
      exact hss
    · refine (Lsm.doPut_records_perm ..).trans ?_
      exact (hrecords.cons _).trans (List.perm_append_singleton _ _).symm

/-- The records of the mem tables are those of the puts. -/
theorem mem_memTables (o : Options) (pairs : List (Bytes × Bytes)) (r : Record Bytes) :
    (∃ m ∈ memTables (putAll o pairs), r ∈ m.impl) ↔ r ∈ numbered pairs := by
  obtain ⟨-, hss, hrecords⟩ := putAll_inv o pairs
  rw [← hrecords.mem_iff, Lsm.records, List.mem_flatten, Lsm.levels, hss]
  simp [memTables]

theorem memTable_length_le (o : Options) (pairs : List (Bytes × Bytes)) {m : MemTable Bytes}
    (hm : m ∈ memTables (putAll o pairs)) : m.impl.length ≤ pairs.length := by
  obtain ⟨-, hss, hrecords⟩ := putAll_inv o pairs
  have hlevel : m.impl ∈ (putAll o pairs).levels := by
    rw [Lsm.levels, hss]
    rcases List.mem_cons.mp hm with rfl | hm
    · exact List.mem_cons_self
    · refine List.mem_cons_of_mem _ (List.mem_append_left _ ?_)
      exact List.mem_map_of_mem (List.mem_reverse.mpr hm)
  have hlen := hrecords.length_eq
  rw [numbered, List.length_map, List.length_zipIdx] at hlen
  rw [← hlen, Lsm.records, List.length_flatten]
  exact List.single_le_sum (fun _ _ => Nat.zero_le _) _ (List.mem_map_of_mem hlevel)

/-- The writes of a table are its header, pages of equal size, and its header. -/
theorem tableWrites_sizes (crc : Bytes → BitVec 32) {chunks : List (List (Record Bytes))}
    (h : ∀ c ∈ chunks, Fits pageSize c) :
    ∃ header pages header', tableWrites crc pageSize chunks = (0, header) :: pages ++ [(0, header')] ∧
      header.length = SSTableHeader.sdbSize ∧ header'.length = SSTableHeader.sdbSize ∧
      ∀ page ∈ pages, page.2.length = pageSize := by
  refine ⟨_, _, _, rfl, SSTableHeader.length_write _, SSTableHeader.length_write _, ?_⟩
  intro page hpage
  obtain ⟨c, hc, rfl⟩ := List.mem_map.mp hpage
  exact length_pageBytes (h c.1 (List.fst_mem_of_mem_zipIdx hc))

/-! ### Long records -/

namespace SSTableBuilder

variable {crc : Bytes → BitVec 32} {n : ℕ} {b b' : SSTableBuilder} {r : Record Bytes} {records : List (Record Bytes)}

/-- So many bytes are on the page in hand, or were written at once. -/
def Reaches (n : ℕ) (b : SSTableBuilder) : Prop :=
  (b.pageBuilder.isEmpty = false ∧ n ≤ b.pageBuilder.currentPage.length) ∨ ∃ w ∈ b.fileWriter.writes,
    n ≤ w.2.length

theorem Reaches.addRecord (h : b.Reaches n) (r : Record Bytes) : (b.addRecord r).Reaches n := by
  rcases h with ⟨-, h⟩ | h
  · refine Or.inl ⟨decide_eq_false (Nat.succ_ne_zero _), h.trans ?_⟩
    exact (List.prefix_append _ _).length_le
  · exact Or.inr h

theorem reaches_addRecord (h : PageHeader.sdbSize ≤ b.pageBuilder.currentPage.length) (r : Record Bytes) :
    (b.addRecord r).Reaches (PageHeader.sdbSize + r.write.length) := by
  refine Or.inl ⟨decide_eq_false (Nat.succ_ne_zero _), ?_⟩
  change _ ≤ (b.pageBuilder.currentPage ++ r.write).length
  rw [List.length_append]
  exact Nat.add_le_add_right h _

theorem length_extract_ge (crc : Bytes → BitVec 32) (p : PageBuilder) :
    p.currentPage.length ≤ (p.extract crc).length := by
  rw [PageBuilder.extract, List.length_append, PageHeader.length_write, List.length_drop, List.length_append]
  omega

/-- The page in hand is written as long as it is. -/
theorem Reaches.flushPage (h : b.Reaches n) (hs : b.flushPage crc = some b') :
    ∃ w ∈ b'.fileWriter.writes, n ≤ w.2.length := by
  unfold SSTableBuilder.flushPage at hs
  split_ifs at hs
  cases hs
  rcases h with ⟨-, h⟩ | ⟨w, hw, h⟩
  · exact ⟨_, List.mem_append_right _ (List.mem_singleton_self _), h.trans (length_extract_ge crc _)⟩
  · exact ⟨w, List.mem_append_left _ hw, h⟩

theorem add_cases (hs : b.add crc r = some b') : ∃ c, (c = b ∨ b.flushPage crc = some c) ∧ b' = c.addRecord r := by
  unfold add at hs
  split_ifs at hs
  · exact ⟨b, Or.inl rfl, (Option.some.inj hs).symm⟩
  · obtain ⟨c, hc, rfl⟩ := Option.map_eq_some_iff.mp hs
    exact ⟨c, Or.inr hc, rfl⟩

theorem sdbSize_le_flushPage (hs : b.flushPage crc = some b') :
    PageHeader.sdbSize ≤ b'.pageBuilder.currentPage.length := by
  unfold flushPage at hs
  split_ifs at hs
  cases hs
  exact List.length_replicate.ge

theorem Reaches.addAll (h : b.Reaches n) (hs : b.addAll crc records = some b') : b'.Reaches n := by
  induction records generalizing b with
  | nil => exact Option.some.inj hs ▸ h
  | cons r records ih =>
    obtain ⟨b₁, hadd, hs⟩ := Option.bind_eq_some_iff.mp hs
    obtain ⟨c, rfl | hc, rfl⟩ := add_cases hadd
    · exact ih (h.addRecord r) hs
    · exact ih (Reaches.addRecord (Or.inr (h.flushPage hc)) r) hs

/-- Whatever else is added, every record has come onto one page. -/
theorem reaches_addAll (h : PageHeader.sdbSize ≤ b.pageBuilder.currentPage.length) (hr : r ∈ records)
    (hs : b.addAll crc records = some b') : b'.Reaches (PageHeader.sdbSize + r.write.length) := by
  induction records generalizing b with
  | nil => cases hr
  | cons r' records ih =>
    obtain ⟨b₁, hadd, hs⟩ := Option.bind_eq_some_iff.mp hs
    obtain ⟨c, hc, rfl⟩ := add_cases hadd
    have hroom : PageHeader.sdbSize ≤ c.pageBuilder.currentPage.length := by
      rcases hc with rfl | hc
      · exact h
      · exact sdbSize_le_flushPage hc
    rcases List.mem_cons.mp hr with rfl | hr
    · exact (reaches_addRecord hroom r).addAll hs
    · exact ih (hroom.trans (List.prefix_append _ _).length_le) hr hs

theorem Reaches.finish (h : b.Reaches n) (hs : b.finish crc = some b') :
    ∃ w ∈ b'.fileWriter.writes, n ≤ w.2.length := by
  obtain ⟨c, hc, rfl⟩ := Option.map_eq_some_iff.mp hs
  suffices hw : ∃ w ∈ c.fileWriter.writes, n ≤ w.2.length by
    obtain ⟨w, hw, hn⟩ := hw
    exact ⟨w, List.mem_append_left _ hw, hn⟩
  split_ifs at hc with hempty
  · cases hc
    rcases h with ⟨hne, -⟩ | h
    · rw [hempty] at hne
      cases hne
    · exact h
  · exact h.flushPage hc

end SSTableBuilder

/-- If no assertion is violated, some write takes in the whole record with the header of a page. -/
theorem exists_write_of_mem {crc : Bytes → BitVec 32} {records : List (Record Bytes)} {writes : List (ℕ × Bytes)}
    (hbuild : buildWrites crc pageSize records = some writes) {r : Record Bytes} (hr : r ∈ records) :
    ∃ w ∈ writes, 16 + 24 + r.key.length + r.value.length ≤ w.2.length := by
  obtain ⟨b, hadd, hwrites⟩ := Option.bind_eq_some_iff.mp hbuild
  obtain ⟨b', hfinish, rfl⟩ := Option.map_eq_some_iff.mp hwrites
  have hstart : PageHeader.sdbSize ≤ (SSTableBuilder.create pageSize).pageBuilder.currentPage.length :=
    List.length_replicate.ge
  obtain ⟨w, hw, hlen⟩ := (SSTableBuilder.reaches_addAll hstart hr hadd).finish hfinish
  rw [Record.length_write, PageHeader.sdbSize] at hlen
  exact ⟨w, hw, by omega⟩

/-- Each mem table is flushed without a violated assertion, into pages of exactly the page size and a table from which
its records are scanned back, if and only if every pair that is put fits in a page; and the record of every put is in
one. -/
theorem flush_accepted_records (crc : Bytes → BitVec 32) (o : Options) (pageSize capacity : ℕ)
    (pairs : List (Bytes × Bytes)) (hsmall : pageSize < 2 ^ 31) (hcount : pairs.length < 2 ^ 63) :
    ((∀ m ∈ memTables (putAll o pairs), ∃ header pages header' t it t',
      buildWrites crc pageSize m.impl = some ((0, header) :: pages ++ [(0, header')]) ∧
        header.length = SSTableHeader.sdbSize ∧ header'.length = SSTableHeader.sdbSize ∧
        (∀ page ∈ pages, page.2.length = pageSize) ∧
        SSTable.create (contents ((0, header) :: pages ++ [(0, header')])) capacity = some t ∧
        t.scan crc .fullScan m.impl.length = some (m.impl, it, t') ∧ it.hasMore = false) ↔
      ∀ p ∈ pairs, 16 + 24 + p.1.length + p.2.length ≤ pageSize) ∧
    ∀ i key value, pairs[i]? = some (key, value) → ∃ m ∈ memTables (putAll o pairs),
      ⟨key, i + 1, value⟩ ∈ m.impl := by
  have hput (i key value) (hget : pairs[i]? = some (key, value)) :
      ∃ m ∈ memTables (putAll o pairs), ⟨key, i + 1, value⟩ ∈ m.impl := by
    refine (mem_memTables o pairs _).mpr (List.mem_map.mpr ⟨((key, value), i + 1), ?_, rfl⟩)
    rw [List.mk_mem_zipIdx_iff_le_and_getElem?_sub]
    exact ⟨Nat.le_add_left 1 i, hget⟩
  refine ⟨⟨?_, ?_⟩, hput⟩
  · -- a write that takes in the whole record is no header, so it is a page
    rintro hall ⟨key, value⟩ hp
    obtain ⟨i, hget⟩ := List.mem_iff_getElem?.mp hp
    obtain ⟨m, hm, hr⟩ := hput i key value hget
    obtain ⟨header, pages, header', -, -, -, hbuild, hsize, hsize', hpages, -⟩ := hall m hm
    obtain ⟨w, hw, hlen⟩ := exists_write_of_mem hbuild hr
    rw [SSTableHeader.sdbSize] at hsize hsize'
    rcases List.mem_append.mp hw with hw | hw
    · rcases List.mem_cons.mp hw with rfl | hw
      · dsimp only at hlen
        omega
      · exact (hpages w hw) ▸ hlen
    · rw [List.mem_singleton.mp hw] at hlen
      dsimp only at hlen
      omega
  · intro hfits m hm
    have hmem : ∀ r ∈ m.impl, (r.key, r.value) ∈ pairs ∧ r.seqNo ≤ pairs.length :=
      fun r hr => mem_numbered ((mem_memTables o pairs r).mp ⟨m, hm, hr⟩)
    obtain ⟨chunks, htable, hbuild⟩ := Table.build crc hsmall (fun r hr => hfits _ (hmem r hr).1)
      (fun r hr => (hmem r hr).2.trans_lt hcount) m.sorted ((memTable_length_le o pairs hm).trans_lt hcount)
    obtain ⟨header, pages, header', hwrites, hsize, hsize', hpages⟩ := tableWrites_sizes crc htable.fits
    obtain ⟨t, hcreate, ht⟩ := htable.create crc capacity
    obtain ⟨it, t', hscan, -, hmore⟩ := htable.scan ht .fullScan m.impl.length
    have hall : (m.impl.filter fun r => ScanRange.fullScan.contains r.key) = m.impl :=
      List.filter_eq_self.mpr fun _ _ => rfl
    rw [hall] at hscan hmore
    rw [List.take_length] at hscan
    rw [hwrites] at hbuild hcreate
    refine ⟨header, pages, header', t, it, t', hbuild, hsize, hsize', hpages, hcreate, hscan, ?_⟩
    rw [← Bool.not_eq_true, hmore]
    exact lt_irrefl _

/-- Two puts that fit in pages of 64 bytes, of which the second one freezes the mem table. -/
theorem flush_accepted_records_frozen :
    ∃ m ∈ memTables (putAll ⟨1⟩ [([2], [7]), ([1], [])]), m.impl = [⟨[1], 2, []⟩, ⟨[2], 1, [7]⟩] ∧
      ∃ writes t it t', buildWrites (fun _ => 0) 64 m.impl = some writes ∧
        SSTable.create (contents writes) 3 = some t ∧
        t.scan (fun _ => 0) .fullScan 2 = some ([⟨[1], 2, []⟩, ⟨[2], 1, [7]⟩], it, t') := by
  obtain ⟨htables, -⟩ := flush_accepted_records (fun _ => 0) ⟨1⟩ 64 3 [([2], [7]), ([1], [])] (by decide) (by decide)
  have htables := htables.mpr (by decide)
  obtain ⟨m, hm, himpl⟩ : ∃ m ∈ memTables (putAll ⟨1⟩ [([2], [7]), ([1], [])]), m.impl = [⟨[1], 2, []⟩,
    ⟨[2], 1, [7]⟩] :=
    ⟨_, List.mem_cons_of_mem _ List.mem_cons_self, by decide⟩
  obtain ⟨header, pages, header', t, it, t', hbuild, -, -, -, hcreate, hscan, -⟩ := htables m hm
  refine ⟨m, hm, himpl, _, t, it, t', hbuild, hcreate, ?_⟩
  rw [himpl] at hscan
  exact hscan

/-- In pages of 41 bytes a record of 26 bytes has no room. If it is the first one, the assertion of `FlushPage` is
violated; behind another one, a page of 42 bytes is written, and the table cannot be scanned. -/
theorem long_record_breaks_table :
    buildWrites (fun _ => 0) 41 (putAll ⟨10⟩ [([2], [7])]).memTable.impl = none ∧
      ∃ writes ∈ buildWrites (fun _ => 0) 41 (putAll ⟨10⟩ [([1], []), ([2], [7])]).memTable.impl,
        (∃ w ∈ writes, w.2.length = 42) ∧
          ∃ t ∈ SSTable.create (contents writes) 3, (t.scan (fun _ => 0) .fullScan 2).isNone = true := by
  decide +kernel

end Disk

end StructureDb
