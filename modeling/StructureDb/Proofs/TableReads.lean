import StructureDb.Proofs.TableScan
import StructureDb.Spec.TreeFiles

/-! What `Lsm::Init` makes of a table file after some of the writes of its builder. Before the
first one the file is empty and does not open; before the last one its header names no pages,
and the table has no records; behind it the table has all of them. -/

namespace StructureDb.Disk

variable {crc : Bytes → BitVec 32} {pageSize capacity : ℕ} {records : List (Record Bytes)}
  {chunks : List (List (Record Bytes))} {file : Bytes}

def Reads (crc : Bytes → BitVec 32) (capacity : ℕ) (file : Bytes) (records : List (Record Bytes)) : Prop :=
  ∃ t, SSTable.create file capacity = some t ∧ t.getMaxSeqNo = maxSeqNo records ∧ t.readAll crc = records

theorem Reads.recordsOf (h : Reads crc capacity file records) : recordsOf crc capacity file = records := by
  obtain ⟨t, ht, -, rfl⟩ := h
  rw [Disk.recordsOf, ht]
  rfl

theorem create_nil (capacity : ℕ) : SSTable.create [] capacity = none := rfl

theorem length_flatten_le (h : ∀ c ∈ chunks, Fits pageSize c) : chunks.flatten.length ≤ chunks.length * pageSize := by
  induction chunks with
  | nil => simp
  | cons c chunks ih =>
    have hc : PageHeader.sdbSize + (rawRecords c).length ≤ pageSize := h c List.mem_cons_self
    have hle := length_le_rawRecords c
    have hrest := ih fun c' hc' => h c' (List.mem_cons_of_mem _ hc')
    rw [List.flatten_cons, List.length_append, List.length_cons, Nat.add_mul, Nat.one_mul]
    omega

theorem Table.reads (h : Table pageSize records chunks) (crc : Bytes → BitVec 32) (capacity : ℕ) :
    Reads crc capacity (contents (tableWrites crc pageSize chunks)) records := by
  obtain ⟨t, hcreate, ht⟩ := h.create crc capacity
  refine ⟨t, hcreate, ?_, ?_⟩
  · rw [SSTable.getMaxSeqNo, ht.header, lastHeader, h.flatten]
  · obtain ⟨it, t', hscan, -⟩ := h.scan ht .fullScan t.file.length
    have hall : records.filter (fun r => ScanRange.fullScan.contains r.key) = records :=
      List.filter_eq_self.mpr fun _ _ => rfl
    have hlen : records.length ≤ t.file.length := by
      rw [ht.file, List.length_append, length_pages h.fits, ← h.flatten]
      exact (length_flatten_le h.fits).trans (Nat.le_add_left _ _)
    rw [SSTable.readAll, hscan, hall, List.take_of_length_le hlen]
    rfl

theorem reads_openWrites (crc : Bytes → BitVec 32) (capacity : ℕ) (hsmall : pageSize < 2 ^ 31)
    (h : ∀ c ∈ chunks, Fits pageSize c) : Reads crc capacity (contents (openWrites crc pageSize chunks)) [] := by
  have hheader : SSTableHeader.read (firstHeader pageSize).write = some (firstHeader pageSize) := by
    refine SSTableHeader.read_write ?_ (Nat.two_pow_pos 64) (Nat.two_pow_pos 64)
    change pageSize < 2 ^ 64
    omega
  rw [contents_openWrites h]
  refine ⟨_, create_of_header hheader _ capacity, rfl, ?_⟩
  -- the header names no page, so there is nothing to read
  rw [SSTable.readAll]
  generalize ((firstHeader pageSize).write ++ chunks.flatMap (pageBytes crc pageSize)) = file
  cases file with
  | nil => rfl
  | cons b file => rfl

theorem prefix_openWrites {writes : List (ℕ × Bytes)} (hne : writes ≠ [])
    (h : writes <+: openWrites crc pageSize chunks) : ∃ pre, pre <+: chunks ∧ writes = openWrites crc pageSize pre := by
  induction chunks using List.reverseRecOn with
  | nil =>
    refine ⟨[], List.prefix_rfl, ?_⟩
    have hlen := h.length_le
    exact h.eq_of_length_le (List.length_pos_of_ne_nil hne)
  | append_singleton chunks c ih =>
    rw [openWrites_append] at h
    rcases List.prefix_concat_iff.mp h with heq | h
    · exact ⟨chunks ++ [c], List.prefix_rfl, by rw [heq, openWrites_append]⟩
    · obtain ⟨pre, hpre, heq⟩ := ih h
      exact ⟨pre, hpre.trans (List.prefix_append _ _), heq⟩

/-- Behind the first write a table reads as empty, up to the last one. -/
theorem Table.reads_prefix (h : Table pageSize records chunks) (crc : Bytes → BitVec 32) (capacity : ℕ)
    {done todo : List (ℕ × Bytes)} (hwrites : tableWrites crc pageSize chunks = done ++ todo) (hdone : done ≠ []) :
    Reads crc capacity (contents done) (if todo = [] then records else []) := by
  split_ifs with htodo
  · rw [htodo, List.append_nil] at hwrites
    rw [← hwrites]
    exact h.reads crc capacity
  · have hprefix : done <+: openWrites crc pageSize chunks := by
      have hall : done <+: tableWrites crc pageSize chunks := by
        rw [hwrites]
        exact List.prefix_append _ _
      rcases List.prefix_concat_iff.mp hall with heq | hp
      · rw [tableWrites, ← heq] at hwrites
        exact absurd (List.self_eq_append_right.mp hwrites) htodo
      · exact hp
    obtain ⟨pre, hpre, rfl⟩ := prefix_openWrites hdone hprefix
    exact reads_openWrites crc capacity h.small fun c hc => h.fits c (hpre.subset hc)

section Init

variable {files : Dir Bytes Bytes}

def opened (capacity : ℕ) (file : Bytes) : SSTable :=
  (SSTable.create file capacity).getD ⟨[], firstHeader 0, LruCache.empty 0⟩

theorem openTables_eq {l : List (Bytes × Bytes)} (h : ∀ f ∈ l, ∃ t, SSTable.create f.2 capacity = some t) :
    openTables capacity l = some (l.map fun f => (f.1, opened capacity f.2)) := by
  induction l with
  | nil => rfl
  | cons f l ih =>
    obtain ⟨t, ht⟩ := h f List.mem_cons_self
    rw [openTables, ht, Option.bind_some, ih fun g hg => h g (List.mem_cons_of_mem _ hg), Option.map_some,
      List.map_cons, opened, ht]
    rfl

/-- An `Init` that succeeds has opened every file. -/
theorem create_of_openTables {l : List (Bytes × Bytes)} {tables : List (Bytes × SSTable)}
    (h : openTables capacity l = some tables) : ∀ f ∈ l, SSTable.create f.2 capacity ≠ none := by
  induction l generalizing tables with
  | nil => exact fun f hf => absurd hf List.not_mem_nil
  | cons g l ih =>
    rw [openTables] at h
    obtain ⟨t, ht, h⟩ := Option.bind_eq_some_iff.mp h
    obtain ⟨rest, hrest, -⟩ := Option.map_eq_some_iff.mp h
    intro f hf
    rcases List.mem_cons.mp hf with rfl | hf
    · rw [ht]
      exact Option.some_ne_none t
    · exact ih hrest f hf

/-- When every file opens, `Init` succeeds, and finds the records of the files. -/
theorem init_eq (h : ∀ f ∈ files.files, ∃ records, Reads crc capacity f.2 records) :
    init crc capacity files = some (Lsm.init (files.map (recordsOf crc capacity))) := by
  have hopen : ∀ f ∈ files.listing, ∃ t, SSTable.create f.2 capacity = some t := by
    intro f hf
    obtain ⟨records, t, ht, -⟩ := h f (Dir.mem_listing.mp hf)
    exact ⟨t, ht⟩
  have hread : ∀ f ∈ files.listing, (opened capacity f.2).readAll crc = recordsOf crc capacity f.2 ∧
      (opened capacity f.2).getMaxSeqNo = maxSeqNo ((opened capacity f.2).readAll crc) := by
    intro f hf
    obtain ⟨records, t, ht, hmax, hall⟩ := h f (Dir.mem_listing.mp hf)
    rw [opened, recordsOf, ht]
    exact ⟨rfl, by rw [Option.getD_some, hmax, hall]⟩
  have htables : (files.listing.map fun f => (f.1, opened capacity f.2)).map
      (fun t => (⟨t.1, t.2.readAll crc⟩ : StructureDb.SSTable Bytes)) =
      (files.map (recordsOf crc capacity)).listing.map fun f => ⟨f.1, f.2⟩ := by
    rw [Dir.listing_map, List.map_map, List.map_map]
    refine List.map_congr_left fun f hf => ?_
    simp only [Function.comp_apply, (hread f hf).1]
  have hmax : (files.listing.map fun f => (f.1, opened capacity f.2)).foldl (fun m t => max m t.2.getMaxSeqNo) 0 =
      ((files.listing.map fun f => (f.1, opened capacity f.2)).map
        (fun t => (⟨t.1, t.2.readAll crc⟩ : StructureDb.SSTable Bytes))).foldl (fun m t => max m t.getMaxSeqNo) 0 := by
    rw [List.foldl_map, List.foldl_map, List.foldl_map]
    refine List.foldl_ext _ _ _ fun m f hf => ?_
    rw [(hread f hf).2]
    rfl
  rw [init, openTables_eq hopen, Option.map_some, hmax, htables]
  rfl

end Init

end StructureDb.Disk
