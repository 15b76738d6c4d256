import StructureDb.Lib.Chunks
import StructureDb.Proofs.LogRoundTrip
import StructureDb.Spec.TableFile

/-! The file that `SSTableBuilder` makes of records that fit in a page: a header and pages of
equal size, each with some of the records in order. A page that is loaded gives back its
records. -/

namespace StructureDb

open BufferWriter BufferReader

@[simp] theorem Record.length_write (r : Record Bytes) : r.write.length = 24 + r.key.length + r.value.length := by
  simp only [Record.write, List.length_append, length_writeString, length_writeInt]
  omega

theorem Record.read_write {r : Record Bytes} (hkey : r.key.length < 2 ^ 64) (hvalue : r.value.length < 2 ^ 64)
    (hseq : r.seqNo < 2 ^ 64) (rest : Bytes) : Record.read (r.write ++ rest) = some (r, rest) := by
  rw [Record.read, Record.write, List.append_assoc, List.append_assoc, readString_writeString hkey]
  dsimp only
  rw [readInt_writeInt]
  dsimp only
  rw [readString_writeString hvalue, toNat_ofNat_of_lt hseq]

namespace Disk

variable {crc : Bytes → BitVec 32} {pageSize : ℕ} {records : List (Record Bytes)}

/-! ### Pages -/

def rawRecords (records : List (Record Bytes)) : Bytes := records.flatMap Record.write

theorem rawRecords_append (rs ss : List (Record Bytes)) : rawRecords (rs ++ ss) = rawRecords rs ++ rawRecords ss :=
  List.flatMap_append

theorem rawRecords_singleton (r : Record Bytes) : rawRecords [r] = r.write := List.flatMap_singleton ..

def Fits (pageSize : ℕ) (records : List (Record Bytes)) : Prop :=
  PageHeader.sdbSize + (rawRecords records).length ≤ pageSize

theorem length_write_le {r : Record Bytes} (hr : r ∈ records) : r.write.length ≤ (rawRecords records).length := by
  obtain ⟨pre, post, rfl⟩ := List.append_of_mem hr
  simp only [rawRecords, List.flatMap_append, List.flatMap_cons, List.length_append]
  omega

theorem length_le_rawRecords (records : List (Record Bytes)) : records.length ≤ (rawRecords records).length := by
  induction records with
  | nil => exact Nat.zero_le _
  | cons r records ih =>
    rw [rawRecords, List.flatMap_cons, List.length_append, Record.length_write, List.length_cons]
    unfold rawRecords at ih
    omega

def pageBytes (crc : Bytes → BitVec 32) (pageSize : ℕ) (records : List (Record Bytes)) : Bytes :=
  PageBuilder.extract crc ⟨pageSize, List.replicate PageHeader.sdbSize 0 ++ rawRecords records, records.length⟩

/-- Behind the header of a page stand its records and zeros. -/
theorem pageBytes_eq (crc : Bytes → BitVec 32) (pageSize : ℕ) (records : List (Record Bytes)) :
    ∃ tail checksum,
      pageBytes crc pageSize records = PageHeader.write ⟨BitVec.ofNat 64 records.length, checksum⟩ ++ tail ∧
      tail = rawRecords records ++
        List.replicate (pageSize - (PageHeader.sdbSize + (rawRecords records).length)) 0 ∧
      checksum = (crc tail).signExtend 64 := by
  have hdrop : (List.replicate PageHeader.sdbSize (0 : Byte) ++ rawRecords records ++
        List.replicate (pageSize - (List.replicate PageHeader.sdbSize (0 : Byte) ++ rawRecords records).length)
          0).drop PageHeader.sdbSize =
      rawRecords records ++
        List.replicate (pageSize - (PageHeader.sdbSize + (rawRecords records).length)) (0 : Byte) := by
    rw [List.append_assoc, List.drop_left' List.length_replicate, List.length_append, List.length_replicate]
  refine ⟨_, _, ?_, rfl, rfl⟩
  rw [pageBytes, PageBuilder.extract, getPageChecksum, hdrop]

@[simp] theorem PageHeader.length_write (h : PageHeader) : h.write.length = PageHeader.sdbSize := by
  rw [PageHeader.write, List.length_append, length_writeInt, length_writeInt, sdbSize]

theorem PageHeader.read_write (h : PageHeader) (rest : Bytes) : PageHeader.read (h.write ++ rest) = some (h, rest) := by
  rw [PageHeader.read, PageHeader.write, List.append_assoc, readInt_writeInt]
  dsimp only
  rw [readInt_writeInt]

theorem length_pageBytes (h : Fits pageSize records) : (pageBytes crc pageSize records).length = pageSize := by
  obtain ⟨tail, checksum, hbytes, htail, -⟩ := pageBytes_eq crc pageSize records
  unfold Fits at h
  rw [hbytes, htail, List.length_append, PageHeader.length_write, List.length_append, List.length_replicate]
  omega

theorem readRecords_rawRecords (hsize : ∀ r ∈ records, r.write.length < 2 ^ 64)
    (hseq : ∀ r ∈ records, r.seqNo < 2 ^ 64) (rest : Bytes) :
    Page.readRecords records.length (rawRecords records ++ rest) = some records := by
  induction records with
  | nil => rfl
  | cons r records ih =>
    have hsplit : rawRecords (r :: records) ++ rest = r.write ++ (rawRecords records ++ rest) := by
      rw [rawRecords, List.flatMap_cons, List.append_assoc]
      rfl
    have hlen := hsize r List.mem_cons_self
    rw [Record.length_write] at hlen
    rw [hsplit, List.length_cons, Page.readRecords,
      Record.read_write (by omega) (by omega) (hseq r List.mem_cons_self)]
    dsimp only
    rw [ih (fun s hs => hsize s (List.mem_cons_of_mem _ hs)) (fun s hs => hseq s (List.mem_cons_of_mem _ hs))]
    rfl

theorem load_pageBytes (hfits : Fits pageSize records) (hsmall : pageSize < 2 ^ 31)
    (hseq : ∀ r ∈ records, r.seqNo < 2 ^ 64) : Page.load crc (pageBytes crc pageSize records) = some ⟨records⟩ := by
  unfold Fits at hfits
  obtain ⟨tail, checksum, hbytes, htail, hchecksum⟩ := pageBytes_eq crc pageSize records
  have hsum : getPageChecksum crc (pageBytes crc pageSize records) = checksum := by
    rw [getPageChecksum, hbytes, List.drop_left' (PageHeader.length_write _), hchecksum]
  have hle := length_le_rawRecords records
  have hcount : (BitVec.ofNat 64 records.length).toNat = records.length := toNat_ofNat_of_lt (by omega)
  have hfew : ¬Page.kMaxStrings < records.length := by
    rw [Page.kMaxStrings]
    omega
  have hsize : ∀ r ∈ records, r.write.length < 2 ^ 64 := by
    intro r hr
    have hle := length_write_le hr
    omega
  rw [Page.load, Page.tryLoad, hsum, hbytes, PageHeader.read_write]
  dsimp only
  rw [if_neg (not_not.mpr rfl), hcount, if_neg hfew, htail, readRecords_rawRecords hsize hseq]
  rfl

/-! ### The writes -/

@[simp] theorem SSTableHeader.length_write (h : SSTableHeader) : h.write.length = SSTableHeader.sdbSize := by
  rw [SSTableHeader.write, List.length_append, List.length_append, length_writeInt, length_writeInt, length_writeInt,
    sdbSize]

theorem SSTableHeader.readFrom_write {h : SSTableHeader} (hsize : h.pageSize < 2 ^ 64) (hcount : h.pageCount < 2 ^ 64)
    (hseq : h.maxSeqNo < 2 ^ 64) (rest : Bytes) : SSTableHeader.readFrom (h.write ++ rest) = some (h, rest) := by
  rw [SSTableHeader.readFrom, SSTableHeader.write, List.append_assoc, List.append_assoc, readInt_writeInt]
  dsimp only
  rw [readInt_writeInt]
  dsimp only
  rw [readInt_writeInt]
  dsimp only
  rw [toNat_ofNat_of_lt hsize, toNat_ofNat_of_lt hcount, toNat_ofNat_of_lt hseq]

theorem SSTableHeader.read_eq (buf : Bytes) : SSTableHeader.read buf = (SSTableHeader.readFrom buf).map Prod.fst := by
  unfold SSTableHeader.read SSTableHeader.readFrom
  rcases readInt buf with _ | ⟨pageSize, buf⟩
  · rfl
  dsimp only
  rcases readInt buf with _ | ⟨pageCount, buf⟩
  · rfl
  dsimp only
  rcases readInt buf with _ | ⟨maxSeqNo, buf⟩ <;> rfl

theorem SSTableHeader.read_write {h : SSTableHeader} (hsize : h.pageSize < 2 ^ 64) (hcount : h.pageCount < 2 ^ 64)
    (hseq : h.maxSeqNo < 2 ^ 64) : SSTableHeader.read h.write = some h := by
  have hread := SSTableHeader.readFrom_write hsize hcount hseq []
  rw [List.append_nil] at hread
  rw [SSTableHeader.read_eq, hread]
  rfl

structure Paged (pageSize : ℕ) (records : List (Record Bytes)) (chunks : List (List (Record Bytes))) : Prop where
  flatten : chunks.flatten = records
  nonempty : ∀ c ∈ chunks, c ≠ []
  fits : ∀ c ∈ chunks, Fits pageSize c

/-- The header while the table is being built, and the one that replaces it. -/
def firstHeader (pageSize : ℕ) : SSTableHeader := ⟨pageSize, 0, 0⟩

def maxSeqNo (records : List (Record Bytes)) : ℕ := records.foldl (fun m r => max m r.seqNo) 0

def lastHeader (pageSize : ℕ) (chunks : List (List (Record Bytes))) : SSTableHeader :=
  ⟨pageSize, chunks.length, maxSeqNo chunks.flatten⟩

def openWrites (crc : Bytes → BitVec 32) (pageSize : ℕ) (chunks : List (List (Record Bytes))) : List (ℕ × Bytes) :=
  (0, (firstHeader pageSize).write) :: chunks.zipIdx.map fun c =>
    (SSTable.pageOffset (firstHeader pageSize) c.2, pageBytes crc pageSize c.1)

def tableWrites (crc : Bytes → BitVec 32) (pageSize : ℕ) (chunks : List (List (Record Bytes))) : List (ℕ × Bytes) :=
  openWrites crc pageSize chunks ++ [(0, (lastHeader pageSize chunks).write)]

theorem openWrites_append (crc : Bytes → BitVec 32) (pageSize : ℕ) (chunks : List (List (Record Bytes)))
    (c : List (Record Bytes)) : openWrites crc pageSize (chunks ++ [c]) = openWrites crc pageSize chunks ++
      [(SSTable.pageOffset (firstHeader pageSize) chunks.length, pageBytes crc pageSize c)] := by
  simp [openWrites, List.zipIdx_append]

/-- A builder in the middle of its work: full pages are written, and some records are on the page in hand. -/
structure Building (crc : Bytes → BitVec 32) (pageSize : ℕ) (b : SSTableBuilder) (chunks : List (List (Record Bytes)))
    (current : List (Record Bytes)) : Prop where
  header : b.header = ⟨pageSize, chunks.length, maxSeqNo (chunks.flatten ++ current)⟩
  page : b.pageBuilder = ⟨pageSize, List.replicate PageHeader.sdbSize 0 ++ rawRecords current, current.length⟩
  file : b.fileWriter = ⟨SSTable.pageOffset (firstHeader pageSize) chunks.length, openWrites crc pageSize chunks⟩
  nonempty : ∀ c ∈ chunks, c ≠ []
  fits : ∀ c ∈ chunks, Fits pageSize c
  currentFits : current ≠ [] → Fits pageSize current

namespace Building

variable {b : SSTableBuilder} {chunks : List (List (Record Bytes))} {current : List (Record Bytes)}

theorem create (crc : Bytes → BitVec 32) (pageSize : ℕ) :
    Building crc pageSize (SSTableBuilder.create pageSize) [] [] where
  header := rfl
  page := by simp [SSTableBuilder.create, SSTableBuilder.flushHeader, PageBuilder.clear, rawRecords]
  file := by
    simp [SSTableBuilder.create, SSTableBuilder.flushHeader, FileWriter.write, FileWriter.create, SSTable.pageOffset,
      openWrites, firstHeader]
  nonempty := fun _ hc => nomatch hc
  fits := fun _ hc => nomatch hc
  currentFits := fun h => absurd rfl h

theorem addRecord (h : Building crc pageSize b chunks current) {r : Record Bytes}
    (hfits : Fits pageSize (current ++ [r])) : Building crc pageSize (b.addRecord r) chunks (current ++ [r]) where
  header := by
    rw [SSTableBuilder.addRecord, h.header]
    simp [maxSeqNo, List.foldl_append]
  page := by
    rw [SSTableBuilder.addRecord, h.page, rawRecords_append, rawRecords_singleton, List.length_append]
    simp [PageBuilder.addRecord]
  file := h.file
  nonempty := h.nonempty
  fits := h.fits
  currentFits := fun _ => hfits

/-- The page in hand is written; it is not empty. -/
theorem flushPage (h : Building crc pageSize b chunks current) (hne : current ≠ []) :
    ∃ b', b.flushPage crc = some b' ∧ Building crc pageSize b' (chunks ++ [current]) [] := by
  have hcount : b.pageBuilder.isEmpty = false := by
    rw [h.page, PageBuilder.isEmpty, decide_eq_false_iff_not]
    exact fun hzero => hne (List.length_eq_zero_iff.mp hzero)
  have hlen : (chunks ++ [current]).length = chunks.length + 1 := by rw [List.length_append, List.length_singleton]
  refine ⟨_, by rw [SSTableBuilder.flushPage, hcount]; rfl, ?_, ?_, ?_, ?_, ?_, fun h => absurd rfl h⟩
  · rw [h.header, hlen]
    simp
  · rw [h.page]
    simp [PageBuilder.clear, rawRecords]
  · have hextract : b.pageBuilder.extract crc = pageBytes crc pageSize current := by rw [h.page, pageBytes]
    rw [h.file, hextract, FileWriter.write, openWrites_append, length_pageBytes (h.currentFits hne), hlen,
      SSTable.pageOffset, SSTable.pageOffset, firstHeader, Nat.add_mul, Nat.one_mul, Nat.add_assoc]
  · intro c hc
    rcases List.mem_append.mp hc with hc | hc
    · exact h.nonempty c hc
    · rw [List.mem_singleton.mp hc]
      exact hne
  · intro c hc
    rcases List.mem_append.mp hc with hc | hc
    · exact h.fits c hc
    · rw [List.mem_singleton.mp hc]
      exact h.currentFits hne

theorem add (h : Building crc pageSize b chunks current) {r : Record Bytes} (hr : Fits pageSize [r]) :
    ∃ b' chunks' current', b.add crc r = some b' ∧ Building crc pageSize b' chunks' current' ∧
      chunks'.flatten ++ current' = chunks.flatten ++ current ++ [r] := by
  unfold SSTableBuilder.add
  have hroom : b.pageBuilder.isEnoughSpace r.write.length = true ↔ Fits pageSize (current ++ [r]) := by
    rw [h.page, PageBuilder.isEnoughSpace, decide_eq_true_eq, Fits, rawRecords_append, rawRecords_singleton,
      List.length_append, List.length_append, List.length_replicate, Nat.add_assoc]
  split_ifs with hspace
  · exact ⟨_, chunks, current ++ [r], rfl, h.addRecord (hroom.mp hspace), (List.append_assoc ..).symm⟩
  · have hne : current ≠ [] := by
      rintro rfl
      exact hspace (hroom.mpr hr)
    obtain ⟨b', hflush, hb'⟩ := h.flushPage hne
    refine ⟨b'.addRecord r, chunks ++ [current], [r], by rw [hflush]; rfl, hb'.addRecord hr, by simp⟩

theorem addAll (h : Building crc pageSize b chunks current) (hfits : ∀ r ∈ records, Fits pageSize [r]) :
    ∃ b' chunks' current', b.addAll crc records = some b' ∧ Building crc pageSize b' chunks' current' ∧
      chunks'.flatten ++ current' = chunks.flatten ++ current ++ records := by
  induction records generalizing b chunks current with
  | nil => exact ⟨b, chunks, current, rfl, h, by simp⟩
  | cons r records ih =>
    obtain ⟨b', chunks', current', hadd, hb', heq⟩ := h.add (hfits r List.mem_cons_self)
    obtain ⟨b'', chunks'', current'', hall, hb'', heq'⟩ := ih hb' fun s hs => hfits s (List.mem_cons_of_mem _ hs)
    refine ⟨b'', chunks'', current'', ?_, hb'', by rw [heq', heq, List.append_assoc, List.singleton_append]⟩
    rw [SSTableBuilder.addAll, hadd]
    exact hall

theorem finish (h : Building crc pageSize b chunks current) :
    ∃ b' chunks', b.finish crc = some b' ∧ b'.fileWriter.writes = tableWrites crc pageSize chunks' ∧
      Paged pageSize (chunks.flatten ++ current) chunks' := by
  -- the page in hand, if there is one, is the last one
  obtain ⟨b', chunks', hlast, hb', heq⟩ : ∃ b' chunks',
      (if b.pageBuilder.isEmpty then some b else b.flushPage crc) = some b' ∧ Building crc pageSize b' chunks' [] ∧
        chunks'.flatten = chunks.flatten ++ current := by
    by_cases hne : current = []
    · subst hne
      have hempty : b.pageBuilder.isEmpty = true := by
        rw [h.page]
        rfl
      exact ⟨b, chunks, by rw [hempty]; rfl, h, by simp⟩
    · obtain ⟨b', hflush, hb'⟩ := h.flushPage hne
      have hempty : ¬b.pageBuilder.isEmpty = true := by
        rw [h.page, PageBuilder.isEmpty, decide_eq_true_eq]
        exact fun hzero => hne (List.length_eq_zero_iff.mp hzero)
      exact ⟨b', chunks ++ [current], by rw [if_neg hempty]; exact hflush, hb', by simp⟩
  refine ⟨_, chunks', by rw [SSTableBuilder.finish, hlast]; rfl, ?_, heq, hb'.nonempty, hb'.fits⟩
  have hheader : b'.header = lastHeader pageSize chunks' := by
    rw [hb'.header, List.append_nil]
    rfl
  simp only [SSTableBuilder.flushHeader, FileWriter.rewind, FileWriter.write, hb'.file, hheader, tableWrites]

end Building

/-- Records that fit in a page are built into a table: the assertion holds, and what is written are a header, pages and
the header again. -/
theorem buildWrites_eq (crc : Bytes → BitVec 32) (hfits : ∀ r ∈ records, Fits pageSize [r]) :
    ∃ chunks, Paged pageSize records chunks ∧ buildWrites crc pageSize records = some
    (tableWrites crc pageSize chunks) := by
  obtain ⟨b, chunks, current, hall, hb, heq⟩ := (Building.create crc pageSize).addAll hfits
  obtain ⟨b', chunks', hfinish, hwrites, hpaged⟩ := hb.finish
  rw [heq] at hpaged
  refine ⟨chunks', hpaged, ?_⟩
  rw [buildWrites, hall]
  simp only [Option.bind_some, hfinish, Option.map_some, hwrites]

/-! ### The file -/

theorem contents_append (writes : List (ℕ × Bytes)) (pos : ℕ) (data : Bytes) :
    contents (writes ++ [(pos, data)]) = writeAt (contents writes) pos data := by
  rw [contents, List.foldl_append]
  rfl

theorem writeAt_end {file : Bytes} {pos : ℕ} (h : file.length = pos) (data : Bytes) :
    writeAt file pos data = file ++ data := by
  rw [writeAt, List.take_of_length_le h.le, h, Nat.sub_self, List.replicate_zero, List.append_nil,
    List.drop_eq_nil_of_le (by omega), List.append_nil]

theorem writeAt_start {front data : Bytes} (h : front.length = data.length) (file : Bytes) :
    writeAt (front ++ file) 0 data = data ++ file := by
  rw [writeAt, List.take_zero, Nat.zero_sub, List.replicate_zero, Nat.zero_add, List.drop_left' h]
  rfl

variable {chunks : List (List (Record Bytes))}

theorem length_pages (h : ∀ c ∈ chunks, Fits pageSize c) :
    (chunks.flatMap (pageBytes crc pageSize)).length = chunks.length * pageSize := by
  induction chunks with
  | nil => simp
  | cons c chunks ih =>
    rw [List.flatMap_cons, List.length_append, length_pageBytes (h c List.mem_cons_self),
      ih fun c' hc' => h c' (List.mem_cons_of_mem _ hc'), List.length_cons, Nat.add_mul, Nat.one_mul, Nat.add_comm]

theorem contents_openWrites (h : ∀ c ∈ chunks, Fits pageSize c) :
    contents (openWrites crc pageSize chunks) =
      (firstHeader pageSize).write ++ chunks.flatMap (pageBytes crc pageSize) := by
  induction chunks using List.reverseRecOn with
  | nil =>
    rw [List.flatMap_nil, List.append_nil]
    exact writeAt_end (by simp) _
  | append_singleton chunks c ih =>
    have hold : ∀ c ∈ chunks, Fits pageSize c := fun c' hc' => h c' (List.mem_append_left _ hc')
    have hlen : ((firstHeader pageSize).write ++ chunks.flatMap (pageBytes crc pageSize)).length =
        SSTable.pageOffset (firstHeader pageSize) chunks.length := by
      rw [List.length_append, SSTableHeader.length_write, length_pages hold]
      rfl
    rw [openWrites_append, contents_append, ih hold, writeAt_end hlen, List.append_assoc, List.flatMap_append,
      List.flatMap_singleton]

theorem contents_tableWrites (h : ∀ c ∈ chunks, Fits pageSize c) :
    contents (tableWrites crc pageSize chunks) =
      (lastHeader pageSize chunks).write ++ chunks.flatMap (pageBytes crc pageSize) := by
  rw [tableWrites, contents_append, contents_openWrites h]
  exact writeAt_start (by simp) _

end Disk

end StructureDb
