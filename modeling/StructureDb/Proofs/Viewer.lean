import StructureDb.Proofs.TableScan
import StructureDb.Spec.Viewer

/-! The viewer shows the records that the server reads. This is about any file, however it came
about: where a scan of the whole table comes to its end, the viewer prints the records of the
scan, page by page. -/

namespace StructureDb

namespace Disk

namespace Viewer

variable {crc : Bytes → BitVec 32} {file : Bytes} {header : SSTableHeader} {t t' : SSTable}

/-! ### What a scan reads -/

def pageAt (crc : Bytes → BitVec 32) (file : Bytes) (header : SSTableHeader) (i : ℕ) : Option Page :=
  (readAt file (SSTable.pageOffset header i) header.pageSize).bind (Page.load crc)

def Loads (crc : Bytes → BitVec 32) (file : Bytes) (header : SSTableHeader) : ℕ → List Page → Prop
  | i, [] => header.pageCount ≤ i
  | i, page :: pages =>
    i < header.pageCount ∧ pageAt crc file header i = some page ∧ Loads crc file header (i + 1) pages

structure Reads (crc : Bytes → BitVec 32) (file : Bytes) (header : SSTableHeader) (t : SSTable) : Prop where
  sameFile : t.file = file
  sameHeader : t.header = header
  cache : t.pageCache.Holds fun i page => pageAt crc file header i = some page

theorem Reads.create {capacity : ℕ} (h : SSTable.create file capacity = some t) : Reads crc file t.header t := by
  unfold SSTable.create at h
  split at h
  · cases h
  · obtain ⟨header, -, rfl⟩ := Option.map_eq_some_iff.mp h
    exact ⟨rfl, rfl, .empty _ _⟩

theorem Reads.getPage (h : Reads crc file header t) {i : ℕ} {page : Page} (hp : t.getPage crc i = some (page, t')) :
    i < header.pageCount ∧ pageAt crc file header i = some page ∧ Reads crc file header t' := by
  unfold SSTable.getPage at hp
  rw [h.sameHeader, h.sameFile] at hp
  split_ifs at hp with hi
  refine ⟨by omega, ?_⟩
  split at hp
  case h_1 page' cache hget =>
    cases hp
    obtain ⟨hpage, hcache⟩ := h.cache.get hget
    exact ⟨hpage, rfl, rfl, hcache⟩
  case h_2 hget =>
    split at hp
    · cases hp
    · rename_i buffer hread
      obtain ⟨page', hload, he⟩ := Option.map_eq_some_iff.mp hp
      cases he
      have hpage : pageAt crc file header i = some page := by rw [pageAt, hread, Option.bind_some, hload]
      exact ⟨hpage, rfl, rfl, h.cache.put hpage⟩

/-- The iterator is at its end, or at a record of its page; then it moves on, to the next page behind
the last record. -/
theorem Reads.nextImpl (h : Reads crc file header t) {it it' : SSTableIterator}
    (hn : it.nextImpl crc t = some (it', t')) : Reads crc file header t' ∧ it'.range = it.range ∧
      (header.pageCount ≤ it.currentPage ∧ it'.next = none ∨
        ∃ page record, it.currentPage < header.pageCount ∧ pageAt crc file header it.currentPage = some page ∧
          page.records[it.currentRecord]? = some record ∧ it'.next = some record ∧
          (page.records.length ≤ it.currentRecord + 1 ∧ it'.currentPage = it.currentPage + 1 ∧
            it'.currentRecord = 0 ∨
            it'.currentPage = it.currentPage ∧ it'.currentRecord = it.currentRecord + 1)) := by
  unfold SSTableIterator.nextImpl at hn
  rw [h.sameHeader] at hn
  split_ifs at hn with hend
  · cases hn
    exact ⟨h, rfl, .inl ⟨hend, rfl⟩⟩
  · obtain ⟨⟨page, t₁⟩, hpage, hrest⟩ := Option.bind_eq_some_iff.mp hn
    obtain ⟨record, hrecord, he⟩ := Option.map_eq_some_iff.mp hrest
    obtain ⟨hi, hload, ht₁⟩ := h.getPage hpage
    cases he
    refine ⟨ht₁, ?_⟩
    dsimp only
    split_ifs with hlast
    · exact ⟨rfl, .inr ⟨page, record, hi, hload, hrecord, rfl, .inl ⟨hlast, rfl, rfl⟩⟩⟩
    · exact ⟨rfl, .inr ⟨page, record, hi, hload, hrecord, rfl, .inr ⟨rfl, rfl⟩⟩⟩

theorem hasMore_fullScan {it : SSTableIterator} (h : it.range = .fullScan) : it.hasMore = it.next.isSome := by
  rw [SSTableIterator.hasMore, h]
  cases it.next <;> rfl

/-- A scan without bounds that comes to its end delivers what is left of the page in hand and all the
pages behind it. -/
theorem Reads.collect (n : ℕ) (h : Reads crc file header t) {it it₁ it' : SSTableIterator} {t₁ : SSTable}
    {records : List (Record Bytes)} (hrange : it.range = .fullScan) (hn : it.nextImpl crc t = some (it₁, t₁))
    (hc : it₁.collect crc n t₁ = some (records, it', t')) (hend : it'.hasMore = false) :
    ∃ pages, Loads crc file header it.currentPage pages ∧
      records = (pages.flatMap Page.records).drop it.currentRecord := by
  induction n generalizing t t₁ it it₁ records with
  | zero =>
    obtain ⟨-, hrange₁, hcases⟩ := h.nextImpl hn
    cases hc
    rw [hasMore_fullScan (hrange₁.trans hrange), Option.isSome_eq_false_iff, Option.isNone_iff_eq_none] at hend
    rcases hcases with ⟨hlast, -⟩ | ⟨page, record, -, -, -, hnext, -⟩
    · exact ⟨[], hlast, by simp⟩
    · rw [hend] at hnext
      cases hnext
  | succ n ih =>
    obtain ⟨ht₁, hrange₁, hcases⟩ := h.nextImpl hn
    rw [SSTableIterator.collect, hasMore_fullScan (hrange₁.trans hrange)] at hc
    rcases hcases with ⟨hlast, hnone⟩ | ⟨page, record, hi, hload, hrecord, hnext, hmove⟩
    · rw [hnone] at hc
      cases hc
      exact ⟨[], hlast, by simp⟩
    · rw [hnext, if_pos Option.isSome_some, Option.bind_some] at hc
      obtain ⟨⟨it₂, t₂⟩, hn₂, hrest⟩ := Option.bind_eq_some_iff.mp hc
      obtain ⟨⟨records', it'', t''⟩, hc₂, he⟩ := Option.map_eq_some_iff.mp hrest
      cases he
      obtain ⟨pages, hpages, rfl⟩ := ih ht₁ (hrange₁.trans hrange) hn₂ hc₂
      obtain ⟨hlt, hget⟩ := List.getElem?_eq_some_iff.mp hrecord
      rcases hmove with ⟨hlen, hpage₁, hrecord₁⟩ | ⟨hpage₁, hrecord₁⟩
      · rw [hpage₁] at hpages
        refine ⟨page :: pages, ⟨hi, hload, hpages⟩, ?_⟩
        rw [hrecord₁, List.drop_zero, List.flatMap_cons, List.drop_append_of_le_length (by omega),
          List.drop_eq_getElem_cons hlt, hget, List.drop_eq_nil_of_le hlen]
        rfl
      · rw [hpage₁] at hpages
        rw [hrecord₁]
        -- the page is the first of those ahead
        cases pages with
        | nil => exact absurd hi (by have hle : header.pageCount ≤ it.currentPage := hpages; omega)
        | cons page' pages =>
          have hsame : page' = page := Option.some.inj (hpages.2.1.symm.trans hload)
          subst hsame
          refine ⟨page' :: pages, hpages, ?_⟩
          have hlt' : it.currentRecord < (page'.records ++ pages.flatMap Page.records).length := by
            rw [List.length_append]
            omega
          rw [List.flatMap_cons, List.drop_eq_getElem_cons hlt', List.getElem_append_left hlt, hget]

theorem Reads.scan (h : Reads crc file header t) {n : ℕ} {records : List (Record Bytes)} {it : SSTableIterator}
    (hs : t.scan crc .fullScan n = some (records, it, t')) (hend : it.hasMore = false) :
    ∃ pages, Loads crc file header 0 pages ∧ records = pages.flatMap Page.records := by
  obtain ⟨⟨it₁, t₁⟩, hcreate, hc⟩ := Option.bind_eq_some_iff.mp hs
  obtain ⟨⟨it₀, t₀⟩, hseek, hn⟩ := Option.bind_eq_some_iff.mp hcreate
  cases hseek
  exact h.collect n rfl hn hc hend

theorem Loads.length {pages : List Page} {i : ℕ} (h : Loads crc file header i pages) (hi : i ≤ header.pageCount) :
    pages.length = header.pageCount - i := by
  induction pages generalizing i with
  | nil =>
    have hle : header.pageCount ≤ i := h
    rw [List.length_nil]
    omega
  | cons page pages ih =>
    obtain ⟨hlt, -, hrest⟩ := h
    rw [List.length_cons, ih hrest hlt]
    omega

/-! ### What the viewer shows -/

def recordLines (records : List (Record Bytes)) (j : ℕ) : List Line := (records.zipIdx j).map fun r => .record r.2 r.1

def pageLines : ℕ → List (PageHeader × List (Record Bytes)) → List Line
  | _, [] => []
  | i, (header, records) :: pages => .page i header :: (recordLines records 0 ++ pageLines (i + 1) pages)

theorem rounds_eq {bound : BitVec 64} (h : bound.toNat < 2 ^ 63) : rounds bound = bound.toNat := by
  rw [rounds, BitVec.toInt_eq_toNat_of_lt (by omega), Int.toNat_natCast]

theorem showRecords_eq (next : Output) {n : ℕ} {buf : Bytes} {records : List (Record Bytes)} (j : ℕ)
    (h : Page.readRecords n buf = some records) :
    showRecords next n j buf = ⟨recordLines records j ++ next.lines, next.exitCode⟩ := by
  induction n generalizing buf records j with
  | zero =>
    cases h
    rfl
  | succ n ih =>
    rw [Page.readRecords] at h
    rw [showRecords]
    rcases hread : Record.read buf with _ | ⟨record, buf'⟩
    · rw [hread] at h
      cases h
    · rw [hread] at h
      obtain ⟨records', hrecords, rfl⟩ := Option.map_eq_some_iff.mp h
      dsimp only
      rw [ih (j + 1) hrecords]
      rfl

/-- A page that is loaded: behind its header stand its records, as many as the header says. -/
theorem load_inv {buffer : Bytes} {page : Page} (h : Page.load crc buffer = some page) :
    ∃ header buf, PageHeader.read buffer = some (header, buf) ∧ header.count.toNat < 2 ^ 63 ∧
      Page.readRecords header.count.toNat buf = some page.records := by
  unfold Page.load Page.tryLoad at h
  split at h
  · cases h
  · rename_i header buf hheader
    refine ⟨header, buf, hheader, ?_⟩
    split_ifs at h with hsum hmany
    · cases h
    · cases h
    · rw [Page.kMaxStrings] at hmany
      refine ⟨by omega, ?_⟩
      split at h
      · cases h
      · rename_i records hrecords
        cases h
        exact hrecords

theorem length_readRecords {n : ℕ} {buf : Bytes} {records : List (Record Bytes)}
    (h : Page.readRecords n buf = some records) : records.length = n := by
  induction n generalizing buf records with
  | zero =>
    cases h
    rfl
  | succ n ih =>
    unfold Page.readRecords at h
    split at h
    · cases h
    · obtain ⟨records', hrecords, rfl⟩ := Option.map_eq_some_iff.mp h
      rw [List.length_cons, ih hrecords]

/-- A stream at a position inside the file reads what the server reads there. -/
theorem Stream.read_eq {s : Stream} {pos size : ℕ} {buffer : Bytes} (heof : s.eof = false)
    (hrest : s.rest = file.drop pos) (hread : readAt file pos size = some buffer) :
    s.read size = (buffer, ⟨file.drop (pos + size), decide (file.length < pos + size)⟩) := by
  unfold readAt at hread
  split_ifs at hread with hpos
  cases hread
  rw [Stream.read, heof, hrest, List.length_drop, List.drop_drop]
  have hshort : (file.length - pos < size) = (file.length < pos + size) := propext (by omega)
  simp only [Bool.false_eq_true, if_false, hshort]

theorem pageAt_inv {i : ℕ} {page : Page} (h : pageAt crc file header i = some page) :
    ∃ buffer, SSTable.pageOffset header i < file.length ∧
      readAt file (SSTable.pageOffset header i) header.pageSize = some buffer ∧ Page.load crc buffer = some page := by
  obtain ⟨buffer, hread, hload⟩ := Option.bind_eq_some_iff.mp h
  refine ⟨buffer, ?_, hread, hload⟩
  by_contra hpos
  rw [readAt, if_pos (by omega)] at hread
  cases hread

/-- The stream is at the first of the pages, and at its end only if there are none. -/
theorem showPages_eq {pages : List Page} {i : ℕ} (h : Loads crc file header i pages) (hsize : header.pageSize < 2 ^ 63)
    {s : Stream} (hrest : s.rest = file.drop (SSTable.pageOffset header i)) (heof : pages ≠ [] → s.eof = false) :
    ∃ headers : List (PageHeader × List (Record Bytes)), headers.map Prod.snd = pages.map Page.records ∧
      (∀ p ∈ headers, p.1.count.toNat = p.2.length) ∧
      showPages header.pageSize pages.length i s = ⟨pageLines i headers, some 0⟩ := by
  induction pages generalizing i s with
  | nil => exact ⟨[], rfl, List.forall_mem_nil _, rfl⟩
  | cons page pages ih =>
    obtain ⟨hlt, hpage, hmore⟩ := h
    obtain ⟨buffer, hpos, hread, hload⟩ := pageAt_inv hpage
    obtain ⟨pageHeader, buf, hheader, hcount, hrecords⟩ := load_inv hload
    have hstream := Stream.read_eq (heof (List.cons_ne_nil _ _)) hrest hread
    have hnext : SSTable.pageOffset header i + header.pageSize = SSTable.pageOffset header (i + 1) := by
      rw [SSTable.pageOffset, SSTable.pageOffset, Nat.add_mul, Nat.one_mul, Nat.add_assoc]
    rw [hnext] at hstream
    -- a page behind this one begins inside the file
    have heof' : pages ≠ [] → decide (file.length < SSTable.pageOffset header (i + 1)) = false := by
      intro hne
      obtain ⟨page', pages', rfl⟩ := List.exists_cons_of_ne_nil hne
      obtain ⟨-, hpos', -, -⟩ := pageAt_inv hmore.2.1
      exact decide_eq_false (by omega)
    obtain ⟨headers, hsame, hcounts, hshow⟩ := ih hmore (s := ⟨file.drop (SSTable.pageOffset header (i + 1)),
      decide (file.length < SSTable.pageOffset header (i + 1))⟩) rfl heof'
    refine ⟨(pageHeader, page.records) :: headers, by rw [List.map_cons, List.map_cons, hsame], ?_, ?_⟩
    · intro p hp
      rcases List.mem_cons.mp hp with rfl | hp
      · exact (length_readRecords hrecords).symm
      · exact hcounts p hp
    · rw [List.length_cons, showPages, if_neg (by rw [heof (List.cons_ne_nil _ _)]; exact Bool.false_ne_true),
        if_neg (by omega), hstream]
      dsimp only
      rw [hheader]
      dsimp only
      rw [hshow, rounds_eq hcount, showRecords_eq _ 0 hrecords]
      rfl

/-- The header that the viewer reads is that of the open table, and the stream is behind it; a file of which the
header is cut off has no pages that could be loaded. -/
theorem showTable_eq {capacity : ℕ} {pages : List Page} (hcreate : SSTable.create file capacity = some t)
    (hsize : t.header.pageSize < 2 ^ 63) (hcount : t.header.pageCount < 2 ^ 63) (h : Loads crc file t.header 0 pages) :
    ∃ headers : List (PageHeader × List (Record Bytes)), headers.map Prod.snd = pages.map Page.records ∧
      (∀ p ∈ headers, p.1.count.toNat = p.2.length) ∧
      showTable file = ⟨.tableHeader t.header :: pageLines 0 headers, some 0⟩ := by
  unfold SSTable.create at hcreate
  split at hcreate
  · cases hcreate
  rename_i buffer hread
  obtain ⟨header, hheader, rfl⟩ := Option.map_eq_some_iff.mp hcreate
  dsimp only at hsize hcount h ⊢
  have hstream : (⟨file, false⟩ : Stream).read SSTableHeader.sdbSize = _ :=
    Stream.read_eq rfl (List.drop_zero (l := file)).symm hread
  have hfirst : SSTable.pageOffset header 0 = 0 + SSTableHeader.sdbSize := by
    rw [SSTable.pageOffset, Nat.zero_mul, Nat.add_zero, Nat.zero_add]
  have heof : pages ≠ [] → decide (file.length < 0 + SSTableHeader.sdbSize) = false := by
    intro hne
    obtain ⟨page, pages', rfl⟩ := List.exists_cons_of_ne_nil hne
    obtain ⟨-, hpos, -, -⟩ := pageAt_inv h.2.1
    exact decide_eq_false (by omega)
  obtain ⟨headers, hsame, hcounts, hshow⟩ := showPages_eq h hsize (s := ⟨file.drop (0 + SSTableHeader.sdbSize),
    decide (file.length < 0 + SSTableHeader.sdbSize)⟩) (by rw [hfirst]) heof
  refine ⟨headers, hsame, hcounts, ?_⟩
  have hrounds : rounds (BitVec.ofNat 64 header.pageCount) = pages.length := by
    have hnat : (BitVec.ofNat 64 header.pageCount).toNat = header.pageCount := toNat_ofNat_of_lt (by omega)
    rw [rounds_eq (by omega), hnat, h.length (Nat.zero_le _), Nat.sub_zero]
  rw [showTable, hstream]
  dsimp only
  rw [hheader]
  dsimp only
  rw [hrounds, hshow]
  rfl

/-- Of any file that the server can open, if a scan of the whole table comes to its end, the viewer prints the header
and all the pages, each with as many records as its own header says, and the records are those of the scan in their
order. -/
theorem shows_scanned_records (crc : Bytes → BitVec 32) (filePath file : Bytes) (capacity n : ℕ) (t t' : SSTable)
    (it : SSTableIterator) (records : List (Record Bytes)) (hpath : kSuffix <:+ filePath)
    (hcreate : SSTable.create file capacity = some t) (hsize : t.header.pageSize < 2 ^ 63)
    (hcount : t.header.pageCount < 2 ^ 63) (hscan : t.scan crc .fullScan n = some (records, it, t'))
    (hend : it.hasMore = false) :
    ∃ pages : List (PageHeader × List (Record Bytes)), pages.length = t.header.pageCount ∧
      pages.flatMap Prod.snd = records ∧ (∀ p ∈ pages, p.1.count.toNat = p.2.length) ∧
      main filePath (some file) =
        ⟨.goingToRead filePath :: .tableHeader t.header :: pageLines 0 pages, some 0⟩ := by
  obtain ⟨loaded, hloads, rfl⟩ := (Reads.create hcreate).scan hscan hend
  obtain ⟨pages, hsame, hcounts, hshow⟩ := showTable_eq hcreate hsize hcount hloads
  refine ⟨pages, ?_, ?_, hcounts, ?_⟩
  · have hlen := congrArg List.length hsame
    rw [List.length_map, List.length_map, hloads.length (Nat.zero_le _), Nat.sub_zero] at hlen
    exact hlen
  · rw [List.flatMap_def, hsame, List.flatMap_def]
  · rw [main, if_pos (List.isSuffixOf_iff_suffix.mpr hpath), hshow]
    rfl

def cutFile : Bytes :=
  ((buildWrites (fun _ => 7) 70 [⟨[1], 4, [9]⟩, ⟨[1], 2, []⟩, ⟨[3], 1, [8]⟩, ⟨[5], 3, [6]⟩]).map
    fun writes =>
    (contents writes).dropLast).getD []

/-- Both readers fill up the last page with zeros. -/
theorem shows_scanned_records_cut_file :
    ∃ pages : List (PageHeader × List (Record Bytes)), pages.length = 2 ∧
      pages.flatMap Prod.snd = [⟨[1], 4, [9]⟩, ⟨[1], 2, []⟩, ⟨[3], 1, [8]⟩, ⟨[5], 3, [6]⟩] ∧
      main kSuffix (some cutFile) =
        ⟨.goingToRead kSuffix :: .tableHeader ⟨70, 2, 4⟩ :: pageLines 0 pages, some 0⟩ := by
  have hcreate : ((SSTable.create cutFile 1).map SSTable.header) = some ⟨70, 2, 4⟩ := by decide +kernel
  obtain ⟨t, ht, hheader⟩ := Option.map_eq_some_iff.mp hcreate
  have hscan : ((SSTable.create cutFile 1).bind fun t =>
      (t.scan (fun _ => 7) .fullScan 9).map fun r => (r.1, r.2.1.hasMore)) =
      some ([⟨[1], 4, [9]⟩, ⟨[1], 2, []⟩, ⟨[3], 1, [8]⟩, ⟨[5], 3, [6]⟩], false) := by decide +kernel
  rw [ht, Option.bind_some] at hscan
  obtain ⟨⟨records, it, t'⟩, hscan, he⟩ := Option.map_eq_some_iff.mp hscan
  obtain ⟨rfl, hend⟩ := Prod.mk.inj he
  obtain ⟨pages, hlen, hrecords, -, hmain⟩ := shows_scanned_records (fun _ => 7) kSuffix cutFile 1 9 t t' it _
    (List.suffix_refl _) ht (by rw [hheader]; decide) (by rw [hheader]; decide) hscan hend
  rw [hheader] at hlen hmain
  exact ⟨pages, hlen, hrecords, hmain⟩

end Viewer

end Disk

end StructureDb
