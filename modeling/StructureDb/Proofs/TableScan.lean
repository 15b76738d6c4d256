import Mathlib.Data.List.TakeWhile
import StructureDb.Proofs.Restart
import StructureDb.Proofs.TableBuild

/-! Scans of a table that `SSTableBuilder` made of sorted records that fit in a page. Whatever the
cache holds of earlier scans, a page comes back as it was written; the binary search ends at
the first page with a key at or above the lower bound, and the iterator goes on from there
record by record. -/

namespace StructureDb

namespace Disk

variable {crc : Bytes → BitVec 32} {pageSize : ℕ} {records : List (Record Bytes)} {chunks : List (List (Record Bytes))}

/-- What the builder is given: the pages of sorted records, with sizes and numbers that can be written down. -/
structure Table (pageSize : ℕ) (records : List (Record Bytes)) (chunks : List (List (Record Bytes))) : Prop
    extends Paged pageSize records chunks where
  small : pageSize < 2 ^ 31
  seqNos : ∀ r ∈ records, r.seqNo < 2 ^ 63
  count : chunks.length < 2 ^ 63
  sorted : records.Pairwise (· ≤ ·)

/-- An open table over the file that was built; what is cached are its pages. -/
structure Opened (crc : Bytes → BitVec 32) (pageSize : ℕ) (chunks : List (List (Record Bytes))) (t : SSTable) :
    Prop where
  file : t.file = (lastHeader pageSize chunks).write ++ chunks.flatMap (pageBytes crc pageSize)
  header : t.header = lastHeader pageSize chunks
  cache : t.pageCache.Holds fun i page => chunks[i]? = some page.records

theorem maxSeqNo_lt (h : ∀ r ∈ records, r.seqNo < 2 ^ 63) : maxSeqNo records < 2 ^ 63 := by
  have hle : maxSeqNo records ≤ 2 ^ 63 - 1 :=
    (foldl_max_le ..).mpr ⟨Nat.zero_le _, fun r hr => Nat.le_sub_one_of_lt (h r hr)⟩
  omega

/-- A file that begins with a header opens, with an empty cache. -/
theorem create_of_header {header : SSTableHeader} (h : SSTableHeader.read header.write = some header) (rest : Bytes)
    (capacity : ℕ) :
    SSTable.create (header.write ++ rest) capacity = some ⟨header.write ++ rest, header, LruCache.empty capacity⟩ := by
  have hsize : ¬(header.write ++ rest).length ≤ 0 := by
    rw [List.length_append, SSTableHeader.length_write, SSTableHeader.sdbSize]
    omega
  have hread : readAt (header.write ++ rest) 0 SSTableHeader.sdbSize = some header.write := by
    rw [readAt, if_neg hsize, List.drop_zero, List.take_left' (SSTableHeader.length_write _), List.length_append,
      SSTableHeader.length_write, Nat.sub_zero, Nat.sub_eq_zero_of_le (Nat.le_add_right _ _), List.replicate_zero,
      List.append_nil]
  rw [SSTable.create, hread]
  dsimp only
  rw [h]
  rfl

namespace Table

variable {t : SSTable} {range : ScanRange}

theorem create (h : Table pageSize records chunks) (crc : Bytes → BitVec 32) (capacity : ℕ) :
    ∃ t, SSTable.create (contents (tableWrites crc pageSize chunks)) capacity = some t ∧
      Opened crc pageSize chunks t := by
  have hheader : SSTableHeader.read (lastHeader pageSize chunks).write = some (lastHeader pageSize chunks) := by
    have hsmall := h.small
    have hcount := h.count
    have hmax : (lastHeader pageSize chunks).maxSeqNo < 2 ^ 63 := by
      rw [lastHeader, h.flatten]
      exact maxSeqNo_lt h.seqNos
    refine SSTableHeader.read_write ?_ ?_ (by omega)
    · change pageSize < 2 ^ 64
      omega
    · change chunks.length < 2 ^ 64
      omega
  rw [contents_tableWrites h.fits]
  exact ⟨_, create_of_header hheader _ capacity, rfl, rfl, LruCache.Holds.empty _ capacity⟩

theorem readAt_page (h : Table pageSize records chunks) (ht : Opened crc pageSize chunks t) {i : ℕ}
    {c : List (Record Bytes)} (hc : chunks[i]? = some c) :
    readAt t.file (SSTable.pageOffset t.header i) t.header.pageSize = some (pageBytes crc pageSize c) := by
  have hlen : ∀ b ∈ chunks.map (pageBytes crc pageSize), b.length = pageSize := by
    intro b hb
    obtain ⟨c', hc', rfl⟩ := List.mem_map.mp hb
    exact length_pageBytes (h.fits c' hc')
  have hi := (List.getElem?_eq_some_iff.mp hc).1
  have hend : i * pageSize + pageSize ≤ chunks.length * pageSize := by
    rw [← Nat.succ_mul]
    exact Nat.mul_le_mul_right _ hi
  have hfile : t.file.length = SSTableHeader.sdbSize + chunks.length * pageSize := by
    rw [ht.file, List.length_append, SSTableHeader.length_write, length_pages h.fits]
  have hblock : ((t.file.drop (SSTable.pageOffset t.header i)).take pageSize) = pageBytes crc pageSize c := by
    have hmap : (chunks.map (pageBytes crc pageSize))[i]? = some (pageBytes crc pageSize c) := by
      rw [List.getElem?_map, hc]
      rfl
    rw [ht.file, ht.header, SSTable.pageOffset, ← SSTableHeader.length_write (lastHeader pageSize chunks),
      ← List.drop_drop, List.drop_left, List.flatMap]
    exact Chunks.take_drop_flatten hlen hmap
  have hpos : 0 < pageSize := by
    have hfits := h.fits c (List.mem_of_getElem? hc)
    rw [Fits, PageHeader.sdbSize] at hfits
    omega
  have hoffset : SSTable.pageOffset t.header i = SSTableHeader.sdbSize + i * pageSize := by
    rw [ht.header]
    rfl
  have hsize : t.header.pageSize = pageSize := by
    rw [ht.header]
    rfl
  rw [readAt, hsize, if_neg (by omega), hblock, Nat.sub_eq_zero_of_le (by omega), List.replicate_zero, List.append_nil]

/-- `GetPage` gives the page, from the cache or from the file. -/
theorem getPage (h : Table pageSize records chunks) (ht : Opened crc pageSize chunks t) {i : ℕ}
    {c : List (Record Bytes)} (hc : chunks[i]? = some c) :
    ∃ t', t.getPage crc i = some (⟨c⟩, t') ∧ Opened crc pageSize chunks t' := by
  have hi : ¬t.header.pageCount ≤ i := by
    rw [ht.header]
    exact not_le.mpr (List.getElem?_eq_some_iff.mp hc).1
  rw [SSTable.getPage, if_neg hi]
  cases hg : t.pageCache.get i with
  | some r =>
    obtain ⟨page, cache⟩ := r
    obtain ⟨hpage, hcache⟩ := ht.cache.get hg
    have hpage' : page = ⟨c⟩ := by
      have heq := Option.some.inj (hpage.symm.trans hc)
      rw [← heq]
    rw [hpage']
    exact ⟨_, rfl, ht.file, ht.header, hcache⟩
  | none =>
    have hload : Page.load crc (pageBytes crc pageSize c) = some ⟨c⟩ := by
      refine load_pageBytes (h.fits c (List.mem_of_getElem? hc)) h.small ?_
      intro r hr
      have hlt := h.seqNos r (by rw [← h.flatten]; exact List.mem_flatten.mpr ⟨c, List.mem_of_getElem? hc, hr⟩)
      omega
    dsimp only
    rw [h.readAt_page ht hc]
    dsimp only
    rw [hload]
    exact ⟨_, rfl, ht.file, ht.header, ht.cache.put hc⟩

/-! ### The binary search -/

def reached (chunks : List (List (Record Bytes))) (key : Bytes) (i : ℕ) : Bool :=
  (chunks[i]?.bind List.getLast?).any fun r => decide (key ≤ r.key)

/-- The records of a page are before those of a later one. -/
theorem key_le (h : Table pageSize records chunks) {i j : ℕ} (hij : i < j) {c d : List (Record Bytes)}
    (hc : chunks[i]? = some c) (hd : chunks[j]? = some d) {r s : Record Bytes} (hr : r ∈ c) (hs : s ∈ d) :
    r.key ≤ s.key := by
  have hpair := h.sorted
  rw [← h.flatten, List.pairwise_flatten] at hpair
  obtain ⟨hi, rfl⟩ := List.getElem?_eq_some_iff.mp hc
  obtain ⟨hj, rfl⟩ := List.getElem?_eq_some_iff.mp hd
  exact Record.key_le_of_le (List.pairwise_iff_getElem.mp hpair.2 i j hi hj hij r hr s hs)

theorem chunk_sorted (h : Table pageSize records chunks) {c : List (Record Bytes)} (hc : c ∈ chunks) :
    c.Pairwise (· ≤ ·) := by
  have hpair := h.sorted
  rw [← h.flatten, List.pairwise_flatten] at hpair
  exact hpair.1 c hc

theorem reached_eq (h : Table pageSize records chunks) (key : Bytes) {i : ℕ} {c : List (Record Bytes)}
    (hc : chunks[i]? = some c) :
    reached chunks key i = decide (key ≤ (c.getLast (h.nonempty c (List.mem_of_getElem? hc))).key) := by
  rw [reached, hc, Option.bind_some, List.getLast?_eq_some_getLast (h.nonempty c (List.mem_of_getElem? hc)),
    Option.any_some]

theorem reached_mono (h : Table pageSize records chunks) (key : Bytes) {i j : ℕ} (hij : i ≤ j) (hj : j < chunks.length)
    (hr : reached chunks key i = true) : reached chunks key j = true := by
  rcases Nat.eq_or_lt_of_le hij with rfl | hlt
  · exact hr
  · have hi : i < chunks.length := by omega
    rw [h.reached_eq key (List.getElem?_eq_getElem hi), decide_eq_true_eq] at hr
    rw [h.reached_eq key (List.getElem?_eq_getElem hj), decide_eq_true_eq]
    exact hr.trans (h.key_le hlt (List.getElem?_eq_getElem hi) (List.getElem?_eq_getElem hj) (List.getLast_mem _)
      (List.getLast_mem _))

theorem lowerBound (h : Table pageSize records chunks) (ht : Opened crc pageSize chunks t) (key : Bytes) :
    ∃ p t', t.lowerBound crc key = some (p, t') ∧ Opened crc pageSize chunks t' ∧ p ≤ chunks.length ∧
      (∀ i < p, reached chunks key i = false) ∧ ∀ i, p ≤ i → i < chunks.length →
        reached chunks key i = true := by
  have hcount : t.header.pageCount = chunks.length := by
    rw [ht.header]
    rfl
  rw [SSTable.lowerBound, hcount]
  refine BinarySearch.lowerBound_spec (I := Opened crc pageSize chunks) ?_
    (fun i j => h.reached_mono key) (Nat.sub_le _ _)
    (Nat.zero_le _) le_rfl ht (fun i hi => absurd hi (Nat.not_lt_zero i)) (fun i hge hlt => absurd hlt (not_lt.mpr hge))
  intro i hi s hs
  obtain ⟨s', hpage, hs'⟩ := h.getPage hs (List.getElem?_eq_getElem hi)
  refine ⟨s', ?_, hs'⟩
  rw [h.reached_eq key (List.getElem?_eq_getElem hi), SSTable.reaches, hpage, Option.bind_some, Page.maxKey,
    List.getLast?_eq_some_getLast (h.nonempty _ (List.getElem_mem hi))]
  rfl

/-! ### The iterator -/

def start (range : ScanRange) (records : List (Record Bytes)) : List (Record Bytes) :=
  match range.lowerBound with
  | some lo => records.dropWhile fun r => r.key < lo
  | none => records

/-- A place in the table: a record of a page, or the end; `rem` is what is left from there on. -/
def Positioned (chunks : List (List (Record Bytes))) (p i : ℕ) (rem : List (Record Bytes)) : Prop :=
  Chunks.rest chunks p i = rem ∧ ∀ c, chunks[p]? = some c → i < c.length

theorem positioned_page (h : Table pageSize records chunks) (p : ℕ) :
    Positioned chunks p 0 (Chunks.rest chunks p 0) :=
  ⟨rfl, fun c hc => List.length_pos_of_ne_nil (h.nonempty c (List.mem_of_getElem? hc))⟩

theorem nextImpl (h : Table pageSize records chunks) (ht : Opened crc pageSize chunks t) {it : SSTableIterator}
    {rem : List (Record Bytes)} (hit : Positioned chunks it.currentPage it.currentRecord rem) :
    ∃ it' t', it.nextImpl crc t = some (it', t') ∧ Opened crc pageSize chunks t' ∧ it'.range = it.range ∧
      it'.next = rem.head? ∧ Positioned chunks it'.currentPage it'.currentRecord rem.tail := by
  obtain ⟨hrest, hplace⟩ := hit
  have hcount : t.header.pageCount = chunks.length := by
    rw [ht.header]
    rfl
  rw [SSTableIterator.nextImpl, hcount]
  split_ifs with hend
  · -- the end of the table
    have hnil : rem = [] := by rw [← hrest, Chunks.rest_of_le hend]
    refine ⟨_, t, rfl, ht, rfl, by rw [hnil]; rfl, ?_, hplace⟩
    rw [hnil]
    exact Chunks.rest_of_le hend _
  · obtain ⟨c, hc⟩ : ∃ c, chunks[it.currentPage]? = some c := ⟨_, List.getElem?_eq_getElem (not_le.mp hend)⟩
    have hi := hplace c hc
    obtain ⟨t', hpage, ht'⟩ := h.getPage ht hc
    have hcons := Chunks.rest_cons hc hi
    rw [hrest] at hcons
    rw [hpage, Option.bind_some, Page.at?, List.getElem?_eq_getElem hi, Option.map_some, Page.size]
    refine ⟨_, t', rfl, ht', ?_⟩
    split_ifs with hlast
    · -- the last record of its page
      refine ⟨rfl, by rw [hcons]; rfl, ?_⟩
      have hlen : it.currentRecord + 1 = c.length := le_antisymm hi hlast
      rw [hcons, List.tail_cons, hlen, Chunks.rest_length hc]
      exact h.positioned_page _
    · refine ⟨rfl, by rw [hcons]; rfl, by rw [hcons]; rfl, ?_⟩
      intro c' hc'
      cases Option.some.inj (hc.symm.trans hc')
      exact not_le.mp hlast

/-- Before the page that the search finds everything is below the key. -/
theorem dropWhile_eq (h : Table pageSize records chunks) {key : Bytes} {p : ℕ} (hp : p ≤ chunks.length)
    (hbelow : ∀ i < p, reached chunks key i = false) :
    records.dropWhile (fun r => r.key < key) = (Chunks.rest chunks p 0).dropWhile fun r => r.key < key := by
  have hfront : ∀ r ∈ (chunks.take p).flatten, decide (r.key < key) = true := by
    intro r hr
    obtain ⟨c, hc, hr⟩ := List.mem_flatten.mp hr
    obtain ⟨i, hi, hci⟩ := List.mem_take_iff_getElem.mp hc
    have hat : chunks[i]? = some c := List.getElem?_eq_some_iff.mpr ⟨by omega, hci⟩
    have hnot := hbelow i (by omega)
    rw [h.reached_eq key hat, decide_eq_false_iff_not, not_le] at hnot
    rw [decide_eq_true_eq]
    -- the last record of a sorted page has the greatest key
    exact lt_of_le_of_lt (Record.key_le_of_le ((h.chunk_sorted (List.mem_of_getElem? hat)).rel_getLast hr)) hnot
  have hsplit : records = (chunks.take p).flatten ++ Chunks.rest chunks p 0 := by
    rw [Chunks.rest, List.drop_zero, ← List.flatten_append, List.take_append_drop, h.flatten]
  rw [hsplit, List.dropWhile_append_of_pos hfront]

theorem seek (h : Table pageSize records chunks) (ht : Opened crc pageSize chunks t) (range : ScanRange) :
    ∃ it t', SSTableIterator.seek crc range t = some (it, t') ∧ Opened crc pageSize chunks t' ∧ it.range = range ∧
      Positioned chunks it.currentPage it.currentRecord (start range records) := by
  have hcount : t.header.pageCount = chunks.length := by
    rw [ht.header]
    rfl
  unfold SSTableIterator.seek start
  cases range.lowerBound with
  | none =>
    refine ⟨_, t, rfl, ht, rfl, ?_⟩
    rw [← h.flatten, ← Chunks.rest_zero]
    exact h.positioned_page 0
  | some key =>
    obtain ⟨p, t', hlower, ht', hp, hbelow, habove⟩ := h.lowerBound ht key
    dsimp only
    rw [hlower, Option.bind_some, hcount, h.dropWhile_eq hp hbelow]
    dsimp only
    split_ifs with hlt
    · obtain ⟨c, hc⟩ : ∃ c, chunks[p]? = some c := ⟨_, List.getElem?_eq_getElem hlt⟩
      obtain ⟨t'', hpage, ht''⟩ := h.getPage ht' hc
      -- the page has a record at or above the key
      have hreach := habove p le_rfl hlt
      rw [h.reached_eq key hc, decide_eq_true_eq] at hreach
      have hdrop : c.dropWhile (fun r => r.key < key) ≠ [] := by
        rw [Ne, List.dropWhile_eq_nil_iff]
        intro hall
        have hlast := hall _ (List.getLast_mem (h.nonempty c (List.mem_of_getElem? hc)))
        exact absurd (of_decide_eq_true hlast) (not_lt.mpr hreach)
      have hsplit : c.takeWhile (fun r => r.key < key) ++ c.dropWhile (fun r => r.key < key) = c :=
        List.takeWhile_append_dropWhile
      have hfind : (c.takeWhile fun r => r.key < key).length < c.length := by
        have hlen := congrArg List.length hsplit
        have hpos := List.length_pos_of_ne_nil hdrop
        rw [List.length_append] at hlen
        omega
      have hat : c.drop (c.takeWhile fun r => r.key < key).length = c.dropWhile fun r => r.key < key := by
        calc c.drop (c.takeWhile fun r => r.key < key).length
            = (c.takeWhile (fun r => r.key < key) ++ c.dropWhile (fun r => r.key < key)).drop
                (c.takeWhile fun r => r.key < key).length := by rw [hsplit]
          _ = c.dropWhile fun r => r.key < key := List.drop_left
      rw [hpage]
      refine ⟨_, t'', rfl, ht'', rfl, ?_, ?_⟩
      · change Chunks.rest chunks p (c.takeWhile fun r => r.key < key).length = _
        rw [Chunks.rest_eq_append hc (Nat.zero_le _), Chunks.rest_eq_append hc hfind.le, List.drop_zero, hat,
          List.dropWhile_append, if_neg (by simpa using hdrop)]
      · intro c' hc'
        cases Option.some.inj (hc.symm.trans hc')
        exact hfind
    · refine ⟨_, t', rfl, ht', rfl, ?_⟩
      have hend : p = chunks.length := by omega
      dsimp only
      rw [hend, Chunks.rest_of_le le_rfl, List.dropWhile_nil, ← Chunks.rest_of_le (le_refl chunks.length) 0]
      exact h.positioned_page _

def upTo (range : ScanRange) (rem : List (Record Bytes)) : List (Record Bytes) :=
  match range.upperBound with
  | some hi => rem.takeWhile fun r => r.key ≤ hi
  | none => rem

theorem start_upTo (range : ScanRange) (records : List (Record Bytes)) :
    upTo range (start range records) = scanRecords range records := rfl

theorem hasMore_nil {it : SSTableIterator} (hnext : it.next = none) : it.hasMore = false := by
  rw [SSTableIterator.hasMore, hnext]
  rfl

/-- The iterator goes on while the key is at most the upper bound. -/
theorem upTo_cons {it : SSTableIterator} {r : Record Bytes} (hnext : it.next = some r) (rem : List (Record Bytes)) :
    upTo it.range (r :: rem) = if it.hasMore then r :: upTo it.range rem else [] := by
  unfold upTo
  rw [SSTableIterator.hasMore, hnext, Option.any_some]
  cases it.range.upperBound with
  | none => rfl
  | some hi =>
    dsimp only
    rw [Option.all_some, List.takeWhile_cons]

theorem hasMore_iff {it : SSTableIterator} {rem : List (Record Bytes)} (hnext : it.next = rem.head?) :
    it.hasMore = true ↔ 0 < (upTo it.range rem).length := by
  cases rem with
  | nil =>
    have hnil : upTo it.range [] = [] := by
      unfold upTo
      cases it.range.upperBound <;> rfl
    rw [hasMore_nil hnext, hnil]
    simp
  | cons r rem =>
    rw [upTo_cons hnext]
    cases it.hasMore <;> simp

/-- A scan to its end, or up to some number of records. -/
theorem collect (h : Table pageSize records chunks) (n : ℕ) (ht : Opened crc pageSize chunks t) {it : SSTableIterator}
    {rem : List (Record Bytes)} (hnext : it.next = rem.head?)
    (hit : Positioned chunks it.currentPage it.currentRecord rem.tail) :
    ∃ it' t', it.collect crc n t = some ((upTo it.range rem).take n, it', t') ∧ Opened crc pageSize chunks t' ∧
      (it'.hasMore = true ↔ n < (upTo it.range rem).length) := by
  induction n generalizing t it rem with
  | zero => exact ⟨it, t, by rw [List.take_zero]; rfl, ht, hasMore_iff hnext⟩
  | succ n ih =>
    rw [SSTableIterator.collect]
    split_ifs with hhas
    · cases rem with
      | nil =>
        rw [hasMore_nil hnext] at hhas
        cases hhas
      | cons r rem =>
        obtain ⟨it', t', himpl, ht', hrange, hnext', hit'⟩ := h.nextImpl ht hit
        obtain ⟨it'', t'', hcollect, ht'', hmore⟩ := ih ht' hnext' hit'
        rw [hnext, List.head?_cons, Option.bind_some, himpl, Option.bind_some, hcollect, upTo_cons hnext, if_pos hhas,
          List.take_succ_cons, List.length_cons, ← hrange]
        exact ⟨it'', t'', rfl, ht'', hmore.trans (Nat.succ_lt_succ_iff).symm⟩
    · have hnil : upTo it.range rem = [] := by
        rw [hasMore_iff hnext, not_lt, Nat.le_zero] at hhas
        exact List.length_eq_zero_iff.mp hhas
      refine ⟨it, t, by rw [hnil]; rfl, ht, ?_⟩
      rw [hnil]
      simp [hhas]

/-- A scan delivers the records of its range in order, up to the number that is asked for, and ends behind the last
one. -/
theorem scan (h : Table pageSize records chunks) (ht : Opened crc pageSize chunks t) (range : ScanRange) (n : ℕ) :
    ∃ it t', t.scan crc range n = some ((records.filter fun r => range.contains r.key).take n, it, t') ∧
      Opened crc pageSize chunks t' ∧
      (it.hasMore = true ↔ n < (records.filter fun r => range.contains r.key).length) := by
  obtain ⟨it, t₁, hseek, ht₁, hrange, hit⟩ := h.seek ht range
  obtain ⟨it', t₂, himpl, ht₂, hrange', hnext, hit'⟩ := h.nextImpl ht₁ hit
  obtain ⟨it'', t₃, hcollect, ht₃, hmore⟩ := h.collect n ht₂ hnext hit'
  rw [hrange', hrange, start_upTo, scanRecords_eq_filter h.sorted] at hcollect hmore
  refine ⟨it'', t₃, ?_, ht₃, hmore⟩
  rw [SSTable.scan, SSTableIterator.create, hseek, Option.bind_some, himpl, Option.bind_some]
  exact hcollect

theorem scans (h : Table pageSize records chunks) (ht : Opened crc pageSize chunks t) (history : List (ScanRange × ℕ)) :
    ∃ t', t.scans crc history = some t' ∧ Opened crc pageSize chunks t' := by
  induction history generalizing t with
  | nil => exact ⟨t, rfl, ht⟩
  | cons s history ih =>
    obtain ⟨it, t', hscan, ht', -⟩ := h.scan ht s.1 s.2
    obtain ⟨t'', hscans, ht''⟩ := ih ht'
    refine ⟨t'', ?_, ht''⟩
    rw [SSTable.scans, hscan, Option.bind_some]
    exact hscans

end Table

theorem Paged.length_le (h : Paged pageSize records chunks) : chunks.length ≤ records.length := by
  rw [← h.flatten, List.length_flatten]
  have hone : ∀ n ∈ chunks.map List.length, 1 ≤ n := by
    intro n hn
    obtain ⟨c, hc, rfl⟩ := List.mem_map.mp hn
    exact List.length_pos_of_ne_nil (h.nonempty c hc)
  have hsum := List.card_nsmul_le_sum (chunks.map List.length) 1 hone
  simpa using hsum

/-- What the builder makes of sorted records that fit in a page each. -/
theorem Table.build (crc : Bytes → BitVec 32) (hsmall : pageSize < 2 ^ 31)
    (hfits : ∀ r ∈ records, 16 + 24 + r.key.length + r.value.length ≤ pageSize)
    (hseq : ∀ r ∈ records, r.seqNo < 2 ^ 63) (hsorted : records.Pairwise (· ≤ ·)) (hlen : records.length < 2 ^ 63) :
    ∃ chunks, Table pageSize records chunks ∧ buildWrites crc pageSize records = some
    (tableWrites crc pageSize chunks) := by
  have hpage : ∀ r ∈ records, Fits pageSize [r] := by
    intro r hr
    have hle := hfits r hr
    rw [Fits, rawRecords_singleton, Record.length_write, PageHeader.sdbSize]
    omega
  obtain ⟨chunks, hpaged, hbuild⟩ := buildWrites_eq crc hpage
  exact ⟨chunks, ⟨hpaged, hsmall, hseq, hpaged.length_le.trans_lt hlen, hsorted⟩, hbuild⟩

/-- The builder makes a table of sorted records that fit in a page, and after any scans of it, whatever the capacity of
its cache is, a scan of any range delivers exactly the records of the range in order. -/
theorem scan_built_table (crc : Bytes → BitVec 32) (pageSize : ℕ) (records : List (Record Bytes)) (capacity : ℕ)
    (history : List (ScanRange × ℕ)) (range : ScanRange) (hsmall : pageSize < 2 ^ 31)
    (hfits : ∀ r ∈ records, 16 + 24 + r.key.length + r.value.length ≤ pageSize)
    (hseq : ∀ r ∈ records, r.seqNo < 2 ^ 63) (hsorted : records.Pairwise (· ≤ ·)) (hfile : records.length < 2 ^ 63) :
    ∃ writes t t', buildWrites crc pageSize records = some writes ∧
      SSTable.create (contents writes) capacity = some t ∧
      (∀ r ∈ records, r.seqNo ≤ t.getMaxSeqNo) ∧
      (t.getMaxSeqNo = 0 ∨ ∃ r ∈ records, r.seqNo = t.getMaxSeqNo) ∧
      t.scans crc history = some t' ∧ ∀ n, ∃ it t'',
        t'.scan crc range n = some ((records.filter fun r => range.contains r.key).take n, it, t'') ∧
        (it.hasMore = true ↔ n < (records.filter fun r => range.contains r.key).length) := by
  obtain ⟨chunks, htable, hbuild⟩ := Table.build crc hsmall hfits hseq hsorted hfile
  obtain ⟨t, hcreate, ht⟩ := htable.create crc capacity
  obtain ⟨t', hscans, ht'⟩ := htable.scans ht history
  have hmax : t.getMaxSeqNo = maxSeqNo records := by rw [SSTable.getMaxSeqNo, ht.header, lastHeader, htable.flatten]
  refine ⟨_, t, t', hbuild, hcreate, ?_, ?_, hscans, ?_⟩
  · rw [hmax]
    exact ((foldl_max_le ..).mp le_rfl).2
  · rw [hmax]
    exact foldl_max_eq ..
  · intro n
    obtain ⟨it, t'', hscan, -, hmore⟩ := htable.scan ht' range n
    exact ⟨it, t'', hscan, hmore⟩

/-- Four records on three pages, a cache of one page, an earlier scan of which two records were taken, and a range that
begins in the middle of a page. -/
theorem scan_built_table_three_pages :
    ∃ writes t t' it t'', buildWrites (fun _ => 7) 70
        [⟨[1], 4, [9]⟩, ⟨[1], 2, []⟩, ⟨[3], 1, [8]⟩, ⟨[5], 3, [6, 6, 6]⟩] = some writes ∧
      SSTable.create (contents writes) 1 = some t ∧ t.scans (fun _ => 7) [(.fullScan, 2)] = some t' ∧
      t'.scan (fun _ => 7) ⟨some [2], some [4]⟩ 5 = some ([⟨[3], 1, [8]⟩], it, t'') ∧ it.hasMore = false := by
  obtain ⟨writes, t, t', hbuild, hcreate, -, -, hscans, hscan⟩ := scan_built_table (fun _ => 7) 70
    [⟨[1], 4, [9]⟩, ⟨[1], 2, []⟩, ⟨[3], 1, [8]⟩, ⟨[5], 3, [6, 6, 6]⟩] 1 [(.fullScan, 2)] ⟨some [2],
      some [4]⟩
    (by decide) (by decide) (by decide) (by decide) (by decide)
  obtain ⟨it, t'', hrecords, hmore⟩ := hscan 5
  refine ⟨writes, t, t', it, t'', hbuild, hcreate, hscans, hrecords, ?_⟩
  rw [← Bool.not_eq_true, hmore]
  decide

end Disk

end StructureDb
