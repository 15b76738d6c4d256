import StructureDb.Proofs.TableBuild

/-! One byte of a page is changed. The checksum covers what stands behind the header, and the
header has the checksum itself, so a change there is found; the number of records is
covered by nothing. -/

namespace StructureDb

open BufferWriter BufferReader

namespace Disk

variable {crc : Bytes → BitVec 32}

/-- The checksum of data changes with any one of its bytes. -/
def DetectsByte (crc : Bytes → BitVec 32) : Prop :=
  ∀ (data : Bytes) (i : ℕ) (b : Byte), i < data.length → data[i]? ≠ some b → crc (data.set i b) ≠ crc data

def PageBuilder.build (crc : Bytes → BitVec 32) (pageSize : ℕ) (records : List (Record Bytes)) : Bytes :=
  (records.foldl (fun b r => b.addRecord r.write) (PageBuilder.clear pageSize)).extract crc

theorem PageBuilder.build_eq (crc : Bytes → BitVec 32) (pageSize : ℕ) (records : List (Record Bytes)) :
    PageBuilder.build crc pageSize records = pageBytes crc pageSize records := by
  have hfold : ∀ b : PageBuilder, records.foldl (fun b r => b.addRecord r.write) b =
      ⟨b.pageSize, b.currentPage ++ rawRecords records, b.count + records.length⟩ := by
    induction records with
    | nil =>
      intro b
      simp [rawRecords]
    | cons r records ih =>
      intro b
      rw [List.foldl_cons, ih]
      simp [PageBuilder.addRecord, rawRecords]
      omega
  rw [PageBuilder.build, hfold, pageBytes, PageBuilder.clear, Nat.zero_add]

theorem exists_writeInt {bytes : Bytes} (h : bytes.length = 8) : ∃ n, writeInt n = bytes := by
  have hlt := LittleEndian.decode_lt bytes
  rw [h] at hlt
  refine ⟨BitVec.ofNat 64 (LittleEndian.decode bytes), ?_⟩
  rw [writeInt, toNat_ofNat_of_lt hlt, ← h]
  exact LittleEndian.encode_decode bytes

theorem set_ne {bytes : Bytes} {i : ℕ} {b : Byte} (hi : i < bytes.length) (hb : bytes[i]? ≠ some b) :
    bytes.set i b ≠ bytes := by
  intro h
  rw [← h, List.getElem?_set_self hi] at hb
  exact hb rfl

/-- A byte of an integer is changed: it is another integer. -/
theorem set_writeInt {n : BitVec 64} {i : ℕ} {b : Byte} (hi : i < 8) (hb : (writeInt n)[i]? ≠ some b) :
    ∃ n', n' ≠ n ∧ (writeInt n).set i b = writeInt n' := by
  have hlen : ((writeInt n).set i b).length = 8 := by simp
  obtain ⟨n', hn'⟩ := exists_writeInt hlen
  refine ⟨n', ?_, hn'.symm⟩
  rintro rfl
  exact set_ne (by simpa using hi) hb hn'.symm

theorem signExtend_injective {x y : BitVec 32} (h : x.signExtend 64 = y.signExtend 64) : x = y := by
  have hint := congrArg BitVec.toInt h
  rw [BitVec.toInt_signExtend_of_le (by decide), BitVec.toInt_signExtend_of_le (by decide)] at hint
  exact BitVec.eq_of_toInt_eq hint

/-- `Load` by what stands in the header and behind it. -/
theorem Page.tryLoad_eq (count checksum : BitVec 64) (tail : Bytes) :
    Page.tryLoad crc (writeInt count ++ (writeInt checksum ++ tail)) =
      if (crc tail).signExtend 64 ≠ checksum then .error .curraptedSSTable
      else if Page.kMaxStrings < count.toNat then .error .lengthError
      else
        match Page.readRecords count.toNat tail with
        | none => .error .overrun
        | some records => .ok ⟨records⟩ := by
  have hheader : writeInt count ++ (writeInt checksum ++ tail) = (⟨count, checksum⟩ : PageHeader).write ++ tail := by
    rw [PageHeader.write, List.append_assoc]
  rw [hheader]
  rcases hrec : Page.readRecords count.toNat tail with _ | records <;>
    simp only [Page.tryLoad, PageHeader.read_write, getPageChecksum, List.drop_left' (PageHeader.length_write _), hrec]

theorem Page.length_readRecords {n : ℕ} {buf : Bytes} {records : List (Record Bytes)}
    (h : Page.readRecords n buf = some records) : records.length = n := by
  induction n generalizing buf records with
  | zero => cases h; rfl
  | succ n ih =>
    rw [Page.readRecords] at h
    split at h
    · cases h
    · obtain ⟨rest, hrest, rfl⟩ := Option.map_eq_some_iff.mp h
      rw [List.length_cons, ih hrest]

/-- Another number of records is another page, or none; nothing is said about corruption. -/
theorem Page.tryLoad_count (crc : Bytes → BitVec 32) {count : BitVec 64} {records : List (Record Bytes)} (tail : Bytes)
    (hcount : count ≠ BitVec.ofNat 64 records.length) :
    Page.tryLoad crc (writeInt count ++ (writeInt ((crc tail).signExtend 64) ++ tail)) ≠ .error .curraptedSSTable ∧
      Page.tryLoad crc (writeInt count ++ (writeInt ((crc tail).signExtend 64) ++ tail)) ≠ .ok ⟨records⟩ := by
  rw [Page.tryLoad_eq, if_neg (not_not.mpr rfl)]
  split_ifs
  · simp
  · cases hread : Page.readRecords count.toNat tail with
    | none => simp
    | some records' =>
      refine ⟨by simp, ?_⟩
      intro he
      cases he
      refine hcount ?_
      rw [Page.length_readRecords hread, BitVec.ofNat_toNat, BitVec.setWidth_eq]

/-- A change of one byte goes undetected exactly if it is in the number of records. -/
theorem corruption_detected (crc : Bytes → BitVec 32) (hcrc : DetectsByte crc) (pageSize : ℕ)
    (records : List (Record Bytes)) (i : ℕ) (b : Byte) (hi : i < (PageBuilder.build crc pageSize records).length)
    (hb : (PageBuilder.build crc pageSize records)[i]? ≠ some b) :
    (Page.tryLoad crc ((PageBuilder.build crc pageSize records).set i b) = .error .curraptedSSTable ∨
      Page.tryLoad crc ((PageBuilder.build crc pageSize records).set i b) = .ok ⟨records⟩) ↔ 8 ≤ i := by
  obtain ⟨tail, checksum, hpage, -, rfl⟩ := pageBytes_eq crc pageSize records
  rw [PageBuilder.build_eq, hpage, PageHeader.write, List.append_assoc] at hi hb ⊢
  dsimp only at hi hb ⊢
  rw [List.length_append, List.length_append, length_writeInt, length_writeInt] at hi
  by_cases hcount : i < 8
  · rw [List.getElem?_append_left (by simpa using hcount)] at hb
    rw [List.set_append_left _ _ (by simpa using hcount)]
    obtain ⟨count', hne, hset⟩ := set_writeInt hcount hb
    obtain ⟨hcurrapted, hok⟩ := Page.tryLoad_count crc tail hne
    rw [hset]
    exact iff_of_false (not_or.mpr ⟨hcurrapted, hok⟩) (not_le.mpr hcount)
  · refine iff_of_true (Or.inl ?_) (not_lt.mp hcount)
    rw [List.getElem?_append_right (by simpa using hcount), length_writeInt] at hb
    rw [List.set_append_right _ _ (by simpa using hcount), length_writeInt]
    by_cases hsum : i - 8 < 8
    · rw [List.getElem?_append_left (by simpa using hsum)] at hb
      rw [List.set_append_left _ _ (by simpa using hsum)]
      obtain ⟨checksum', hne, hset⟩ := set_writeInt hsum hb
      rw [hset, Page.tryLoad_eq, if_pos hne.symm]
    · rw [List.getElem?_append_right (by simpa using hsum), length_writeInt] at hb
      rw [List.set_append_right _ _ (by simpa using hsum), length_writeInt, Page.tryLoad_eq, if_pos]
      intro he
      exact hcrc tail (i - 8 - 8) b (by omega) hb (signExtend_injective he)

def byteSum (data : Bytes) : BitVec 32 := BitVec.ofNat 32 (data.map Fin.val).sum

theorem detectsByte_byteSum : DetectsByte byteSum := by
  intro data i b hi hb he
  have hsum := congrArg BitVec.toNat he
  rw [byteSum, byteSum, BitVec.toNat_ofNat, BitVec.toNat_ofNat] at hsum
  have hset : data.set i b = data.take i ++ b :: data.drop (i + 1) :=
    List.set_eq_take_append_cons_drop .. |>.trans (if_pos hi)
  have hdata : data = data.take i ++ data[i] :: data.drop (i + 1) := by
    rw [List.cons_getElem_drop_succ, List.take_append_drop]
  have hsame : b.val = data[i].val := by
    rw [hset] at hsum
    conv_rhs at hsum => rw [hdata]
    simp only [List.map_append, List.map_cons, List.sum_append, List.sum_cons] at hsum
    have hlt := b.isLt
    have hlt' := data[i].isLt
    omega
  rw [List.getElem?_eq_getElem hi] at hb
  exact hb (congrArg some (Fin.ext hsame.symm))

/-- The byte of the key is changed. -/
theorem corruption_detected_key :
    DetectsByte byteSum ∧
      ((Page.tryLoad byteSum ((PageBuilder.build byteSum 64 [⟨[7], 1, [8]⟩]).set 24 9) = .error .curraptedSSTable ∨
        Page.tryLoad byteSum ((PageBuilder.build byteSum 64 [⟨[7], 1, [8]⟩]).set 24 9) =
          .ok ⟨[⟨[7], 1, [8]⟩]⟩) ↔ 8 ≤ 24) :=
  ⟨detectsByte_byteSum, corruption_detected byteSum detectsByte_byteSum 64 [⟨[7], 1, [8]⟩] 24 9 (by decide +kernel)
    (by decide +kernel)⟩

/-- The number of records is changed from one to none: the page is loaded without its record. -/
theorem count_changed :
    DetectsByte byteSum ∧
      Page.tryLoad byteSum (PageBuilder.build byteSum 64 [⟨[7], 1, [8]⟩]) = .ok ⟨[⟨[7], 1, [8]⟩]⟩ ∧
      Page.tryLoad byteSum ((PageBuilder.build byteSum 64 [⟨[7], 1, [8]⟩]).set 0 0) = .ok ⟨[]⟩ :=
  ⟨detectsByte_byteSum, by decide +kernel, by decide +kernel⟩

end Disk

end StructureDb
