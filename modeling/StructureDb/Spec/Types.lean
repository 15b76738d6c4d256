import StructureDb.Lib.Decimal
import StructureDb.Lib.Merge
import Mathlib.Data.Prod.Lex
import Mathlib.Order.Lex

/-! Byte strings, records with `Record::operator<`, scan ranges, and the file
names the server formats, sorts and parses back. -/

namespace StructureDb

abbrev Byte := Fin 256

instance Byte.neZero : NeZero 256 := ⟨by decide⟩

/-- `std::string`: bytes, compared lexicographically. -/
abbrev Bytes := List Byte

instance Bytes.lawfulBEq : LawfulBEq Bytes := inferInstance

/-- `lsm::Record`. Sequence numbers start at 1 and only grow, so `int64_t` is a natural
number here; `V` is the type of the stored values. -/
structure Record (V : Type) where
  key : Bytes
  seqNo : ℕ
  value : V
deriving DecidableEq, Repr

namespace Record

variable {V : Type}

/-- `Record::operator<` is the order of this triple: key ascending, `seq_no` descending, value. -/
def sortKey (r : Record V) : Lex (Bytes × Lex (ℕᵒᵈ × V)) :=
  toLex (r.key, toLex (OrderDual.toDual r.seqNo, r.value))

theorem sortKey_injective : Function.Injective (sortKey (V := V)) := by
  rintro ⟨k, s, v⟩ ⟨k', s', v'⟩ h
  simp only [sortKey, EmbeddingLike.apply_eq_iff_eq, Prod.mk.injEq] at h
  obtain ⟨rfl, rfl, rfl⟩ := h
  rfl

instance [LinearOrder V] : LinearOrder (Record V) := LinearOrder.lift' sortKey sortKey_injective

/-- `Record::operator<` as the source writes it. -/
def operatorLt [LinearOrder V] (r s : Record V) : Prop :=
  if r.key ≠ s.key then r.key < s.key
  else if r.seqNo ≠ s.seqNo then r.seqNo > s.seqNo
  else r.value < s.value

theorem lt_iff [LinearOrder V] (r s : Record V) :
    r < s ↔ r.key < s.key ∨ r.key = s.key ∧ (s.seqNo < r.seqNo ∨ r.seqNo = s.seqNo ∧ r.value < s.value) := by
  change r.sortKey < s.sortKey ↔ _
  simp [sortKey, Prod.Lex.toLex_lt_toLex]

theorem lt_iff_operatorLt [LinearOrder V] (r s : Record V) : r < s ↔ operatorLt r s := by
  rw [lt_iff, operatorLt]
  split_ifs with h1 h2
  · simp [h1]
  · rw [not_not] at h1
    simp [h1, h2]
  · rw [not_not] at h1 h2
    simp [h1, h2]

theorem key_le_of_le [LinearOrder V] {r s : Record V} (h : r ≤ s) : r.key ≤ s.key := by
  by_contra hc
  exact absurd ((lt_iff s r).mpr (Or.inl (not_le.mp hc))) (not_lt.mpr h)

/-- Among the versions of one key, the smaller record is the newer one. -/
theorem seqNo_le_of_le [LinearOrder V] {r s : Record V} (h : r ≤ s) (hk : r.key = s.key) :
    s.seqNo ≤ r.seqNo := by
  by_contra hc
  exact absurd ((lt_iff s r).mpr (Or.inr ⟨hk.symm, Or.inl (not_le.mp hc)⟩)) (not_lt.mpr h)

end Record

/-- `lsm::ScanRange`; both bounds are inclusive. -/
structure ScanRange where
  lowerBound : Option Bytes := none
  upperBound : Option Bytes := none

def ScanRange.fullScan : ScanRange := {}

def ScanRange.contains (range : ScanRange) (key : Bytes) : Bool :=
  (range.lowerBound.all fun lo => decide (lo ≤ key)) && range.upperBound.all fun hi => decide (key ≤ hi)

def ScanRange.only (key : Bytes) : ScanRange := ⟨some key, some key⟩

@[simp] theorem ScanRange.contains_only (key k : Bytes) : (ScanRange.only key).contains k = decide (k = key) := by
  simp only [ScanRange.contains, ScanRange.only, Option.all_some, ← Bool.decide_and, decide_eq_decide]
  exact ⟨fun h => le_antisymm h.2 h.1, fun h => h ▸ ⟨le_rfl, le_rfl⟩⟩

def digitByte (d : ℕ) : Byte := Fin.ofNat 256 (48 + d)

/-- `std::format("{:04d}", n)` -/
def fmt04 (n : ℕ) : Bytes := (Decimal.pad 4 n).map digitByte

def sstSuffix : Bytes := [46, 115, 115, 116, 46, 115, 100, 98]

def walSuffix : Bytes := [46, 119, 97, 108, 46, 115, 100, 98]

def sstName (n : ℕ) : Bytes := fmt04 n ++ sstSuffix

def walName (n : ℕ) : Bytes := fmt04 n ++ walSuffix

/-- `std::stoll` on the names the server lists: the leading decimal digits, none if there are
none. (A file name has no sign or leading blank, and the numbers stay far below 2^63.) -/
def stoll (s : Bytes) : Option ℕ :=
  match s.takeWhile (fun c => 48 ≤ c ∧ c ≤ 57) with
  | [] => none
  | ds => some (Decimal.val (ds.map fun c => c.val - 48))

end StructureDb
