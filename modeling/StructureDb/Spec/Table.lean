import StructureDb.Spec.Lsm
import StructureDb.Spec.Transaction

/-! `TransactionalTable` over one tree: reads pick a version by transaction id and
status, and `CompactStrategy` thins out the versions. Values are kept parsed. -/

namespace StructureDb

structure TransactionalValue where
  tx : TransactionId
  isDeleted : Bool
  isFrozen : Bool
  value : Bytes
deriving DecidableEq

namespace TransactionalValue

/-- The order of the fields. Two records of one tree that differ only here would need the same
key and sequence number. -/
def sortKey (v : TransactionalValue) : Lex (ℕ × Lex (Bool × Lex (Bool × Bytes))) :=
  toLex (v.tx, toLex (v.isDeleted, toLex (v.isFrozen, v.value)))

theorem sortKey_injective : Function.Injective sortKey := by
  rintro ⟨t, d, f, v⟩ ⟨t', d', f', v'⟩ h
  simp only [sortKey, EmbeddingLike.apply_eq_iff_eq, Prod.mk.injEq] at h
  obtain ⟨rfl, rfl, rfl, rfl⟩ := h
  rfl

instance : LinearOrder TransactionalValue := LinearOrder.lift' sortKey sortKey_injective

def payload (v : TransactionalValue) : Option Bytes := if v.isDeleted then none else some v.value

def size (v : TransactionalValue) : ℕ := 8 + 1 + 1 + (8 + v.value.length)

end TransactionalValue

abbrev Row := Record TransactionalValue

namespace TransactionalTable

variable (s : TxStorage) (tx : TransactionId)

def visible (v : TransactionalValue) : Bool := v.isFrozen || v.tx == tx || s.isCommited v.tx

/-- The test of `Scan`, which does not look at `is_frozen`. -/
def listed (v : TransactionalValue) : Bool := v.tx == tx || s.isCommited v.tx

def lookupRows : List Row → Option Bytes
  | [] => none
  | row :: rest =>
    if visible s tx row.value then
      if row.value.isDeleted then none else some row.value.value
    else lookupRows rest

def lookup (l : Lsm TransactionalValue) (key : Bytes) : Option Bytes := lookupRows s tx (l.scanKey key)

def scanRows : List (Bytes × Bytes) → List Row → List (Bytes × Bytes)
  | result, [] => result
  | result, row :: rest =>
    if listed s tx row.value then
      if row.value.isDeleted then scanRows result rest
      else if result.getLast?.map Prod.fst = some row.key then scanRows result rest
      else scanRows (result ++ [(row.key, row.value.value)]) rest
    else scanRows result rest

def scan (l : Lsm TransactionalValue) (lowerBound upperBound : Option Bytes) : List (Bytes × Bytes) :=
  scanRows s tx [] (l.scanRange ⟨lowerBound, upperBound⟩)

/-- The row `CompactRows` hands on: a committed version is frozen. -/
def freezeRow (row : Row) : Row :=
  if s.getStatus row.value.tx = some .commited ∧ row.value.isFrozen = false then
    { row with value := { row.value with isFrozen := true } }
  else row

/-- `CompactRows`; the output iterator keeps the sequence number of the row read last. -/
def compactRows : Option Bytes → List Row → List Row
  | _, [] => []
  | lastAdded, row :: rest =>
    if row.value.isDeleted then compactRows lastAdded rest
    else if s.getStatus row.value.tx ≠ some .commited ∧ s.getStatus row.value.tx ≠ some .started then
      compactRows lastAdded rest
    else if lastAdded ≠ some row.key then freezeRow s row :: compactRows (some row.key) rest
    else compactRows lastAdded rest

def compact (l : Lsm TransactionalValue) : Lsm TransactionalValue := l.compact (compactRows s none)

end TransactionalTable

end StructureDb
