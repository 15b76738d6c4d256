import StructureDb.Spec.Server
import StructureDb.Spec.TableFile

/-! The binary formats of the values of the tables and of the catalog. A read past the end of the
buffer is `none`. -/

namespace StructureDb

def BufferReader.readBool : Bytes → Option (Bool × Bytes)
  | [] => none
  | byte :: buf => some (byte ≠ 0, buf)

/-! ### TransactionalValue -/

namespace TransactionalValue

open BufferReader

def read (buf : Bytes) : Option (TransactionalValue × Bytes) :=
  match readInt buf with
  | none => none
  | some (tx, buf) =>
    match readBool buf with
    | none => none
    | some (isDeleted, buf) =>
      match readBool buf with
      | none => none
      | some (isFrozen, buf) =>
        match readString buf with
        | none => none
        | some (value, buf) => some (⟨tx.toNat, isDeleted, isFrozen, value⟩, buf)

def parse (data : Bytes) : Option TransactionalValue := (read data).map Prod.fst

end TransactionalValue

/-! ### The catalog -/

namespace Catalog

/-- `Catalog::TableInfo` with any `int64_t` for its status. -/
structure Info where
  status : BitVec 64
  id : Bytes
deriving DecidableEq

def toString (info : Info) : Bytes := BufferWriter.writeInt info.status ++ info.id

/-- `ParseRecord`: the status, and the rest of the data as the id. -/
def parseRecord (data : Bytes) : Option Info := (BufferReader.readInt data).map fun r => ⟨r.1, r.2⟩

end Catalog

end StructureDb
