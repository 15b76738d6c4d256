import StructureDb.Lib.LittleEndian
import StructureDb.Spec.Types

/-! The bytes of the log events, as `sdb::BufferWriter` writes them and `sdb::BufferReader`
reads them. Two things stand for what C++ leaves open: a read past the end of the buffer counts as
an exception, where `BufferReader::Read` copies what lies behind it, and the arguments in
`LsmStorageUpsertEvent::Parse` are evaluated in source order (`parseUpsertIn` takes any order).
`Spec/LogMemory` has the reader without them. -/

namespace StructureDb

namespace BufferWriter

def writeInt (value : BitVec 64) : Bytes := LittleEndian.encode 8 value.toNat

def writeString (value : Bytes) : Bytes := writeInt (BitVec.ofNat 64 value.length) ++ value

end BufferWriter

/-! A reader is the rest of its buffer; `none` is an exception. -/

namespace BufferReader

def readInt (buf : Bytes) : Option (BitVec 64 × Bytes) :=
  if buf.length < 8 then none
  else some (BitVec.ofNat 64 (LittleEndian.decode (buf.take 8)), buf.drop 8)

/-- A negative size is one of at least 2^63 bytes, more than there are. -/
def readString (buf : Bytes) : Option (Bytes × Bytes) :=
  match readInt buf with
  | none => none
  | some (size, buf) =>
    if buf.length < size.toNat then none
    else some (buf.take size.toNat, buf.drop size.toNat)

end BufferReader

inductive LogEvent
  | lsmStorageUpsert (storageId : Bytes) (seqNo : BitVec 64) (key value : Bytes)
  | txStorageCommit (txId : BitVec 64)
deriving DecidableEq

def LogEvent.getType : LogEvent → BitVec 64
  | .lsmStorageUpsert _ _ _ _ => 1
  | .txStorageCommit _ => 2

def LogEvent.flush : LogEvent → Bytes
  | .lsmStorageUpsert storageId seqNo key value =>
    BufferWriter.writeString storageId ++ BufferWriter.writeInt seqNo ++ BufferWriter.writeString key ++
      BufferWriter.writeString value
  | .txStorageCommit txId => BufferWriter.writeInt txId

def flushEvent (event : LogEvent) : Bytes := BufferWriter.writeInt event.getType ++ event.flush

open BufferReader in
/-- `LsmStorageUpsertEvent::Parse`, with its arguments read in source order. -/
def parseUpsert (buf : Bytes) : Option (LogEvent × Bytes) :=
  match readString buf with
  | none => none
  | some (storageId, buf) =>
    match readInt buf with
    | none => none
    | some (seqNo, buf) =>
      match readString buf with
      | none => none
      | some (key, buf) =>
        match readString buf with
        | none => none
        | some (value, buf) => some (.lsmStorageUpsert storageId seqNo key value, buf)

def parseCommit (buf : Bytes) : Option (LogEvent × Bytes) :=
  match BufferReader.readInt buf with
  | none => none
  | some (txId, buf) => some (.txStorageCommit txId, buf)

/-- `kParsers.at` throws for a type that is not there. -/
def parseEvent (buf : Bytes) : Option (LogEvent × Bytes) :=
  match BufferReader.readInt buf with
  | none => none
  | some (type, buf) =>
    if type = 1 then parseUpsert buf
    else if type = 2 then parseCommit buf
    else none

/-- The loop of `OnPage` on a page buffer: the events it gets to, and whether an exception ends it.
Every event takes some bytes, so `buf.length` rounds are enough. -/
def parseEvents : ℕ → Bytes → List LogEvent × Bool
  | 0, _ => ([], false)
  | rounds + 1, buf =>
    if buf = [] then ([], false)
    else
      match parseEvent buf with
      | none => ([], true)
      | some (event, buf) => (event :: (parseEvents rounds buf).1, (parseEvents rounds buf).2)

def onPage (page : Bytes) : List LogEvent × Bool := parseEvents page.length page

/-! ### Upsert events in any order of evaluation -/

/-- The arguments of the call of `make_unique` in `LsmStorageUpsertEvent::Parse`. -/
inductive UpsertArgument
  | storageId
  | seqNo
  | key
  | value
deriving DecidableEq

namespace UpsertArgument

def leftToRight : List UpsertArgument := [.storageId, .seqNo, .key, .value]

end UpsertArgument

/-- What the compiler chooses: the arguments are evaluated one after another, in any order. -/
structure EvaluationOrder where
  arguments : List UpsertArgument
  perm : arguments.Perm UpsertArgument.leftToRight

def EvaluationOrder.inSource : EvaluationOrder := ⟨UpsertArgument.leftToRight, .refl _⟩

structure UpsertArguments where
  storageId : Bytes := []
  seqNo : BitVec 64 := 0
  key : Bytes := []
  value : Bytes := []

namespace UpsertArguments

open BufferReader

def evaluate (args : UpsertArguments) (buf : Bytes) : List UpsertArgument → Option (UpsertArguments × Bytes)
  | [] => some (args, buf)
  | .storageId :: rest => (readString buf).bind fun r => evaluate { args with storageId := r.1 } r.2 rest
  | .seqNo :: rest => (readInt buf).bind fun r => evaluate { args with seqNo := r.1 } r.2 rest
  | .key :: rest => (readString buf).bind fun r => evaluate { args with key := r.1 } r.2 rest
  | .value :: rest => (readString buf).bind fun r => evaluate { args with value := r.1 } r.2 rest

end UpsertArguments

def parseUpsertIn (arguments : List UpsertArgument) (buf : Bytes) : Option (LogEvent × Bytes) :=
  (UpsertArguments.evaluate {} buf arguments).map fun r =>
    (.lsmStorageUpsert r.1.storageId r.1.seqNo r.1.key r.1.value, r.2)

def parseEventIn (arguments : List UpsertArgument) (buf : Bytes) : Option (LogEvent × Bytes) :=
  match BufferReader.readInt buf with
  | none => none
  | some (type, buf) =>
    if type = 1 then parseUpsertIn arguments buf
    else if type = 2 then parseCommit buf
    else none

end StructureDb
