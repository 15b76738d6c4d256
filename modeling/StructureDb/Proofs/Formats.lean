import StructureDb.Lib.Codec
import StructureDb.Proofs.TableBuild
import StructureDb.Spec.Formats

/-! What is encoded is decoded: records, transactional values, headers, commit events and catalog
rows. An upsert event is decoded if its arguments are read in the order in which they were
written, and for no other order. -/

namespace StructureDb

open BufferWriter BufferReader Codec

@[simp] theorem readBool_writeBool (value : Bool) (rest : Bytes) :
    readBool (writeBool value ++ rest) = some (value, rest) := by
  cases value <;> rfl

def Record.Encodable (r : Record Bytes) : Prop :=
  r.key.length < 2 ^ 63 ∧ r.value.length < 2 ^ 63 ∧ r.seqNo < 2 ^ 64

def TransactionalValue.Encodable (v : TransactionalValue) : Prop := v.tx < 2 ^ 64 ∧ v.value.length < 2 ^ 63

def Disk.SSTableHeader.Encodable (h : SSTableHeader) : Prop :=
  h.pageSize < 2 ^ 64 ∧ h.pageCount < 2 ^ 64 ∧ h.maxSeqNo < 2 ^ 64

theorem Record.roundTrips : RoundTrips Record.write Record.read Record.Encodable := by
  rintro r ⟨hkey, hvalue, hseq⟩ rest
  exact Record.read_write (by omega) (by omega) hseq rest

theorem TransactionalValue.roundTrips :
    RoundTrips TransactionalValue.toBytes TransactionalValue.read TransactionalValue.Encodable := by
  rintro v ⟨htx, hvalue⟩ rest
  rw [TransactionalValue.read, TransactionalValue.toBytes, List.append_assoc, List.append_assoc, List.append_assoc,
    readInt_writeInt]
  dsimp only
  rw [readBool_writeBool]
  dsimp only
  rw [readBool_writeBool]
  dsimp only
  rw [readString_writeString (by omega)]
  dsimp only
  rw [toNat_ofNat_of_lt htx]

theorem Disk.SSTableHeader.roundTrips :
    RoundTrips SSTableHeader.write SSTableHeader.readFrom SSTableHeader.Encodable :=
  fun _ ⟨hsize, hcount, hseq⟩ rest => SSTableHeader.readFrom_write hsize hcount hseq rest

theorem commit_roundTrips : RoundTrips flushEvent parseEvent fun event => ∃ txId, event = .txStorageCommit txId := by
  rintro event ⟨txId, rfl⟩ rest
  refine parseEvent_flushEvent ?_ rest
  simp [flushEvent, LogEvent.flush]

/-- The rows of the catalog, of which the model keeps the two statuses that there are. -/
theorem TableInfo.toBytes_eq (info : TableInfo) :
    info.toBytes = Catalog.toString ⟨if info.dropped then 2 else 1, info.id⟩ := by
  have hstatus (dropped : Bool) :
      (if dropped then 2 else 1) :: List.replicate 7 0 = writeInt (if dropped then 2 else 1) := by
    revert dropped
    decide +kernel
  rw [TableInfo.toBytes, Catalog.toString, hstatus]

theorem Catalog.parseRecord_toString (info : Info) : parseRecord (Catalog.toString info) = some info := by
  rw [parseRecord, Catalog.toString, readInt_writeInt]
  rfl

/-- Every format in a stream; a list of records; the sizes of the headers. -/
theorem formats_round_trip :
    (RoundTrips Record.write Record.read Record.Encodable ∧
      RoundTrips TransactionalValue.toBytes TransactionalValue.read TransactionalValue.Encodable ∧
      RoundTrips Disk.SSTableHeader.write Disk.SSTableHeader.readFrom Disk.SSTableHeader.Encodable ∧
      RoundTrips Disk.PageHeader.write Disk.PageHeader.read (fun _ => True) ∧
      RoundTrips flushEvent parseEvent fun event => ∃ txId, event = .txStorageCommit txId) ∧
      (∀ v : TransactionalValue, v.Encodable → TransactionalValue.parse v.toBytes = some v) ∧
      (∀ info, Catalog.parseRecord (Catalog.toString info) = some info) ∧
      (∀ records : List (Record Bytes), (∀ r ∈ records, r.Encodable) → ∀ rest,
        decodeMany Record.read records.length (records.flatMap Record.write ++ rest) = some (records, rest)) ∧
      (∀ h : Disk.SSTableHeader, h.write.length = Disk.SSTableHeader.sdbSize) ∧
      ∀ h : Disk.PageHeader, h.write.length = Disk.PageHeader.sdbSize := by
  refine ⟨⟨Record.roundTrips, TransactionalValue.roundTrips, Disk.SSTableHeader.roundTrips,
    fun h _ rest => Disk.PageHeader.read_write h rest, commit_roundTrips⟩, ?_, Catalog.parseRecord_toString, ?_,
    Disk.SSTableHeader.length_write, Disk.PageHeader.length_write⟩
  · intro v hv
    have hread := TransactionalValue.roundTrips v hv []
    rw [List.append_nil] at hread
    rw [TransactionalValue.parse, hread]
    rfl
  · exact fun records hrecords rest => Record.roundTrips.many hrecords rest

/-! ### Upsert events -/

def LogEvent.Encodable : LogEvent → Prop
  | .lsmStorageUpsert storageId _ key value =>
    storageId.length < 2 ^ 63 ∧ key.length < 2 ^ 63 ∧ value.length < 2 ^ 63
  | .txStorageCommit _ => True

theorem parseEventIn_leftToRight {event : LogEvent} (h : event.Encodable) (rest : Bytes) :
    parseEventIn UpsertArgument.leftToRight (flushEvent event ++ rest) = some (event, rest) := by
  rw [parseEventIn, flushEvent, List.append_assoc, readInt_writeInt]
  cases event with
  | lsmStorageUpsert storageId seqNo key value =>
    obtain ⟨hid, hkey, hvalue⟩ := h
    simp only [LogEvent.getType, LogEvent.flush, List.append_assoc, if_true, parseUpsertIn, UpsertArgument.leftToRight,
      UpsertArguments.evaluate]
    rw [readString_writeString (by omega), Option.bind_some, readInt_writeInt, Option.bind_some,
      readString_writeString (by omega), Option.bind_some, readString_writeString (by omega)]
    rfl
  | txStorageCommit txId => simp [LogEvent.getType, LogEvent.flush, parseCommit]

/-- An event that tells all orders from the one in which it was written. -/
def tellingEvent : LogEvent := .lsmStorageUpsert [1] 2 [3] [4]

theorem parseEventIn_tellingEvent :
    ∀ arguments ∈ UpsertArgument.leftToRight.permutations', arguments ≠ UpsertArgument.leftToRight →
      parseEventIn arguments (flushEvent tellingEvent) ≠ some (tellingEvent, []) := by
  decide +kernel

/-- The round trip holds exactly if the compiler evaluates the arguments from left to right. -/
theorem upsert_round_trip (order : EvaluationOrder) :
    (∀ storageId seqNo key value, (LogEvent.lsmStorageUpsert storageId seqNo key value).Encodable → ∀ rest,
      parseEventIn order.arguments (flushEvent (.lsmStorageUpsert storageId seqNo key value) ++ rest) =
        some (.lsmStorageUpsert storageId seqNo key value, rest)) ↔
      order.arguments = UpsertArgument.leftToRight := by
  constructor
  · intro h
    by_contra hne
    refine parseEventIn_tellingEvent order.arguments (List.mem_permutations'.mpr order.perm) hne ?_
    have htelling := h [1] 2 [3] [4] (by simp [LogEvent.Encodable]) []
    rwa [List.append_nil] at htelling
  · intro h storageId seqNo key value hencodable rest
    rw [h]
    exact parseEventIn_leftToRight hencodable rest

/-- From right to left the first string is taken for the value. -/
theorem upsert_right_to_left :
    ∃ order : EvaluationOrder, order.arguments = [.value, .key, .seqNo, .storageId] ∧
      parseEventIn order.arguments (flushEvent (.lsmStorageUpsert [1] 0 [] [])) =
        some (.lsmStorageUpsert [] 0 [] [1], []) :=
  ⟨⟨[.value, .key, .seqNo, .storageId], by decide⟩, rfl, by decide +kernel⟩

end StructureDb
