import StructureDb.Spec.SysTables
import StructureDb.Proofs.CatalogRows
import StructureDb.Proofs.Durability
import StructureDb.Proofs.Visibility

/-! The `sys_tables` view. A row of the catalog is never deleted nor frozen, so the merge that `Scan` reads and the
levels that `Lookup` reads show a session the same row of a name. They part where that row says that the table is
dropped: `GetStorageId` looks at the status and `Catalog::Scan` does not. -/

namespace StructureDb

namespace TransactionalTable

variable (s : TxStorage) (t : TransactionId)

theorem returned_of_plain {row : Row} (hf : row.value.isFrozen = false) (hd : row.value.isDeleted = false) :
    returned s t row = visible s t row.value := by
  simp [returned, listed, visible, hf, hd]

theorem scanSafe_of_plain {l : Lsm TransactionalValue} (ho : l.Ordered)
    (hplain : ∀ row ∈ l.records, row.value.isFrozen = false ∧ row.value.isDeleted = false) (key : Bytes) :
    ScanSafe s t l key := by
  unfold ScanSafe
  rcases hfirst : firstVisible s t (l.scanKey key) with _ | row
  · trivial
  · have hmem {r : Row} (hr : r ∈ l.scanKey key) : r ∈ l.records := by
      rw [Lsm.scanKey_eq_filter ho.sorted] at hr
      exact (List.mem_filter.mp hr).1
    have hrow := (hplain row (hmem (List.mem_of_find?_eq_some hfirst))).2
    dsimp only
    rw [if_neg (by simp [hrow])]
    refine ⟨row, ?_, rfl⟩
    rw [← ho.scanKey_eq_scanRange, ← hfirst, firstVisible]
    refine List.find?_congr fun r hr => ?_
    obtain ⟨hf, hd⟩ := hplain r (hmem hr)
    exact returned_of_plain s t hf hd

end TransactionalTable

namespace Db

/-- A row of the catalog: where it says that the table is there, its storage is. -/
structure Entry (db : Db) (name : Bytes) (row : Row) : Prop where
  plain : row.value.isFrozen = false ∧ row.value.isDeleted = false
  named : name ∉ internalTables
  opened : (TableInfo.parse row.value.value).dropped = false → (TableInfo.parse row.value.value).id ∉ internalTables ∧
    (db.storages (TableInfo.parse row.value.value).id).isSome = true

structure Catalogued (db : Db) : Prop where
  ordered : db.Ordered
  present : (db.storages kSysTables).isSome = true
  entries : ∀ name, ∀ row ∈ db.rows kSysTables name, db.Entry name row

variable {o : Options} {db db' : Db} {t : TransactionId} {name : Bytes}

theorem Entry.mono {row : Row} (h : db.Entry name row)
    (hopen : ∀ id, (db.storages id).isSome = true → (db'.storages id).isSome = true) : db'.Entry name row :=
  ⟨h.plain, h.named, fun hd => ⟨(h.opened hd).1, hopen _ (h.opened hd).2⟩⟩

theorem flush_isSome (db : Db) (id : Bytes) : (db.flush.storages id).isSome = (db.storages id).isSome := by
  simp [flush]

theorem compact_isSome (db : Db) (id id' : Bytes) (h : (db.storages id').isSome = true) :
    ((db.compact id).storages id').isSome = true := by
  unfold compact
  split
  · exact h
  · exact (setStorage_isSome db _).mpr (Or.inr h)

theorem engineUpsert_isSome {id key : Bytes} {value : TransactionalValue} {seqNo : ℕ}
    (he : db.engineUpsert o id key value = some (db', seqNo)) (id' : Bytes) (h : (db.storages id').isSome = true) :
    (db'.storages id').isSome = true := by
  obtain ⟨l, -, -, rfl⟩ := engineUpsert_cases he
  exact (setStorage_isSome db _).mpr (Or.inr h)

namespace Catalogued

theorem congr (h : db.Catalogued) (ho : db'.Ordered)
    (hrows : ∀ name, db'.rows kSysTables name = db.rows kSysTables name)
    (hopen : ∀ id, (db.storages id).isSome = true → (db'.storages id).isSome = true) : db'.Catalogued where
  ordered := ho
  present := hopen _ h.present
  entries := fun name row hrow => (h.entries name row (hrows name ▸ hrow)).mono hopen

/-- The transactions and the log are no part of it. -/
theorem of_storages (h : db.Catalogued) (hs : db'.storages = db.storages) : db'.Catalogued := by
  obtain ⟨storages, txStorage, wal⟩ := db'
  subst hs
  exact ⟨h.ordered, h.present, fun name row hrow => ⟨(h.entries name row hrow).plain, (h.entries name row hrow).named,
    (h.entries name row hrow).opened⟩⟩

theorem flush (h : db.Catalogued) : db.flush.Catalogued :=
  h.congr (flush_ordered h.ordered) (fun name => flush_rows db _ name) fun id hid => by rw [flush_isSome, hid]

theorem compact (h : db.Catalogued) {id : Bytes} (hid : id ≠ kSysTables) : (db.compact id).Catalogued := by
  refine h.congr (compact_ordered h.ordered id) (fun name => ?_) (compact_isSome db id)
  rw [compact_rows h.ordered, if_neg (Ne.symm hid)]

theorem addStorage (h : db.Catalogued) {id : Bytes} (ha : db.addStorage id = some db') : db'.Catalogued := by
  obtain ⟨ho, -, hrows⟩ := addStorage_spec h.ordered ha
  refine h.congr ho (hrows _) fun id' hid' => ?_
  obtain ⟨-, -, rfl⟩ := addStorage_cases ha
  exact (setStorage_isSome db _).mpr (Or.inr hid')

/-- The row behind what `GetTableInfo` returns. -/
theorem getTableInfo (h : db.Catalogued) {info : TableInfo} (hi : db.getTableInfo t name = some info) :
    ∃ row, db.Entry name row ∧ info = TableInfo.parse row.value.value := by
  unfold Db.getTableInfo at hi
  rw [lookup_eq_rows h.ordered, Option.map_eq_some_iff] at hi
  obtain ⟨value, hvalue, rfl⟩ := hi
  obtain ⟨row, hrow, hpayload⟩ := Option.bind_eq_some_iff.mp hvalue
  have hentry := h.entries name row (List.mem_of_find?_eq_some hrow)
  rw [TransactionalTable.payload_of_not_deleted hentry.plain.2] at hpayload
  exact ⟨row, hentry, by rw [Option.some.inj hpayload]⟩

theorem getTableInfo_opened (h : db.Catalogued) {info : TableInfo} (hi : db.getTableInfo t name = some info) :
    name ∉ internalTables ∧
      (info.dropped = false → info.id ∉ internalTables ∧ (db.storages info.id).isSome = true) := by
  obtain ⟨row, hrow, rfl⟩ := h.getTableInfo hi
  exact ⟨hrow.named, hrow.opened⟩

/-- No session writes to the catalog as to a table. -/
theorem getTable_ne (h : db.Catalogued) {id : Bytes} (ht : db.getTable t name = some id) : id ≠ kSysTables := by
  unfold Db.getTable Db.getStorageId at ht
  split_ifs at ht
  split at ht
  · cases ht
  · rename_i info hi
    split_ifs at ht with hd
    cases ht
    have hid := ((h.getTableInfo_opened hi).2 (by simpa using hd)).1
    rintro heq
    exact hid (heq ▸ by decide)

theorem compactTables (h : db.Catalogued) (names : List Bytes) : (db.compactTables t names).Catalogued := by
  induction names generalizing db with
  | nil => exact h
  | cons name names ih =>
    rw [Db.compactTables]
    split
    · exact ih h
    · rename_i id hid
      exact ih (h.compact (h.getTable_ne hid))

theorem engineUpsert (h : db.Catalogued) {id key : Bytes} {value : TransactionalValue} {seqNo : ℕ}
    (hid : id ≠ kSysTables) (he : db.engineUpsert o id key value = some (db', seqNo)) : db'.Catalogued := by
  obtain ⟨ho, -, hrows⟩ := engineUpsert_spec h.ordered he
  refine h.congr ho (fun name => ?_) (engineUpsert_isSome he)
  rw [hrows, if_neg fun hc => hid hc.1.symm]

/-- A write to the catalog, once what it says is there. -/
theorem record (h : db.Catalogued) {value : TransactionalValue} {seqNo : ℕ} {db'' : Db}
    (he : db.engineUpsert o kSysTables name value = some (db', seqNo)) (ho : db''.Ordered)
    (hrows : ∀ name, db''.rows kSysTables name = db'.rows kSysTables name)
    (hopen : ∀ id, (db'.storages id).isSome = true → (db''.storages id).isSome = true)
    (hentry : db''.Entry name ⟨name, seqNo, value⟩) : db''.Catalogued := by
  obtain ⟨-, -, hput⟩ := engineUpsert_spec h.ordered he
  have hmono : ∀ id, (db.storages id).isSome = true → (db''.storages id).isSome = true :=
    fun id hid => hopen id (engineUpsert_isSome he id hid)
  refine ⟨ho, hmono _ h.present, fun name' row hrow => ?_⟩
  rw [hrows, hput] at hrow
  split_ifs at hrow with hc
  · obtain ⟨-, rfl⟩ := hc
    rcases List.mem_cons.mp hrow with rfl | hrow
    · exact hentry
    · exact (h.entries _ row hrow).mono hmono
  · exact (h.entries _ row hrow).mono hmono

end Catalogued

end Db

namespace Catalog

variable {o : Options} {w w' : World} {h : Label} {name id : Bytes}

theorem start_catalogued (o : Options) : (World.start o).db.Catalogued := by
  refine ⟨fun id l hl => ?_, rfl, fun name row hrow => ?_⟩
  · rw [World.start_storages hl]
    exact (LevelsOk.nil _).empty_cons
  · cases hrow

def Foreign : StructureDb.Op → Prop
  | .upsert _ id _ _ => id ≠ kSysTables
  | .delete _ id _ => id ≠ kSysTables
  | .deleteFound _ id _ => id ≠ kSysTables
  | .compact id => id ≠ kSysTables
  | .restart => False
  | _ => True

theorem foreign_version {op : StructureDb.Op} (hop : Foreign op) {t : TransactionId} {key : Bytes}
    {value : TransactionalValue} (hv : op.version t = some (h, id, key, value)) : id ≠ kSysTables := by
  cases op <;> cases hv <;> exact hop

theorem foreign_step {op : StructureDb.Op} (hw : w.db.Catalogued) (hop : Foreign op) (hs : w.step o op = some w') :
    w'.db.Catalogued := by
  cases World.step_effect hs with
  | begin => exact hw.of_storages rfl
  | write hv _ _ hwrite =>
    obtain ⟨txStorage, db, seqNo, -, he, rfl⟩ := World.writeRow_cases hwrite
    have hlocked : Db.Catalogued { w.db with txStorage } := hw.of_storages rfl
    exact hlocked.engineUpsert (foreign_version hop hv) he
  | absent => exact hw
  | commit => exact hw.of_storages rfl
  | rollback => exact hw.of_storages rfl
  | addStorage ha => exact hw.addStorage ha
  | flush => exact hw.flush
  | compact => exact hw.compact hop
  | clean => exact hw.of_storages rfl
  | restart => exact hop.elim

theorem foreign_one {op : StructureDb.Op} (hw : w.db.Catalogued) (hs : Machine.run (World.step o) w [op] = some w')
    (hop : Foreign op) : w'.db.Catalogued := by
  obtain ⟨v, hv, hs⟩ := Machine.run_cons.mp hs
  cases hs
  exact foreign_step hw hop hv

theorem upsert_cases {value : Bytes} (hs : w.step o (.upsert h kSysTables name value) = some w') :
    ∃ (db : Db) (t : TransactionId) (seqNo : ℕ), db.storages = w.db.storages ∧
      db.engineUpsert o kSysTables name ⟨t, false, false, value⟩ = some (w'.db, seqNo) := by
  cases World.step_effect hs with
  | write hv _ _ hwrite =>
    cases hv
    obtain ⟨txStorage, db, seqNo, -, he, rfl⟩ := World.writeRow_cases hwrite
    exact ⟨{ w.db with txStorage }, _, seqNo, rfl, he⟩

theorem create_catalogued (hw : w.db.Catalogued) (hname : name ∉ internalTables)
    (hs : Machine.run (World.step o) w
      [.upsert h kSysTables name (TableInfo.toBytes ⟨false, id⟩), .addStorage id] = some w') : w'.db.Catalogued := by
  obtain ⟨v, hput, hs⟩ := Machine.run_cons.mp hs
  obtain ⟨u, hadd, hs⟩ := Machine.run_cons.mp hs
  cases hs
  obtain ⟨db, t, seqNo, hdb, he⟩ := upsert_cases hput
  have hcat : db.Catalogued := hw.of_storages hdb
  obtain ⟨hord, -, -⟩ := Db.engineUpsert_spec hcat.ordered he
  cases World.step_effect hadd with
  | write hv _ _ _ => cases hv
  | addStorage hnew =>
    obtain ⟨ho, -, hrows⟩ := Db.addStorage_spec hord hnew
    obtain ⟨hid, -, rfl⟩ := Db.addStorage_cases hnew
    refine hcat.record he ho (hrows _) (fun id' hid' => (Db.setStorage_isSome _ _).mpr (Or.inr hid')) ?_
    refine ⟨⟨rfl, rfl⟩, hname, fun _ => ?_⟩
    rw [TableInfo.parse_toBytes]
    exact ⟨hid, (Db.setStorage_isSome _ _).mpr (Or.inl rfl)⟩

theorem drop_catalogued (hw : w.db.Catalogued) (hname : name ∉ internalTables)
    (hs : Machine.run (World.step o) w [.upsert h kSysTables name (TableInfo.toBytes ⟨true, id⟩)] = some w') :
    w'.db.Catalogued := by
  obtain ⟨v, hput, hs⟩ := Machine.run_cons.mp hs
  cases hs
  obtain ⟨db, t, seqNo, hdb, he⟩ := upsert_cases hput
  have hcat : db.Catalogued := hw.of_storages hdb
  refine hcat.record he (Db.engineUpsert_spec hcat.ordered he).1 (fun _ => rfl) (fun _ hid => hid) ?_
  refine ⟨⟨rfl, rfl⟩, hname, fun hd => ?_⟩
  rw [TableInfo.parse_toBytes] at hd
  cases hd

theorem addStorage_row {db : Db} {t : TransactionId} {info : Bytes} (ha : addStorage db t name id = some info) :
    name ∉ internalTables ∧ info = TableInfo.toBytes ⟨false, id⟩ := by
  unfold addStorage at ha
  split_ifs at ha with hname
  refine ⟨hname, ?_⟩
  split at ha
  · exact (Option.some.inj ha).symm
  · split_ifs at ha
    exact (Option.some.inj ha).symm

theorem deleteStorage_row {db : Db} {t : TransactionId} {info : Bytes} (hd : deleteStorage db t name = some info) :
    name ∉ internalTables ∧ ∃ id, info = TableInfo.toBytes ⟨true, id⟩ := by
  unfold deleteStorage at hd
  split_ifs at hd with hname
  refine ⟨hname, ?_⟩
  split at hd
  · cases hd
  · split_ifs at hd
    exact ⟨_, (Option.some.inj hd).symm⟩

theorem request_catalogued {r : Request} (hw : w.db.Catalogued) (hs : r.step o w = some w') : w'.db.Catalogued := by
  unfold Request.step at hs
  cases r with
  | begin h => exact foreign_one hw hs trivial
  | createTable h name id =>
    simp only [Request.ops] at hs
    split at hs
    · cases hs
      exact hw
    · rename_i info hinfo
      obtain ⟨t, -, hadd⟩ := Option.bind_eq_some_iff.mp hinfo
      obtain ⟨hname, rfl⟩ := addStorage_row hadd
      exact create_catalogued hw hname hs
  | dropTable h name =>
    simp only [Request.ops] at hs
    split at hs
    · cases hs
      exact hw
    · rename_i info hinfo
      obtain ⟨t, -, hdrop⟩ := Option.bind_eq_some_iff.mp hinfo
      obtain ⟨hname, id, rfl⟩ := deleteStorage_row hdrop
      exact drop_catalogued hw hname hs
  | upsert h table key value =>
    simp only [Request.ops] at hs
    split at hs
    · cases hs
      exact hw
    · rename_i id hid
      obtain ⟨t, -, hid⟩ := Option.bind_eq_some_iff.mp hid
      exact foreign_one hw hs (hw.getTable_ne hid)
  | delete h table key =>
    simp only [Request.ops] at hs
    split at hs
    · cases hs
      exact hw
    · rename_i id hid
      obtain ⟨t, -, hid⟩ := Option.bind_eq_some_iff.mp hid
      exact foreign_one hw hs (hw.getTable_ne hid)
  | commit h =>
    simp only [Request.ops] at hs
    split_ifs at hs
    · cases hs
      exact hw
    · exact foreign_one hw hs trivial
  | flush => exact foreign_one hw hs trivial
  | compaction h =>
    by_cases hh : h ∈ w.begun.map Prod.fst
    · obtain ⟨v, hv, -⟩ := Machine.run_cons.mp hs
      rw [World.step, if_pos hh] at hv
      cases hv
    · rw [show Machine.run (World.step o) w _ = _ from Request.step_compaction hh] at hs
      cases hs
      have hbegun : w.db.begin.1.Catalogued := hw.of_storages rfl
      exact hbegun.compactTables _
  | clean => exact foreign_one hw hs trivial

theorem step_catalogued {op : Op} (hw : w.db.Catalogued) (hs : step o w op = some w') : w'.db.Catalogued := by
  unfold step at hs
  cases op with
  | request r => exact request_catalogued hw hs
  | createFound h name id =>
    simp only [Op.ops] at hs
    split_ifs at hs with hname
    · cases hs
      exact hw
    · exact create_catalogued hw hname hs
  | dropFound h name id =>
    simp only [Op.ops] at hs
    split_ifs at hs with hname
    · cases hs
      exact hw
    · exact drop_catalogued hw hname hs
  | rollback h => exact foreign_one hw hs trivial

theorem run_catalogued {ops : List Op} (hr : Machine.run (step o) (.start o) ops = some w) : w.db.Catalogued :=
  Machine.run_inv (G := fun _ _ => True) (P := fun _ w => w.db.Catalogued) (start_catalogued o)
    (fun _ _ _ _ hv _ hs => step_catalogued hv hs) (Machine.guarded_of_forall (fun _ _ _ => trivial) _) hr

end Catalog

namespace SysTables

variable {db : Db} (t : TransactionId) (name : Bytes)

/-- `Scan` lists the id in the row that the session sees, dropped or not. -/
theorem mem_scan (h : db.Catalogued) (id : Bytes) :
    (name, id) ∈ scan db t none none ↔ ∃ info, db.getTableInfo t name = some info ∧ info.id = id := by
  obtain ⟨l, hl⟩ := Option.isSome_iff_exists.mp h.present
  have ho := h.ordered _ l hl
  have hsafe : TransactionalTable.ScanSafe db.txStorage t l name := by
    refine TransactionalTable.scanSafe_of_plain _ t ho (fun row hrow => ?_) name
    have hmem : row ∈ db.rows kSysTables row.key := by
      rw [Db.rows_of_some hl]
      exact List.mem_filter.mpr ⟨hrow, by simp⟩
    exact (h.entries _ row hmem).plain
  have hrow (value : Bytes) : (name, value) ∈ db.scan t kSysTables none none ↔
    db.lookup t kSysTables name = some value := by
    simp only [Db.scan, Db.lookup, hl]
    rw [TransactionalTable.mem_scan _ t name ho.sorted,
      ← (TransactionalTable.scan_agrees_key _ t name ho.sorted).mpr hsafe value]
    simp [ScanRange.contains]
  unfold scan Db.getTableInfo
  rw [List.mem_map]
  constructor
  · rintro ⟨⟨name', value⟩, hmem, heq⟩
    obtain ⟨rfl, rfl⟩ := Prod.mk.inj heq
    exact ⟨_, by rw [(hrow value).mp hmem]; rfl, rfl⟩
  · rintro ⟨info, hinfo, rfl⟩
    obtain ⟨value, hvalue, rfl⟩ := Option.map_eq_some_iff.mp hinfo
    exact ⟨(name, value), (hrow value).mpr hvalue, rfl⟩

/-- Where the view has a name, the session opens its table. -/
theorem getTable_of_info (h : db.Catalogued) {info : TableInfo} (hi : db.getTableInfo t name = some info)
    (hd : info.dropped = false) : Session.getTable db t name = .ok (some (.transactional info.id)) := by
  obtain ⟨hname, hopened⟩ := h.getTableInfo_opened hi
  have hid : db.getStorageId t name = some info.id := by
    rw [Db.getStorageId, hi]
    exact if_neg (by simp [hd])
  have hne (internal : Bytes) (hmem : internal ∈ internalTables) : name ≠ internal := fun heq => hname (heq ▸ hmem)
  rw [Session.getTable, if_neg (hne _ (by decide)), if_neg (hne _ (by decide)), hid]
  exact if_pos (hopened hd).2

/-- Whatever was created and dropped, a full scan of the view agrees with its `Lookup` and with `GetTable` on every name
but those whose row, as the session sees it, says that the table is dropped. -/
theorem view_agrees_iff (o : Options) (ops : List Catalog.Op) (w : World)
    (hr : Machine.run (Catalog.step o) (.start o) ops = some w) (t : TransactionId) (name : Bytes) :
    (∀ id, (name, id) ∈ scan w.db t none none ↔
      lookup w.db t name = some id ∧ ∃ table, Session.getTable w.db t name = .ok (some table)) ↔
    ∀ info, w.db.getTableInfo t name = some info → info.dropped = false := by
  have h := Catalog.run_catalogued hr
  simp only [mem_scan t name h]
  rcases hi : w.db.getTableInfo t name with _ | info
  · have hl : lookup w.db t name = none := by rw [lookup, Db.getStorageId, hi]
    simp [hl]
  · rcases hd : info.dropped with _ | _
    · have hl : lookup w.db t name = some info.id := by
        rw [lookup, Db.getStorageId, hi]
        exact if_neg (by simp [hd])
      have hopen := getTable_of_info t name h hi hd
      simp [hl, hopen, hd]
    · have hl : lookup w.db t name = none := by
        rw [lookup, Db.getStorageId, hi]
        exact if_pos hd
      simp [hl, hd]

/-- A committed table and, beside it, one of a session that goes on. -/
theorem view_agrees_created :
    ∃ w, Machine.run (Catalog.step ⟨0⟩) (.start ⟨0⟩)
        [.request (.begin 0), .request (.createTable 0 [116] [1]), .request (.commit 0), .request (.begin 1),
          .request (.createTable 1 [117] [2])] = some w ∧
      w.db.getTableInfo 11 [117] ≠ none ∧
      ∀ id, ([117], id) ∈ scan w.db 11 none none ↔
        lookup w.db 11 [117] = some id ∧ ∃ table, Session.getTable w.db 11 [117] = .ok (some table) := by
  refine Machine.exists_run_of (T := fun w => (w.db.getTableInfo 11 [117]).map TableInfo.dropped = some false)
    (by decide) ?_
  intro w hw hp
  obtain ⟨info, hi, hd⟩ := Option.map_eq_some_iff.mp hp
  refine ⟨by simp [hi], (view_agrees_iff ⟨0⟩ _ w hw 11 [117]).mpr fun info' hi' => ?_⟩
  rw [← Option.some.inj (hi.symm.trans hi')]
  exact hd

/-- A dropped table stays in the view: the scan of a later session lists it with its id, where `Lookup` in the view
finds nothing and `GetTable` returns a null pointer. -/
theorem scan_lists_dropped :
    ∃ w, Machine.run (Catalog.step ⟨0⟩) (.start ⟨0⟩)
        [.request (.begin 0), .request (.createTable 0 [116] [1]), .request (.commit 0), .request (.begin 1),
          .request (.dropTable 1 [116]), .request (.commit 1), .request (.begin 2)] = some w ∧
      w.tx 2 = some 12 ∧ ([116], [1]) ∈ scan w.db 12 none none ∧ lookup w.db 12 [116] = none ∧
      Session.getTable w.db 12 [116] = .ok none := by
  refine Machine.exists_run_of (T := fun w => w.tx 2 = some 12 ∧ ([116], [1]) ∈ scan w.db 12 none none ∧
    lookup w.db 12 [116] = none) (by decide) ?_
  intro w _ hp
  obtain ⟨htx, hscan, hl⟩ := hp
  have hid : w.db.getStorageId 12 [116] = none := hl
  refine ⟨htx, hscan, hl, ?_⟩
  rw [Session.getTable, if_neg (by decide), if_neg (by decide), hid]

end SysTables

end StructureDb
