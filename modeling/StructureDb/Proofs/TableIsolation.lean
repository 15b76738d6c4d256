import StructureDb.Proofs.Rollback
import StructureDb.Proofs.SysTables

/-! Tables do not share rows. A session reads under the name of a table only what was upserted under that name, by a
writer that saw the same storage, behind the creation of that storage: a table that was dropped and created again starts
empty. -/

namespace StructureDb

namespace Catalog

variable {o : Options} {w w' : World} {op : Op} {ops trace : List Op} {h g : Label} {name table id key value : Bytes}

def Op.Creates (name id : Bytes) (op : Op) : Prop :=
  ∃ h, op = .request (.createTable h name id) ∨ op = .createFound h name id

theorem Op.Creates.name_eq {name' : Bytes} (hop : op.Creates name id) (hop' : op.Creates name' id) : name = name' := by
  obtain ⟨h, rfl | rfl⟩ := hop
  · obtain ⟨h', heq | heq⟩ := hop' <;> cases heq
    rfl
  · obtain ⟨h', heq | heq⟩ := hop' <;> cases heq
    rfl

def Op.Calm (o : Options) (w : World) (op : Op) : Prop := Machine.Guarded (World.step o) World.Calm w (op.ops w)

instance (o : Options) (w : World) (op : Op) : Decidable (op.Calm o w) :=
  inferInstanceAs (Decidable (Machine.Guarded ..))

/-- A step of the run created the storage, which did not exist, for the table. -/
def Born (o : Options) (ops : List Op) (table id : Bytes) : Prop :=
  ∃ before op after v, ops = before ++ op :: after ∧ Op.Creates table id op ∧
    Machine.run (step o) (.start o) before = some v ∧ v.db.storages id = none

/-- The value was upserted under the name of the table, by a writer that saw the storage, and the storage was there. -/
def Served (o : Options) (ops : List Op) (g : Label) (table id key value : Bytes) : Prop :=
  ∃ before after v t, ops = before ++ .request (.upsert g table key value) :: after ∧
    Machine.run (step o) (.start o) before = some v ∧ v.tx g = some t ∧ v.db.getTable t table = some id ∧
    Born o before table id

theorem Born.append (hb : Born o ops table id) (more : List Op) : Born o (ops ++ more) table id := by
  obtain ⟨before, op, after, v, rfl, hop, hv, hid⟩ := hb
  exact ⟨before, op, after ++ more, v, by simp, hop, hv, hid⟩

theorem Served.append (hs : Served o ops g table id key value) (more : List Op) :
    Served o (ops ++ more) g table id key value := by
  obtain ⟨before, after, v, t, rfl, hv, ht, hid, hb⟩ := hs
  exact ⟨before, after ++ more, v, t, by simp, hv, ht, hid, hb⟩

/-- What a step adds to the history, as far as values are concerned. -/
inductive Writes (w w' : World) : Op → List HistEvent → Prop
  | none (op : Op) {ev : List HistEvent} (quiet : ∀ e ∈ ev, ∀ g k v, e ≠ .write g k (some v)) : Writes w w' op ev
  | create {op : Op} {name id : Bytes} (h : Label) (creates : op.Creates name id)
      (fresh : w.db.storages id = Option.none) (foreign : id ∉ internalTables) (added : (w'.db.storages id).isSome) :
      Writes w w' op [.write h (kSysTables, name) (some (TableInfo.toBytes ⟨false, id⟩))]
  | drop (op : Op) (h : Label) (name id : Bytes) :
      Writes w w' op [.write h (kSysTables, name) (some (TableInfo.toBytes ⟨true, id⟩))]
  | upsert {h : Label} {t : TransactionId} {table id : Bytes} (key value : Bytes) (tx : w.tx h = some t)
      (opened : w.db.getTable t table = some id) :
      Writes w w' (.request (.upsert h table key value)) [.write h (id, key) (some value)]

theorem upsert_hist (hs : w.step o (.upsert h id key value) = some w') :
    w'.hist = .write h (id, key) (some value) :: w.hist := by
  cases World.step_effect hs with
  | write hv _ _ hwrite =>
    cases hv
    obtain ⟨txStorage, db, seqNo, -, -, rfl⟩ := World.writeRow_cases hwrite
    rfl

theorem run_upsert_hist (hs : Machine.run (World.step o) w [.upsert h id key value] = some w') :
    w'.hist = .write h (id, key) (some value) :: w.hist := by
  obtain ⟨v, hput, hs⟩ := Machine.run_cons.mp hs
  cases hs
  exact upsert_hist hput

theorem create_writes (hop : op.Creates name id)
    (hs : Machine.run (World.step o) w
      [.upsert h kSysTables name (TableInfo.toBytes ⟨false, id⟩), .addStorage id] = some w') :
    ∃ ev, w'.hist = ev ++ w.hist ∧ Writes w w' op ev := by
  obtain ⟨v, hput, hs⟩ := Machine.run_cons.mp hs
  obtain ⟨u, hadd, hs⟩ := Machine.run_cons.mp hs
  cases hs
  have hhist := upsert_hist hput
  have hstored := (World.step_effect hput).stored trivial id
  have hstored' := (World.step_effect hadd).stored trivial id
  cases World.step_effect hadd with
  | write hv _ _ _ => cases hv
  | addStorage hnew =>
    obtain ⟨hid, hfree, -⟩ := Db.addStorage_cases hnew
    refine ⟨[_], hhist, .create h hop ?_ hid (hstored'.mpr (.inl rfl))⟩
    rw [hfree] at hstored
    simpa using hstored

/-- The steps of the world that write no value. -/
theorem quiet_step {e : StructureDb.Op} (hs : Machine.run (World.step o) w [e] = some w')
    (he : ∀ h id key value, e ≠ .upsert h id key value) : ∃ ev, w'.hist = ev ++ w.hist ∧ Writes w w' op ev := by
  obtain ⟨v, hv, hs⟩ := Machine.run_cons.mp hs
  cases hs
  cases World.step_effect hv with
  | write hver _ _ hwrite =>
    obtain ⟨txStorage, db, seqNo, -, -, rfl⟩ := World.writeRow_cases hwrite
    cases e <;> cases hver
    · exact absurd rfl (he _ _ _ _)
    · exact ⟨[_], rfl, .none op (by simp [TransactionalValue.payload])⟩
    · exact ⟨[_], rfl, .none op (by simp [TransactionalValue.payload])⟩
  | commit => exact ⟨[_], rfl, .none op (by simp)⟩
  | rollback => exact ⟨[_], rfl, .none op (by simp)⟩
  | _ => exact ⟨[], rfl, .none op (by simp)⟩

theorem request_writes {r : Request} (hs : r.step o w = some w') :
    ∃ ev, w'.hist = ev ++ w.hist ∧ Writes w w' (.request r) ev := by
  have hsame {v : World} (hv : v.hist = w.hist) : ∃ ev, v.hist = ev ++ w.hist ∧ Writes w v (.request r) ev :=
    ⟨[], hv, .none _ (by simp)⟩
  unfold Request.step at hs
  cases r with
  | begin h => exact quiet_step hs (by simp)
  | createTable h name id =>
    simp only [Request.ops] at hs
    split at hs
    · cases hs
      exact hsame rfl
    · rename_i info hinfo
      obtain ⟨t, -, hadd⟩ := Option.bind_eq_some_iff.mp hinfo
      obtain ⟨-, rfl⟩ := addStorage_row hadd
      exact create_writes ⟨h, .inl rfl⟩ hs
  | dropTable h name =>
    simp only [Request.ops] at hs
    split at hs
    · cases hs
      exact hsame rfl
    · rename_i info hinfo
      obtain ⟨t, -, hdrop⟩ := Option.bind_eq_some_iff.mp hinfo
      obtain ⟨-, id, rfl⟩ := deleteStorage_row hdrop
      exact ⟨[_], run_upsert_hist hs, .drop _ h name id⟩
  | upsert h table key value =>
    simp only [Request.ops] at hs
    split at hs
    · cases hs
      exact hsame rfl
    · rename_i id hid
      obtain ⟨t, ht, hid⟩ := Option.bind_eq_some_iff.mp hid
      exact ⟨[_], run_upsert_hist hs, .upsert key value ht hid⟩
  | delete h table key =>
    simp only [Request.ops] at hs
    split at hs
    · cases hs
      exact hsame rfl
    · exact quiet_step hs (by simp)
  | commit h =>
    simp only [Request.ops] at hs
    split_ifs at hs
    · cases hs
      exact hsame rfl
    · exact quiet_step hs (by simp)
  | flush => exact quiet_step hs (by simp)
  | compaction h =>
    by_cases hh : h ∈ w.begun.map Prod.fst
    · obtain ⟨v, hv, -⟩ := Machine.run_cons.mp hs
      rw [World.step, if_pos hh] at hv
      cases hv
    · rw [show Machine.run (World.step o) w _ = _ from Request.step_compaction hh] at hs
      cases hs
      exact hsame rfl
  | clean => exact quiet_step hs (by simp)

theorem step_writes (hs : step o w op = some w') : ∃ ev, w'.hist = ev ++ w.hist ∧ Writes w w' op ev := by
  unfold step at hs
  cases op with
  | request r => exact request_writes hs
  | createFound h name id =>
    simp only [Op.ops] at hs
    split_ifs at hs
    · cases hs
      exact ⟨[], rfl, .none _ (by simp)⟩
    · exact create_writes ⟨h, .inr rfl⟩ hs
  | dropFound h name id =>
    simp only [Op.ops] at hs
    split_ifs at hs
    · cases hs
      exact ⟨[], rfl, .none _ (by simp)⟩
    · exact ⟨[_], run_upsert_hist hs, .drop _ h name id⟩
  | rollback h => exact quiet_step hs (by simp)

theorem step_stored (hc : op.Calm o w) (hs : step o w op = some w') (hid : (w.db.storages id).isSome) :
    (w'.db.storages id).isSome :=
  Machine.run_inv (P := fun _ v => (v.db.storages id).isSome) hid
    (fun _ _ _ _ hv hcalm he => ((World.step_effect he).stored hcalm id).mpr (.inr hv)) hc hs

/-- Somebody entered the storage into the catalog under the name. -/
def Entered (hist : List HistEvent) (name id : Bytes) : Prop :=
  ∃ g data, .write g (kSysTables, name) (some data) ∈ hist ∧ TableInfo.parse data = ⟨false, id⟩

/-- A storage is entered under one name, behind its creation, and its rows are upserts under that name. -/
structure Owned (o : Options) (trace : List Op) (w : World) : Prop where
  run : Machine.run (step o) (.start o) trace = some w
  inv : w.Inv
  entered : ∀ {name id}, Entered w.hist name id → id ∉ internalTables ∧ (w.db.storages id).isSome ∧
    Born o trace name id
  unique : ∀ {name name' id}, Entered w.hist name id → Entered w.hist name' id → name = name'
  rows : ∀ {g id key value}, .write g (id, key) (some value) ∈ w.hist → id ≠ kSysTables →
    ∃ table, Entered w.hist table id ∧ Served o trace g table id key value

/-- The storage that a session sees under a name was entered under it. -/
theorem entered_of_getTable (hw : w.Inv) {t : TransactionId} (ht : w.tx h = some t)
    (hid : w.db.getTable t name = some id) : Entered w.hist name id := by
  rw [Db.getTable] at hid
  split_ifs at hid
  rw [Db.getStorageId, Db.getTableInfo, hw.lookup_eq ht] at hid
  rcases hr : TxMap.read h (kSysTables, name) w.hist with _ | _ | data
  · rw [hr] at hid
    cases hid
  · rw [hr] at hid
    cases hid
  · rw [hr] at hid
    obtain ⟨g, -, hm⟩ := TxMap.mem_of_read hr
    refine ⟨g, data, hm, ?_⟩
    simp only [Option.join_some, Option.map_some, ite_eq_iff, reduceCtorEq, and_false, false_or,
      Option.some.injEq] at hid
    obtain ⟨hd, rfl⟩ := hid
    rw [Bool.not_eq_true] at hd
    rw [← hd]

theorem Entered.append {hist : List HistEvent} (he : Entered hist name id) (ev : List HistEvent) :
    Entered (ev ++ hist) name id := by
  obtain ⟨g, data, hm, hp⟩ := he
  exact ⟨g, data, List.mem_append_right _ hm, hp⟩

theorem Owned.opened (hw : Owned o trace w) {t : TransactionId} (ht : w.tx h = some t)
    (hid : w.db.getTable t name = some id) : Entered w.hist name id ∧ id ≠ kSysTables := by
  have he := entered_of_getTable hw.inv ht hid
  refine ⟨he, ?_⟩
  rintro rfl
  exact (hw.entered he).1 (by decide)

/-- What is entered behind a step was entered before it, or the step creates it. -/
theorem Owned.entered_step (hw : Owned o trace w) {ev : List HistEvent} (hwrites : Writes w w' op ev)
    (he : Entered (ev ++ w.hist) name id) :
    Entered w.hist name id ∨
      op.Creates name id ∧ w.db.storages id = none ∧ id ∉ internalTables ∧ (w'.db.storages id).isSome := by
  obtain ⟨g, data, hm, hp⟩ := he
  rcases List.mem_append.mp hm with hm | hm
  · cases hwrites with
    | none _ hquiet => exact absurd rfl (hquiet _ hm g _ data)
    | create h hop hfree hid hadded =>
      cases List.mem_singleton.mp hm
      rw [TableInfo.parse_toBytes] at hp
      cases hp
      exact .inr ⟨hop, hfree, hid, hadded⟩
    | drop h name' id' =>
      cases List.mem_singleton.mp hm
      rw [TableInfo.parse_toBytes] at hp
      cases hp
    | upsert key value ht hid =>
      cases List.mem_singleton.mp hm
      exact absurd rfl (hw.opened ht hid).2
  · exact .inl ⟨g, data, hm, hp⟩

theorem Owned.rows_step (hw : Owned o trace w) {ev : List HistEvent} (hwrites : Writes w w' op ev)
    (hm : .write g (id, key) (some value) ∈ ev ++ w.hist) (hid : id ≠ kSysTables) :
    ∃ table, Entered w.hist table id ∧ Served o (trace ++ [op]) g table id key value := by
  rcases List.mem_append.mp hm with hm | hm
  · cases hwrites with
    | none _ hquiet => exact absurd rfl (hquiet _ hm g _ value)
    | create | drop =>
      cases List.mem_singleton.mp hm
      exact absurd rfl hid
    | upsert key' value' ht hopen =>
      cases List.mem_singleton.mp hm
      have he := (hw.opened ht hopen).1
      exact ⟨_, he, trace, [], w, _, rfl, hw.run, ht, hopen, (hw.entered he).2.2⟩
  · obtain ⟨table, he, hserved⟩ := hw.rows hm hid
    exact ⟨table, he, hserved.append _⟩

theorem Owned.step (hw : Owned o trace w) (hc : op.Calm o w) (hs : step o w op = some w') :
    Owned o (trace ++ [op]) w' := by
  obtain ⟨ev, hhist, hwrites⟩ := step_writes hs
  have hstep {name id : Bytes} (he : Entered w'.hist name id) := hw.entered_step hwrites (hhist ▸ he)
  constructor
  · exact Machine.run_append hw.run (Machine.run_cons.mpr ⟨w', hs, rfl⟩)
  · exact hw.inv.run_calm hc hs
  · intro name id he
    rcases hstep he with he | ⟨hop, hfree, hid, hadded⟩
    · obtain ⟨hid, hstored, hborn⟩ := hw.entered he
      exact ⟨hid, step_stored hc hs hstored, hborn.append _⟩
    · exact ⟨hid, hadded, trace, op, [], w, rfl, hop, hw.run, hfree⟩
  · intro name name' id he he'
    -- a storage that is entered exists, and a step creates none that exists
    rcases hstep he with he | ⟨hop, hfree, -⟩ <;> rcases hstep he' with he' | ⟨hop', hfree', -⟩
    · exact hw.unique he he'
    · have hstored := (hw.entered he).2.1
      rw [hfree'] at hstored
      cases hstored
    · have hstored := (hw.entered he').2.1
      rw [hfree] at hstored
      cases hstored
    · exact hop.name_eq hop'
  · intro g id key value hm hid
    obtain ⟨table, he, hserved⟩ := hw.rows_step hwrites (hhist ▸ hm) hid
    exact ⟨table, hhist ▸ he.append ev, hserved⟩

theorem start_owned (o : Options) : Owned o [] (.start o) := by
  refine ⟨rfl, World.start_inv o, ?_, ?_, ?_⟩
  · rintro name id ⟨g, data, hm, -⟩
    cases hm
  · rintro name name' id ⟨g, data, hm, -⟩ -
    cases hm
  · intro g id key value hm
    cases hm

end Catalog

end StructureDb
