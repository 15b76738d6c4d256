import StructureDb.Lib.Serial
import StructureDb.Proofs.Rollback

/-! Concurrent transactions leave the database as if they had run one after another, in the order of
their commits. A row stays locked from its write to the end of the transaction, so none writes a row
twice, and in the serial run no lock is ever missing. This is about what is written: a
transaction may have read what it would not read in the serial run. -/

namespace StructureDb

def Op.ofEvent : HistEvent → Op
  | .write h (id, key) (some value) => .upsert h id key value
  | .write h (id, key) none => .deleteFound h id key
  | .commit h => .commit h
  | .rollback h => .rollback h

/-- The committed transactions one after another, each with its writes. -/
def serialOps : List HistEvent → List Op
  | [] => []
  | .write _ _ _ :: rest => serialOps rest
  | .commit h :: rest =>
    serialOps rest ++ .begin h :: ((TxMap.writesOf h rest).reverse.map Op.ofEvent ++ [.commit h])
  | .rollback _ :: rest => serialOps rest

def Op.adds : Op → Bool
  | .addStorage _ => true
  | _ => false

namespace World

variable {o : Options} {w w' u v : World} {op : Op} {h : Label} {hist : List HistEvent}

/-! ### The histories -/

/-- No transaction commits twice or writes under one row key twice, and every write goes to a storage. -/
structure Regular (stored : Bytes → Prop) (hist : List HistEvent) : Prop where
  commits : hist.Pairwise fun e f => ∀ h, e = .commit h → f ≠ .commit h
  writes : hist.Pairwise fun e f => ∀ h id id' key p q, e = .write h (id, key) p → f ≠ .write h (id', key) q
  stored : ∀ h id key p, .write h (id, key) p ∈ hist → stored id

namespace Regular

variable {stored : Bytes → Prop}

theorem nil (stored : Bytes → Prop) : Regular stored [] := ⟨.nil, .nil, fun _ _ _ _ hm => by cases hm⟩

theorem tail {e : HistEvent} (hr : Regular stored (e :: hist)) : Regular stored hist :=
  ⟨hr.commits.of_cons, hr.writes.of_cons, fun h id key p hm => hr.stored h id key p (List.mem_cons_of_mem _ hm)⟩

theorem mono {stored' : Bytes → Prop} (hr : Regular stored hist) (hs : ∀ id, stored id → stored' id) :
    Regular stored' hist :=
  ⟨hr.commits, hr.writes, fun h id key p hm => hs id (hr.stored h id key p hm)⟩

end Regular

/-- A started transaction writes a row only while it does not hold it, and commits once. -/
theorem Effect.regular (he : Effect o w op w') (hw : w.Inv) (hc : w.Calm op)
    (hr : Regular (fun id => (w.db.storages id).isSome = true) w.hist) :
    Regular (fun id => (w'.db.storages id).isSome = true) w'.hist := by
  have hr' : Regular (fun id => (w'.db.storages id).isSome = true) w.hist :=
    hr.mono fun id hid => (he.stored hc id).mpr (.inr hid)
  cases he with
  | write hv ht hfound hs =>
    rename_i g t id key value
    obtain ⟨-, rfl, -⟩ := Op.version_spec hv
    obtain ⟨s, db, n, hl, hu, rfl⟩ := writeRow_cases hs
    obtain ⟨l, hid, -, rfl⟩ := Db.engineUpsert_cases hu
    have hfree : w.db.txStorage.rowLocks key = none := (TxStorage.acquireRowLock_spec hl).1
    refine ⟨List.pairwise_cons.mpr ⟨?_, hr'.commits⟩, List.pairwise_cons.mpr ⟨?_, hr'.writes⟩, ?_⟩
    · intro f _ h he
      cases he
    · intro f hf h id₁ id₂ key' p q he hf'
      cases he
      -- the row would be locked by the transaction itself
      have hlocked := hw.refines.held g _ id₂ key ht (TxMap.own_ne_none_of_mem (hf' ▸ hf))
      rw [hfree] at hlocked
      cases hlocked
    · intro h id' key' p hm
      rcases List.mem_cons.mp hm with he | hm
      · cases he
        exact (Db.setStorage_isSome _ _).mpr (.inl rfl)
      · exact hr'.stored h id' key' p hm
  | commit ht =>
    rename_i h t
    refine ⟨List.pairwise_cons.mpr ⟨?_, hr'.commits⟩, List.pairwise_cons.mpr ⟨?_, hr'.writes⟩, ?_⟩
    · intro f hf g he hf'
      cases he
      have hended := hw.refines.ended h (.inl (hf' ▸ hf))
      rw [tx, hended] at ht
      cases ht
    · intro f _ g id id' key p q he
      cases he
    · intro g id key p hm
      rcases List.mem_cons.mp hm with he | hm
      · cases he
      · exact hr'.stored g id key p hm
  | rollback ht =>
    refine ⟨List.pairwise_cons.mpr ⟨?_, hr'.commits⟩, List.pairwise_cons.mpr ⟨?_, hr'.writes⟩, ?_⟩
    · intro f _ g he
      cases he
    · intro f _ g id id' key p q he
      cases he
    · intro g id key p hm
      rcases List.mem_cons.mp hm with he | hm
      · cases he
      · exact hr'.stored g id key p hm
  | restart => exact hc.elim
  | _ => exact hr'

/-! ### One transaction alone -/

structure Alone (stored : Bytes → Prop) (h : Label) (u : World) : Prop where
  inv : u.Inv
  started : ∀ g, (u.tx g).isSome = true ↔ g = h
  stored : ∀ id, stored id → (u.db.storages id).isSome = true

variable {stored : Bytes → Prop}

theorem calm_of_plain (hp : op.plain = true) (w : World) : w.Calm op := by
  cases op <;> trivial

/-- A row that the only transaction has not written is not locked. -/
theorem Alone.unlocked (ha : Alone stored h u) {key : Bytes} (hfree : ∀ id p, .write h (id, key) p ∉ u.hist) :
    u.db.txStorage.rowLocks key = none := by
  by_contra hl
  obtain ⟨t, hl⟩ := Option.ne_none_iff_exists'.mp hl
  obtain ⟨g, id, hg, hown⟩ := ha.inv.refines.wrote key t hl
  obtain rfl : g = h := (ha.started g).mp (Option.isSome_of_eq_some hg)
  obtain ⟨p, hp⟩ := Option.ne_none_iff_exists'.mp hown
  exact hfree id p (TxMap.mem_of_own hp)

/-- A write of the only transaction goes through. -/
theorem Alone.write (ha : Alone stored h u) {id key : Bytes} (p : Option Bytes) (hid : stored id)
    (hfree : ∀ id p, .write h (id, key) p ∉ u.hist) :
    ∃ u', u.step o (Op.ofEvent (.write h (id, key) p)) = some u' ∧ Alone stored h u' ∧
      u'.hist = .write h (id, key) p :: u.hist ∧ u'.begun = u.begun := by
  obtain ⟨t, ht⟩ := Option.isSome_iff_exists.mp ((ha.started h).mpr rfl)
  -- both kinds of writes put a version of the row
  obtain ⟨value, hpayload, hstep, hplain, hstarted⟩ : ∃ value : TransactionalValue, value.payload = p ∧
      u.step o (Op.ofEvent (.write h (id, key) p)) = u.writeRow o h id key value ∧
      (Op.ofEvent (.write h (id, key) p)).plain = true ∧
      ∀ g before, (Op.ofEvent (.write h (id, key) p)).started g before = before := by
    cases p with
    | none => exact ⟨⟨t, true, false, []⟩, rfl, by simp only [Op.ofEvent, step, ht], rfl, fun _ _ => rfl⟩
    | some value => exact ⟨⟨t, false, false, value⟩, rfl, by simp only [Op.ofEvent, step, ht], rfl, fun _ _ => rfl⟩
  obtain ⟨u', hu'⟩ := writeRow_enabled o h value (ha.unlocked hfree) (ha.stored id hid)
  have he := step_effect (hstep.trans hu')
  have hc := calm_of_plain hplain u
  refine ⟨u', hstep.trans hu', ⟨he.inv ha.inv hc, ?_, ?_⟩, ?_⟩
  · intro g
    rw [he.started ha.inv hc, hstarted, ha.started]
  · intro id' hid'
    exact (he.stored hc id').mpr (.inr (ha.stored id' hid'))
  · obtain ⟨s, db, n, -, -, rfl⟩ := writeRow_cases hu'
    exact ⟨by rw [hpayload], rfl⟩

/-- So do its writes one after another, under row keys it has not used. -/
theorem Alone.writes (ha : Alone stored h u) {es : List HistEvent}
    (hes : ∀ e ∈ es, ∃ id key p, e = .write h (id, key) p ∧ stored id ∧ ∀ id p, .write h (id, key) p ∉ u.hist)
    (honce : es.Pairwise fun e f => ∀ id id' key p q, e = .write h (id, key) p → f ≠ .write h (id', key) q) :
    ∃ u', Machine.run (step o) u (es.map Op.ofEvent) = some u' ∧ Alone stored h u' ∧
      u'.hist = es.reverse ++ u.hist ∧ u'.begun = u.begun := by
  induction es generalizing u with
  | nil => exact ⟨u, rfl, ha, rfl, rfl⟩
  | cons e es ih =>
    obtain ⟨id, key, p, rfl, hid, hfree⟩ := hes e List.mem_cons_self
    obtain ⟨u₁, hstep, ha₁, hhist, hbegun⟩ := ha.write p hid hfree
    obtain ⟨hfirst, honce⟩ := List.pairwise_cons.mp honce
    have hes₁ : ∀ f ∈ es, ∃ id key p, f = .write h (id, key) p ∧ stored id ∧
      ∀ id p, .write h (id, key) p ∉ u₁.hist := by
      intro f hf
      obtain ⟨id', key', p', rfl, hid', hfree'⟩ := hes f (List.mem_cons_of_mem _ hf)
      refine ⟨id', key', p', rfl, hid', fun id'' p'' hm => ?_⟩
      rw [hhist] at hm
      rcases List.mem_cons.mp hm with he | hm
      · cases he
        exact hfirst _ hf id id' key p p' rfl rfl
      · exact hfree' id'' p'' hm
    obtain ⟨u', hrun, ha', hhist', hbegun'⟩ := ih ha₁ hes₁ honce
    refine ⟨u', Machine.run_cons.mpr ⟨u₁, hstep, hrun⟩, ha', ?_, hbegun'.trans hbegun⟩
    rw [hhist', hhist, List.reverse_cons, List.append_assoc]
    rfl

/-! ### One transaction after another -/

structure Idle (stored : Bytes → Prop) (hist : List HistEvent) (v : World) : Prop where
  inv : v.Inv
  serial : v.hist = TxMap.serial hist
  begun : ∀ h, h ∈ v.begun.map Prod.fst → .commit h ∈ hist
  started : ∀ h, (v.tx h).isSome = false
  stored : ∀ id, stored id → (v.db.storages id).isSome = true

theorem Idle.transaction (hi : Idle stored hist v) (hr : Regular stored (.commit h :: hist)) :
    ∃ v', Machine.run (step o) v (.begin h :: ((TxMap.writesOf h hist).reverse.map Op.ofEvent ++ [.commit h])) =
      some v' ∧
      Idle stored (.commit h :: hist) v' := by
  have hfresh : h ∉ v.begun.map Prod.fst := by
    intro hm
    exact (List.pairwise_cons.mp hr.commits).1 _ (hi.begun h hm) h rfl rfl
  have hbegin : Effect o v (.begin h) _ := .begin hfresh
  have halone : Alone stored h { v with db := v.db.begin.1, begun := (h, v.db.txStorage.nextTxId) :: v.begun } := by
    refine ⟨hbegin.inv hi.inv trivial, ?_, hi.stored⟩
    intro g
    rw [hbegin.started hi.inv trivial, Op.started, hi.started, Bool.or_false, beq_iff_eq, eq_comm]
  -- the events of the run so far belong to other transactions
  have hnew : ∀ id key p, .write h (id, key) p ∉ v.hist := fun id key p hm => hfresh (hi.inv.refines.labels _ hm)
  have hes : ∀ e ∈ (TxMap.writesOf h hist).reverse, ∃ id key p, e = .write h (id, key) p ∧ stored id ∧
      ∀ id p, .write h (id, key) p ∉ v.hist := by
    intro e he
    obtain ⟨hm, hw⟩ := List.mem_filter.mp (List.mem_reverse.mp he)
    cases e with
    | write g k p =>
      obtain rfl : g = h := by simpa [TxMap.Event.isWriteOf] using hw
      exact ⟨k.1, k.2, p, rfl, hr.stored g k.1 k.2 p (List.mem_cons_of_mem _ hm), fun id p => hnew id k.2 p⟩
    | commit g => cases hw
    | rollback g => cases hw
  have honce : (TxMap.writesOf h hist).reverse.Pairwise fun e f => ∀ id id' key p q, e = .write h (id, key) p →
      f ≠ .write h (id', key) q := by
    rw [List.pairwise_reverse]
    refine (hr.tail.writes.sublist List.filter_sublist).imp ?_
    intro e f hef id id' key p q hf he
    exact hef h id' id key q p he hf
  obtain ⟨u, hrun, hu, hhist, hbegun⟩ := halone.writes hes honce
  obtain ⟨t, ht⟩ := Option.isSome_iff_exists.mp ((hu.started h).mpr rfl)
  have hcommit : Effect o u (.commit h) _ := .commit ht
  refine ⟨_, Machine.run_cons.mpr ⟨_, hbegin.step, Machine.run_append hrun (Machine.run_cons.mpr ⟨_, hcommit.step,
    rfl⟩)⟩, hcommit.inv hu.inv trivial, ?_, ?_, ?_, ?_⟩
  · change TxMap.Event.commit h :: u.hist = _
    rw [hhist, List.reverse_reverse, TxMap.serial, ← hi.serial]
  · intro g hg
    change g ∈ u.begun.map Prod.fst at hg
    rw [hbegun, List.map_cons] at hg
    rcases List.mem_cons.mp hg with rfl | hg
    · exact List.mem_cons_self
    · exact List.mem_cons_of_mem _ (hi.begun g hg)
  · intro g
    rw [hcommit.started hu.inv trivial, Op.started, Bool.and_eq_false_iff]
    by_cases hg : g = h
    · subst hg
      exact .inl (by simp)
    · refine .inr ?_
      rw [← Bool.not_eq_true, hu.started]
      exact hg
  · exact hu.stored

theorem Idle.run (hi : Idle stored [] v) (hr : Regular stored hist) :
    ∃ v', Machine.run (step o) v (serialOps hist) = some v' ∧ Idle stored hist v' := by
  induction hist with
  | nil => exact ⟨v, rfl, hi⟩
  | cons e hist ih =>
    obtain ⟨v', hrun, hi'⟩ := ih hr.tail
    cases e with
    | write g k p =>
      exact ⟨v', hrun, hi'.inv, hi'.serial, fun h hm => List.mem_cons_of_mem _ (hi'.begun h hm), hi'.started,
        hi'.stored⟩
    | commit g =>
      obtain ⟨v'', hrun', hi''⟩ := hi'.transaction (o := o) hr
      exact ⟨v'', Machine.run_append hrun hrun', hi''⟩
    | rollback g =>
      exact ⟨v', hrun, hi'.inv, hi'.serial, fun h hm => List.mem_cons_of_mem _ (hi'.begun h hm), hi'.started,
        hi'.stored⟩

/-! ### The serial run -/

structure Bare (w v : World) : Prop where
  inv : v.Inv
  hist : v.hist = []
  begun : v.begun = []
  stored : ∀ id, (w.db.storages id).isSome = true ↔ (v.db.storages id).isSome = true

theorem Bare.keep (hb : Bare w v) (hop : op.adds = true) (he : Effect o w op w') :
    ∃ v', v.step o op = some v' ∧ Bare w' v' := by
  cases he with
  | addStorage hdb =>
    rename_i id db
    obtain ⟨hin, hnone, rfl⟩ := Db.addStorage_cases hdb
    have hnone' : v.db.storages id = none := by
      rw [← Option.not_isSome_iff_eq_none, ← hb.stored, hnone]
      exact Bool.false_ne_true
    have hadd : v.db.addStorage id = some (v.db.setStorage id (Lsm.init Dir.empty)) := by
      rw [Db.addStorage, if_neg]
      rintro (hc | hc)
      · exact hin hc
      · rw [hnone'] at hc
        cases hc
    have hv : Effect o v (.addStorage id) _ := .addStorage hadd
    refine ⟨_, hv.step, hv.inv hb.inv trivial, hb.hist, hb.begun, ?_⟩
    intro id'
    rw [hv.stored trivial, ← hb.stored]
    exact (Effect.addStorage hdb : Effect o w _ _).stored trivial id'
  | write hv => cases op <;> cases hv <;> cases hop
  | _ => cases hop

theorem Bare.drop (hb : Bare w v) (hop : op.adds = false) (he : Effect o w op w') (hc : w.Calm op) : Bare w' v := by
  refine ⟨hb.inv, hb.hist, hb.begun, fun id => ?_⟩
  rw [he.stored hc, ← hb.stored]
  refine or_iff_right ?_
  rintro rfl
  cases hop

theorem Inv.lookup_begin (hw : w.Inv) (id key : Bytes) :
    w.db.begin.1.lookup w.db.begin.2 id key = (TxMap.committed (id, key) w.hist).join := by
  obtain ⟨h, hh⟩ := Infinite.exists_notMem_finset (w.begun.map Prod.fst).toFinset
  rw [List.mem_toFinset] at hh
  have he : Effect ⟨0⟩ w (.begin h) _ := .begin hh
  have ht : World.tx { w with db := w.db.begin.1, begun := (h, w.db.txStorage.nextTxId) :: w.begun } h =
      some w.db.begin.2 := hw.refines.txOf_begin.mpr (.inl ⟨rfl, rfl⟩)
  have hread := (he.inv hw trivial).lookup_eq ht id key
  have hown : TxMap.own h (id, key) w.hist = none := by
    refine TxMap.own_eq_none fun e hm hl => ?_
    exact hh (hl ▸ hw.refines.labels e hm)
  rw [TxMap.read, hown, Option.none_or] at hread
  exact hread

/-! ### The files -/

def unflushing : Op → Bool
  | .flush | .compact _ | .clean | .restart => false
  | _ => true

theorem unflushing_serialOps : ∀ op ∈ serialOps hist, unflushing op = true := by
  induction hist with
  | nil => simp [serialOps]
  | cons e rest ih =>
    cases e with
    | write _ _ _ => exact ih
    | rollback _ => exact ih
    | commit h =>
      intro op hop
      rw [serialOps, List.mem_append, List.mem_cons, List.mem_append, List.mem_singleton] at hop
      rcases hop with hop | rfl | hop | rfl
      · exact ih op hop
      · rfl
      · obtain ⟨e, -, rfl⟩ := List.mem_map.mp hop
        rcases e with ⟨_, _, _ | _⟩ | _ | _ <;> rfl
      · rfl

def Unflushed (w : World) : Prop := ∀ id l, w.db.storages id = some l → l.ssTables = []

theorem Unflushed.step (hw : w.Unflushed) (he : Effect o w op w') (hop : unflushing op = true) : w'.Unflushed := by
  cases he with
  | begin | absent | commit _ | rollback _ => exact hw
  | write _ _ _ hs =>
    obtain ⟨txStorage, db, seqNo, -, hu, rfl⟩ := writeRow_cases hs
    refine Db.engineUpsert_inv (P := fun _ l => l.ssTables = []) hu hw fun l hl _ => ?_
    exact (Lsm.doPut_ssTables ..).trans (hw _ l hl)
  | addStorage ha => exact Db.addStorage_inv (P := fun _ l => l.ssTables = []) hw ha rfl
  | flush | compact _ | clean | restart => cases hop

/-- In the serial run all versions are in mem tables. -/
theorem unflushed_serial {ops : List Op}
    (hr : Machine.run (step o) (start o) (ops.filter Op.adds ++ serialOps hist) = some v) : v.Unflushed := by
  refine Machine.run_inv (G := fun _ op => unflushing op = true) (P := fun _ v => v.Unflushed) ?_
    (fun _ _ _ _ hu hg hs => hu.step (step_effect hs) hg) (Machine.guarded_of_forall ?_ _) hr
  · intro id l hl
    rw [start_storages hl]
    rfl
  · intro op hop _
    rcases List.mem_append.mp hop with hop | hop
    · have hadds := (List.mem_filter.mp hop).2
      cases op <;> first | rfl | cases hadds
    · exact unflushing_serialOps op hop

theorem Unflushed.onDisk (hw : w.Unflushed) (f : FileOptions) : w.db.OnDisk f := by
  intro id l hl range
  rw [Lsm.readTables, hw id l hl]
  rfl

/-- Whatever the interleaving, the run in which the committed transactions follow one another in the order of their
commits, each with the same writes, goes through, and afterwards a new transaction finds the same tables and, in files
whose pages hold every record, the same rows. -/
theorem committed_writes_serializable (o : Options) (f : FileOptions) (hsmall : f.pageSize < 2 ^ 31) (ops : List Op)
    (hfits : ∀ op ∈ ops, op.FitsRecord f.pageSize) (hlen : ops.length < 2 ^ 62) (w : World)
    (hg : Machine.Guarded (step o) Calm (start o) ops) (hr : Machine.run (step o) (start o) ops = some w) :
    ∃ v, Machine.run (step o) (start o) (ops.filter Op.adds ++ serialOps w.hist) = some v ∧
      (∀ id key, ∃ value, v.db.begin.1.lookupFiles f v.db.begin.2 id key = some value ∧
        w.db.begin.1.lookupFiles f w.db.begin.2 id key = some value) ∧
      ∀ table, v.db.begin.1.getTable v.db.begin.2 table = w.db.begin.1.getTable w.db.begin.2 table := by
  obtain ⟨hw, hregular⟩ := Machine.run_inv
    (P := fun _ w => w.Inv ∧ Regular (fun id => (w.db.storages id).isSome = true) w.hist) ⟨start_inv o, Regular.nil _⟩
    (fun _ _ _ _ h hc hs => ⟨(step_effect hs).inv h.1 hc, (step_effect hs).regular h.1 hc h.2⟩) hg hr
  obtain ⟨v₀, hrun₀, hbare⟩ := Machine.run_filter (R := Bare) (p := Op.adds)
    (⟨start_inv o, rfl, rfl, fun _ => Iff.rfl⟩ : Bare (start o) (start o))
    (fun _ _ hp _ _ _ hb _ _ hs => hb.keep hp (step_effect hs))
    (fun _ _ hp _ _ _ hb hc hs => hb.drop hp (step_effect hs) hc) hg
    (Machine.guarded_of_forall (fun op hop v => calm_of_plain (by
      have hp := (List.mem_filter.mp hop).2
      cases op <;> first | rfl | cases hp) v) _) hr
  have hidle : Idle (fun id => (w.db.storages id).isSome = true) [] v₀ := by
    refine ⟨hbare.inv, hbare.hist, ?_, ?_, fun id => (hbare.stored id).mp⟩
    · intro h hm
      rw [hbare.begun] at hm
      cases hm
    · intro h
      rw [tx, hbare.begun]
      rfl
  obtain ⟨v, hrun, hv⟩ := hidle.run (o := o) hregular
  have hlookup : ∀ id key, v.db.begin.1.lookup v.db.begin.2 id key = w.db.begin.1.lookup w.db.begin.2 id key := by
    intro id key
    rw [hv.inv.lookup_begin, hw.lookup_begin, hv.serial, TxMap.committed_serial]
  have hdisk : w.db.begin.1.OnDisk f := Limited.run_calm hg hr hfits hlen hsmall
  have hdisk' : v.db.begin.1.OnDisk f := (unflushed_serial (Machine.run_append hrun₀ hrun)).onDisk f
  refine ⟨v, Machine.run_append hrun₀ hrun, fun id key => ⟨_, hdisk'.lookup _ id key, ?_⟩, fun table => ?_⟩
  · rw [hdisk.lookup, hlookup]
  simp only [Db.getTable, Db.getStorageId, Db.getTableInfo, hlookup]

/-- Two of four transactions are open when the first one commits, and one of them never ends; the tables are flushed and
compacted in between. -/
theorem committed_writes_serializable_interleaved :
    ∃ w v, Machine.run (step ⟨0⟩) (start ⟨0⟩)
        [.addStorage [84], .begin 0, .begin 1, .upsert 0 [84] [1] [5], .upsert 1 [84] [2] [6], .begin 2,
          .upsert 2 [84] [3] [9], .commit 1, .flush, .begin 3, .deleteFound 3 [84] [2], .upsert 0 [84] [4] [7],
            .commit 3,
          .compact [84], .commit 0] = some w ∧
      Machine.run (step ⟨0⟩) (start ⟨0⟩)
        [.addStorage [84], .begin 1, .upsert 1 [84] [2] [6], .commit 1, .begin 3, .deleteFound 3 [84] [2], .commit 3,
          .begin 0, .upsert 0 [84] [1] [5], .upsert 0 [84] [4] [7], .commit 0] = some v ∧
      ∀ key, ∃ value, v.db.begin.1.lookupFiles ⟨fun _ => 0, 64, 3⟩ v.db.begin.2 [84] key = some value ∧
        w.db.begin.1.lookupFiles ⟨fun _ => 0, 64, 3⟩ w.db.begin.2 [84] key = some value := by
  obtain ⟨w, hrun, hserial⟩ : ∃ w, Machine.run (step ⟨0⟩) (start ⟨0⟩)
      [.addStorage [84], .begin 0, .begin 1, .upsert 0 [84] [1] [5], .upsert 1 [84] [2] [6], .begin 2,
        .upsert 2 [84] [3] [9], .commit 1, .flush, .begin 3, .deleteFound 3 [84] [2], .upsert 0 [84] [4] [7], .commit 3,
        .compact [84], .commit 0] = some w ∧
      serialOps w.hist = [.begin 1, .upsert 1 [84] [2] [6], .commit 1, .begin 3, .deleteFound 3 [84] [2], .commit 3,
        .begin 0, .upsert 0 [84] [1] [5], .upsert 0 [84] [4] [7], .commit 0] := Machine.exists_run (by decide +kernel)
  obtain ⟨v, hrun', hlookup, -⟩ :=
    committed_writes_serializable ⟨0⟩ ⟨fun _ => 0, 64, 3⟩ (by decide) _ (by decide)
    (by decide) w (by decide +kernel) hrun
  rw [hserial] at hrun'
  exact ⟨w, v, hrun, hrun', hlookup [84]⟩

end World

end StructureDb
