import StructureDb.Proofs.Isolation

/-! A rolled back transaction and the run without it. While every compaction is
harmless, in both runs, the second run goes through as well and the two databases
answer every other transaction alike. -/

namespace StructureDb

/-- The transaction of a version does not matter for the rest of it. -/
theorem Op.version_tx {op : Op} {t : TransactionId} {h : Label} {id key : Bytes} {value : TransactionalValue}
    (hv : op.version t = some (h, id, key, value)) (t' : TransactionId) :
    op.version t' = some (h, id, key, { value with tx := t' }) := by
  cases op <;> cases hv <;> rfl

def Op.started (h : Label) (before : Bool) : Op → Bool
  | .begin g => g == h || before
  | .commit g => g != h && before
  | .rollback g => g != h && before
  | _ => before

namespace World

variable {o : Options} {w w' v v' : World} {op : Op} {T : Label}

theorem isSome_ended {h g : Label} {x y : Option TransactionId} (hxy : ∀ t, x = some t ↔ g ≠ h ∧ y = some t) :
    x.isSome = (h != g && y.isSome) := by
  rw [Bool.eq_iff_iff, Option.isSome_iff_exists, Bool.and_eq_true, Option.isSome_iff_exists, bne_iff_ne]
  simp only [hxy, exists_and_left, ne_comm]

theorem Effect.started (he : Effect o w op w') (hw : w.Inv) (hc : w.Calm op) (h : Label) :
    (w'.tx h).isSome = op.started h (w.tx h).isSome := by
  cases he with
  | begin hh =>
    rw [Bool.eq_iff_iff, Option.isSome_iff_exists, Op.started, Bool.or_eq_true, Option.isSome_iff_exists, beq_iff_eq]
    simp only [tx, Db.begin, hw.refines.txOf_begin]
    constructor
    · rintro ⟨t, ⟨rfl, -⟩ | ⟨-, ht⟩⟩
      · exact Or.inl rfl
      · exact Or.inr ⟨t, ht⟩
    · rintro (rfl | ⟨t, ht⟩)
      · exact ⟨_, Or.inl ⟨rfl, rfl⟩⟩
      · refine ⟨t, Or.inr ⟨?_, ht⟩⟩
        rintro rfl
        exact hh (Refines.label_mem ht)
  | write hv _ _ hs =>
    obtain ⟨s, db, n, hl, hu, rfl⟩ := writeRow_cases hs
    obtain ⟨l, -, -, rfl⟩ := Db.engineUpsert_cases hu
    have htx := txOf_congr (TxStorage.acquireRowLock_spec hl).2.2.1 w.begun
    cases op <;> cases hv <;> exact congrArg Option.isSome (congrFun htx h)
  | absent => rfl
  | commit ht =>
    exact isSome_ended fun t => hw.refines.txOf_ended ht (Refines.Ended.of_status _ _ .commited (by simp))
  | rollback ht =>
    exact isSome_ended fun t => hw.refines.txOf_ended ht (Refines.Ended.of_status _ _ .rollbacked (by simp))
  | addStorage hdb =>
    rw [tx, (Db.addStorage_spec hw.ordered hdb).2.1]
    rfl
  | flush => rfl
  | compact id =>
    rw [tx, Db.compact_txStorage]
    rfl
  | clean => rfl
  | restart => exact hc.elim

theorem Effect.begun (he : Effect o w op w') (h : Label) :
    h ∈ w'.begun.map Prod.fst ↔ op = .begin h ∨ h ∈ w.begun.map Prod.fst := by
  cases he with
  | begin hh => simp [eq_comm]
  | write hv _ _ hs =>
    obtain ⟨s, db, n, hl, hu, rfl⟩ := writeRow_cases hs
    cases op <;> cases hv <;> simp
  | _ => simp

theorem Effect.stored (he : Effect o w op w') (hc : w.Calm op) (id : Bytes) :
    (w'.db.storages id).isSome = true ↔ op = .addStorage id ∨ (w.db.storages id).isSome = true := by
  cases he with
  | write hv _ _ hs =>
    obtain ⟨s, db, n, hl, hu, rfl⟩ := writeRow_cases hs
    obtain ⟨l, hid, -, rfl⟩ := Db.engineUpsert_cases hu
    have hop : op ≠ .addStorage id := by
      rintro rfl
      cases hv
    rw [or_iff_right hop]
    refine (Db.setStorage_isSome _ _).trans (or_iff_right_of_imp ?_)
    rintro rfl
    exact Option.isSome_of_eq_some hid
  | commit => simp [Db.commit]
  | addStorage hdb =>
    obtain ⟨-, -, rfl⟩ := Db.addStorage_cases hdb
    rw [Db.setStorage_isSome, Op.addStorage.injEq, eq_comm]
  | flush => simp [Db.flush]
  | compact id' =>
    rw [or_iff_right (by simp)]
    simp only [Db.compact]
    split
    · rfl
    · rename_i l hl
      refine (Db.setStorage_isSome _ _).trans (or_iff_right_of_imp ?_)
      rintro rfl
      exact Option.isSome_of_eq_some hl
  | restart => exact hc.elim
  | _ => simp [Db.begin, Db.rollback, Db.clean]

theorem Effect.hist (he : Effect o w op w') :
    ∃ ev, w'.hist = ev ++ w.hist ∧ ∀ e ∈ ev, op.label = some e.label ∧ ∀ g, e = .commit g →
      op = .commit g := by
  cases he with
  | write hv _ _ hs =>
    obtain ⟨s, db, n, hl, hu, rfl⟩ := writeRow_cases hs
    exact ⟨[_], rfl, by simp [(Op.version_spec hv).1, TxMap.Event.label]⟩
  | commit => exact ⟨[_], rfl, by simp [Op.label, TxMap.Event.label]⟩
  | rollback => exact ⟨[_], rfl, by simp [Op.label, TxMap.Event.label]⟩
  | _ => exact ⟨[], rfl, by simp⟩

theorem writeRow_enabled (o : Options) (h : Label) {id key : Bytes} (value : TransactionalValue)
    (hl : w.db.txStorage.rowLocks key = none) (hid : (w.db.storages id).isSome = true) :
    ∃ w', w.writeRow o h id key value = some w' := by
  obtain ⟨l, hid⟩ := Option.isSome_iff_exists.mp hid
  simp only [writeRow, Db.writeRow, TxStorage.acquireRowLock, hl, if_true, Db.engineUpsert, hid]
  exact ⟨_, rfl⟩

/-- `v` is `w` without what the transaction `T` did, and `T` has not committed. -/
structure Erased (T : Label) (w v : World) : Prop where
  inv : w.Inv
  inv' : v.Inv
  hist : v.hist = TxMap.without T w.hist
  uncommitted : .commit T ∉ w.hist
  fresh : T ∉ v.begun.map Prod.fst
  begun : ∀ h, h ≠ T → (h ∈ w.begun.map Prod.fst ↔ h ∈ v.begun.map Prod.fst)
  started : ∀ h, h ≠ T → (w.tx h).isSome = (v.tx h).isSome
  stored : ∀ id, (w.db.storages id).isSome = true ↔ (v.db.storages id).isSome = true

namespace Erased

theorem tx_eq_some (he : Erased T w v) {h : Label} (hne : h ≠ T) {t : TransactionId} (ht : w.tx h = some t) :
    ∃ t', v.tx h = some t' := by
  rw [← Option.isSome_iff_exists, ← he.started h hne, ht]
  rfl

theorem lookup_eq (he : Erased T w v) {h : Label} (hne : h ≠ T) {t t' : TransactionId} (ht : w.tx h = some t)
    (ht' : v.tx h = some t') (id key : Bytes) : w.db.lookup t id key = v.db.lookup t' id key := by
  rw [he.inv.lookup_eq ht, he.inv'.lookup_eq ht', he.hist, TxMap.read, TxMap.read, TxMap.own_without hne,
    TxMap.committed_without he.uncommitted]

theorem unlocked (he : Erased T w v) {key : Bytes} (hl : w.db.txStorage.rowLocks key = none) :
    v.db.txStorage.rowLocks key = none := by
  rw [Option.eq_none_iff_forall_ne_some]
  intro t' ht'
  obtain ⟨g, id, hg, hown⟩ := he.inv'.refines.wrote key t' ht'
  have hne : g ≠ T := fun hc => he.fresh (hc ▸ Refines.label_mem hg)
  have hsome : (w.tx g).isSome = true := by
    rw [he.started g hne, show v.tx g = some t' from hg]
    rfl
  obtain ⟨t, ht⟩ := Option.isSome_iff_exists.mp hsome
  rw [he.hist, TxMap.own_without hne] at hown
  rw [he.inv.refines.held g t id key ht hown] at hl
  cases hl

theorem of_effects (he : Erased T w v) (hw : Effect o w op w') (hv : Effect o v op v') (hc : w.Calm op)
    (hc' : v.Calm op) (hop : op.label ≠ some T) {ev : List HistEvent} (hev : ∀ e ∈ ev, e.label ≠ T)
    (h1 : w'.hist = ev ++ w.hist) (h2 : v'.hist = ev ++ v.hist) : Erased T w' v' where
  inv := hw.inv he.inv hc
  inv' := hv.inv he.inv' hc'
  hist := by
    have hkeep : ev.filter (fun e => e.label ≠ T) = ev := List.filter_eq_self.mpr (by simpa using hev)
    rw [h1, h2, he.hist, TxMap.without, TxMap.without, List.filter_append, hkeep]
  uncommitted := by
    rw [h1, List.mem_append, not_or]
    exact ⟨fun hm => hev _ hm rfl, he.uncommitted⟩
  fresh := by
    rw [hv.begun, not_or]
    refine ⟨?_, he.fresh⟩
    rintro rfl
    exact hop rfl
  begun h hne := by rw [hw.begun, hv.begun, he.begun h hne]
  started h hne := by rw [hw.started he.inv hc, hv.started he.inv' hc', he.started h hne]
  stored id := by rw [hw.stored hc, hv.stored hc', he.stored id]

theorem keep (he : Erased T w v) (hop : op.label ≠ some T) (hw : Effect o w op w') (hc : w.Calm op)
    (hc' : v.Calm op) : ∃ v', Effect o v op v' ∧ Erased T w' v' := by
  have hmatch : ∀ {v'}, Effect o v op v' → ∀ ev : List HistEvent, (∀ e ∈ ev, e.label ≠ T) → w'.hist = ev ++
    w.hist →
      v'.hist = ev ++ v.hist → ∃ v', Effect o v op v' ∧ Erased T w' v' :=
    fun hv ev hev h1 h2 => ⟨_, hv, he.of_effects hw hv hc hc' hop hev h1 h2⟩
  cases hw with
  | @begin h hh =>
    have hne : h ≠ T := fun hc => hop (congrArg some hc)
    exact hmatch (.begin fun hm => hh ((he.begun h hne).mpr hm)) [] (by simp) rfl rfl
  | @write _ h t id key value _ hv ht hf hs =>
    have hne : h ≠ T := fun hc => hop ((Op.version_spec hv).1.trans (congrArg some hc))
    obtain ⟨t', ht'⟩ := he.tx_eq_some hne ht
    obtain ⟨s, db, n, hl, hu, rfl⟩ := writeRow_cases hs
    obtain ⟨l, hid, -, -⟩ := Db.engineUpsert_cases hu
    have hid' := (he.stored id).mp (Option.isSome_of_eq_some hid)
    obtain ⟨v', hs'⟩ := writeRow_enabled o h { value with tx := t' }
      (he.unlocked (TxStorage.acquireRowLock_spec hl).1) hid'
    have hf' : op = .delete h id key → v.db.lookup t' id key ≠ none := by
      rw [← he.lookup_eq hne ht ht']
      exact hf
    refine hmatch (.write (Op.version_tx hv t') ht' hf' hs') [.write h (id, key) value.payload] ?_ rfl ?_
    · simpa [TxMap.Event.label] using hne
    · obtain ⟨s', db', n', -, -, rfl⟩ := writeRow_cases hs'
      rfl
  | @absent h t id key ht hl =>
    have hne : h ≠ T := fun hc => hop (congrArg some hc)
    obtain ⟨t', ht'⟩ := he.tx_eq_some hne ht
    rw [he.lookup_eq hne ht ht'] at hl
    exact hmatch (.absent ht' hl) [] (by simp) rfl rfl
  | @commit h t ht =>
    have hne : h ≠ T := fun hc => hop (congrArg some hc)
    obtain ⟨t', ht'⟩ := he.tx_eq_some hne ht
    exact hmatch (.commit ht') [.commit h] (by simpa [TxMap.Event.label] using hne) rfl rfl
  | @rollback h t ht =>
    have hne : h ≠ T := fun hc => hop (congrArg some hc)
    obtain ⟨t', ht'⟩ := he.tx_eq_some hne ht
    exact hmatch (.rollback ht') [.rollback h] (by simpa [TxMap.Event.label] using hne) rfl rfl
  | @addStorage id db hdb =>
    have hdb' : v.db.addStorage id = some (v.db.setStorage id (Lsm.init Dir.empty)) := by
      unfold Db.addStorage at hdb ⊢
      split_ifs at hdb with hn
      rw [he.stored id] at hn
      rw [if_neg hn]
    exact hmatch (.addStorage hdb') [] (by simp) rfl rfl
  | flush => exact hmatch .flush [] (by simp) rfl rfl
  | compact id => exact hmatch (.compact id) [] (by simp) rfl rfl
  | clean => exact hmatch .clean [] (by simp) rfl rfl
  | restart => exact hc.elim

/-- A step of `T` other than its commit is not seen in the run without it. -/
theorem drop (he : Erased T w v) (hop : op.label = some T) (hnc : op ≠ .commit T) (hw : Effect o w op w')
    (hc : w.Calm op) : Erased T w' v := by
  obtain ⟨ev, hhist, hev⟩ := hw.hist
  constructor
  case inv => exact hw.inv he.inv hc
  case inv' => exact he.inv'
  case hist =>
    have hskip : ev.filter (fun e => e.label ≠ T) = [] := by
      rw [List.filter_eq_nil_iff]
      intro e hm
      have hl := (hev e hm).1
      rw [hop] at hl
      simp [Option.some.inj hl]
    rw [he.hist, hhist, TxMap.without, TxMap.without, List.filter_append, hskip, List.nil_append]
  case uncommitted =>
    rw [hhist, List.mem_append, not_or]
    exact ⟨fun hm => hnc ((hev _ hm).2 T rfl), he.uncommitted⟩
  case fresh => exact he.fresh
  case begun =>
    intro h hne
    rw [hw.begun, or_iff_right, he.begun h hne]
    rintro rfl
    exact hne (Option.some.inj hop)
  case started =>
    intro h hne
    have hsame : ∀ b, op.started h b = b := by
      intro b
      cases op <;> first | rfl | (cases hop; simp [Op.started, hne.symm])
    rw [hw.started he.inv hc, hsame, he.started h hne]
  case stored =>
    intro id
    rw [hw.stored hc, or_iff_right, he.stored id]
    rintro rfl
    cases hop

end Erased

structure EndedOnce (T : Label) (tr : List Op) (w : World) : Prop where
  inv : w.Inv
  commit : .commit T ∈ tr → .commit T ∈ w.hist
  rollback : .rollback T ∈ tr → .rollback T ∈ w.hist
  once : ¬(.commit T ∈ tr ∧ .rollback T ∈ tr)

theorem EndedOnce.step {tr : List Op} (h : EndedOnce T tr w) (he : Effect o w op w') (hc : w.Calm op) :
    EndedOnce T (tr ++ [op]) w' := by
  have hinv := he.inv h.inv hc
  obtain ⟨ev, hhist, -⟩ := he.hist
  have hmono : ∀ e ∈ w.hist, e ∈ w'.hist := fun e hm => hhist ▸ List.mem_append_right _ hm
  have hfree : ∀ t, w.tx T = some t → .commit T ∉ tr ∧ .rollback T ∉ tr := by
    intro t ht
    have hend := h.inv.refines.ended T
    constructor
    · intro hm
      exact absurd ht (by rw [tx, hend (Or.inl (h.commit hm))]; simp)
    · intro hm
      exact absurd ht (by rw [tx, hend (Or.inr (h.rollback hm))]; simp)
  by_cases h1 : op = .commit T
  · subst h1
    cases he with
    | write hv => cases hv
    | commit ht =>
      obtain ⟨-, hn⟩ := hfree _ ht
      exact ⟨hinv, fun _ => List.mem_cons_self, by simp [hn], by simp [hn]⟩
  · by_cases h2 : op = .rollback T
    · subst h2
      cases he with
      | write hv => cases hv
      | rollback ht =>
        obtain ⟨hn, -⟩ := hfree _ ht
        exact ⟨hinv, by simp [hn], fun _ => List.mem_cons_self, by simp [hn]⟩
    · have hm1 : .commit T ∈ tr ++ [op] ↔ .commit T ∈ tr := by simp [Ne.symm h1]
      have hm2 : .rollback T ∈ tr ++ [op] ↔ .rollback T ∈ tr := by simp [Ne.symm h2]
      refine ⟨hinv, ?_, ?_, ?_⟩
      · rw [hm1]
        exact fun hm => hmono _ (h.commit hm)
      · rw [hm2]
        exact fun hm => hmono _ (h.rollback hm)
      · rw [hm1, hm2]
        exact h.once

/-- A transaction that is rolled back in a run is not committed in it. -/
theorem commit_notMem {ops : List Op} (hg : Machine.Guarded (step o) Calm (start o) ops)
    (hr : Machine.run (step o) (start o) ops = some w) (hT : .rollback T ∈ ops) : .commit T ∉ ops := by
  have hstart : EndedOnce T [] (start o) := ⟨start_inv o, by simp, by simp, by simp⟩
  have hend := Machine.run_inv (P := EndedOnce T) hstart (fun _ _ _ _ h hc hs => h.step (step_effect hs) hc) hg hr
  exact fun hm => hend.once ⟨hm, hT⟩

def others (T : Label) (op : Op) : Bool := op.label ≠ some T

/-- After a transaction is rolled back, the run without it answers every other transaction alike, when every
compaction of either run is harmless and all records fit in a page. -/
theorem rollback_leaves_no_trace (o : Options) (f : FileOptions) (hsmall : f.pageSize < 2 ^ 31) (T : Label)
    (ops : List Op) (hT : .rollback T ∈ ops) (hfits : ∀ op ∈ ops, op.FitsRecord f.pageSize)
    (hlen : ops.length < 2 ^ 62) (w : World) (hr : Machine.run (step o) (start o) ops = some w)
    (hg : Machine.Guarded (step o) Calm (start o) ops)
    (hg' : Machine.Guarded (step o) Calm (start o) (ops.filter (others T))) :
    ∃ v, Machine.run (step o) (start o) (ops.filter (others T)) = some v ∧
      ∀ h, h ≠ T → ∀ id key, (w.tx h).map (fun t => w.db.lookupFiles f t id key) =
          (v.tx h).map (fun t => v.db.lookupFiles f t id key) ∧
        ∀ t, w.tx h = some t → ∃ answer, w.db.lookupFiles f t id key = some answer := by
  have hstart : Erased T (start o) (start o) :=
    ⟨start_inv o, start_inv o, rfl, by simp [start], by simp [start], by simp, by simp, by simp⟩
  have hnc := commit_notMem hg hr hT
  obtain ⟨v, hv, he⟩ := Machine.run_filter (p := others T) (R := Erased T) hstart
    (by
      intro op _ hk u v u' he hc hc' hs
      obtain ⟨v', hv', he'⟩ := he.keep (by simpa [others] using hk) (step_effect hs) hc hc'
      exact ⟨v', hv'.step, he'⟩)
    (by
      intro op hop hk u v u' he hc hs
      refine he.drop (by simpa [others] using hk) ?_ (step_effect hs) hc
      rintro rfl
      exact hnc hop)
    hg hg' hr
  have hdisk := Limited.run_calm hg hr hfits hlen hsmall
  have hdisk' := Limited.run_calm hg' hv (fun op hop => hfits op (List.mem_filter.mp hop).1)
    ((List.length_filter_le ..).trans_lt hlen) hsmall
  refine ⟨v, hv, ?_⟩
  intro h hne id key
  refine ⟨?_, fun t _ => ⟨_, hdisk.lookup t id key⟩⟩
  have hstarted := he.started h hne
  rcases ht : w.tx h with _ | t <;> rcases ht' : v.tx h with _ | t' <;> rw [ht, ht'] at hstarted
  · rfl
  · cases hstarted
  · cases hstarted
  · rw [Option.map_some, Option.map_some, hdisk.lookup, hdisk'.lookup, he.lookup_eq hne ht ht']

/-- A transaction rolled back after a compaction that found its value alone. -/
theorem rollback_leaves_no_trace_new_key :
    ∃ w v, Machine.run (step ⟨0⟩) (start ⟨0⟩)
        [.addStorage [84], .begin 0, .upsert 0 [84] [1] [5], .commit 0, .begin 1, .upsert 1 [84] [2] [6], .flush,
          .compact [84], .rollback 1, .begin 2] = some w ∧
      Machine.run (step ⟨0⟩) (start ⟨0⟩)
        [.addStorage [84], .begin 0, .upsert 0 [84] [1] [5], .commit 0, .flush, .compact [84], .begin 2] = some v ∧
      (w.tx 2).map (fun t => w.db.lookupFiles ⟨fun _ => 0, 64, 3⟩ t [84] [2]) =
        (v.tx 2).map fun t => v.db.lookupFiles ⟨fun _ => 0, 64, 3⟩ t [84] [2] := by
  have h : (Machine.run (step ⟨0⟩) (start ⟨0⟩)
      [.addStorage [84], .begin 0, .upsert 0 [84] [1] [5], .commit 0, .begin 1, .upsert 1 [84] [2] [6], .flush,
        .compact [84], .rollback 1, .begin 2]).any (fun _ => true) = true := by
    decide
  obtain ⟨w, hw, -⟩ := Machine.exists_of_any h
  obtain ⟨v, hv, hlookup⟩ :=
    rollback_leaves_no_trace ⟨0⟩ ⟨fun _ => 0, 64, 3⟩ (by decide) 1 _ (by decide) (by decide)
    (by decide) w hw (by decide) (by decide)
  exact ⟨w, v, hw, hv, (hlookup 2 (by decide) [84] [2]).1⟩

/-- A compaction while the transaction runs keeps its value and drops the committed one below; the rollback then
leaves the key without any. -/
theorem rollback_loses_committed :
    ∃ w v, Machine.run (step ⟨0⟩) (start ⟨0⟩)
        [.addStorage [84], .begin 0, .upsert 0 [84] [1] [5], .commit 0, .begin 1, .upsert 1 [84] [1] [6], .flush,
          .compact [84], .rollback 1, .begin 2] = some w ∧
      Machine.run (step ⟨0⟩) (start ⟨0⟩)
        [.addStorage [84], .begin 0, .upsert 0 [84] [1] [5], .commit 0, .flush, .compact [84], .begin 2] = some v ∧
      w.tx 2 = some 12 ∧ w.db.lookup 12 [84] [1] = none ∧
      v.tx 2 = some 11 ∧ v.db.lookup 11 [84] [1] = some [5] := by
  have h1 : (Machine.run (step ⟨0⟩) (start ⟨0⟩)
      [.addStorage [84], .begin 0, .upsert 0 [84] [1] [5], .commit 0, .begin 1, .upsert 1 [84] [1] [6], .flush,
        .compact [84], .rollback 1, .begin 2]).any
          (fun w => decide (w.tx 2 = some 12 ∧ w.db.lookup 12 [84] [1] = none)) = true := by
    decide
  have h2 : (Machine.run (step ⟨0⟩) (start ⟨0⟩)
      [.addStorage [84], .begin 0, .upsert 0 [84] [1] [5], .commit 0, .flush, .compact [84], .begin 2]).any
          (fun v => decide (v.tx 2 = some 11 ∧ v.db.lookup 11 [84] [1] = some [5])) = true := by
    decide
  obtain ⟨w, hw, hp⟩ := Machine.exists_of_any h1
  obtain ⟨v, hv, hq⟩ := Machine.exists_of_any h2
  obtain ⟨hp1, hp2⟩ := of_decide_eq_true hp
  obtain ⟨hq1, hq2⟩ := of_decide_eq_true hq
  exact ⟨w, v, hw, hv, hp1, hp2, hq1, hq2⟩

end World

end StructureDb
