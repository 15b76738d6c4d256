import StructureDb.Proofs.Autocommit
import StructureDb.Proofs.TableNames

/-! A name is created at most once. Every version in the catalog was written by a thread of
`CreateTable` or `DropTable`, and where the name is checked under its lock, a drop lies
between two threads that have created it. -/

namespace StructureDb.Service

open Coroutine

section
variable {o : Options} {s s' node : Node} {op : Op} {action : Action} {activity : Activity}

theorem Effect.uuids (h : Effect o s op s') : s'.uuids = s.uuids := by
  cases h <;> rfl

theorem Starts.proceeds (h : Starts s action node activity)
    (hnext : s.context.txStorage.txStatus s.context.txStorage.nextTxId = none) :
    Proceeds s.context.txStorage node.context.txStorage := by
  cases h with
  | begin r htx hfresh hmutates => exact Proceeds.begin hnext
  | join r tx htx hfresh hmutates hstarted => exact Proceeds.refl _
  | rollback tx hstarted => exact Proceeds.refl _
  | flush ids => exact Proceeds.refl _

/-- The transaction that a thread begins with is known. -/
theorem Starts.holding (h : Starts s action node activity) {no : ℕ} {t : TransactionId}
    (ht : Thread.tx ⟨no, activity⟩ = some t) : Holding t node := by
  cases h with
  | begin r htx hfresh hmutates =>
    cases ht
    change s.context.txStorage.begin.1.txStatus s.context.txStorage.nextTxId ≠ none
    rw [TxStorage.begin_txStatus_self]
    exact Option.some_ne_none _
  | join r tx htx hfresh hmutates hstarted =>
    cases ht
    change s.context.txStorage.txStatus t ≠ none
    rw [TxStorage.isStarted_iff.mp hstarted]
    exact Option.some_ne_none _
  | rollback tx hstarted =>
    cases ht
    change s.context.txStorage.txStatus t ≠ none
    rw [TxStorage.isStarted_iff.mp hstarted]
    exact Option.some_ne_none _
  | flush ids => cases ht

theorem Starts.fresh (h : Starts s action node activity) (no : ℕ) :
    (∀ id, Thread.creates ⟨no, activity⟩ = some id →
      id ∉ s.uuids ∧ id ∉ internalTables ∧ id ∈ node.uuids) ∧
      ∀ id ∈ s.uuids, id ∈ node.uuids := by
  have hrequest : ∀ r : Request, r.Fresh s →
      (∀ id, r.uuid = some id → id ∉ s.uuids ∧ id ∉ internalTables ∧ id ∈ r.uuid.toList ++ s.uuids) ∧
        ∀ id ∈ s.uuids, id ∈ r.uuid.toList ++ s.uuids := by
    intro r hfresh
    refine ⟨fun id hid => ?_, fun id hid => List.mem_append_right _ hid⟩
    obtain ⟨hnew, hinternal⟩ := hfresh id hid
    refine ⟨hnew, hinternal, List.mem_append_left _ ?_⟩
    rw [hid]
    exact List.mem_singleton_self _
  cases h with
  | begin r htx hfresh hmutates => exact hrequest r hfresh
  | join r tx htx hfresh hmutates hstarted => exact hrequest r hfresh
  | rollback tx hstarted => exact ⟨(fun id hid => nomatch hid), fun id hid => hid⟩
  | flush ids => exact ⟨(fun id hid => nomatch hid), fun id hid => hid⟩

end

/-- What a process does that is not stopped: requests, jobs and what they go on with. -/
def Action.serves : Action → Bool
  | .request _ => true
  | .flush _ => true
  | .resume _ => true
  | _ => false

theorem sat_program_cataloging {o : Options} {th : Thread} {node : Node} (hserves : ∀ t, th.activity ≠ .rollback t)
    (hid : ∀ id, th.creates = some id → id ∉ internalTables) (hs : ∀ t, th.tx = some t → Holding t node) :
    (program th).Sat (kernel o) (cataloging th) (Named th) (fun _ _ => True) node := by
  obtain ⟨no, activity⟩ := th
  cases activity with
  | session request tx =>
    refine Coro.Sat.handle ((sat_body_cataloging hid (hs tx rfl)).mono (fun _ _ h => h) fun u e _ => ?_)
    exact fun hok => nomatch hok
  | rollback tx => exact absurd rfl (hserves tx)
  | flush ids =>
    exact Coro.Sat.bind (((cataloging_tends ⟨no, .flush ids⟩).sat_flushAll ids).mono
      (fun _ _ _ _ hc => nomatch hc) fun _ _ h => h)

def threads (s : Service) : List Thread := s.tasks.map Prod.fst

structure Naming (o : Options) (s : Service) : Prop where
  basic : Basic s
  catalogOk : CatalogOk s.shared
  sat : ∀ x ∈ s.tasks, x.2.Sat (kernel o) (cataloging x.1) (Named x.1) (fun _ _ => True) s.shared
  wrote : ∀ row ∈ catalog s.shared, ∃ th ∈ s.threads, th.Wrote row
  uuids : ∀ th ∈ s.threads, ∀ id, th.creates = some id → id ∈ s.shared.uuids
  distinct : s.threads.Pairwise fun th th' => ∀ id, th.creates = some id → th'.creates ≠ some id

/-- When a thread of `CreateTable` gets the lock, the name is free. -/
def Rechecked (o : Options) (s : Service) (action : Action) : Prop :=
  ∀ x ∈ s.running action, (kernel o).Meets x.2.1.NameFree x.1 x.2.2

namespace Naming

variable {o : Options} {s s' : Service} {action : Action}

theorem sat_stable {node node' : Node} {x : Thread × Task Res Wait Exception Response} (hk : Keeps x.1.no node node')
    (hl : Lasting node node') (h : x.2.Sat (kernel o) (cataloging x.1) (Named x.1) (fun _ _ => True) node) :
    x.2.Sat (kernel o) (cataloging x.1) (Named x.1) (fun _ _ => True) node' :=
  h.stable (fun _ hn hok hc => (hn hok hc).lasting hl) (fun _ hx => hx) ⟨hk, hl⟩

theorem spawn (h : Naming o s) (hserves : action.serves = true) {node : Node} {activity : Activity}
    (hs : Starts s.shared action node activity) :
    Lasting s.shared node ∧ Naming o ⟨node, s.tasks ++ [s.spawned activity]⟩ := by
  obtain ⟨hmutex, hstorages⟩ := hs.keeps
  obtain ⟨hnew, hold⟩ := hs.fresh s.tasks.length
  have hnext : s.shared.context.txStorage.txStatus s.shared.context.txStorage.nextTxId = none := by
    by_contra hne
    exact lt_irrefl _ (h.basic.status _ hne)
  have hproceeds := hs.proceeds hnext
  have hrows : catalog node = catalog s.shared := by rw [catalog, catalog, hstorages]
  have hlasting : Lasting s.shared node := .of_proceeds (fun row hrow => hrows ▸ hrow) hproceeds
  have hthreads : threads ⟨node, s.tasks ++ [s.spawned activity]⟩ = s.threads ++ [⟨s.tasks.length, activity⟩] := by
    simp [threads, spawned]
  refine ⟨hlasting, h.basic.spawn hs, h.catalogOk.congr (hstorages ▸ h.catalogOk.tree) hrows hproceeds, ?_, ?_, ?_, ?_⟩
  · intro x hx
    rcases List.mem_append.mp hx with hx | hx
    · exact sat_stable (.of_eq hmutex hstorages) hlasting (h.sat x hx)
    · obtain rfl := List.mem_singleton.mp hx
      refine ⟨fun u => ∀ t, Thread.tx ⟨s.tasks.length, activity⟩ = some t → Holding t u,
        fun u u' hu hr t ht => (hu t ht).lasting hr.2, fun t ht => hs.holding ht, fun u hu => ?_⟩
      refine sat_program_cataloging (fun t ht => ?_) (fun id hid => (hnew id hid).2.1) hu
      cases hs with
      | rollback tx hstarted => cases hserves
      | _ => cases ht
  · intro row hrow
    obtain ⟨th, hth, hw⟩ := h.wrote row (hrows ▸ hrow)
    exact ⟨th, hthreads ▸ List.mem_append_left _ hth, hw⟩
  · intro th hth id hid
    rw [hthreads] at hth
    rcases List.mem_append.mp hth with hth | hth
    · exact hold id (h.uuids th hth id hid)
    · obtain rfl := List.mem_singleton.mp hth
      exact (hnew id hid).2.2
  · rw [hthreads]
    refine List.pairwise_append.mpr ⟨h.distinct, List.pairwise_singleton _ _, fun th hth th' hth' id hid hid' => ?_⟩
    obtain rfl := List.mem_singleton.mp hth'
    exact (hnew id hid').1 (h.uuids th hth id hid)

theorem advance {node node' : Node} {pre post : List (Thread × Task Res Wait Exception Response)}
    {x : Thread × Task Res Wait Exception Response} {t' : Task Res Wait Exception Response}
    (h : Naming o ⟨node, pre ++ x :: post⟩) (hm : (kernel o).Meets x.1.NameFree node x.2)
    (ha : (kernel o).advance node x.2 = some (node', t')) :
    Lasting node node' ∧ Naming o ⟨node', pre ++ (x.1, t') :: post⟩ := by
  obtain ⟨⟨hinv, hg⟩, hsat⟩ := sat_splice (T := cataloging) (Q := Named) (X := fun _ _ _ => True) Catalogs.refl
    (fun _ _ _ => Catalogs.trans) h.sat h.catalogOk hm ha
    fun y hy hg => ⟨⟨hg.works.others _ (h.basic.numbered.ne hy), hg.lasting⟩,
      fun _ hn hok hc => (hn hok hc).lasting hg.lasting, fun _ hx => hx⟩
  have huuids : node'.uuids = node.uuids :=
    (advance_rel (R := fun s s' => s'.uuids = s.uuids) (fun _ => rfl) (fun _ _ _ h h' => by rw [h', h])
      (fun _ _ _ _ he => he.uuids) (h.basic.allows x (by simp)) ha).1
  have hthreads : threads ⟨node', pre ++ (x.1, t') :: post⟩ = threads ⟨node, pre ++ x :: post⟩ := by simp [threads]
  refine ⟨hg.lasting, h.basic.advance ha, hinv, hsat, ?_, ?_, ?_⟩
  · intro row hrow
    rw [hthreads]
    rcases hg.enters row hrow with hrow | hw
    · exact h.wrote row hrow
    · exact ⟨x.1, List.mem_map_of_mem (f := Prod.fst) (a := x) (by simp), hw⟩
  · intro th hth id hid
    change id ∈ node'.uuids
    rw [huuids]
    exact h.uuids th (hthreads ▸ hth) id hid
  · rw [hthreads]
    exact h.distinct

theorem step (h : Naming o s) (hserves : action.serves = true) (hg : Rechecked o s action)
    (hstep : s.step o action = some s') : Lasting s.shared s'.shared ∧ Naming o s' := by
  rcases step_cases hstep with ⟨node, activity, hs, node', t', ha, rfl⟩ |
    ⟨i, x, pre, post, rfl, hi, htasks, node', t', ha, rfl⟩ | ⟨event, rfl, -⟩ | ⟨events, rfl, -⟩
  · obtain ⟨hlasting, hspawn⟩ := h.spawn hserves hs
    obtain ⟨hlasting', hnaming⟩ := hspawn.advance (hg _ hs.running) ha
    exact ⟨hlasting.trans hlasting', hnaming⟩
  · have hpool : Naming o ⟨s.shared, pre ++ x :: post⟩ := htasks ▸ h
    refine hpool.advance (hg (s.shared, x) ?_) ha
    rw [running, hi]
    rfl
  · cases hserves
  · cases hserves

theorem init (o : Options) : Naming o (leader o) where
  basic := Basic.init o (fun _ => none) Dir.empty [] false
  catalogOk := by
    have htree : (leader o).shared.context.storages kSysTables = some (Lsm.init Dir.empty) := rfl
    have hord : (Lsm.init Dir.empty : Lsm TransactionalValue).Ordered :=
      Lsm.init_ordered (fun f hf => absurd hf List.not_mem_nil) List.Pairwise.nil (LevelsOk.nil 0)
    have hrows : catalog (leader o).shared = [] := by
      rw [catalog_of_tree htree]
      rfl
    refine ⟨⟨_, htree, hord⟩, ?_, ?_, ?_, ?_, ?_, ?_⟩
    · rw [hrows]
      exact fun row hrow => absurd hrow List.not_mem_nil
    · rw [hrows]
      exact fun row hrow => absurd hrow List.not_mem_nil
    · exact fun t ht => nomatch ht
    · rw [hrows]
      exact fun row hrow => absurd hrow List.not_mem_nil
    · rw [hrows]
      exact fun row hrow => absurd hrow List.not_mem_nil
    · rw [hrows]
      exact fun row hrow => absurd hrow List.not_mem_nil
  sat := fun _ hx => absurd hx List.not_mem_nil
  wrote := fun _ hrow => absurd hrow List.not_mem_nil
  uuids := fun _ hth => absurd hth List.not_mem_nil
  distinct := List.Pairwise.nil

theorem run {actions : List Action} (h : Naming o s) (hserves : ∀ a ∈ actions, a.serves = true)
    (hg : Machine.Guarded (Service.step o) (Rechecked o) s actions)
    (hr : Machine.run (Service.step o) s actions = some s') :
    Lasting s.shared s'.shared ∧ Naming o s' := by
  induction actions generalizing s with
  | nil =>
    cases hr
    exact ⟨⟨fun _ h => h, fun _ h => h, fun _ h => h⟩, h⟩
  | cons a actions ih =>
    obtain ⟨u, hu, hr⟩ := Machine.run_cons.mp hr
    rw [Machine.Guarded, hu] at hg
    obtain ⟨hlasting, hnaming⟩ := h.step (hserves a List.mem_cons_self) hg.1 hu
    obtain ⟨hlasting', hnaming'⟩ := ih hnaming (fun b hb => hserves b (List.mem_cons_of_mem _ hb)) hg.2 hr
    exact ⟨hlasting.trans hlasting', hnaming'⟩

/-- A thread that has answered OK to `CreateTable` has written its name. -/
theorem entered (h : Naming o s) {x : Thread × Task Res Wait Exception Response} (hx : x ∈ s.tasks)
    (hc : x.1.creates.isSome = true) (ha : answer x.2 = some .ok) : Entered x.1 s.shared := by
  have hsat := h.sat x hx
  obtain ⟨th, u⟩ := x
  cases u with
  | ready c => cases ha
  | suspended op b k => cases ha
  | finished result =>
    cases result with
    | ok a =>
      cases ha
      exact hsat rfl hc
    | error e => cases ha

end Naming

def Thread.creating (th : Thread) : Option Bytes :=
  match th.activity with
  | .session (.createTable _ name _) _ => some name
  | _ => none

def Thread.dropping (th : Thread) : Option Bytes :=
  match th.activity with
  | .session (.dropTable _ name) _ => some name
  | _ => none

theorem Thread.Wrote.creating {th : Thread} {name : Bytes} {row : Row} (h : th.creating = some name)
    (hw : th.Wrote row) :
    row.key = name ∧ ∃ id, th.creates = some id ∧ tableInfo row = ⟨false, id⟩ := by
  obtain ⟨no, activity⟩ := th
  cases activity with
  | session request tx =>
    cases request with
    | createTable carried name' id =>
      cases h
      exact ⟨hw.1, id, rfl, hw.2.2⟩
    | _ => cases h
  | _ => cases h

/-- A version that drops a name was written by a thread of `DropTable`. -/
theorem Thread.Wrote.dropping {th : Thread} {row : Row} (hw : th.Wrote row) (hd : (tableInfo row).dropped = true) :
    th.dropping = some row.key := by
  obtain ⟨no, activity⟩ := th
  cases activity with
  | session request tx =>
    cases request with
    | createTable carried name id =>
      rw [hw.2.2] at hd
      cases hd
    | dropTable carried name => exact congrArg some hw.1.symm
    | _ => exact hw.elim
  | _ => exact hw.elim

namespace Naming

variable {o : Options} {s s' : Service} {name : Bytes}

/-- Versions of two threads that create the same name are apart. -/
theorem seqNo_ne (h : Naming o s) {th th' : Thread} (hth : th ∈ s.threads) (hth' : th' ∈ s.threads) (hne : th ≠ th')
    {c r : Row} (hc : th.creating = some name) (hc' : th'.creating = some name) (hw : th.Wrote c) (hw' : th'.Wrote r)
    (hmem : c ∈ catalog s.shared) (hmem' : r ∈ catalog s.shared) : c.seqNo ≠ r.seqNo := by
  obtain ⟨hkey, id, hid, hinfo⟩ := hw.creating hc
  obtain ⟨hkey', id', hid', hinfo'⟩ := hw'.creating hc'
  have hids : id ≠ id' := by
    rintro rfl
    have hsymm : Std.Symm fun th th' : Thread => ∀ id, th.creates = some id → th'.creates ≠ some id :=
      ⟨fun _ _ hdist id hid hid' => hdist id hid' hid⟩
    exact h.distinct.forall hth hth' hne id hid hid'
  intro hseqNo
  obtain rfl := h.catalogOk.eq_of_seqNo hmem hmem' (hkey.trans hkey'.symm) hseqNo
  rw [hinfo] at hinfo'
  exact hids (congrArg TableInfo.id hinfo')

/-- Between two versions that create a name there is one of a committed `DropTable`. -/
theorem dropped_between (h : Naming o s) {c r : Row} (hc : c ∈ catalog s.shared) (hr : r ∈ catalog s.shared)
    (hkey : c.key = name) (hkey' : r.key = name) (hcreated : (tableInfo c).dropped = false)
    (hcreated' : (tableInfo r).dropped = false) (hlt : c.seqNo < r.seqNo) :
    ∃ th ∈ s.threads, ∃ d ∈ catalog s.shared, d.key = name ∧ th.dropping = some name ∧ th.Wrote d ∧
      s.shared.context.txStorage.txStatus d.value.tx = some .commited ∧ c.seqNo < d.seqNo ∧ d.seqNo < r.seqNo := by
  obtain ⟨d, hd, hdkey, hcd, hdr, hdropped, hcommited⟩ :=
    h.catalogOk.between c hc r hr (hkey.trans hkey'.symm) hlt hcreated hcreated'
  obtain ⟨th, hth, hw⟩ := h.wrote d hd
  exact ⟨th, hth, d, hd, hdkey.trans hkey, by rw [hw.dropping hdropped, hdkey, hkey], hw, hcommited, hcd, hdr⟩

end Naming

/-- Whatever requests are served beside each other: if the name is still free whenever a `CreateTable` gets the lock on
it, then between two `CreateTable` of one name that report success lies a committed `DropTable` of it, and the storage
behind a committed name changes only with a `DropTable` that is committed on the way. -/
theorem created_once (o : Options) (before after : List Action) (s s' : Service)
    (hserves : ∀ a ∈ before ++ after, a.serves = true)
    (hg : Machine.Guarded (step o) (Rechecked o) (leader o) before)
    (hr : Machine.run (step o) (leader o) before = some s)
    (hg' : Machine.Guarded (step o) (Rechecked o) s after) (hr' : Machine.run (step o) s after = some s') :
    (∀ name, ∀ x ∈ s'.tasks, ∀ y ∈ s'.tasks, x.1.no ≠ y.1.no → x.1.creating = some name →
      y.1.creating = some name →
      answer x.2 = some .ok → answer y.2 = some .ok →
      ∃ c ∈ catalog s'.shared, ∃ r ∈ catalog s'.shared, (x.1.Wrote c ∧ y.1.Wrote r ∨ y.1.Wrote c ∧
        x.1.Wrote r) ∧
        ∃ th ∈ s'.threads, ∃ d ∈ catalog s'.shared, d.key = name ∧ th.dropping = some name ∧ th.Wrote d ∧
          s'.shared.context.txStorage.txStatus d.value.tx = some .commited ∧ c.seqNo < d.seqNo ∧ d.seqNo < r.seqNo) ∧
    ∀ name id id', s.shared.db.getStorageId s.shared.context.txStorage.nextTxId name = some id →
      s'.shared.db.getStorageId s'.shared.context.txStorage.nextTxId name = some id' → id' ≠ id →
      ∃ th ∈ s'.threads, ∃ d ∈ catalog s'.shared, th.dropping = some name ∧ th.Wrote d ∧
        s'.shared.context.txStorage.txStatus d.value.tx = some .commited ∧
        ¬ (d ∈ catalog s.shared ∧ s.shared.context.txStorage.txStatus d.value.tx = some .commited) := by
  have hnaming := ((Naming.init o).run (fun a ha => hserves a (List.mem_append_left _ ha)) hg hr).2
  obtain ⟨hlasting, hnaming'⟩ := hnaming.run (fun a ha => hserves a (List.mem_append_right _ ha)) hg' hr'
  refine ⟨?_, ?_⟩
  · intro name x hx y hy hno hxc hyc hxa hya
    have hmade : ∀ {th : Thread}, th.creating = some name → th.creates.isSome = true := by
      intro th hth
      obtain ⟨no, activity⟩ := th
      cases activity with
      | session request tx => cases request <;> first | rfl | cases hth
      | _ => cases hth
    obtain ⟨c, hc, hcw⟩ := hnaming'.entered hx (hmade hxc) hxa
    obtain ⟨r, hr, hrw⟩ := hnaming'.entered hy (hmade hyc) hya
    obtain ⟨hckey, _, -, hcinfo⟩ := hcw.creating hxc
    obtain ⟨hrkey, _, -, hrinfo⟩ := hrw.creating hyc
    have hne : x.1 ≠ y.1 := fun heq => hno (congrArg Thread.no heq)
    have hseqNo := hnaming'.seqNo_ne (List.mem_map_of_mem hx) (List.mem_map_of_mem hy) hne hxc hyc hcw hrw hc hr
    rcases hseqNo.lt_or_gt with hlt | hlt
    · exact ⟨c, hc, r, hr, Or.inl ⟨hcw, hrw⟩,
        hnaming'.dropped_between hc hr hckey hrkey (by rw [hcinfo]) (by rw [hrinfo]) hlt⟩
    · exact ⟨r, hr, c, hc, Or.inr ⟨hrw, hcw⟩,
        hnaming'.dropped_between hr hc hrkey hckey (by rw [hrinfo]) (by rw [hcinfo]) hlt⟩
  · intro name id id' hid hid' hne
    have hnext : ∀ {s : Service}, Naming o s →
        s.shared.context.txStorage.txStatus s.shared.context.txStorage.nextTxId = none := by
      intro s h
      by_contra hne
      exact lt_irrefl _ (h.basic.status _ hne)
    obtain ⟨c, hc, hckey, hcinfo, hccommited, hnewest⟩ := hnaming.catalogOk.newest (hnext hnaming) hid
    obtain ⟨r, hr, hrkey, hrinfo, -, hnewest'⟩ := hnaming'.catalogOk.newest (hnext hnaming') hid'
    have hc' := hlasting.rows c hc
    have hle := hnewest' c hc' hckey (hlasting.commited _ hccommited)
    have hlt : c.seqNo < r.seqNo := by
      refine lt_of_le_of_ne hle fun hseqNo => hne ?_
      obtain rfl := hnaming'.catalogOk.eq_of_seqNo hc' hr (hckey.trans hrkey.symm) hseqNo
      rw [hcinfo] at hrinfo
      exact (congrArg TableInfo.id hrinfo).symm
    obtain ⟨th, hth, d, hd, hdkey, hdrop, hw, hcommited, hcd, -⟩ :=
      hnaming'.dropped_between hc' hr hckey hrkey (by rw [hcinfo]) (by rw [hrinfo]) hlt
    refine ⟨th, hth, d, hd, hdrop, hw, hcommited, fun hbefore => ?_⟩
    exact absurd hcd (not_lt.mpr (hnewest d hbefore.1 hdkey hbefore.2))

instance (th : Thread) (s : Node) (op : Op) : Decidable (th.NameFree s op) := by
  unfold Thread.NameFree
  split <;> infer_instance

instance (o : Options) (s : Service) (action : Action) : Decidable (Rechecked o s action) :=
  inferInstanceAs (Decidable (∀ x ∈ s.running action, (kernel o).Meets x.2.1.NameFree x.1 x.2.2))

/-- A table is created, dropped and created again. -/
theorem created_once_again : ∃ s s' : Service,
    Machine.run (step ⟨10⟩) (leader ⟨10⟩)
      [.request (.createTable none [1] [2]), .resume 0, .resume 0, .resume 0, .resume 0, .resume 0] = some s ∧
    Machine.run (step ⟨10⟩) s
      [.request (.dropTable none [1]), .resume 1, .resume 1, .resume 1, .resume 1,
        .request (.createTable none [1] [3]), .resume 2, .resume 2, .resume 2, .resume 2, .resume 2, .resume 2] =
          some s' ∧
    s.shared.db.getStorageId 11 [1] = some [2] ∧ s'.shared.db.getStorageId 13 [1] = some [3] ∧
    ∃ th ∈ s'.threads, ∃ d ∈ catalog s'.shared, th.dropping = some [1] ∧ th.Wrote d ∧
      s'.shared.context.txStorage.txStatus d.value.tx = some .commited ∧
      ¬ (d ∈ catalog s.shared ∧ s.shared.context.txStorage.txStatus d.value.tx = some .commited) := by
  refine Machine.exists_runs_of
    (T := fun s s' => Machine.Guarded (step ⟨10⟩) (Rechecked ⟨10⟩) s
        [.request (.dropTable none [1]), .resume 1, .resume 1, .resume 1, .resume 1,
          .request (.createTable none [1] [3]), .resume 2, .resume 2, .resume 2, .resume 2, .resume 2, .resume 2] ∧
      s.shared.context.txStorage.nextTxId = 11 ∧ s'.shared.context.txStorage.nextTxId = 13 ∧
      s.shared.db.getStorageId 11 [1] = some [2] ∧ s'.shared.db.getStorageId 13 [1] = some [3]) (by decide +kernel) ?_
  rintro s s' hr hr' ⟨hg, hnext, hnext', hid, hid'⟩
  refine ⟨hid, hid', ?_⟩
  rw [← hnext] at hid
  rw [← hnext'] at hid'
  exact (created_once ⟨10⟩ _ _ s s' (by decide) (by decide +kernel) hr hg hr').2 [1] [2] [3] hid hid' (by decide)

/-- Two requests look the name up before one of them has written it: both create it, and the table that was committed
first is no longer found, though nobody has dropped it. -/
theorem both_create : ∃ s s' : Service,
    Machine.run (step ⟨10⟩) (leader ⟨10⟩)
      [.request (.createTable none [1] [2]), .request (.createTable none [1] [3]), .resume 0, .resume 0, .resume 0,
        .resume 0, .resume 0] = some s ∧
    Machine.run (step ⟨10⟩) s [.resume 1, .resume 1, .resume 1, .resume 1, .resume 1] = some s' ∧
    (s'.tasks.map fun x => (x.1.activity, answer x.2)) =
      [(.session (.createTable none [1] [2]) 10, some .ok), (.session (.createTable none [1] [3]) 11, some .ok)] ∧
    s'.shared.context.txStorage.getStatus 10 = some .commited ∧
    s'.shared.context.txStorage.getStatus 11 = some .commited ∧
    s.shared.db.getStorageId s.shared.context.txStorage.nextTxId [1] = some [2] ∧
    s'.shared.db.getStorageId s'.shared.context.txStorage.nextTxId [1] = some [3] := by
  refine Machine.exists_runs_of ?_ fun _ _ _ _ h => h
  decide +kernel

end StructureDb.Service
