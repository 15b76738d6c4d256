import StructureDb.Lib.Interference
import StructureDb.Proofs.LsmSteps
import StructureDb.Proofs.ServiceSteps

/-! `Lsm::Flush` and `Lsm::Compact` beside other threads. Whoever holds the maintenance mutex of
a storage finds its tables as it has left them, so what it publishes is made of what is
there. What the terms of a thread have to allow for that is `Tends`. -/

namespace StructureDb.Service

open Coroutine

variable {o : Options} {s s' : Node} {op : Op} {no : ℕ} {id : Bytes} {l l' : Lsm TransactionalValue}
  {E : Terms Node Op} {P : Node → Prop} {X : Node → Exception → Prop}

def Op.Reads : Op → Prop
  | .server (.isCommited _) => True
  | .server (.hasStorage _) => True
  | .server (.scan _ _) => True
  | .server .io => True
  | .getStatus _ => True
  | .scanRange _ _ => True
  | .tree _ => True
  | _ => False

theorem reads : Reads Op.Reads :=
  ⟨⟨fun _ _ => trivial, fun _ => trivial, fun _ => trivial, trivial⟩, fun _ => trivial, fun _ _ => trivial⟩

theorem Effect.eq_of_reads (h : Effect o s op s') (hop : op.Reads) : s' = s := by
  cases h with
  | same => rfl
  | resume op call walWriter hw hwriting => cases op <;> first | exact hop.elim | exact hwriting.elim
  | edit op no id f l hedit hl =>
    cases op <;> first | exact hop.elim | cases hedit
  | _ => exact hop.elim

theorem calls_read (hrefl : ∀ s, E.guarantee s s) (hstable : ∀ s s', P s → E.rely s s' → P s') (hop : op.Reads)
    (hs : P s) :
    Calls (kernel o) E op (fun s _ => P s) s := by
  refine calls_of hstable ?_ ?_
  · intro hi _
    have heq := (perform_effect o s op).eq_of_reads hop
    change After E s _ _ (perform o s op)
    generalize perform o s op = x at heq
    obtain ⟨u, x⟩ := x
    obtain rfl : u = s := heq
    refine ⟨hi, hrefl u, ?_⟩
    cases x with
    | inl r => exact hs
    | inr b => exact hs
  · rintro u b ⟨u', x⟩ hu hi - hw
    obtain rfl := (wake_effect (o := o) hw).eq_of_reads hop
    refine ⟨hi, hrefl u', ?_⟩
    cases x with
    | inl r => exact hu
    | inr b => exact hu

/-- A program that only reads keeps what others keep. -/
theorem sat_reads {α : Type} {c : Program α} (hrefl : ∀ s, E.guarantee s s)
    (hstable : ∀ s s', P s → E.rely s s' → P s') (hc : c.All Op.Reads) (hs : P s) :
    c.Sat (kernel o) E (fun s _ => P s) (fun s _ => P s) s := by
  induction c generalizing s with
  | ret a => exact hs
  | raise e => exact hs
  | call op k ih => exact (calls_read hrefl hstable hc.1 hs).mono fun u r hu => ih r (hc.2 r) hu

theorem sat_io (hrefl : ∀ s, E.guarantee s s) (hstable : ∀ s s', P s → E.rely s s' → P s') (hs : P s) :
    io.Sat (kernel o) E (fun s _ => P s) X s := calls_read hrefl hstable trivial hs

/-- The rows that `CompactRows` gives to the builder when the statuses it reads are among the `known` ones. -/
inductive Compacted (known : TransactionId → Option Status → Prop) : Option Bytes → List Row → List Row → Prop
  | nil (last : Option Bytes) : Compacted known last [] []
  | deleted {last : Option Bytes} {row : Row} {rest out : List Row} (hdeleted : row.value.isDeleted = true)
      (h : Compacted known last rest out) : Compacted known last (row :: rest) out
  | skipped {last : Option Bytes} {row : Row} {rest out : List Row} {status : Option Status}
      (hdeleted : row.value.isDeleted = false) (hknown : known row.value.tx status)
      (hstatus : status ≠ some .commited ∧ status ≠ some .started) (h : Compacted known last rest out) :
      Compacted known last (row :: rest) out
  | added {last : Option Bytes} {row : Row} {rest out : List Row} {status : Option Status}
      (hdeleted : row.value.isDeleted = false) (hknown : known row.value.tx status)
      (hstatus : ¬ (status ≠ some .commited ∧ status ≠ some .started)) (hlast : last ≠ some row.key)
      (h : Compacted known (some row.key) rest out) : Compacted known last (row :: rest) (freezeRow status row :: out)
  | shadowed {last : Option Bytes} {row : Row} {rest out : List Row} {status : Option Status}
      (hdeleted : row.value.isDeleted = false) (hknown : known row.value.tx status)
      (hstatus : ¬ (status ≠ some .commited ∧ status ≠ some .started)) (hlast : last = some row.key)
      (h : Compacted known last rest out) : Compacted known last (row :: rest) out

def Known (E : Terms Node Op) (P : Node → Prop) (tx : TransactionId) (status : Option Status) : Prop :=
  ∃ s, E.inv s ∧ P s ∧ s.context.txStorage.getStatus tx = status

theorem sat_compactRows (hrefl : ∀ s, E.guarantee s s) (hstable : ∀ s s', P s → E.rely s s' → P s')
    (last : Option Bytes) (rows : List Row) (hs : P s) :
    (compactRows last rows).Sat (kernel o) E (fun s out => P s ∧ Compacted (Known E P) last rows out) X s := by
  induction rows generalizing last s with
  | nil => exact ⟨hs, .nil last⟩
  | cons row rest ih =>
    refine Coro.Sat.bind ((sat_io hrefl hstable hs).mono (fun u _ hu => ?_) fun _ _ h => h)
    split
    · rename_i hdeleted
      exact (ih last hu).mono (fun _ _ h => ⟨h.1, .deleted hdeleted h.2⟩) fun _ _ h => h
    · rename_i hdeleted
      rw [Bool.not_eq_true] at hdeleted
      refine Coro.Sat.bind (Coro.sat_perform (calls_now (r := u.context.txStorage.getStatus row.value.tx) rfl
        fun hi _ => ⟨hi, hrefl u, ?_⟩))
      have hknown : Known E P row.value.tx (u.context.txStorage.getStatus row.value.tx) := ⟨u, hi, hu, rfl⟩
      generalize u.context.txStorage.getStatus row.value.tx = status at hknown
      split_ifs with hstatus hlast
      · exact (ih last hu).mono (fun _ _ h => ⟨h.1, .skipped hdeleted hknown hstatus h.2⟩) fun _ _ h => h
      · refine Coro.Sat.bind ((sat_io hrefl hstable hu).mono (fun v _ hv => ?_) fun _ _ h => h)
        refine Coro.Sat.bind ((ih (some row.key) hv).mono (fun _ _ h => ?_) fun _ _ h => h)
        exact ⟨h.1, .added hdeleted hknown hstatus hlast h.2⟩
      · exact (ih last hu).mono (fun _ _ h => ⟨h.1, .shadowed hdeleted hknown hstatus (not_not.mp hlast) h.2⟩)
          fun _ _ h => h

def setTree (s : Node) (id : Bytes) (l : Lsm TransactionalValue) : Node :=
  { s with context := { s.context with storages := Function.update s.context.storages id (some l) } }

theorem setTree_self (s : Node) (id : Bytes) (l : Lsm TransactionalValue) :
    (setTree s id l).context.storages id = some l := Function.update_self ..

theorem setTree_of_ne {id' : Bytes} (h : id' ≠ id) (l : Lsm TransactionalValue) :
    (setTree s id l).context.storages id' = s.context.storages id' := Function.update_of_ne h ..

/-- Thread `no` has the mutex, and the tables are those of `l`; mem tables may have come behind. -/
structure Held (no : ℕ) (id : Bytes) (l : Lsm TransactionalValue) (s : Node) : Prop where
  mutex : s.maintenance id = some no
  tree : ∃ l', s.context.storages id = some l' ∧ l'.ssTables = l.ssTables ∧ l.roMemTables <+: l'.roMemTables

structure Tends (E : Terms Node Op) (no : ℕ) : Prop where
  refl : ∀ s, E.guarantee s s
  mutex : ∀ id s s', s.maintenance id = some no → E.rely s s' → s'.maintenance id = some no
  held : ∀ id l s s', Held no id l s → E.rely s s' → Held no id l s'
  lock : ∀ id s, E.inv s → s.maintenance id = none →
    E.Permits s { s with maintenance := Function.update s.maintenance id (some no) }
  unlock : ∀ id s, E.inv s → s.maintenance id = some no →
    E.Permits s { s with maintenance := Function.update s.maintenance id none }
  remove : ∀ id s l path, E.inv s → s.maintenance id = some no → s.context.storages id = some l →
    E.Permits s (setTree s id (l.removeFiles [path]))
  write : ∀ id s l m rest t, E.inv s → s.maintenance id = some no → s.context.storages id = some l →
    l.roMemTables = m :: rest → t.records = m.impl → E.Permits s (setTree s id (l.writeTable t))
  flush : ∀ id s l m rest t, E.inv s → s.maintenance id = some no → s.context.storages id = some l →
    l.roMemTables = m :: rest → t.records = m.impl → E.Permits s (setTree s id (l.publishFlush t))

theorem modify_eq_setTree {f : Lsm TransactionalValue → Lsm TransactionalValue} (h : s.context.storages id = some l) :
    s.modify id f = setTree s id (f l) := Node.modify_of_some h

theorem Held.files (h : Held no id l s) (hl : s.context.storages id = some l') (dir : Dir Bytes (List Row)) :
    Held no id l (setTree s id { l' with dir := dir }) := by
  obtain ⟨hmutex, l'', htree, hss, hro⟩ := h
  obtain rfl := Option.some.inj (htree.symm.trans hl)
  exact ⟨hmutex, _, Function.update_self .., hss, hro⟩

theorem wake_files {b : Wait} :
    (∀ table x, wake s (.writeTable no id table) b = some x → x = (s, .inl ())) ∧
      ∀ path x, wake s (.remove no id path) b = some x → x = (s, .inl ()) := by
  cases b with
  | mutex => exact ⟨fun _ _ h => (by cases h), fun _ _ h => (by cases h)⟩
  | server wait =>
    cases wait with
    | io => exact ⟨fun _ _ h => (Option.some.inj h).symm, fun _ _ h => (Option.some.inj h).symm⟩
    | timer n => exact ⟨fun _ _ h => (by cases h), fun _ _ h => (by cases h)⟩
    | write call => exact ⟨fun _ _ h => (by cases h), fun _ _ h => (by cases h)⟩

theorem wake_lock {b : Wait} {x : Node × (Unit ⊕ Wait)} (h : wake s (.lockMaintenance no id) b = some x) :
    s.maintenance id = none ∧ x = ({ s with maintenance := Function.update s.maintenance id (some no) }, .inl ()) := by
  cases b with
  | mutex =>
    rw [wake] at h
    split_ifs at h with hfree
    exact ⟨hfree, (Option.some.inj h).symm⟩
  | server wait => cases wait <;> cases h

namespace Tends

variable (h : Tends E no)
include h

theorem calls_writeTable (table : SSTable TransactionalValue) (hs : Held no id l s)
    (hw : ∀ l', E.inv s → s.context.storages id = some l' → l'.ssTables = l.ssTables →
      l.roMemTables <+: l'.roMemTables →
      E.Permits s (setTree s id (l'.writeTable table))) :
    Calls (kernel o) E (.writeTable no id table) (fun s _ => Held no id l s) s := by
  refine calls_of (h.held id l) ?_ ?_
  · intro hi _
    obtain ⟨l', hl, hss, hro⟩ := hs.tree
    obtain ⟨hinv, hg⟩ := hw l' hi hl hss hro
    rw [← modify_eq_setTree (f := fun l => l.writeTable table) hl] at hinv hg
    refine ⟨hinv, hg, ?_⟩
    change Held no id l (s.modify id fun l => l.writeTable table)
    rw [modify_eq_setTree hl]
    exact hs.files hl _
  · intro u b x hu hi _ hw
    rw [wake_files.1 _ _ hw]
    exact ⟨hi, h.refl u, hu⟩

theorem sat_removeFiles (paths : List Bytes) (hs : s.maintenance id = some no) :
    (removeFiles no id paths).Sat (kernel o) E (fun s _ => s.maintenance id = some no) X s := by
  induction paths generalizing s with
  | nil => exact hs
  | cons path paths ih =>
    refine Coro.Sat.bind (Coro.sat_perform ((calls_of (h.mutex id) ?_ ?_).mono fun u _ hu => ih hu))
    · intro hi _
      have hafter : E.Permits s (s.modify id fun l => l.removeFiles [path]) ∧
          (s.modify id fun l => l.removeFiles [path]).maintenance id = some no := by
        rcases hl : s.context.storages id with _ | l
        · rw [Node.modify_of_none hl]
          exact ⟨⟨hi, h.refl s⟩, hs⟩
        · rw [modify_eq_setTree hl]
          exact ⟨h.remove id s l path hi hs hl, hs⟩
      exact ⟨hafter.1.1, hafter.1.2, hafter.2⟩
    · intro u b x hu hi _ hw
      rw [wake_files.2 _ _ hw]
      exact ⟨hi, h.refl u, hu⟩

omit h in
/-- The oldest frozen mem table stays the same while others come behind. -/
theorem front_of_prefix {m : MemTable TransactionalValue} {rest : List (MemTable TransactionalValue)}
    (hro : l.roMemTables = m :: rest) (hfront : l.roMemTables <+: l'.roMemTables) :
    ∃ rest', l'.roMemTables = m :: rest' := by
  obtain ⟨back, hback⟩ := hfront
  exact ⟨rest ++ back, by rw [← hback, hro, List.cons_append]⟩

theorem calls_publishFlush {m : MemTable TransactionalValue} {rest : List (MemTable TransactionalValue)}
    (hro : l.roMemTables = m :: rest) (hs : Held no id l s) :
    Calls (kernel o) E (.publishFlush no id (l.flushTable m)) (fun s _ => s.maintenance id = some no) s := by
  obtain ⟨hmutex, l', hl, -, hfront⟩ := hs
  refine calls_now (r := ()) rfl fun hi _ => ?_
  obtain ⟨rest', hro'⟩ := front_of_prefix hro hfront
  rw [modify_eq_setTree hl]
  obtain ⟨hinv, hg⟩ := h.flush id s l' m _ (l.flushTable m) hi hmutex hl hro' rfl
  exact ⟨hinv, hg, hmutex⟩

theorem sat_flushFront (hs : Held no id l s) :
    (flushFront no id l).Sat (kernel o) E (fun s _ => s.maintenance id = some no) X s := by
  unfold flushFront
  rcases hro : l.roMemTables with _ | ⟨m, rest⟩
  · exact hs.mutex
  · refine Coro.Sat.bind (Coro.sat_perform ((h.calls_writeTable (l.flushTable m) hs ?_).mono fun u _ hu =>
      Coro.sat_perform (h.calls_publishFlush hro hu)))
    intro l' hi hl _ hfront
    obtain ⟨rest', hro'⟩ := front_of_prefix hro hfront
    exact h.write id s l' m rest' _ hi hs.mutex hl hro' rfl

/-- The tables that are found under the mutex stay. -/
theorem sat_onTree {body : Lsm TransactionalValue → Program Unit} (hs : s.maintenance id = some no)
    (hbody : ∀ l, E.inv s → E.check s (.tree id) → s.context.storages id = some l → Held no id l s →
      (body l).Sat (kernel o) E (fun s _ => s.maintenance id = some no) X s) :
    (onTree id body).Sat (kernel o) E (fun s _ => s.maintenance id = some no) X s := by
  refine Coro.Sat.bind (Coro.sat_perform (calls_now (r := s.context.storages id) rfl fun hi hc =>
    ⟨hi, h.refl s, ?_⟩))
  rcases hl : s.context.storages id with _ | l
  · exact hs
  · exact hbody l hi hc hl ⟨hs, l, hl, rfl, List.prefix_rfl⟩

theorem sat_flushTables (pending : ℕ) (hs : s.maintenance id = some no) :
    (flushTables no id pending).Sat (kernel o) E (fun s _ => s.maintenance id = some no) X s := by
  induction pending generalizing s with
  | zero => exact hs
  | succ pending ih =>
    exact Coro.Sat.bind ((h.sat_onTree hs fun l _ _ _ hl => h.sat_flushFront hl).mono (fun u _ hu => ih hu)
      fun _ _ h => h)

theorem calls_lock : Calls (kernel o) E (.lockMaintenance no id) (fun s _ => s.maintenance id = some no) s := by
  have hafter : ∀ s : Node, E.inv s → s.maintenance id = none →
      After E s (fun _ _ => True) (fun s _ => s.maintenance id = some no)
        (({ s with maintenance := Function.update s.maintenance id (some no) }, .inl ()) : Node × (Unit ⊕ Wait)) := by
    intro s hi hfree
    obtain ⟨hinv, hg⟩ := h.lock id s hi hfree
    exact ⟨hinv, hg, Function.update_self ..⟩
  refine calls_of (P := fun _ => True) (fun _ _ _ _ => trivial) ?_ ?_
  · intro hi _
    change After E s _ _ (perform o s (.lockMaintenance no id))
    rw [perform]
    split_ifs with hfree
    · exact hafter s hi hfree
    · exact ⟨hi, h.refl s, trivial⟩
  · intro u b x _ hi _ hw
    obtain ⟨hfree, rfl⟩ := wake_lock hw
    exact hafter u hi hfree

theorem sat_maintain {body : Lsm TransactionalValue → Program Unit}
    (hbody : ∀ l s, E.inv s → E.check s (.tree id) → s.context.storages id = some l → Held no id l s →
      (body l).Sat (kernel o) E (fun s _ => s.maintenance id = some no) X s) :
    (maintain no id body).Sat (kernel o) E (fun _ _ => True) X s := by
  refine Coro.Sat.bind (Coro.sat_perform (h.calls_lock.mono fun u _ hu => ?_))
  refine Coro.Sat.bind ((h.sat_onTree hu fun l => hbody l u).mono (fun v _ hv => ?_) fun _ _ h => h)
  refine Coro.sat_perform (calls_now (r := ()) rfl fun hi _ => ?_)
  obtain ⟨hinv, hg⟩ := h.unlock id v hi hv
  exact ⟨hinv, hg, trivial⟩

theorem sat_flushAll (ids : List Bytes) : (flushAll no ids).Sat (kernel o) E (fun _ _ => True) X s := by
  induction ids generalizing s with
  | nil => trivial
  | cons id ids ih =>
    refine Coro.Sat.bind ((h.sat_maintain fun l u _ _ _ hl => ?_).mono (fun _ _ _ => ih) fun _ _ h => h)
    exact h.sat_flushTables _ hl.mutex

end Tends

/-- Terms under which thread `no` can compact the storages in `ids` as well, and finds no other ones behind the names of
tables. `P id l` is what it knows of the tables `l` it has found. -/
structure Compacts (o : Options) (E : Terms Node Op) (no : ℕ) (ids : Bytes → Prop)
    (P : Bytes → Lsm TransactionalValue → Node → Prop) : Prop extends Tends E no where
  table : ∀ tx name s, (getTable tx name).Sat (kernel o) E
    (fun _ found => ∀ id, found = some (.transactional id) → ids id) (fun _ _ => True) s
  found : ∀ id l s, E.inv s → E.check s (.tree id) → s.context.storages id = some l → P id l s
  seen : ∀ id l s s', P id l s → E.rely s s' → P id l s'
  writeCompact : ∀ id s l l' path out, ids id → E.inv s → s.maintenance id = some no →
    s.context.storages id = some l' →
    l'.ssTables = l.ssTables → Compacted (Known E fun s => Held no id l s ∧ P id l s) none l.mergedRecords out →
    E.Permits s (setTree s id (l'.writeTable ⟨path, out⟩))
  compact : ∀ id s l l' path out, ids id → E.inv s → s.maintenance id = some no → s.context.storages id = some l' →
    l'.ssTables = l.ssTables → Compacted (Known E fun s => Held no id l s ∧ P id l s) none l.mergedRecords out →
    E.Permits s (setTree s id (l'.publishCompact ⟨path, out⟩))

namespace Compacts

variable {ids : Bytes → Prop} {P : Bytes → Lsm TransactionalValue → Node → Prop} (h : Compacts o E no ids P)
include h

theorem sat_compactTree (hid : ids id) (hs : Held no id l s) (hP : P id l s) :
    (compactTree no id l).Sat (kernel o) E (fun s _ => s.maintenance id = some no) X s := by
  have hstable : ∀ s s', Held no id l s ∧ P id l s → E.rely s s' → Held no id l s' ∧ P id l s' :=
    fun s s' hs hr => ⟨h.held id l s s' hs.1 hr, h.seen id l s s' hs.2 hr⟩
  refine Coro.Sat.bind ((sat_io h.refl hstable ⟨hs, hP⟩).mono (fun u _ hu => ?_) fun _ _ h => h)
  refine Coro.Sat.bind ((sat_compactRows h.refl hstable none _ hu).mono (fun v out hv => ?_) fun _ _ h => h)
  refine Coro.Sat.bind (Coro.sat_perform ((h.calls_writeTable _ hv.1.1 ?_).mono fun w _ hw => ?_))
  · exact fun l' hi hl hss _ => h.writeCompact id v l l' _ out hid hi hv.1.1.mutex hl hss hv.2
  · refine Coro.Sat.bind (Coro.sat_perform (calls_now (r := ()) rfl fun hi _ => ?_))
    obtain ⟨hmutex, l', hl, hss, -⟩ := hw
    rw [modify_eq_setTree hl]
    obtain ⟨hinv, hg⟩ := h.compact id w l l' _ out hid hi hmutex hl hss hv.2
    exact ⟨hinv, hg, h.sat_removeFiles _ hmutex⟩

theorem sat_tableCompact (table : Table) (hids : ∀ id, table = .transactional id → ids id) :
    (table.compact no).Sat (kernel o) E (fun _ _ => True) X s := by
  cases table with
  | sysTables => trivial
  | sysTransactions => trivial
  | transactional id =>
    exact h.sat_maintain fun l _ hi hc hl hs => h.sat_compactTree (hids id rfl) hs (h.found id l _ hi hc hl)

theorem sat_compactTables (tx : TransactionId) (names : List Bytes) :
    (compactTables no tx names).Sat (kernel o) E (fun _ _ => True) (fun _ _ => True) s := by
  induction names generalizing s with
  | nil => trivial
  | cons name rest ih =>
    refine Coro.Sat.bind (Coro.Sat.bind ((h.table tx name s).mono (fun u found hfound => ?_) fun _ _ h => h))
    cases found with
    | none => exact ih
    | some table =>
      exact (h.sat_tableCompact table fun id hid => hfound id (congrArg some hid)).mono (fun _ _ _ => ih) fun _ _ h => h

theorem sat_compactionStep (tx : TransactionId) :
    (compactionStep no tx).Sat (kernel o) E (fun _ _ => True) (fun _ _ => True) s :=
  Coro.Sat.bind ((sat_reads h.refl (P := fun _ => True) (fun _ _ _ _ => trivial)
    (Service.reads.scanCatalog tx .fullScan)
    trivial).mono (fun _ _ _ => h.sat_compactTables tx _) fun _ _ h => h)

theorem sat_body {tx : TransactionId} {request : Request} (hm : request.maintains = true) :
    (body no tx request).Sat (kernel o) E (fun _ _ => True) (fun _ _ => True) s := by
  cases request with
  | compactTable carried name =>
    refine Coro.Sat.bind ((h.table tx name s).mono (fun u found hfound => ?_) fun _ _ h => h)
    cases found with
    | none => trivial
    | some table =>
      exact Coro.Sat.bind ((h.sat_tableCompact table fun id hid => hfound id (congrArg some hid)).mono
        (fun _ _ _ => trivial) fun _ _ h => h)
  | compaction => exact Coro.Sat.bind ((h.sat_compactionStep tx).mono (fun _ _ _ => trivial) fun _ _ h => h)
  | _ => cases hm

end Compacts

end StructureDb.Service
