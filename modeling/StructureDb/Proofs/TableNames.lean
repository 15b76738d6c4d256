import StructureDb.Proofs.CatalogRows
import StructureDb.Proofs.Lookups

/-! Concurrent `CreateTable` and `DropTable`. The check of a name and the lock on it are apart;
where the name is still free when the lock is granted, between two creations of a name lies
a drop of it. -/

namespace StructureDb.Service

open Coroutine

variable {o : Options} {s s' s'' : Node} {op : Op} {th : Thread} {tx : TransactionId} {id name : Bytes}
  {P : Node → Prop} {X : Node → Exception → Prop}

/-- What stays: versions in the catalog, commits and known transactions. -/
structure Lasting (s s' : Node) : Prop where
  rows : ∀ row ∈ catalog s, row ∈ catalog s'
  commited : ∀ t, s.context.txStorage.txStatus t = some .commited → s'.context.txStorage.txStatus t = some .commited
  known : ∀ t, s.context.txStorage.txStatus t ≠ none → s'.context.txStorage.txStatus t ≠ none

namespace Lasting

theorem trans (h : Lasting s s') (h' : Lasting s' s'') : Lasting s s'' :=
  ⟨fun row hrow => h'.rows row (h.rows row hrow), fun t ht => h'.commited t (h.commited t ht),
    fun t ht => h'.known t (h.known t ht)⟩

theorem of_proceeds (hrows : ∀ row ∈ catalog s, row ∈ catalog s')
    (hp : Proceeds s.context.txStorage s'.context.txStorage) : Lasting s s' := ⟨hrows, hp.commited, hp.known⟩

end Lasting

def Thread.Wrote (th : Thread) (row : Row) : Prop :=
  match th.activity with
  | .session (.createTable _ name id) tx => row.key = name ∧ row.value.tx = tx ∧ tableInfo row = ⟨false, id⟩
  | .session (.dropTable _ name) tx => row.key = name ∧ row.value.tx = tx ∧ (tableInfo row).dropped = true
  | _ => False

structure Catalogs (th : Thread) (s s' : Node) : Prop where
  works : Works th.no s s'
  lasting : Lasting s s'
  enters : ∀ row ∈ catalog s', row ∈ catalog s ∨ th.Wrote row

namespace Catalogs

theorem of_eq (hworks : Works th.no s s') (hrows : catalog s' = catalog s)
    (hp : Proceeds s.context.txStorage s'.context.txStorage) : Catalogs th s s' :=
  ⟨hworks, .of_proceeds (fun _ hrow => hrows ▸ hrow) hp, fun _ hrow => Or.inl (hrows ▸ hrow)⟩

theorem refl (s : Node) : Catalogs th s s := of_eq (Works.refl s) rfl (Proceeds.refl _)

theorem trans (h : Catalogs th s s') (h' : Catalogs th s' s'') : Catalogs th s s'' := by
  refine ⟨h.works.trans h'.works, h.lasting.trans h'.lasting, fun row hrow => ?_⟩
  rcases h'.enters row hrow with hrow | hw
  · exact h.enters row hrow
  · exact Or.inr hw

end Catalogs

/-- When `CreateTable` gets the lock on its name, the name is still free. -/
def Thread.NameFree (th : Thread) (s : Node) : Op → Prop
  | .server (.acquireRowLock tx name) => th.creates.isSome = true → s.context.txStorage.rowLocks name = none →
      ∀ info ∈ s.db.getTableInfo tx name, info.dropped = true
  | _ => True

def cataloging (th : Thread) : Terms Node Op where
  inv := CatalogOk
  check := th.NameFree
  rely := fun s s' => Keeps th.no s s' ∧ Lasting s s'
  guarantee := Catalogs th

def Op.Steady : Op → Prop
  | .server .begin => False
  | .server (.setStatus _ _) => False
  | .server (.releaseAllLocks _) => False
  | .server (.upsert id _ _) => id ≠ kSysTables
  | op => op.Plain

theorem Op.Steady.plain (h : op.Steady) : op.Plain := by
  cases op with
  | server op => trivial
  | _ => exact h

/-- One storage changes that is not the catalog. -/
theorem catalog_update (hne : id ≠ kSysTables)
    (hstorages : ∀ id', id' ≠ id → s'.context.storages id' = s.context.storages id') : catalog s' = catalog s := by
  rw [catalog, catalog, hstorages kSysTables hne.symm]

theorem Op.Steady.effect (hop : op.Steady) (h : CatalogOk s) (he : Effect o s op s') :
    CatalogOk s' ∧ Catalogs th s s' := by
  have hproceeds : Proceeds s.context.txStorage s'.context.txStorage := by
    have htx := he.tx
    generalize s'.context.txStorage = u at htx
    cases htx with
    | same => exact Proceeds.refl _
    | begin => exact hop.elim
    | setStatus tx status => exact hop.elim
    | logCommit tx => exact Proceeds.commit _ tx
    | grant tx rowKey _ ha => exact Proceeds.grant ha
    | release tx => exact hop.elim
  have htree : s'.context.storages kSysTables = s.context.storages kSysTables := by
    obtain ⟨l, hl, -⟩ := h.tree
    cases he with
    | emplace id hnone =>
      refine Function.update_of_ne (fun heq => ?_) ..
      rw [← heq, hl] at hnone
      cases hnone
    | put id key value l hl => exact Function.update_of_ne (Ne.symm hop) ..
    | edit op n id f l hedit hl =>
      cases op with
      | server op => cases hedit
      | _ => first | exact hop.elim | cases hedit
    | _ => rfl
  have hrows : catalog s' = catalog s := by rw [catalog, catalog, htree]
  exact ⟨h.congr (htree ▸ h.tree) hrows hproceeds, .of_eq (Works.effect hop.plain he) hrows hproceeds⟩

section Maintenance
variable {l l' : Lsm TransactionalValue}

/-- The holder of the mutex changes a storage whose levels stay, or one that is not the catalog. -/
theorem permits_setTree (h : CatalogOk s) (hmutex : s.maintenance id = some th.no) (hl : s.context.storages id = some l)
    (hsub : ∀ v ∈ versions l', v ∈ versions l)
    (hlevels : id = kSysTables → l'.levels = l.levels ∧ l'.nextSeqNo = l.nextSeqNo) :
    (cataloging th).Permits s (setTree s id l') := by
  have hcatalog : (∃ l, (setTree s id l').context.storages kSysTables = some l ∧ l.Ordered) ∧
      catalog (setTree s id l') = catalog s := by
    by_cases heq : id = kSysTables
    · obtain ⟨hlev, hnext⟩ := hlevels heq
      subst heq
      have hself := setTree_self s kSysTables l'
      obtain ⟨l₀, hl₀, hord⟩ := h.tree
      obtain rfl := Option.some.inj (hl₀.symm.trans hl)
      refine ⟨⟨l', hself, ?_⟩, ?_⟩
      · unfold Lsm.Ordered
        rw [hlev, hnext]
        exact hord
      · rw [catalog_of_tree hself, catalog_of_tree hl, Lsm.records, hlev]
        rfl
    · refine ⟨?_, catalog_update heq fun _ hne => setTree_of_ne hne l'⟩
      rw [setTree_of_ne (Ne.symm heq)]
      exact h.tree
  exact ⟨h.congr hcatalog.1 hcatalog.2 (Proceeds.refl _),
    .of_eq (Works.setTree hmutex hl hsub) hcatalog.2 (Proceeds.refl _)⟩

theorem cataloging_tends (th : Thread) : Tends (cataloging th) th.no where
  refl := Catalogs.refl
  mutex := fun id s s' h hr => hr.1.mutex id h
  held := fun id l s s' h hr => hr.1.held h
  lock := by
    intro id s h hfree
    refine ⟨h.congr h.tree rfl (Proceeds.refl _), .of_eq (Works.mutex fun n _ hn => ?_) rfl (Proceeds.refl _)⟩
    rw [hfree] at hn
    cases hn
  unlock := by
    intro id s h hheld
    refine ⟨h.congr h.tree rfl (Proceeds.refl _), .of_eq (Works.mutex fun n hne hn => hne ?_) rfl (Proceeds.refl _)⟩
    exact Option.some.inj (hn.symm.trans hheld)
  remove := fun _ _ _ _ h hmutex hl => permits_setTree h hmutex hl (fun _ hv => hv) fun _ => ⟨rfl, rfl⟩
  write := fun _ _ _ _ _ _ h hmutex hl _ _ => permits_setTree h hmutex hl (fun _ hv => hv) fun _ => ⟨rfl, rfl⟩
  flush := by
    intro id s l m rest t h hmutex hl hro ht
    have hlevels := Lsm.publishFlush_levels hro ht
    refine permits_setTree h hmutex hl (fun v hv => ?_) fun _ => ⟨hlevels, rfl⟩
    rwa [versions_of_levels hlevels] at hv

/-- The versions that a lookup reads are in the catalog. -/
theorem Entry.id_notMem {E : Terms Node Op} (hE : E.inv = CatalogOk) {info : TableInfo} (h : Entry E P tx name info) :
    info.id ∉ internalTables := by
  obtain ⟨u, l, row, hi, -, hl, hseen, rfl⟩ := h.found
  rw [hE] at hi
  obtain ⟨l', hl', hord⟩ := hi.tree
  obtain rfl := Option.some.inj (hl'.symm.trans hl)
  have hmem := hseen.mem
  rw [Lsm.scanKey_eq_filter hord.sorted] at hmem
  refine hi.ids row ?_
  rw [catalog_of_tree hl]
  exact (List.mem_filter.mp hmem).1

theorem cataloging_compacts (o : Options) (th : Thread) :
    Compacts o (cataloging th) th.no (fun id => id ∉ internalTables) fun _ _ _ => True where
  toTends := cataloging_tends th
  table :=
    fun tx name s => (sat_getTable (P := fun _ => True) Catalogs.refl (fun _ _ _ _ => trivial) tx name trivial).mono
    (fun _ _ h id hid => (h.2 id hid).id_notMem rfl) fun _ _ h => h
  found := fun _ _ _ _ _ _ => trivial
  seen := fun _ _ _ _ _ _ => trivial
  writeCompact := fun _ _ _ _ _ _ _ h hmutex hl _ _ => permits_setTree h hmutex hl (fun _ hv => hv) fun _ => ⟨rfl, rfl⟩
  compact := fun _ _ _ _ _ _ hid h hmutex hl hss hout =>
    permits_setTree h hmutex hl (versions_publishCompact hss hout) fun heq => absurd (by rw [heq]; decide) hid

end Maintenance

section Programs
variable {α : Type} (hP : ∀ s s', P s → Lasting s s' → P s')

theorem permits_proceeds (h : CatalogOk s) (hmutex : s'.maintenance = s.maintenance)
    (hstorages : s'.context.storages = s.context.storages) (hlog : ∃ events, s'.log = s.log ++ events)
    (hp : Proceeds s.context.txStorage s'.context.txStorage) : (cataloging th).Permits s s' := by
  have hrows : catalog s' = catalog s := by rw [catalog, catalog, hstorages]
  exact ⟨h.congr (hstorages ▸ h.tree) hrows hp, .of_eq (.of_eq hmutex hstorages hlog) hrows hp⟩

/-- A transaction that holds the lock on a name. Whoever creates a table found the name free. -/
structure Locked (th : Thread) (tx : TransactionId) (name : Bytes) (s : Node) : Prop where
  lock : s.context.txStorage.rowLocks name = some tx
  free : th.creates.isSome = true → ∀ c ∈ catalog s, c.key = name → (tableInfo c).dropped = false →
    ∀ n, (∀ row ∈ catalog s, row.seqNo < n) → DroppedBetween s c n

def Entered (th : Thread) (s : Node) : Prop := ∃ row ∈ catalog s, th.Wrote row

theorem Entered.lasting (h : Entered th s) (hl : Lasting s s') : Entered th s' := by
  obtain ⟨row, hrow, hw⟩ := h
  exact ⟨row, hl.rows row hrow, hw⟩

section
variable {info : TableInfo} (hid : info.id ∉ internalTables)
    (hcreates : info.dropped = false → th.creates.isSome = true)
  (hwrote : ∀ n, th.Wrote ⟨name, n, ⟨tx, false, false, info.toBytes⟩⟩)
include hid hcreates hwrote

/-- A new version, written under the lock of its name. -/
theorem permits_put {l : Lsm TransactionalValue} (h : CatalogOk s) (hl : s.context.storages kSysTables = some l)
    (hmutex : s'.maintenance = s.maintenance) (htx : s'.context.txStorage = s.context.txStorage)
    (hstorages : s'.context.storages = Function.update s.context.storages kSysTables
      (some (l.put o name ⟨tx, false, false, info.toBytes⟩).1))
    (hlog : s'.log = s.log ++ [.upsert kSysTables l.nextSeqNo name ⟨tx, false, false, info.toBytes⟩])
    (hknown : s.context.txStorage.txStatus tx ≠ none) (hs : Locked th tx name s) :
    (cataloging th).Permits s s' ∧ Entered th s' := by
  have hself : s'.context.storages kSysTables = some (l.put o name ⟨tx, false, false, info.toBytes⟩).1 := by
    rw [hstorages, Function.update_self]
  have hmem := mem_catalog_put hl hself
  have hproceeds : Proceeds s.context.txStorage s'.context.txStorage := by
    rw [htx]
    exact Proceeds.refl _
  refine ⟨⟨?_, ?_, .of_proceeds (fun row hrow => (hmem row).mpr (Or.inr hrow)) hproceeds, fun row hrow => ?_⟩, ?_⟩
  · exact h.put hl hself htx hid hknown hs.lock
      fun hdropped c hc hkey hcreated => hs.free (hcreates hdropped) c hc hkey hcreated _ (h.bound hl)
  · exact Works.put hl hmutex hstorages hlog
  · rcases (hmem row).mp hrow with rfl | hrow
    · exact Or.inr (hwrote _)
    · exact Or.inl hrow
  · exact ⟨_, (hmem _).mpr (Or.inl rfl), hwrote _⟩

/-- Between the grant of the lock and the write there is no wait. -/
theorem calls_put (hknown : s.context.txStorage.txStatus tx ≠ none) (hs : Locked th tx name s) :
    Calls (kernel o) (cataloging th) (.server (.upsert kSysTables name ⟨tx, false, false, info.toBytes⟩))
      (fun s _ => Entered th s) s := by
  refine calls_of (P := Entered th) (fun _ _ h hr => h.lasting hr.2) ?_ ?_
  · intro hi _
    obtain ⟨l, hl, -⟩ := hi.tree
    change After _ _ _ _ (perform o s _)
    obtain ⟨u, b, hperform, hmutex, htx, hstorages, hlog⟩ := perform_put hl
    rw [hperform]
    obtain ⟨hpermits, hentered⟩ := permits_put hid hcreates hwrote hi hl hmutex htx hstorages hlog hknown hs
    exact ⟨hpermits.1, hpermits.2, hentered⟩
  · intro u b x hu hi _ hw
    obtain ⟨walWriter, hx⟩ := wake_writing hw trivial
    have hpermits : (cataloging th).Permits u x.1 := by
      rw [hx]
      exact permits_proceeds hi rfl rfl ⟨[], (List.append_nil _).symm⟩ (Proceeds.refl _)
    refine ⟨hpermits.1, hpermits.2, ?_⟩
    have hentered := hu.lasting hpermits.2.lasting
    rcases x with ⟨u', r | b⟩
    · exact hentered
    · exact hentered

end

include hP

theorem rely_stable : ∀ s s', P s → (cataloging th).rely s s' → P s' := fun s s' hs hr => hP s s' hs hr.2

/-- Operations that leave the catalog keep what lasts. -/
theorem sat_steady {c : Program α} (hc : c.All Op.Steady) (hs : P s) :
    c.Sat (kernel o) (cataloging th) (fun s _ => P s) (fun s _ => P s) s := by
  have heffect : ∀ s op s', op.Steady → P s → CatalogOk s → Effect o s op s' →
      CatalogOk s' ∧ Catalogs th s s' ∧ P s' := by
    intro s op s' hop hs hi he
    have hpermits : CatalogOk s' ∧ Catalogs th s s' := hop.effect hi he
    exact ⟨hpermits.1, hpermits.2, hP s s' hs hpermits.2.lasting⟩
  exact hc.sat (rely_stable hP) (fun s op hop hs hi _ => heffect s op _ hop hs hi (perform_effect o s op))
    (fun s op _ x hop hs hi _ hw => heffect s op x.1 hop hs hi (wake_effect hw)) hs

theorem calls_acquire (hs : P s) : Calls (kernel o) (cataloging th) (.server (.acquireRowLock tx name))
    (fun s _ => P s ∧ Locked th tx name s) s := by
  have hafter : ∀ u, P u → CatalogOk u → th.NameFree u (.server (.acquireRowLock tx name)) →
      After (cataloging th) u (fun s (_ : Wait) => P s) (fun s (_ : Unit) => P s ∧ Locked th tx name s)
        (perform o u (.server (.acquireRowLock tx name))) := by
    intro u hu hi hfree
    have hsteady : Op.Steady (.server (.acquireRowLock tx name)) := trivial
    obtain ⟨hinv, hg⟩ : _ ∧ Catalogs th u _ := hsteady.effect hi (perform_effect o u _)
    have hP' := hP u _ hu hg.lasting
    refine ⟨hinv, hg, ?_⟩
    rcases ha : u.context.txStorage.acquireRowLock tx name with _ | txStorage
    · obtain ⟨b, hb⟩ := perform_sleeps (o := o) ha
      rw [hb]
      exact hP'
    · obtain ⟨hnone, -, hstatus, hrow, -⟩ := TxStorage.acquireRowLock_spec ha
      rw [perform_granted ha] at hP' ⊢
      refine ⟨hP', ?_, fun hc c hmem hkey hcreated n hn => ?_⟩
      · change txStorage.rowLocks name = some tx
        rw [hrow, Function.update_self]
      · refine (hi.dropped_of_free hnone (hfree hc hnone) hmem hkey hcreated hn).mono (fun _ h => h) fun t ht => ?_
        change txStorage.txStatus t = some .commited
        rw [hstatus]
        exact ht
  refine calls_of (rely_stable hP) (hafter s hs) ?_
  intro u b x hu hi hc hw
  rw [wake_acquireRowLock (o := o) hw]
  exact hafter u hu hi hc

/-- `Storage::Commit` sets the status before it releases the locks. -/
theorem sat_commit_cataloging (hs : P s) :
    (lift (Server.commit tx)).Sat (kernel o) (cataloging th) (fun s _ => P s) X s := by
  have hlasts : ∀ s s' : Node, P s ∧ s.context.txStorage.txStatus tx = some .commited → Lasting s s' →
      P s' ∧ s'.context.txStorage.txStatus tx = some .commited :=
    fun s s' h hl => ⟨hP s s' h.1 hl, hl.commited tx h.2⟩
  have hrelease : ∀ u : Node, P u ∧ u.context.txStorage.txStatus tx = some .commited →
      Calls (kernel o) (cataloging th) (.server (.releaseAllLocks tx)) (fun s _ => P s) u := by
    rintro u ⟨hu, hstatus⟩
    refine calls_now (r := ()) rfl fun hi _ => ?_
    have hpermits : (cataloging th).Permits u (perform o u (.server (.releaseAllLocks tx))).1 := by
      rw [perform_server rfl]
      refine permits_proceeds hi rfl ?_ ⟨[], (List.append_nil _).symm⟩ ?_
      · simp only [Server.perform, Server.releaseAllLocks]
        split_ifs <;> rfl
      · simp only [Server.perform, Server.releaseAllLocks]
        split_ifs
        · exact Proceeds.refl _
        · refine Proceeds.release ?_
          rw [hstatus]
          decide
    exact ⟨hpermits.1, hpermits.2, hP u _ hu hpermits.2.lasting⟩
  refine calls_of (rely_stable hlasts) ?_ ?_
  · intro hi _
    have hsteady : Op.Steady (.server (.logCommit tx)) := trivial
    obtain ⟨hinv, hg⟩ : _ ∧ Catalogs th s _ := hsteady.effect hi (perform_effect o s _)
    exact ⟨hinv, hg, hP s _ hs hg.lasting, TxStorage.setStatus_txStatus_self ..⟩
  · rintro u b ⟨u', x⟩ hu hi - hw
    have hsteady : Op.Steady (.server (.logCommit tx)) := trivial
    obtain ⟨hinv, hg⟩ : _ ∧ Catalogs th u _ := hsteady.effect hi (wake_effect (o := o) hw)
    have hu' := hlasts u u' hu hg.lasting
    refine ⟨hinv, hg, ?_⟩
    cases x with
    | inl r => exact hrelease u' hu'
    | inr b => exact hu'

theorem sat_finish_cataloging {carried : Option TransactionId} {response : Response} (hs : P s) :
    (finish carried tx >>= fun _ => (pure response : Program Response)).Sat (kernel o) (cataloging th)
      (fun s _ => P s) X s := by
  cases carried with
  | none => exact Coro.Sat.bind (sat_commit_cataloging hP hs)
  | some _ => exact hs

/-- The tables that a session works on are not the catalog. -/
theorem sat_withTable_cataloging {body : Table → Program Response} (hs : P s)
    (hbody : ∀ table s, P s → (∀ id, table = .transactional id → id ≠ kSysTables) →
      (body table).Sat (kernel o) (cataloging th) (fun s _ => P s) (fun _ _ => True) s) :
    (withTable tx name body).Sat (kernel o) (cataloging th) (fun s _ => P s) (fun _ _ => True) s := by
  refine Coro.Sat.bind ((sat_getTable Catalogs.refl (rely_stable hP) tx name hs).mono (fun u found hu => ?_)
    fun _ _ h => h)
  cases found with
  | none => exact hu.1
  | some table =>
    refine hbody table u hu.1 fun id hid heq => ?_
    have hnot := (hu.2 id (congrArg some hid)).id_notMem rfl
    rw [heq] at hnot
    exact hnot (by decide)

end Programs

section Requests

theorem steady_reads : Reads Op.Steady :=
  ⟨⟨fun _ _ => trivial, fun _ => trivial, fun _ => trivial, trivial⟩, fun _ => trivial, fun _ _ => trivial⟩

theorem steady_writesRow (h : id ≠ kSysTables) (tx : TransactionId) (key : Bytes) :
    Server.WritesRow (fun op => Op.Steady (.server op)) tx id key :=
  ⟨steady_reads.server, trivial, fun _ _ _ => h⟩

theorem steady_tableUpsert {table : Table} (h : ∀ id, table = .transactional id → id ≠ kSysTables) (tx : TransactionId)
    (key value : Bytes) : (table.upsert tx key value).All Op.Steady := by
  cases table with
  | sysTables => trivial
  | sysTransactions => trivial
  | transactional id => exact all_lift ((steady_writesRow (h id rfl) tx key).upsert value)

theorem steady_tableDelete {table : Table} (h : ∀ id, table = .transactional id → id ≠ kSysTables) (tx : TransactionId)
    (key : Bytes) : (table.delete tx key).All Op.Steady := by
  cases table with
  | sysTables => trivial
  | sysTransactions => trivial
  | transactional id => exact all_lift (steady_writesRow (h id rfl) tx key).delete

def Holding (tx : TransactionId) (s : Node) : Prop := s.context.txStorage.txStatus tx ≠ none

theorem Holding.lasting (h : Holding tx s) (hl : Lasting s s') : Holding tx s' := hl.known tx h

theorem sat_upsertName (info : TableInfo) (hid : info.id ∉ internalTables)
    (hcreates : info.dropped = false → th.creates.isSome = true)
    (hwrote : ∀ n, th.Wrote ⟨name, n, ⟨tx, false, false, info.toBytes⟩⟩) (hs : Holding tx s) :
    (lift (Server.upsert tx kSysTables name info.toBytes)).Sat (kernel o) (cataloging th)
    (fun s _ => Entered th s) X s := by
  rw [Server.upsert, lift_bind]
  refine Coro.Sat.bind (sat_lift ((calls_acquire (fun _ _ => Holding.lasting) hs).mono fun u _ hu => ?_))
  exact sat_lift (calls_put hid hcreates hwrote hu.1 hu.2)

theorem sat_addStorage (hid : id ∉ internalTables) (hcreates : th.creates.isSome = true)
    (hwrote : ∀ n, th.Wrote ⟨name, n, ⟨tx, false, false, TableInfo.toBytes ⟨false, id⟩⟩⟩) (hs : Holding tx s) :
    (lift (Server.addStorage tx name id)).Sat (kernel o) (cataloging th) (fun s _ => Entered th s)
    (fun _ _ => True) s := by
  have hupsert : ∀ u, Holding tx u → (lift (Server.upsert tx kSysTables name (TableInfo.toBytes ⟨false, id⟩))).Sat
      (kernel o) (cataloging th) (fun s _ => Entered th s) (fun _ _ => True) u :=
    fun u hu => sat_upsertName ⟨false, id⟩ hid (fun _ => hcreates) hwrote hu
  unfold Server.addStorage
  split_ifs
  · trivial
  · rw [lift_bind]
    refine Coro.Sat.bind ((sat_getTableInfo Catalogs.refl (rely_stable fun _ _ => Holding.lasting) tx name hs).mono
      (fun u found hu => ?_) fun _ _ h => h)
    cases found with
    | none => exact hupsert u hu.1
    | some info =>
      dsimp only
      split_ifs
      · exact hupsert u hu.1
      · trivial

theorem sat_deleteStorage
    (hwrote : ∀ n id, th.Wrote ⟨name, n, ⟨tx, false, false, TableInfo.toBytes ⟨true, id⟩⟩⟩)
    (hs : Holding tx s) : (lift (Server.deleteStorage tx name)).Sat (kernel o) (cataloging th)
      (fun _ _ => True) (fun _ _ => True) s := by
  unfold Server.deleteStorage
  split_ifs
  · trivial
  · rw [lift_bind]
    refine Coro.Sat.bind ((sat_getTableInfo Catalogs.refl (rely_stable fun _ _ => Holding.lasting) tx name hs).mono
      (fun u found hu => ?_) fun _ _ h => h)
    cases found with
    | none => trivial
    | some info =>
      dsimp only
      split_ifs
      · trivial
      · exact (sat_upsertName ⟨true, info.id⟩ ((hu.2 info rfl).id_notMem rfl) (fun h => nomatch h)
          (fun n => hwrote n info.id) hu.1).mono (fun _ _ _ => trivial) fun _ _ h => h

theorem sat_dropTable (hwrote : ∀ n id, th.Wrote ⟨name, n, ⟨tx, false, false, TableInfo.toBytes ⟨true, id⟩⟩⟩)
    (hs : Holding tx s) : (lift (Server.dropTable tx name)).Sat (kernel o) (cataloging th)
      (fun _ _ => True) (fun _ _ => True) s := by
  have hlift : ∀ c : Server.Program Unit, lift (tryCatch c fun _ => pure ()) = tryCatch (lift c) fun _ => pure () := by
    intro c
    induction c with
    | ret a => rfl
    | raise e => rfl
    | call op k ih => exact congrArg (Coro.call (Op.server op)) (funext ih)
  rw [Server.dropTable, hlift]
  exact Coro.Sat.handle ((sat_deleteStorage hwrote hs).mono (fun _ _ h => h) fun _ _ h => h)

def Named (th : Thread) (s : Node) (response : Response) : Prop :=
  response.isOk = true → th.creates.isSome = true → Entered th s

theorem sat_body_cataloging {no : ℕ} {request : Request}
    (hid : ∀ id, request.uuid = some id → id ∉ internalTables) (hs : Holding tx s) :
    (body no tx request).Sat (kernel o) (cataloging ⟨no, .session request tx⟩) (Named ⟨no, .session request tx⟩)
      (fun _ _ => True) s := by
  have hlasts : ∀ s s' : Node, True → Lasting s s' → True := fun _ _ _ _ => trivial
  cases request with
  | begin => exact fun _ hc => by cases hc
  | commit carried =>
    exact Coro.Sat.bind ((sat_commit_cataloging hlasts trivial).mono (fun u _ _ _ hc => by cases hc) fun _ _ h => h)
  | upsert carried table key value =>
    refine (sat_withTable_cataloging hlasts trivial fun t u _ ht => ?_).mono (fun _ _ _ _ hc => by cases hc)
      fun _ _ h => h
    exact Coro.Sat.bind ((sat_steady hlasts (steady_tableUpsert ht tx key value) trivial).mono
      (fun v _ _ => sat_finish_cataloging hlasts trivial) fun _ _ h => h)
  | lookup carried table key =>
    refine (sat_withTable_cataloging hlasts trivial fun t u _ ht => ?_).mono (fun _ _ _ _ hc => by cases hc)
      fun _ _ h => h
    exact Coro.Sat.bind ((sat_steady hlasts (steady_reads.tableLookup tx key t) trivial).mono
      (fun v _ _ => sat_finish_cataloging hlasts trivial) fun _ _ h => h)
  | delete carried table key =>
    refine (sat_withTable_cataloging hlasts trivial fun t u _ ht => ?_).mono (fun _ _ _ _ hc => by cases hc)
      fun _ _ h => h
    exact Coro.Sat.bind ((sat_steady hlasts (steady_tableDelete ht tx key) trivial).mono
      (fun v _ _ => sat_finish_cataloging hlasts trivial) fun _ _ h => h)
  | createTable carried name id =>
    have hentered : ∀ s s', Entered ⟨no, .session (.createTable carried name id) tx⟩ s → Lasting s s' →
        Entered ⟨no, .session (.createTable carried name id) tx⟩ s' := fun _ _ => Entered.lasting
    have hsteady : (do
        call (.createDirectory id)
        io
        call (.server (.tryEmplace id)) : Program Unit).All Op.Steady :=
      (all_call trivial).bind fun _ => steady_reads.io.bind fun _ => all_call trivial
    refine Coro.Sat.bind (Coro.Sat.bind ((sat_addStorage (hid id rfl) rfl ?_ hs).mono (fun u _ hu => ?_)
      fun _ _ h => h))
    · exact fun n => ⟨rfl, rfl, TableInfo.parse_toBytes _⟩
    · refine (sat_steady hentered hsteady hu).mono (fun v _ hv => ?_) fun _ _ _ => trivial
      exact (sat_finish_cataloging hentered hv).mono (fun _ _ h _ _ => h) fun _ _ h => h
  | dropTable carried name =>
    refine Coro.Sat.bind ((sat_dropTable ?_ hs).mono (fun u _ _ => ?_) fun _ _ h => h)
    · exact fun n id => ⟨rfl, rfl, by rw [tableInfo, TableInfo.parse_toBytes]⟩
    · exact (sat_finish_cataloging hlasts trivial).mono (fun _ _ _ _ hc => by cases hc) fun _ _ h => h
  | scan carried table lowerBound upperBound =>
    refine (sat_withTable_cataloging hlasts trivial fun t u _ ht => ?_).mono (fun _ _ _ _ hc => by cases hc)
      fun _ _ h => h
    exact Coro.Sat.bind ((sat_steady hlasts (steady_reads.tableScan tx _ t) trivial).mono
      (fun v _ _ => sat_finish_cataloging hlasts trivial) fun _ _ h => h)
  | compactTable carried table =>
    exact ((cataloging_compacts o ⟨no, .session (.compactTable carried table) tx⟩).sat_body rfl).mono
      (fun _ _ _ _ hc => by cases hc) fun _ _ h => h
  | compaction =>
    exact ((cataloging_compacts o ⟨no, .session .compaction tx⟩).sat_body rfl).mono (fun _ _ _ _ hc => by cases hc)
      fun _ _ h => h

end Requests

end StructureDb.Service
