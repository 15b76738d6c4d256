import StructureDb.Proofs.TableRows
import StructureDb.Proofs.Versions

/-! The versions in `sys_tables`. A name is created when its newest version says that it is not
there or dropped; between two versions that create it lies one that drops it. -/

namespace StructureDb

theorem TableInfo.parse_toBytes (info : TableInfo) : TableInfo.parse info.toBytes = info := by
  obtain ⟨dropped, id⟩ := info
  cases dropped <;> simp [toBytes, parse]

namespace Service

variable {o : Options} {s s' : Node} {name : Bytes} {tx : TransactionId}

def catalog (s : Node) : List Row := (s.context.storages kSysTables).elim [] Lsm.records

def tableInfo (row : Row) : TableInfo := TableInfo.parse row.value.value

/-- A committed version behind `c` and before `n` that drops the name. -/
def DroppedBetween (s : Node) (c : Row) (n : ℕ) : Prop :=
  ∃ d ∈ catalog s, d.key = c.key ∧ c.seqNo < d.seqNo ∧ d.seqNo < n ∧ (tableInfo d).dropped = true ∧
    s.context.txStorage.txStatus d.value.tx = some .commited

structure CatalogOk (s : Node) : Prop where
  tree : ∃ l, s.context.storages kSysTables = some l ∧ l.Ordered
  plain : ∀ row ∈ catalog s, row.value.isFrozen = false ∧ row.value.isDeleted = false
  ids : ∀ row ∈ catalog s, (tableInfo row).id ∉ internalTables
  status : ∀ t, s.context.txStorage.txStatus t ≠ some .rollbacked
  known : ∀ row ∈ catalog s, s.context.txStorage.txStatus row.value.tx ≠ none
  locked : ∀ row ∈ catalog s, s.context.txStorage.txStatus row.value.tx = some .started →
    s.context.txStorage.rowLocks row.key = some row.value.tx
  between : ∀ c ∈ catalog s, ∀ r ∈ catalog s, c.key = r.key → c.seqNo < r.seqNo →
    (tableInfo c).dropped = false →
    (tableInfo r).dropped = false → DroppedBetween s c r.seqNo

structure Proceeds (s s' : TxStorage) : Prop where
  rollbacked : (∀ t, s.txStatus t ≠ some .rollbacked) → ∀ t, s'.txStatus t ≠ some .rollbacked
  known : ∀ t, s.txStatus t ≠ none → s'.txStatus t ≠ none
  commited : ∀ t, s.txStatus t = some .commited → s'.txStatus t = some .commited
  started : ∀ t, s.txStatus t ≠ none → s'.txStatus t = some .started → s.txStatus t = some .started
  locks : ∀ t key, s.txStatus t = some .started → s'.txStatus t = some .started → s.rowLocks key = some t →
    s'.rowLocks key = some t

namespace Proceeds

variable {s s' s'' : TxStorage}

theorem of_txStatus (hstatus : s'.txStatus = s.txStatus)
    (hlocks : ∀ t key, s.txStatus t = some .started → s.rowLocks key = some t → s'.rowLocks key = some t) :
    Proceeds s s' where
  rollbacked := fun h t => by rw [hstatus]; exact h t
  known := fun t h => by rw [hstatus]; exact h
  commited := fun t h => by rw [hstatus]; exact h
  started := fun t _ h => by rw [hstatus] at h; exact h
  locks := fun t key h _ hk => hlocks t key h hk

theorem refl (s : TxStorage) : Proceeds s s := of_txStatus rfl fun _ _ _ h => h

theorem commit (s : TxStorage) (tx : TransactionId) : Proceeds s (s.setStatus tx .commited) := by
  have hcases : ∀ t, t = tx ∧ (s.setStatus tx .commited).txStatus t = some .commited ∨
      (s.setStatus tx .commited).txStatus t = s.txStatus t := by
    intro t
    by_cases h : t = tx
    · subst h
      exact Or.inl ⟨rfl, TxStorage.setStatus_txStatus_self ..⟩
    · exact Or.inr (TxStorage.setStatus_txStatus_of_ne .commited h)
  refine ⟨fun h t => ?_, fun t h => ?_, fun t h => ?_, fun t _ h => ?_, fun t key _ _ hk => hk⟩ <;>
    rcases hcases t with ⟨-, hc⟩ | hc
  · rw [hc]
    decide
  · rw [hc]
    exact h t
  · rw [hc]
    exact Option.some_ne_none _
  · rw [hc]
    exact h
  · exact hc
  · rw [hc]
    exact h
  · rw [hc] at h
    cases h
  · rw [hc] at h
    exact h

theorem grant {tx : TransactionId} {key : Bytes} (h : s.acquireRowLock tx key = some s') : Proceeds s s' := by
  obtain ⟨-, -, hstatus, -, -⟩ := TxStorage.acquireRowLock_spec h
  exact of_txStatus hstatus fun t key' _ hk => TxStorage.acquireRowLock_mono h hk

/-- Only the locks of a transaction that is over are released. -/
theorem release {tx : TransactionId} (h : s.txStatus tx ≠ some .started) : Proceeds s (s.releaseAllLocks tx) := by
  refine of_txStatus rfl fun t key hstarted hk => ?_
  rw [TxStorage.releaseAllLocks_rowLocks, if_neg]
  · exact hk
  · rintro ⟨-, hheld⟩
    rw [hk] at hheld
    exact h (Option.some.inj hheld ▸ hstarted)

/-- A new transaction has an id that is not known. -/
theorem begin (h : s.txStatus s.nextTxId = none) : Proceeds s s.begin.1 := by
  have hne : ∀ t, s.txStatus t ≠ none → s.begin.1.txStatus t = s.txStatus t :=
    fun t ht => TxStorage.begin_txStatus_of_ne fun heq => ht (heq ▸ h)
  refine ⟨fun hr t => ?_, fun t ht => ?_, fun t ht => ?_, fun t ht hs => ?_, fun t key _ _ hk => hk⟩
  · by_cases heq : t = s.nextTxId
    · subst heq
      rw [TxStorage.begin_txStatus_self]
      decide
    · rw [TxStorage.begin_txStatus_of_ne heq]
      exact hr t
  · rw [hne t ht]
    exact ht
  · rw [hne t (by rw [ht]; exact Option.some_ne_none _)]
    exact ht
  · rw [hne t ht] at hs
    exact hs

end Proceeds

theorem catalog_of_tree {l : Lsm TransactionalValue} (h : s.context.storages kSysTables = some l) :
    catalog s = l.records := by
  rw [catalog, h]
  rfl

theorem mem_catalog_put {l : Lsm TransactionalValue} {value : TransactionalValue}
    (hl : s.context.storages kSysTables = some l)
    (hstorages : s'.context.storages kSysTables = some (l.put o name value).1) (row : Row) :
    row ∈ catalog s' ↔ row = ⟨name, l.nextSeqNo, value⟩ ∨ row ∈ catalog s := by
  rw [catalog_of_tree hstorages, catalog_of_tree hl, ← List.mem_cons]
  exact (Lsm.doPut_records_perm o { l with nextSeqNo := l.nextSeqNo + 1 } l.nextSeqNo name _).mem_iff

theorem DroppedBetween.mono {c : Row} {n : ℕ} (h : DroppedBetween s c n)
    (hrows : ∀ row ∈ catalog s, row ∈ catalog s')
    (hcommited : ∀ t, s.context.txStorage.txStatus t = some .commited →
      s'.context.txStorage.txStatus t = some .commited) :
    DroppedBetween s' c n := by
  obtain ⟨d, hd, hkey, hlt, hgt, hdropped, hstatus⟩ := h
  exact ⟨d, hrows d hd, hkey, hlt, hgt, hdropped, hcommited _ hstatus⟩

namespace CatalogOk

theorem congr (h : CatalogOk s) (htree : ∃ l, s'.context.storages kSysTables = some l ∧ l.Ordered)
    (hrows : catalog s' = catalog s) (hp : Proceeds s.context.txStorage s'.context.txStorage) : CatalogOk s' where
  tree := htree
  plain := fun row hrow => h.plain row (hrows ▸ hrow)
  ids := fun row hrow => h.ids row (hrows ▸ hrow)
  status := hp.rollbacked h.status
  known := fun row hrow => hp.known _ (h.known row (hrows ▸ hrow))
  locked := by
    intro row hrow hstarted
    rw [hrows] at hrow
    have hbefore := hp.started _ (h.known row hrow) hstarted
    exact hp.locks _ _ hbefore hstarted (h.locked row hrow hbefore)
  between := by
    intro c hc r hr hkey hlt hcreated hcreated'
    rw [hrows] at hc hr
    exact (h.between c hc r hr hkey hlt hcreated hcreated').mono (fun row hrow => hrows ▸ hrow) hp.commited

theorem desc (h : CatalogOk s) (name : Bytes) :
    ((catalog s).filter fun row => row.key = name).Pairwise fun a b => b.seqNo < a.seqNo := by
  obtain ⟨l, hl, hord⟩ := h.tree
  rw [catalog_of_tree hl]
  refine (hord.desc.filter _).imp_of_mem fun {a b} ha hb hab => hab ?_
  exact (of_decide_eq_true (List.mem_filter.mp ha).2).trans (of_decide_eq_true (List.mem_filter.mp hb).2).symm

theorem eq_of_seqNo (h : CatalogOk s) {c r : Row} (hc : c ∈ catalog s) (hr : r ∈ catalog s) (hkey : c.key = r.key)
    (hseqNo : c.seqNo = r.seqNo) : c = r := by
  have hapart : ((catalog s).filter fun row => row.key = r.key).Pairwise fun a b => a.seqNo ≠ b.seqNo :=
    (h.desc r.key).imp fun hlt => hlt.ne'
  have hsymm : Std.Symm fun a b : Row => a.seqNo ≠ b.seqNo := ⟨fun _ _ => Ne.symm⟩
  by_contra hne
  exact hapart.forall (List.mem_filter.mpr ⟨hc, decide_eq_true hkey⟩)
    (List.mem_filter.mpr ⟨hr, decide_eq_true rfl⟩) hne hseqNo

/-- A lookup of a name finds the newest version that is visible. -/
theorem getTableInfo (h : CatalogOk s) (tx : TransactionId) (name : Bytes) :
    s.db.getTableInfo tx name =
      (TransactionalTable.firstVisible s.context.txStorage tx
        ((catalog s).filter fun row => row.key = name)).map tableInfo := by
  obtain ⟨l, hl, hord⟩ := h.tree
  have hlookup : s.db.lookup tx kSysTables name = TransactionalTable.lookup s.context.txStorage tx l name := by
    simp only [Db.lookup, Node.db, hl]
  rw [Db.getTableInfo, hlookup, TransactionalTable.lookup, TransactionalTable.lookupRows_eq,
    Lsm.scanKey_eq_filter hord.sorted, ← catalog_of_tree hl]
  rcases hf : TransactionalTable.firstVisible s.context.txStorage tx ((catalog s).filter fun row => row.key = name)
    with _ | row
  · rfl
  · have hrow := (List.mem_filter.mp (List.mem_of_find?_eq_some hf)).1
    simp [TransactionalValue.payload, (h.plain row hrow).2, tableInfo]

/-- A name is free when its lock is and a lookup finds no table: the newest version of a name drops it. -/
theorem dropped_of_free (h : CatalogOk s) (hlock : s.context.txStorage.rowLocks name = none)
    (hfree : ∀ info, s.db.getTableInfo tx name = some info → info.dropped = true) {c : Row} (hc : c ∈ catalog s)
    (hkey : c.key = name) (hcreated : (tableInfo c).dropped = false) {n : ℕ} (hn : ∀ row ∈ catalog s, row.seqNo < n) :
    DroppedBetween s c n := by
  -- without the lock, all that have written a version of the name are committed
  have hcommited : ∀ row ∈ catalog s, row.key = name → s.context.txStorage.txStatus row.value.tx = some .commited := by
    intro row hrow hname
    rcases hst : s.context.txStorage.txStatus row.value.tx with _ | status
    · exact absurd hst (h.known row hrow)
    · cases status with
      | started =>
        have hheld := h.locked row hrow hst
        rw [hname, hlock] at hheld
        cases hheld
      | commited => rfl
      | rollbacked => exact absurd hst (h.status _)
  have hcmem : c ∈ (catalog s).filter fun row => row.key = name := List.mem_filter.mpr ⟨hc, decide_eq_true hkey⟩
  have hdesc := h.desc name
  have hinfo := h.getTableInfo tx name
  rcases hf : (catalog s).filter (fun row => row.key = name) with _ | ⟨d, rest⟩
  · rw [hf] at hcmem
    exact absurd hcmem List.not_mem_nil
  obtain ⟨hd, hdkey⟩ :=
    List.mem_filter.mp (hf ▸ List.mem_cons_self : d ∈ (catalog s).filter fun row => row.key = name)
  rw [decide_eq_true_eq] at hdkey
  -- the newest version is the one that the lookup finds
  have hvisible : TransactionalTable.visible s.context.txStorage tx d.value = true := by
    simp [TransactionalTable.visible, TxStorage.isCommited_iff.mpr (hcommited d hd hdkey)]
  have hfirst : TransactionalTable.firstVisible s.context.txStorage tx (d :: rest) = some d := by
    rw [TransactionalTable.firstVisible, List.find?_cons, hvisible]
  rw [hf, hfirst] at hinfo
  have hdropped := hfree _ hinfo
  rw [hf] at hcmem hdesc
  rcases List.mem_cons.mp hcmem with rfl | hrest
  · rw [hcreated] at hdropped
    cases hdropped
  · have hlt := (List.pairwise_cons.mp hdesc).1 c hrest
    exact ⟨d, hd, hdkey.trans hkey.symm, hlt, hn d hd, hdropped, hcommited d hd hdkey⟩

/-- What a session that has written nothing finds behind a name: the newest committed version. -/
theorem newest (h : CatalogOk s) (htx : s.context.txStorage.txStatus tx = none) {id : Bytes}
    (hid : s.db.getStorageId tx name = some id) :
    ∃ c ∈ catalog s, c.key = name ∧ tableInfo c = ⟨false, id⟩ ∧
      s.context.txStorage.txStatus c.value.tx = some .commited ∧
      ∀ d ∈ catalog s, d.key = name → s.context.txStorage.txStatus d.value.tx = some .commited →
        d.seqNo ≤ c.seqNo := by
  have hinfo := h.getTableInfo tx name
  rcases hf : TransactionalTable.firstVisible s.context.txStorage tx ((catalog s).filter fun row => row.key = name)
    with _ | c
  · rw [hf] at hinfo
    rw [Db.getStorageId, hinfo] at hid
    cases hid
  obtain ⟨hvisible, before, after, hsplit, hbefore⟩ := List.find?_eq_some_iff_append.mp hf
  have hmem : ∀ row, row ∈ before ++ c :: after ↔ row ∈ catalog s ∧ row.key = name := by
    intro row
    rw [← hsplit, List.mem_filter, decide_eq_true_eq]
  obtain ⟨hc, hkey⟩ := (hmem c).mp (by simp)
  refine ⟨c, hc, hkey, ?_, ?_, ?_⟩
  · rw [hf, Option.map_some] at hinfo
    rw [Db.getStorageId, hinfo] at hid
    dsimp only at hid
    split_ifs at hid with hdropped
    obtain rfl := Option.some.inj hid
    rw [Bool.not_eq_true] at hdropped
    rw [← hdropped]
  · have hne : c.value.tx ≠ tx := fun heq => h.known c hc (heq ▸ htx)
    simp only [TransactionalTable.visible, (h.plain c hc).1, Bool.false_or, Bool.or_eq_true, beq_iff_eq, hne, false_or]
      at hvisible
    exact TxStorage.isCommited_iff.mp hvisible
  · intro d hd hdkey hdcommited
    have hdesc := h.desc name
    rw [hsplit] at hdesc
    rcases List.mem_append.mp ((hmem d).mpr ⟨hd, hdkey⟩) with hd' | hd'
    · have hnot := hbefore d hd'
      simp [TransactionalTable.visible, TxStorage.isCommited_iff.mpr hdcommited] at hnot
    · rcases List.mem_cons.mp hd' with rfl | hd'
      · exact le_rfl
      · exact ((List.pairwise_cons.mp (List.pairwise_append.mp hdesc).2.1).1 d hd').le

theorem bound (h : CatalogOk s) {l : Lsm TransactionalValue} (hl : s.context.storages kSysTables = some l) :
    ∀ row ∈ catalog s, row.seqNo < l.nextSeqNo := by
  obtain ⟨l', hl', hord⟩ := h.tree
  obtain rfl := Option.some.inj (hl'.symm.trans hl)
  intro row hrow
  rw [catalog_of_tree hl] at hrow
  obtain ⟨a, ha, hrow⟩ := List.mem_flatten.mp hrow
  exact hord.bound a ha row hrow

/-- A new version, written under the lock of its name. -/
theorem put (h : CatalogOk s) {l : Lsm TransactionalValue} (hl : s.context.storages kSysTables = some l)
    {info : TableInfo}
    (hstorages : s'.context.storages kSysTables = some (l.put o name ⟨tx, false, false, info.toBytes⟩).1)
    (htx : s'.context.txStorage = s.context.txStorage) (hid : info.id ∉ internalTables)
    (hknown : s.context.txStorage.txStatus tx ≠ none) (hlock : s.context.txStorage.rowLocks name = some tx)
    (hnew : info.dropped = false → ∀ c ∈ catalog s, c.key = name → (tableInfo c).dropped = false →
      DroppedBetween s c l.nextSeqNo) : CatalogOk s' := by
  have hmem := mem_catalog_put hl hstorages
  have hbound := h.bound hl
  have hinfo : tableInfo ⟨name, l.nextSeqNo, ⟨tx, false, false, info.toBytes⟩⟩ = info := TableInfo.parse_toBytes info
  refine ⟨?_, ?_, ?_, ?_, ?_, ?_, ?_⟩
  · obtain ⟨l', hl', hord⟩ := h.tree
    obtain rfl := Option.some.inj (hl'.symm.trans hl)
    exact ⟨_, hstorages, Lsm.put_ordered o hord name _⟩
  · intro row hrow
    rcases (hmem row).mp hrow with rfl | hrow
    · exact ⟨rfl, rfl⟩
    · exact h.plain row hrow
  · intro row hrow
    rcases (hmem row).mp hrow with rfl | hrow
    · rw [hinfo]
      exact hid
    · exact h.ids row hrow
  · rw [htx]
    exact h.status
  · intro row hrow
    rw [htx]
    rcases (hmem row).mp hrow with rfl | hrow
    · exact hknown
    · exact h.known row hrow
  · intro row hrow hstarted
    rw [htx] at hstarted ⊢
    rcases (hmem row).mp hrow with rfl | hrow
    · exact hlock
    · exact h.locked row hrow hstarted
  · intro c hc r hr hkey hlt hcreated hcreated'
    have hmono : ∀ n, DroppedBetween s c n → DroppedBetween s' c n :=
      fun n hd => hd.mono (fun row hrow => (hmem row).mpr (Or.inr hrow)) fun t ht => by rw [htx]; exact ht
    rcases (hmem c).mp hc with rfl | hc
    · -- nothing is newer than the new version
      rcases (hmem r).mp hr with rfl | hr
      · exact absurd hlt (lt_irrefl _)
      · exact absurd hlt (hbound r hr).le.not_gt
    · rcases (hmem r).mp hr with rfl | hr
      · rw [hinfo] at hcreated'
        exact hmono _ (hnew hcreated' c hc hkey hcreated)
      · exact hmono _ (h.between c hc r hr hkey hlt hcreated hcreated')

end CatalogOk

end Service

end StructureDb
