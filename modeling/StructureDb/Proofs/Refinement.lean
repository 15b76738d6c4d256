import StructureDb.Proofs.Rows

/-! Under row locks the versions of a key are a stack: at most one of them belongs to a
started transaction, the holder of the lock, and nothing that anybody else reads
lies above it. With that, a table with its transactions refines the map that
their history describes. -/

namespace StructureDb

open TransactionalTable

namespace TxStorage

variable (s : TxStorage)

def seen (row : Row) : Bool := row.value.isFrozen || s.isCommited row.value.tx

def active (row : Row) : Bool := s.isStarted row.value.tx

def live (row : Row) : Bool := s.seen row || s.active row

variable {s} {s' : TxStorage} {row : Row}

theorem visible_eq (t : TransactionId) : visible s t row.value = (s.seen row || row.value.tx == t) := by
  unfold visible seen
  cases row.value.isFrozen <;> cases s.isCommited row.value.tx <;> simp

theorem active_congr (h : s'.txStatus row.value.tx = s.txStatus row.value.tx) : s'.active row = s.active row := by
  simp [active, isStarted, h]

theorem seen_congr (h : s'.txStatus row.value.tx = s.txStatus row.value.tx) : s'.seen row = s.seen row := by
  simp [seen, isCommited, h]

theorem live_congr (h : s'.txStatus row.value.tx = s.txStatus row.value.tx) : s'.live row = s.live row := by
  rw [live, live, seen_congr h, active_congr h]

theorem live_eq_false : s.live row = false ↔ s.seen row = false ∧ s.active row = false := by simp [live]

end TxStorage

theorem mem_of_lookup {begun : List (Label × TransactionId)} {h : Label} {t : TransactionId}
    (hl : begun.lookup h = some t) : (h, t) ∈ begun := by
  induction begun with
  | nil => cases hl
  | cons p begun ih =>
    rw [List.lookup_cons] at hl
    by_cases hp : h = p.1
    · subst hp
      simp only [beq_self_eq_true] at hl
      exact List.mem_cons.mpr (Or.inl (by rw [← Option.some.inj hl]))
    · have hb : (h == p.1) = false := by simpa using hp
      rw [hb] at hl
      exact List.mem_cons_of_mem _ (ih hl)

theorem txOf_eq_some {s : TxStorage} {begun : List (Label × TransactionId)} {h : Label} {t : TransactionId} :
    txOf s begun h = some t ↔ begun.lookup h = some t ∧ s.isStarted t = true := by
  unfold txOf
  rcases begun.lookup h with _ | t'
  · simp
  · by_cases hs : s.isStarted t' = true
    · simp only [hs, if_true, Option.some.injEq]
      exact ⟨fun he => ⟨he, he ▸ hs⟩, And.left⟩
    · simp only [hs, if_false, Option.some.injEq, reduceCtorEq, false_iff, not_and]
      exact fun he => he ▸ hs

theorem txOf_congr {s s' : TxStorage} (h : s'.txStatus = s.txStatus) (begun : List (Label × TransactionId)) :
    txOf s' begun = txOf s begun := by
  unfold txOf TxStorage.isStarted
  rw [h]

/-- What the rows of a key say about the last write of a started transaction: its row is there, or
it was a delete of an absent key that a compaction has dropped. -/
def OwnOk (rows : List Row) (t : TransactionId) (committed : Option Bytes) : Option (Option Bytes) → Prop
  | none => ∀ row ∈ rows, row.value.tx ≠ t
  | some p => (∃ row ∈ rows, row.value.tx = t ∧ row.value.payload = p) ∨
      p = none ∧ committed = none ∧ ∀ row ∈ rows, row.value.tx ≠ t

theorem OwnOk.congr {rows rows' : List Row} {t : TransactionId} {committed : Option Bytes} {own : Option (Option Bytes)}
    (h : OwnOk rows t committed own) (hmem : ∀ row, row.value.tx = t → (row ∈ rows' ↔ row ∈ rows)) :
    OwnOk rows' t committed own := by
  have hforeign : (∀ row ∈ rows, row.value.tx ≠ t) → ∀ row ∈ rows', row.value.tx ≠ t :=
    fun hne row hrow htx => hne row ((hmem row htx).mp hrow) htx
  rcases own with _ | p
  · exact hforeign h
  · rcases h with ⟨row, hrow, htx, hp⟩ | ⟨hp, hc, hne⟩
    · exact Or.inl ⟨row, (hmem row htx).mpr hrow, htx, hp⟩
    · exact Or.inr ⟨hp, hc, hforeign hne⟩

/-- The rows, statuses and locks agree with what the clients did. -/
structure Refines (s : TxStorage) (rows : Bytes → Bytes → List Row) (begun : List (Label × TransactionId))
    (hist : List HistEvent) : Prop where
  bounded : ∀ id key, ∀ row ∈ rows id key, row.value.tx < s.nextTxId
  frozen : ∀ id key, ∀ row ∈ rows id key, row.value.isFrozen = true → s.isStarted row.value.tx = false
  stacked : ∀ id key, (rows id key).Pairwise fun a b => s.active b = true → s.live a = false
  locked : ∀ id key, ∀ row ∈ rows id key, s.active row = true → s.rowLocks key = some row.value.tx
  holder : ∀ key t, s.rowLocks key = some t → s.isStarted t = true ∧ key ∈ s.txLocks t
  committed : ∀ id key, ((rows id key).find? s.seen).bind (fun row => row.value.payload) =
    (TxMap.committed (id, key) hist).join
  own : ∀ h t id key, txOf s begun h = some t →
    OwnOk (rows id key) t (TxMap.committed (id, key) hist).join (TxMap.own h (id, key) hist)
  held : ∀ h t id key, txOf s begun h = some t → TxMap.own h (id, key) hist ≠ none → s.rowLocks key = some t
  wrote : ∀ key t, s.rowLocks key = some t →
    ∃ h id, txOf s begun h = some t ∧ TxMap.own h (id, key) hist ≠ none
  begunLt : ∀ p ∈ begun, p.2 < s.nextTxId
  inj : ∀ h g t, txOf s begun h = some t → txOf s begun g = some t → h = g
  labels : ∀ e ∈ hist, e.label ∈ begun.map Prod.fst
  ended : ∀ h, .commit h ∈ hist ∨ .rollback h ∈ hist → txOf s begun h = none

namespace Refines

variable {s : TxStorage} {rows : Bytes → Bytes → List Row} {begun : List (Label × TransactionId)}
  {hist : List HistEvent} {h : Label} {t : TransactionId}

theorem firstVisible_of_foreign {rs : List Row} (hrs : ∀ row ∈ rs, row.value.tx ≠ t) :
    firstVisible s t rs = rs.find? s.seen := by
  refine List.find?_congr ?_
  intro row hrow
  have hne : (row.value.tx == t) = false := by simpa using hrs row hrow
  rw [TxStorage.visible_eq, hne, Bool.or_false]

/-- In a stack a started transaction is shown its own row. -/
theorem firstVisible_of_own {rs : List Row} {row : Row}
    (hstack : rs.Pairwise fun a b => s.active b = true → s.live a = false) (ht : s.isStarted t = true)
    (hrow : row ∈ rs) (htx : row.value.tx = t) : firstVisible s t rs = some row := by
  refine FirstOf.find?_eq_some_of_pairwise (q := fun r => r.value.tx = t) ?_ hrow ?_ htx
  · refine hstack.imp ?_
    intro a b hab hb
    obtain ⟨hseen, hact⟩ := TxStorage.live_eq_false.mp (hab (by rw [TxStorage.active, hb, ht]))
    have hne : (a.value.tx == t) = false := by
      rw [beq_eq_false_iff_ne]
      intro he
      rw [TxStorage.active, he, ht] at hact
      cases hact
    rw [TxStorage.visible_eq, hseen, hne]
    rfl
  · simp [TxStorage.visible_eq, htx]

/-- A started transaction reads its own last write, or else what is committed. -/
theorem read (hr : Refines s rows begun hist) (ht : txOf s begun h = some t) (id key : Bytes) :
    (firstVisible s t (rows id key)).bind (fun row => row.value.payload) = (TxMap.read h (id, key) hist).join := by
  have hown := hr.own h t id key ht
  rw [TxMap.read]
  rcases hw : TxMap.own h (id, key) hist with _ | p
  · rw [hw] at hown
    rw [firstVisible_of_foreign hown, hr.committed, Option.none_or]
  · rw [hw] at hown
    rcases hown with ⟨row, hrow, htx, hp⟩ | ⟨rfl, hc, hn⟩
    · rw [firstVisible_of_own (hr.stacked id key) (txOf_eq_some.mp ht).2 hrow htx, Option.bind_some, hp,
        Option.some_or, Option.join_some]
    · rw [firstVisible_of_foreign hn, hr.committed, hc, Option.some_or, Option.join_some]

theorem empty : Refines TxStorage.empty (fun _ _ => []) [] [] where
  bounded := by simp
  frozen := by simp
  stacked := by simp
  locked := by simp
  holder := by simp [TxStorage.empty]
  committed := by simp [TxMap.committed]
  own := by simp [txOf]
  held := by simp [txOf]
  wrote := by simp [TxStorage.empty]
  begunLt := by simp
  inj := by simp [txOf]
  labels := by simp
  ended := by simp

theorem tx_lt (hr : Refines s rows begun hist) (ht : txOf s begun h = some t) : t < s.nextTxId :=
  hr.begunLt _ (mem_of_lookup (txOf_eq_some.mp ht).1)

theorem label_mem (ht : txOf s begun h = some t) : h ∈ begun.map Prod.fst :=
  List.mem_map.mpr ⟨_, mem_of_lookup (txOf_eq_some.mp ht).1, rfl⟩

theorem begin_isStarted (ht : s.isStarted t = true) : s.begin.1.isStarted t = true := by
  rw [TxStorage.isStarted_iff] at ht ⊢
  by_cases he : t = s.nextTxId
  · rw [he, TxStorage.begin_txStatus_self]
  · rw [TxStorage.begin_txStatus_of_ne he, ht]

/-- The new label has the new id, the others keep theirs. -/
theorem txOf_begin (hr : Refines s rows begun hist) {g : Label} :
    txOf s.begin.1 ((h, s.nextTxId) :: begun) g = some t ↔
      g = h ∧ t = s.nextTxId ∨ g ≠ h ∧ txOf s begun g = some t := by
  rw [txOf_eq_some, txOf_eq_some, List.lookup_cons]
  by_cases hg : g = h
  · subst hg
    simp only [beq_self_eq_true, Option.some.injEq, true_and, ne_eq, not_true_eq_false, false_and, or_false]
    refine ⟨fun hc => hc.1.symm, fun he => ⟨he.symm, ?_⟩⟩
    rw [he, TxStorage.isStarted_iff, TxStorage.begin_txStatus_self]
  · have hb : (g == h) = false := by simpa using hg
    simp only [hb, hg, false_and, ne_eq, not_false_eq_true, true_and, false_or]
    refine and_congr_right fun hl => ⟨fun ht => ?_, begin_isStarted⟩
    rw [TxStorage.isStarted_iff] at ht ⊢
    rwa [TxStorage.begin_txStatus_of_ne (hr.begunLt _ (mem_of_lookup hl)).ne] at ht

/-- `Begin` hands out an id that no row carries. -/
theorem begin (hr : Refines s rows begun hist) (hh : h ∉ begun.map Prod.fst) :
    Refines s.begin.1 rows ((h, s.nextTxId) :: begun) hist := by
  have hnew : ∀ e ∈ hist, e.label ≠ h := fun e he hl => hh (hl ▸ hr.labels e he)
  have hstatus : ∀ id key, ∀ row ∈ rows id key, s.begin.1.txStatus row.value.tx = s.txStatus row.value.tx :=
    fun id key row hrow => TxStorage.begin_txStatus_of_ne (hr.bounded id key row hrow).ne
  constructor
  case bounded =>
    intro id key row hrow
    exact (hr.bounded id key row hrow).trans (Nat.lt_succ_self _)
  case frozen =>
    intro id key row hrow hf
    have := hr.frozen id key row hrow hf
    rwa [TxStorage.isStarted, hstatus id key row hrow]
  case stacked =>
    intro id key
    refine (hr.stacked id key).imp_of_mem ?_
    intro a b ha hb hab
    rw [TxStorage.active_congr (hstatus id key b hb), TxStorage.live_congr (hstatus id key a ha)]
    exact hab
  case locked =>
    intro id key row hrow hact
    rw [TxStorage.active_congr (hstatus id key row hrow)] at hact
    exact hr.locked id key row hrow hact
  case holder =>
    intro key t hl
    obtain ⟨h1, h2⟩ := hr.holder key t hl
    exact ⟨begin_isStarted h1, h2⟩
  case committed =>
    intro id key
    rw [← hr.committed, List.find?_congr fun row hrow => TxStorage.seen_congr (hstatus id key row hrow)]
  case own =>
    intro g t id key ht
    rcases hr.txOf_begin.mp ht with ⟨rfl, rfl⟩ | ⟨-, ht⟩
    · rw [TxMap.own_eq_none hnew]
      exact fun row hrow => (hr.bounded id key row hrow).ne
    · exact hr.own g t id key ht
  case held =>
    intro g t id key ht hw
    rcases hr.txOf_begin.mp ht with ⟨rfl, rfl⟩ | ⟨-, ht⟩
    · exact absurd (TxMap.own_eq_none hnew) hw
    · exact hr.held g t id key ht hw
  case wrote =>
    intro key t hl
    obtain ⟨g, id, hg, hw⟩ := hr.wrote key t hl
    exact ⟨g, id, hr.txOf_begin.mpr (Or.inr ⟨fun he => hh (he ▸ label_mem hg), hg⟩), hw⟩
  case begunLt =>
    intro p hp
    rcases List.mem_cons.mp hp with rfl | hp
    · exact Nat.lt_succ_self _
    · exact (hr.begunLt p hp).trans (Nat.lt_succ_self _)
  case inj =>
    intro g g' t hg hg'
    rcases hr.txOf_begin.mp hg with ⟨h1, h2⟩ | ⟨-, h1⟩ <;>
      rcases hr.txOf_begin.mp hg' with ⟨h3, h4⟩ | ⟨-, h3⟩
    · rw [h1, h3]
    · exact absurd h2 (hr.tx_lt h3).ne
    · exact absurd h4 (hr.tx_lt h1).ne
    · exact hr.inj g g' t h1 h3
  case labels =>
    intro e he
    exact List.mem_cons_of_mem _ (hr.labels e he)
  case ended =>
    intro g hg
    rw [Option.eq_none_iff_forall_ne_some]
    intro t ht
    rcases hr.txOf_begin.mp ht with ⟨rfl, -⟩ | ⟨-, ht⟩
    · rcases hg with hg | hg
      · exact hnew _ hg rfl
      · exact hnew _ hg rfl
    · rw [hr.ended g hg] at ht
      cases ht

/-- A write locks its key and puts a version on top of those of the key. -/
structure Written (s s' : TxStorage) (t : TransactionId) (id₀ key₀ : Bytes) (new : Row)
    (rows rows' : Bytes → Bytes → List Row) : Prop where
  lock : s.acquireRowLock t key₀ = some s'
  tx : new.value.tx = t
  unfrozen : new.value.isFrozen = false
  rows : ∀ id key, rows' id key = if id = id₀ ∧ key = key₀ then new :: rows id key else rows id key

section Write

variable {s' : TxStorage} {id₀ key₀ : Bytes} {new : Row} {rows' : Bytes → Bytes → List Row}

theorem Written.txStatus (hw : Written s s' t id₀ key₀ new rows rows') : s'.txStatus = s.txStatus :=
  (TxStorage.acquireRowLock_spec hw.lock).2.2.1

theorem Written.isStarted (hw : Written s s' t id₀ key₀ new rows rows') : s'.isStarted = s.isStarted := by
  funext t
  rw [TxStorage.isStarted, hw.txStatus]
  rfl

theorem Written.active (hw : Written s s' t id₀ key₀ new rows rows') : s'.active = s.active :=
  funext fun _ => TxStorage.active_congr (by rw [hw.txStatus])

theorem Written.mem (hw : Written s s' t id₀ key₀ new rows rows') {id key : Bytes} {row : Row} :
    row ∈ rows' id key ↔ (id = id₀ ∧ key = key₀) ∧ row = new ∨ row ∈ rows id key := by
  rw [hw.rows]
  split_ifs with hc
  · rw [List.mem_cons, and_iff_right hc]
  · rw [or_iff_right fun h' => hc h'.1]

/-- An active row below the new one would be locked. -/
theorem Written.stacked (hw : Written s s' t id₀ key₀ new rows rows') (hr : Refines s rows begun hist)
    (id key : Bytes) : (rows' id key).Pairwise fun a b => s'.active b = true → s'.live a = false := by
  have hlive : s'.live = s.live := funext fun row => TxStorage.live_congr (by rw [hw.txStatus])
  rw [hw.rows, hw.active, hlive]
  split_ifs with hc
  · refine List.pairwise_cons.mpr ⟨?_, hr.stacked id key⟩
    intro b hb hb'
    have hcon := hr.locked id key b hb hb'
    rw [hc.2, (TxStorage.acquireRowLock_spec hw.lock).1] at hcon
    cases hcon
  · exact hr.stacked id key

theorem Written.locked (hw : Written s s' t id₀ key₀ new rows rows') (hr : Refines s rows begun hist) {id key : Bytes}
    {row : Row} (hrow : row ∈ rows' id key) (hact : s'.active row = true) : s'.rowLocks key = some row.value.tx := by
  rcases hw.mem.mp hrow with ⟨hc, rfl⟩ | hrow
  · rw [hc.2, hw.tx, TxStorage.acquireRowLock_self hw.lock]
  · exact TxStorage.acquireRowLock_mono hw.lock (hr.locked id key row hrow (hw.active ▸ hact))

theorem Written.holder (hw : Written s s' t id₀ key₀ new rows rows') (hr : Refines s rows begun hist)
    (ht : s.isStarted t = true) {key : Bytes} {t' : TransactionId} (hk : s'.rowLocks key = some t') :
    s'.isStarted t' = true ∧ key ∈ s'.txLocks t' := by
  refine ⟨?_, TxStorage.acquireRowLock_listed hw.lock (fun k t hk => (hr.holder k t hk).2) hk⟩
  rw [hw.isStarted]
  rcases TxStorage.acquireRowLock_holder hw.lock hk with ⟨rfl, rfl⟩ | ⟨-, hk⟩
  · exact ht
  · exact (hr.holder key t' hk).1

/-- The new version is not seen by others. -/
theorem Written.find?_seen (hw : Written s s' t id₀ key₀ new rows rows') (ht : s.isStarted t = true) (id key : Bytes) :
    (rows' id key).find? s'.seen = (rows id key).find? s.seen := by
  have hseen : s'.seen = s.seen := funext fun row => TxStorage.seen_congr (by rw [hw.txStatus])
  rw [hw.rows, hseen]
  split_ifs
  · have hnew : s.seen new = false := by
      rw [TxStorage.seen, hw.unfrozen, hw.tx, TxStorage.not_committed_of_started ht]
      rfl
    rw [List.find?_cons_of_neg (by simp [hnew])]
  · rfl

theorem own_write {g : Label} {id key : Bytes} {p : Option Bytes} (hne : ¬((id, key) = (id₀, key₀) ∧ g = h)) :
    TxMap.own g (id, key) (.write h (id₀, key₀) p :: hist) = TxMap.own g (id, key) hist :=
  TxMap.own_write_of_ne _ fun hc => hne ⟨hc.2.symm, hc.1.symm⟩

theorem Written.own (hw : Written s s' t id₀ key₀ new rows rows') (hr : Refines s rows begun hist)
    (ht : txOf s begun h = some t) {g : Label} {t' : TransactionId} {id key : Bytes} (hg : txOf s begun g = some t') :
    OwnOk (rows' id key) t' (TxMap.committed (id, key) hist).join
      (TxMap.own g (id, key) (.write h (id₀, key₀) new.value.payload :: hist)) := by
  by_cases hgk : (id, key) = (id₀, key₀) ∧ g = h
  · obtain ⟨hk, rfl⟩ := hgk
    obtain ⟨rfl, rfl⟩ := Prod.mk.inj hk
    obtain rfl := Option.some.inj (ht.symm.trans hg)
    rw [TxMap.own_write_self]
    exact Or.inl ⟨new, hw.mem.mpr (Or.inl ⟨⟨rfl, rfl⟩, rfl⟩), hw.tx, rfl⟩
  · rw [own_write hgk]
    refine (hr.own g t' id key hg).congr fun row htx => hw.mem.trans (or_iff_right ?_)
    rintro ⟨hc, rfl⟩
    exact hgk ⟨by rw [hc.1, hc.2], hr.inj g h t' hg (hw.tx.symm.trans htx ▸ ht)⟩

theorem Written.held (hw : Written s s' t id₀ key₀ new rows rows') (hr : Refines s rows begun hist)
    (ht : txOf s begun h = some t) {g : Label} {t' : TransactionId} {id key : Bytes} (hg : txOf s begun g = some t')
    (hown : TxMap.own g (id, key) (.write h (id₀, key₀) new.value.payload :: hist) ≠ none) :
    s'.rowLocks key = some t' := by
  by_cases hgk : (id, key) = (id₀, key₀) ∧ g = h
  · obtain ⟨hk, rfl⟩ := hgk
    obtain ⟨rfl, rfl⟩ := Prod.mk.inj hk
    obtain rfl := Option.some.inj (ht.symm.trans hg)
    exact TxStorage.acquireRowLock_self hw.lock
  · rw [own_write hgk] at hown
    exact TxStorage.acquireRowLock_mono hw.lock (hr.held g t' id key hg hown)

theorem Written.wrote (hw : Written s s' t id₀ key₀ new rows rows') (hr : Refines s rows begun hist)
    (ht : txOf s begun h = some t) {key : Bytes} {t' : TransactionId} (hk : s'.rowLocks key = some t') :
    ∃ g id, txOf s begun g = some t' ∧
      TxMap.own g (id, key) (.write h (id₀, key₀) new.value.payload :: hist) ≠ none := by
  rcases TxStorage.acquireRowLock_holder hw.lock hk with ⟨rfl, rfl⟩ | ⟨hkey, hk⟩
  · exact ⟨h, id₀, ht, by simp⟩
  · obtain ⟨g, id, hg, hown⟩ := hr.wrote key t' hk
    refine ⟨g, id, hg, ?_⟩
    rw [own_write fun hc => hkey (Prod.mk.inj hc.1).2]
    exact hown

/-- A write under the lock of its key goes on top of settled versions only. -/
theorem write (hr : Refines s rows begun hist) (ht : txOf s begun h = some t)
    (hw : Written s s' t id₀ key₀ new rows rows') :
    Refines s' rows' begun (.write h (id₀, key₀) new.value.payload :: hist) := by
  have hnext := (TxStorage.acquireRowLock_spec hw.lock).2.1
  have htx := txOf_congr hw.txStatus begun
  have hstarted := (txOf_eq_some.mp ht).2
  constructor
  case bounded =>
    intro id key row hrow
    rw [hnext]
    rcases hw.mem.mp hrow with ⟨-, rfl⟩ | hrow
    · rw [hw.tx]
      exact hr.tx_lt ht
    · exact hr.bounded id key row hrow
  case frozen =>
    intro id key row hrow hfr
    rw [hw.isStarted]
    rcases hw.mem.mp hrow with ⟨-, rfl⟩ | hrow
    · rw [hw.unfrozen] at hfr
      cases hfr
    · exact hr.frozen id key row hrow hfr
  case stacked => exact hw.stacked hr
  case locked => exact fun id key row => hw.locked hr
  case holder => exact fun key t' => hw.holder hr hstarted
  case committed =>
    intro id key
    rw [TxMap.committed_write, ← hr.committed, hw.find?_seen hstarted]
  case own =>
    intro g t' id key hg
    rw [TxMap.committed_write]
    exact hw.own hr ht (htx ▸ hg)
  case held => exact fun g t' id key hg => hw.held hr ht (htx ▸ hg)
  case wrote =>
    rw [htx]
    exact fun key t' => hw.wrote hr ht
  case begunLt =>
    rw [hnext]
    exact hr.begunLt
  case inj =>
    rw [htx]
    exact hr.inj
  case labels =>
    intro e he
    rcases List.mem_cons.mp he with rfl | he
    · exact label_mem ht
    · exact hr.labels e he
  case ended =>
    intro g hg
    rw [htx]
    refine hr.ended g ?_
    rcases hg with hg | hg
    · exact Or.inl ((List.mem_cons.mp hg).resolve_left (by simp))
    · exact Or.inr ((List.mem_cons.mp hg).resolve_left (by simp))

end Write

/-- Rows and transactions after the end of `t`, with a status that is not started. -/
structure Ended (s s' : TxStorage) (t : TransactionId) : Prop where
  nextTxId : s'.nextTxId = s.nextTxId
  txStatus : ∀ t', t' ≠ t → s'.txStatus t' = s.txStatus t'
  started : s'.isStarted t = false
  rowLocks : ∀ key, s'.rowLocks key =
    if key ∈ s.txLocks t ∧ s.rowLocks key = some t then none else s.rowLocks key
  txLocks : ∀ t', t' ≠ t → s'.txLocks t' = s.txLocks t'

theorem Ended.of_status (s : TxStorage) (t : TransactionId) (status : Status) (hs : status ≠ .started) :
    Ended s ((s.setStatus t status).releaseAllLocks t) t where
  nextTxId := rfl
  txStatus _ hne := TxStorage.setStatus_txStatus_of_ne _ hne
  started := by
    rw [Bool.eq_false_iff, ne_eq, TxStorage.isStarted_iff, TxStorage.releaseAllLocks_txStatus,
      TxStorage.setStatus_txStatus_self, Option.some.injEq]
    exact hs
  rowLocks _ := TxStorage.releaseAllLocks_rowLocks ..
  txLocks _ hne := TxStorage.releaseAllLocks_txLocks_of_ne hne

theorem Ended.isStarted {s' : TxStorage} (he : Ended s s' t) (t' : TransactionId) :
    s'.isStarted t' = true ↔ t' ≠ t ∧ s.isStarted t' = true := by
  by_cases hte : t' = t
  · rw [hte, he.started]
    simp
  · rw [TxStorage.isStarted, he.txStatus t' hte, ← TxStorage.isStarted, and_iff_right hte]

theorem txOf_ended (hr : Refines s rows begun hist) (ht : txOf s begun h = some t) {s' : TxStorage} (he : Ended s s' t)
    {g : Label} {t' : TransactionId} : txOf s' begun g = some t' ↔ g ≠ h ∧ txOf s begun g = some t' := by
  rw [txOf_eq_some, he.isStarted]
  constructor
  · rintro ⟨hl, hne, hst⟩
    refine ⟨?_, txOf_eq_some.mpr ⟨hl, hst⟩⟩
    rintro rfl
    exact hne (Option.some.inj (hl.symm.trans (txOf_eq_some.mp ht).1))
  · rintro ⟨hne, hg⟩
    obtain ⟨hl, hst⟩ := txOf_eq_some.mp hg
    refine ⟨hl, ?_, hst⟩
    rintro rfl
    exact hne (hr.inj g h t' hg ht)

section Finish

variable {s' : TxStorage} {e : HistEvent}

theorem Ended.active (he : Ended s s' t) {row : Row} (hrow : s'.active row = true) : s.active row = true :=
  ((he.isStarted _).mp hrow).2

theorem Ended.live (he : Ended s s' t) (ht : s.isStarted t = true) {row : Row} (hrow : s'.live row = true) :
    s.live row = true := by
  by_cases hrt : row.value.tx = t
  · rw [TxStorage.live, TxStorage.active, hrt, ht, Bool.or_true]
  · rwa [TxStorage.live_congr (he.txStatus _ hrt)] at hrow

theorem Ended.stacked (he : Ended s s' t) (hr : Refines s rows begun hist) (ht : s.isStarted t = true)
    (id key : Bytes) : (rows id key).Pairwise fun a b => s'.active b = true → s'.live a = false := by
  refine (hr.stacked id key).imp ?_
  intro a b hab hb
  by_contra hc
  have hdead := hab (he.active hb)
  rw [he.live ht (by simpa using hc)] at hdead
  cases hdead

theorem Ended.rowLocks_iff (he : Ended s s' t) (hr : Refines s rows begun hist) {key : Bytes} {t' : TransactionId} :
    s'.rowLocks key = some t' ↔ s.rowLocks key = some t' ∧ t' ≠ t := by
  rw [he.rowLocks]
  split_ifs with hc
  · simp [hc.2, eq_comm]
  · refine ⟨fun hk => ⟨hk, ?_⟩, And.left⟩
    rintro rfl
    exact hc ⟨(hr.holder key t' hk).2, hk⟩

theorem own_end (hlabel : e = .commit h ∨ e = .rollback h) (g : Label) (k : Bytes × Bytes) :
    TxMap.own g k (e :: hist) = TxMap.own g k hist := by
  rcases hlabel with rfl | rfl <;> rfl

/-- Others have written only what `t` has not locked. -/
theorem Ended.own (he : Ended s s' t) (hr : Refines s rows begun hist) (ht : txOf s begun h = some t)
    (hothers : ∀ id key, s.rowLocks key ≠ some t →
      TxMap.committed (id, key) (e :: hist) = TxMap.committed (id, key) hist)
    {g : Label} {t' : TransactionId} {id key : Bytes} (hg : txOf s' begun g = some t') :
    OwnOk (rows id key) t' (TxMap.committed (id, key) (e :: hist)).join (TxMap.own g (id, key) hist) := by
  obtain ⟨hne, hg⟩ := (hr.txOf_ended ht he).mp hg
  have hok := hr.own g t' id key hg
  rcases hown : TxMap.own g (id, key) hist with _ | p <;> rw [hown] at hok
  · exact hok
  · have hheld := hr.held g t' id key hg (by rw [hown]; exact Option.some_ne_none p)
    have hfree : s.rowLocks key ≠ some t := by
      rw [hheld]
      intro hc
      exact hne (hr.inj g h t' hg (Option.some.inj hc ▸ ht))
    rw [hothers id key hfree]
    exact hok

theorem Ended.held (he : Ended s s' t) (hr : Refines s rows begun hist) (ht : txOf s begun h = some t)
    {g : Label} {t' : TransactionId} {id key : Bytes} (hg : txOf s' begun g = some t')
    (hown : TxMap.own g (id, key) hist ≠ none) : s'.rowLocks key = some t' := by
  obtain ⟨hne, hg⟩ := (hr.txOf_ended ht he).mp hg
  refine (he.rowLocks_iff hr).mpr ⟨hr.held g t' id key hg hown, ?_⟩
  rintro rfl
  exact hne (hr.inj g h t' hg ht)

theorem Ended.wrote (he : Ended s s' t) (hr : Refines s rows begun hist) (ht : txOf s begun h = some t)
    {key : Bytes} {t' : TransactionId} (hk : s'.rowLocks key = some t') :
    ∃ g id, txOf s' begun g = some t' ∧ TxMap.own g (id, key) hist ≠ none := by
  obtain ⟨hk, hne⟩ := (he.rowLocks_iff hr).mp hk
  obtain ⟨g, id, hg, hown⟩ := hr.wrote key t' hk
  refine ⟨g, id, (hr.txOf_ended ht he).mpr ⟨?_, hg⟩, hown⟩
  rintro rfl
  exact hne (Option.some.inj (hg.symm.trans ht))

/-- The end of a transaction, whatever its event makes of the committed values. -/
theorem finish (hr : Refines s rows begun hist) (ht : txOf s begun h = some t) (he : Ended s s' t)
    (hlabel : e = .commit h ∨ e = .rollback h)
    (hcommitted : ∀ id key, ((rows id key).find? s'.seen).bind (fun row => row.value.payload) =
      (TxMap.committed (id, key) (e :: hist)).join)
    (hothers : ∀ id key, s.rowLocks key ≠ some t →
      TxMap.committed (id, key) (e :: hist) = TxMap.committed (id, key) hist) :
    Refines s' rows begun (e :: hist) := by
  constructor
  case bounded =>
    rw [he.nextTxId]
    exact hr.bounded
  case frozen =>
    intro id key row hrow hf
    have hold := hr.frozen id key row hrow hf
    by_contra hc
    rw [((he.isStarted _).mp (by simpa using hc)).2] at hold
    cases hold
  case stacked => exact he.stacked hr (txOf_eq_some.mp ht).2
  case locked =>
    intro id key row hrow hact
    exact (he.rowLocks_iff hr).mpr ⟨hr.locked id key row hrow (he.active hact), ((he.isStarted _).mp hact).1⟩
  case holder =>
    intro key t' hk
    obtain ⟨hk, hne⟩ := (he.rowLocks_iff hr).mp hk
    obtain ⟨h1, h2⟩ := hr.holder key t' hk
    exact ⟨(he.isStarted t').mpr ⟨hne, h1⟩, by rwa [he.txLocks t' hne]⟩
  case committed => exact hcommitted
  case own =>
    intro g t' id key hg
    rw [own_end hlabel]
    exact he.own hr ht hothers hg
  case held =>
    intro g t' id key hg hown
    rw [own_end hlabel] at hown
    exact he.held hr ht hg hown
  case wrote =>
    intro key t' hk
    obtain ⟨g, id, hg, hown⟩ := he.wrote hr ht hk
    exact ⟨g, id, hg, by rwa [own_end hlabel]⟩
  case begunLt =>
    rw [he.nextTxId]
    exact hr.begunLt
  case inj =>
    intro g g' t' hg hg'
    exact hr.inj g g' t' ((hr.txOf_ended ht he).mp hg).2 ((hr.txOf_ended ht he).mp hg').2
  case labels =>
    intro e' he'
    rcases List.mem_cons.mp he' with rfl | he'
    · rcases hlabel with rfl | rfl <;> exact label_mem ht
    · exact hr.labels e' he'
  case ended =>
    intro g hg
    rw [Option.eq_none_iff_forall_ne_some]
    intro t' hg'
    obtain ⟨hne, hg'⟩ := (hr.txOf_ended ht he).mp hg'
    have hold : .commit g ∈ hist ∨ .rollback g ∈ hist := by
      rcases hlabel with rfl | rfl <;> simpa [hne] using hg
    rw [hr.ended g hold] at hg'
    cases hg'

end Finish

theorem seen_commit (row : Row) :
    TxStorage.seen ((s.setStatus t .commited).releaseAllLocks t) row = visible s t row.value := by
  rw [TxStorage.visible_eq]
  by_cases hrow : row.value.tx = t
  · have hc : TxStorage.isCommited ((s.setStatus t .commited).releaseAllLocks t) row.value.tx = true := by
      rw [TxStorage.isCommited_iff, TxStorage.releaseAllLocks_txStatus, hrow, TxStorage.setStatus_txStatus_self]
    rw [TxStorage.seen, hc, hrow, beq_self_eq_true, Bool.or_true, Bool.or_true]
  · rw [TxStorage.seen_congr ((Ended.of_status s t .commited (by simp)).txStatus _ hrow)]
    simp [hrow]

theorem seen_rollback (ht : s.isStarted t = true) : (s.rollback t).seen = s.seen := by
  funext row
  by_cases hrow : row.value.tx = t
  · have hc : (s.rollback t).isCommited row.value.tx = false := by
      rw [Bool.eq_false_iff, ne_eq, TxStorage.isCommited_iff, TxStorage.rollback, TxStorage.releaseAllLocks_txStatus,
        hrow, TxStorage.setStatus_txStatus_self]
      simp
    rw [TxStorage.seen, hc, TxStorage.seen, hrow, TxStorage.not_committed_of_started ht]
  · exact TxStorage.seen_congr ((Ended.of_status s t .rollbacked (by simp)).txStatus _ hrow)

/-- `Commit` shows everybody what the transaction itself would read. -/
theorem commit (hr : Refines s rows begun hist) (ht : txOf s begun h = some t) :
    Refines ((s.setStatus t .commited).releaseAllLocks t) rows begun (.commit h :: hist) := by
  have he := Ended.of_status s t .commited (by simp)
  refine hr.finish ht he (Or.inl rfl) ?_ ?_
  · intro id key
    rw [TxMap.committed_commit, ← hr.read ht, firstVisible, funext seen_commit]
  · intro id key hfree
    have hnone : TxMap.own h (id, key) hist = none := by
      by_contra hc
      exact hfree (hr.held h t id key ht hc)
    rw [TxMap.committed_commit, TxMap.read, hnone, Option.none_or]

theorem rollback (hr : Refines s rows begun hist) (ht : txOf s begun h = some t) :
    Refines (s.rollback t) rows begun (.rollback h :: hist) := by
  have he : Ended s (s.rollback t) t := Ended.of_status s t .rollbacked (by simp)
  refine hr.finish ht he (Or.inr rfl) ?_ ?_
  · intro id key
    rw [TxMap.committed_rollback, ← hr.committed]
    rw [seen_rollback (txOf_eq_some.mp ht).2]
  · intro id key _
    rfl

end Refines

end StructureDb
