import StructureDb.Proofs.Refinement

/-! When a compaction is harmless. It keeps one of the versions of a key that are in
tables, judged by the statuses of the moment; the versions it drops must not be
needed by anybody later, also not by those who fall back to them when a started
transaction ends. -/

namespace StructureDb

open TransactionalTable

/-- A compaction of these versions of a key, newest first, changes nothing that anybody can read, now or after the
started transactions end: a delete lies on deletes only, a committed value is on top, or the value of a started
transaction is and there is nothing to fall back to. -/
def Harmless (s : TxStorage) (rows : List Row) : Prop :=
  match rows.filter s.live with
  | [] => True
  | top :: rest =>
    if top.value.isDeleted = true then ∀ row ∈ rest, row.value.isDeleted = true
    else s.isCommited top.value.tx = true ∨
      s.isStarted top.value.tx = true ∧ ∀ row ∈ rest.head?, row.value.isDeleted = true

instance (s : TxStorage) (rows : List Row) : Decidable (Harmless s rows) :=
  match h : rows.filter s.live with
  | [] => isTrue (by rw [Harmless, h]; trivial)
  | top :: rest =>
    decidable_of_iff (if top.value.isDeleted = true then ∀ row ∈ rest, row.value.isDeleted = true
      else s.isCommited top.value.tx = true ∨
        s.isStarted top.value.tx = true ∧ ∀ row ∈ rest.head?, row.value.isDeleted = true) (by rw [Harmless, h])

/-- The versions of a key after a compaction: those in memory, and one of those in tables. -/
def afterCompact (s : TxStorage) (mem ss : List Row) : List Row :=
  mem ++ (ss.find? (kept s)).toList.map (freezeRow s)

section AfterCompact

variable {s : TxStorage} {mem ss : List Row}

theorem live_of_kept {row : Row} (hk : kept s row = true) : s.live row = true := by
  unfold TxStorage.live TxStorage.seen TxStorage.active TxStorage.isCommited TxStorage.isStarted
  rcases ((kept_iff s row).mp hk).2 with hc | hc <;> rw [TxStorage.getStatus] at hc <;> simp [hc]

theorem find_live (ss : List Row) {p : Row → Bool} (hp : ∀ row, p row = true → s.live row = true) :
    ss.find? p = (ss.filter s.live).find? p := by
  rw [List.find?_filter]
  refine List.find?_congr fun row _ => ?_
  by_cases h : p row = true
  · simp [h, hp row h]
  · simp [h]

theorem live_of_seen {row : Row} (h : s.seen row = true) : s.live row = true := by rw [TxStorage.live, h, Bool.true_or]

theorem live_of_active {row : Row} (h : s.active row = true) : s.live row = true := by
  rw [TxStorage.live, h, Bool.or_true]

theorem payload_of_deleted {v : TransactionalValue} (h : v.isDeleted = true) : v.payload = none := by
  simp [TransactionalValue.payload, h]

@[simp] theorem freezeRow_active (row : Row) : s.active (freezeRow s row) = s.active row := by
  rw [TxStorage.active, freezeRow_tx, TxStorage.active]

@[simp] theorem freezeRow_seen (row : Row) : s.seen (freezeRow s row) = s.seen row := by
  rw [TxStorage.seen, freezeRow_isFrozen, freezeRow_tx, TxStorage.seen, Bool.or_assoc, Bool.or_self]

theorem mem_afterCompact {row : Row} (h : row ∈ afterCompact s mem ss) :
    row ∈ mem ∨ ∃ old ∈ ss, row = freezeRow s old := by
  rcases List.mem_append.mp h with h | h
  · exact Or.inl h
  · obtain ⟨old, hold, rfl⟩ := List.mem_map.mp h
    rw [Option.mem_toList] at hold
    exact Or.inr ⟨old, List.mem_of_find?_eq_some hold, rfl⟩

/-- What a harmless compaction finds: deletes only, or a live value on top. -/
theorem Harmless.cases (hh : Harmless s ss) :
    (ss.find? (kept s) = none ∧ ∀ row ∈ ss.filter s.live, row.value.isDeleted = true) ∨
    ∃ top rest, ss.filter s.live = top :: rest ∧ ss.find? (kept s) = some top ∧ (s.isCommited top.value.tx = true ∨
      s.isStarted top.value.tx = true ∧ ∀ row ∈ rest.head?, row.value.isDeleted = true) := by
  have hkept := find_live ss (p := kept s) fun _ => live_of_kept
  unfold Harmless at hh
  rcases hl : ss.filter s.live with _ | ⟨top, rest⟩ <;> rw [hl] at hkept <;> simp only [hl] at hh
  · exact Or.inl ⟨hkept, by simp⟩
  · split_ifs at hh with hd
    · refine Or.inl ⟨?_, List.forall_mem_cons.mpr ⟨hd, hh⟩⟩
      rw [hkept, List.find?_eq_none]
      intro row hrow
      have hdel : row.value.isDeleted = true := by
        rcases List.mem_cons.mp hrow with rfl | hrow
        · exact hd
        · exact hh row hrow
      simp [kept, hdel]
    · refine Or.inr ⟨top, rest, rfl, ?_, hh⟩
      rw [hkept]
      refine List.find?_cons_of_pos ((kept_iff s top).mpr ⟨by simpa using hd, ?_⟩)
      rcases hh with hc | hc
      · exact Or.inl (TxStorage.isCommited_iff.mp hc)
      · exact Or.inr (TxStorage.isStarted_iff.mp hc.1)

theorem find_seen_deleted (hdel : ∀ row ∈ ss.filter s.live, row.value.isDeleted = true) :
    (ss.find? s.seen).bind (fun row => row.value.payload) = none := by
  rw [find_live ss (p := s.seen) fun _ => live_of_seen]
  rcases hf : (ss.filter s.live).find? s.seen with _ | row
  · rfl
  · exact payload_of_deleted (hdel row (List.mem_of_find?_eq_some hf))

theorem afterCompact_stacked (hstack : (mem ++ ss).Pairwise fun a b => s.active b = true → s.live a = false) :
    (afterCompact s mem ss).Pairwise fun a b => s.active b = true → s.live a = false := by
  obtain ⟨hmem, -, hcross⟩ := List.pairwise_append.mp hstack
  rw [afterCompact]
  rcases hf : ss.find? (kept s) with _ | row
  · simpa using hmem
  · refine List.pairwise_append.mpr ⟨hmem, by simp, ?_⟩
    intro a ha b hb hact
    obtain rfl : b = freezeRow s row := by simpa using hb
    rw [freezeRow_active] at hact
    exact hcross a ha row (List.mem_of_find?_eq_some hf) hact

theorem afterCompact_committed (hh : Harmless s ss)
    (hstack : (mem ++ ss).Pairwise fun a b => s.active b = true → s.live a = false)
    (hfrozen : ∀ row ∈ ss, row.value.isFrozen = true → s.isStarted row.value.tx = false) :
    ((afterCompact s mem ss).find? s.seen).bind (fun row => row.value.payload) =
      ((mem ++ ss).find? s.seen).bind fun row => row.value.payload := by
  rw [afterCompact, List.find?_append, List.find?_append]
  rcases mem.find? s.seen with _ | row
  swap
  · rfl
  rw [Option.none_or, Option.none_or]
  rcases hh.cases with ⟨hnone, hdel⟩ | ⟨top, rest, hlive, htop, hcase⟩
  · rw [hnone, find_seen_deleted hdel]
    rfl
  · have htopmem : top ∈ ss := List.mem_of_find?_eq_some htop
    have hseen := find_live ss (p := s.seen) fun _ => live_of_seen
    rw [htop, hseen, hlive]
    rcases hcase with hc | ⟨hst, hrest⟩
    · have hs : s.seen top = true := by rw [TxStorage.seen, hc, Bool.or_true]
      simp [hs]
    · have hs : s.seen top = false := by
        rw [TxStorage.seen, TxStorage.not_committed_of_started hst, Bool.or_false]
        by_contra hf
        rw [hfrozen top htopmem (by simpa using hf)] at hst
        cases hst
      have hbelow : (rest.find? s.seen).bind (fun row => row.value.payload) = none := by
        rcases rest with _ | ⟨row, rest⟩
        · rfl
        -- the next live version is not active, for it lies below one that is live
        · have hsub : (top :: row :: rest).Sublist (mem ++ ss) := by
            rw [← hlive]
            exact (List.filter_sublist).trans (List.sublist_append_right _ _)
          have hrow : row ∈ ss.filter s.live := by rw [hlive]; simp
          have hpair := (List.pairwise_cons.mp (hstack.sublist hsub)).1 row (by simp)
          have hlv := (List.mem_filter.mp hrow).2
          have hsr : s.seen row = true := by
            by_contra hc
            rw [TxStorage.live, Bool.eq_false_iff.mpr hc, Bool.false_or] at hlv
            have hdead := hpair hlv
            rw [live_of_active (by rw [TxStorage.active, hst])] at hdead
            cases hdead
          rw [List.find?_cons_of_pos hsr]
          exact payload_of_deleted (hrest row (by simp))
      simp [hs, hbelow]

/-- What everybody reads first after a compaction is frozen, or was read first before. -/
theorem afterCompact_seen {row : Row} (h : (afterCompact s mem ss).find? s.seen = some row) :
    row.value.isFrozen = true ∨ (mem ++ ss).find? s.seen = some row := by
  rw [afterCompact, List.find?_append] at h
  rw [List.find?_append]
  rcases hm : mem.find? s.seen with _ | r <;> rw [hm] at h
  · refine Or.inl ?_
    rw [Option.none_or] at h
    obtain ⟨old, -, rfl⟩ := List.mem_map.mp (List.mem_of_find?_eq_some h)
    have hseen := List.find?_some h
    rw [freezeRow_seen] at hseen
    rw [freezeRow_isFrozen]
    exact hseen
  · exact Or.inr h

theorem afterCompact_own (hh : Harmless s ss)
    (hstack : (mem ++ ss).Pairwise fun a b => s.active b = true → s.live a = false) {t : TransactionId}
    (ht : s.isStarted t = true) {own : Option (Option Bytes)}
    (hown : OwnOk (mem ++ ss) t (((mem ++ ss).find? s.seen).bind fun row => row.value.payload) own) :
    OwnOk (afterCompact s mem ss) t (((mem ++ ss).find? s.seen).bind fun row => row.value.payload) own := by
  have hforeign : (∀ row ∈ mem ++ ss, row.value.tx ≠ t) → ∀ row ∈ afterCompact s mem ss, row.value.tx ≠ t := by
    intro hne row hrow
    rcases mem_afterCompact hrow with hrow | ⟨old, hold, rfl⟩
    · exact hne row (List.mem_append_left _ hrow)
    · rw [freezeRow_tx]
      exact hne old (List.mem_append_right _ hold)
  rcases own with _ | p
  · exact hforeign hown
  rcases hown with ⟨row, hrow, htx, hp⟩ | ⟨hp, hc, hne⟩
  swap
  · exact Or.inr ⟨hp, hc, hforeign hne⟩
  rcases List.mem_append.mp hrow with hrow | hrow
  · exact Or.inl ⟨row, List.mem_append_left _ hrow, htx, hp⟩
  have hact : s.active row = true := by rw [TxStorage.active, htx, ht]
  have hrowlive : row ∈ ss.filter s.live := List.mem_filter.mpr ⟨hrow, live_of_active hact⟩
  have hdead : ∀ a ∈ mem, s.live a = false :=
    fun a ha => (List.pairwise_append.mp hstack).2.2 a ha row hrow hact
  rcases hh.cases with ⟨hnone, hdel⟩ | ⟨top, rest, hlive, htop, -⟩
  · refine Or.inr ⟨?_, ?_, ?_⟩
    · rw [← hp]
      exact payload_of_deleted (hdel row hrowlive)
    · have hm : mem.find? s.seen = none := by
        rw [List.find?_eq_none]
        intro a ha
        simp [(TxStorage.live_eq_false.mp (hdead a ha)).1]
      rw [List.find?_append, hm, Option.none_or, find_seen_deleted hdel]
    · intro a ha htxa
      have ham : a ∈ mem := by simpa [afterCompact, hnone] using ha
      have hl := hdead a ham
      rw [live_of_active (by rw [TxStorage.active, htxa, ht])] at hl
      cases hl
  · -- the row of the started transaction is the top one
    have hrt : row = top := by
      rw [hlive] at hrowlive
      rcases List.mem_cons.mp hrowlive with he | hrest
      · exact he
      · have hsub : (top :: rest).Sublist (mem ++ ss) := by
          rw [← hlive]
          exact (List.filter_sublist).trans (List.sublist_append_right _ _)
        have hd := (List.pairwise_cons.mp (hstack.sublist hsub)).1 row hrest hact
        have htl : top ∈ ss.filter s.live := by rw [hlive]; exact List.mem_cons_self
        rw [(List.mem_filter.mp htl).2] at hd
        cases hd
    refine Or.inl ⟨freezeRow s top, ?_, ?_, ?_⟩
    · rw [afterCompact, htop]
      simp
    · rw [freezeRow_tx, ← hrt, htx]
    · rw [freezeRow_payload, ← hrt, hp]

end AfterCompact

namespace Refines

variable {s : TxStorage} {rows rows' : Bytes → Bytes → List Row} {begun : List (Label × TransactionId)}
  {hist : List HistEvent}

theorem congr (hr : Refines s rows begun hist) (hrows : ∀ id key, rows' id key = rows id key) :
    Refines s rows' begun hist := by
  have he : rows' = rows := funext fun id => funext fun key => hrows id key
  rwa [he]

theorem compact (hr : Refines s rows begun hist) {mem ss : Bytes → Bytes → List Row} {id₀ : Bytes}
    (hsplit : ∀ id key, rows id key = mem id key ++ ss id key) (hh : ∀ key, Harmless s (ss id₀ key))
    (hrows : ∀ id key, rows' id key = if id = id₀ then afterCompact s (mem id key) (ss id key) else rows id key) :
    Refines s rows' begun hist := by
  have hmem : ∀ {id key row}, row ∈ rows' id key → ∃ old ∈ rows id key, row = old ∨ row = freezeRow s old := by
    intro id key row hrow
    rw [hrows] at hrow
    rw [hsplit]
    split_ifs at hrow with hid
    · rcases mem_afterCompact hrow with hrow | ⟨old, hold, he⟩
      · exact ⟨row, List.mem_append_left _ hrow, Or.inl rfl⟩
      · exact ⟨old, List.mem_append_right _ hold, Or.inr he⟩
    · exact ⟨row, hsplit id key ▸ hrow, Or.inl rfl⟩
  have hstack : ∀ id key, (mem id key ++ ss id key).Pairwise fun a b => s.active b = true → s.live a = false :=
    fun id key => hsplit id key ▸ hr.stacked id key
  constructor
  case bounded =>
    intro id key row hrow
    obtain ⟨old, hold, rfl | rfl⟩ := hmem hrow
    · exact hr.bounded id key _ hold
    · rw [freezeRow_tx]
      exact hr.bounded id key old hold
  case frozen =>
    intro id key row hrow hf
    obtain ⟨old, hold, rfl | rfl⟩ := hmem hrow
    · exact hr.frozen id key _ hold hf
    · rw [freezeRow_tx]
      rw [freezeRow_isFrozen, Bool.or_eq_true] at hf
      rcases hf with hf | hf
      · exact hr.frozen id key old hold hf
      · by_contra hc
        rw [TxStorage.not_committed_of_started (by simpa using hc)] at hf
        cases hf
  case stacked =>
    intro id key
    rw [hrows]
    split_ifs
    · exact afterCompact_stacked (hstack id key)
    · exact hr.stacked id key
  case locked =>
    intro id key row hrow hact
    obtain ⟨old, hold, rfl | rfl⟩ := hmem hrow
    · exact hr.locked id key _ hold hact
    · rw [freezeRow_active] at hact
      rw [freezeRow_tx]
      exact hr.locked id key old hold hact
  case holder => exact hr.holder
  case committed =>
    intro id key
    rw [hrows, ← hr.committed, hsplit]
    split_ifs with hid
    · subst hid
      refine afterCompact_committed (hh key) (hstack id key) fun row hrow => hr.frozen id key row ?_
      rw [hsplit]
      exact List.mem_append_right _ hrow
    · rfl
  case own =>
    intro h t id key ht
    have hown := hr.own h t id key ht
    rw [hrows, ← hr.committed]
    rw [← hr.committed] at hown
    split_ifs with hid
    · subst hid
      rw [hsplit] at hown ⊢
      exact afterCompact_own (hh key) (hstack id key) (txOf_eq_some.mp ht).2 hown
    · exact hown
  case held => exact hr.held
  case wrote => exact hr.wrote
  case begunLt => exact hr.begunLt
  case inj => exact hr.inj
  case labels => exact hr.labels
  case ended => exact hr.ended

end Refines

end StructureDb
