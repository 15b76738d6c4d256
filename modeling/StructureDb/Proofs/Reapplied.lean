import StructureDb.Proofs.DbSteps

/-! Applying a page again. After a page has been applied, a database takes none of its events once
more: no record of it has the next number of its storage, and its transactions are committed. -/

namespace StructureDb

namespace Db

variable {o : Options} {db : Db} {page : List Event}

def Absorbs (db : Db) : Event → Prop
  | .upsert id seqNo _ _ => ∃ l, db.storages id = some l ∧ seqNo ≠ l.nextSeqNo
  | .commit tx => db.txStorage.txStatus tx = some .commited ∧ tx < db.txStorage.nextTxId

/-- The numbers of every storage grow along the page. -/
def Increasing (page : List Event) : Prop := ∀ id, ((logOf id page).map Record.seqNo).Pairwise (· < ·)

theorem Absorbs.apply_eq {e : Event} (h : db.Absorbs e) : db.apply o e = db := by
  cases e with
  | upsert id seqNo key value =>
    obtain ⟨l, hl, hne⟩ := h
    have hput : (l.putSeq o seqNo key value).1 = l := by rw [Lsm.putSeq, if_pos hne]
    have hsame : Function.update db.storages id (some l) = db.storages := by
      rw [← hl]
      exact Function.update_eq_self id db.storages
    change db.setStorage id (((db.storages id).getD (Lsm.init Dir.empty)).putSeq o seqNo key value).1 = db
    rw [hl, Option.getD_some, hput, setStorage, hsame]
  | commit tx =>
    obtain ⟨hstatus, hnext⟩ := h
    have hsame : Function.update db.txStorage.txStatus tx (some .commited) = db.txStorage.txStatus := by
      rw [← hstatus]
      exact Function.update_eq_self tx db.txStorage.txStatus
    have hmax : max db.txStorage.nextTxId (tx + 1) = db.txStorage.nextTxId := max_eq_left hnext
    change ({ db with txStorage := db.txStorage.recoverFromLog tx } : Db) = db
    rw [TxStorage.recoverFromLog, TxStorage.setStatus, hsame, hmax]

theorem foldl_apply_eq_self (h : ∀ e ∈ page, db.Absorbs e) : page.foldl (apply o) db = db := by
  induction page with
  | nil => rfl
  | cons e page ih =>
    rw [List.foldl_cons, (h e List.mem_cons_self).apply_eq]
    exact ih fun e' he' => h e' (List.mem_cons_of_mem _ he')

/-- A storage either refuses a record or takes it and waits for the next number. -/
theorem putSeq_nextSeqNo (l : Lsm TransactionalValue) (seqNo : ℕ) (key : Bytes) (value : TransactionalValue) :
    (seqNo ≠ l.nextSeqNo ∧ (l.putSeq o seqNo key value).1.nextSeqNo = l.nextSeqNo) ∨
      (seqNo = l.nextSeqNo ∧ (l.putSeq o seqNo key value).1.nextSeqNo = seqNo + 1) := by
  by_cases h : seqNo = l.nextSeqNo
  · refine Or.inr ⟨h, ?_⟩
    rw [Lsm.putSeq, if_neg (not_not.mpr h)]
    change (l.doPut o seqNo key value).nextSeqNo + 1 = _
    rw [Lsm.doPut_nextSeqNo, h]
  · exact Or.inl ⟨h, by rw [Lsm.putSeq, if_pos h]⟩

/-- One more event: the events before it are still absorbed. -/
theorem Absorbs.apply {e e' : Event} (h : db.Absorbs e)
    (hnewer : ∀ id n m k v k' v', e = .upsert id n k v → e' = .upsert id m k' v' → n < m) :
    (db.apply o e').Absorbs e := by
  cases e' with
  | upsert id m k' v' =>
    cases e with
    | upsert id' n k v =>
      obtain ⟨l, hl, hne⟩ := h
      by_cases hid : id' = id
      · subst hid
        have hlt := hnewer id' n m k v k' v' rfl rfl
        refine ⟨_, setStorage_self .., ?_⟩
        rw [hl, Option.getD_some]
        rcases putSeq_nextSeqNo l m k' v' with ⟨-, hnext⟩ | ⟨-, hnext⟩
        · rw [hnext]
          exact hne
        · rw [hnext]
          omega
      · exact ⟨l, (setStorage_of_ne _ _ hid).trans hl, hne⟩
    | commit tx => exact h
  | commit tx' =>
    cases e with
    | upsert id n k v => exact h
    | commit tx =>
      obtain ⟨hstatus, hnext⟩ := h
      refine ⟨?_, lt_max_of_lt_left hnext⟩
      change Function.update db.txStorage.txStatus tx' (some .commited) tx = some .commited
      by_cases htx : tx = tx'
      · subst htx
        exact Function.update_self ..
      · rw [Function.update_of_ne htx]
        exact hstatus

theorem absorbs_apply (db : Db) (e : Event) : (db.apply o e).Absorbs e := by
  cases e with
  | upsert id n k v =>
    refine ⟨_, setStorage_self .., ?_⟩
    rcases putSeq_nextSeqNo (o := o) ((db.storages id).getD (Lsm.init Dir.empty)) n k v with ⟨hne, hnext⟩ | ⟨-,
      hnext⟩
    · rw [hnext]
      exact hne
    · rw [hnext]
      omega
  | commit tx => exact ⟨Function.update_self .., lt_max_of_lt_right (Nat.lt_succ_self tx)⟩

theorem absorbs_of_applied (h : Increasing page) : ∀ e ∈ page, (page.foldl (apply o) db).Absorbs e := by
  induction page using List.reverseRecOn with
  | nil => exact fun e he => absurd he List.not_mem_nil
  | append_singleton page e' ih =>
    have hinc : Increasing page := by
      intro id
      have hall := h id
      rw [logOf_append, List.map_append] at hall
      exact (List.pairwise_append.mp hall).1
    rw [List.foldl_append, List.foldl_cons, List.foldl_nil]
    intro e he
    rcases List.mem_append.mp he with hbefore | he
    · refine (ih hinc e hbefore).apply ?_
      rintro id n m k v k' v' rfl rfl
      have hall := h id
      rw [logOf_append, List.map_append] at hall
      have hlast : logOf id [.upsert id m k' v'] = [⟨k', m, v'⟩] := by simp [logOf]
      have hmem : (⟨k, n, v⟩ : Row) ∈ logOf id page := mem_logOf.mpr hbefore
      rw [hlast] at hall
      exact (List.pairwise_append.mp hall).2.2 n (List.mem_map.mpr ⟨_, hmem, rfl⟩) m (by simp)
    · rw [List.mem_singleton.mp he]
      exact absorbs_apply _ e'

/-- A page and then a longer one: as the longer one alone. The same page again: nothing. -/
theorem reapply (o : Options) (db : Db) (p q : List Event) (hgrown : p <+: q) (hincreasing : Increasing q) :
    q.foldl (apply o) (p.foldl (apply o) db) = q.foldl (apply o) db ∧
      q.foldl (apply o) (q.foldl (apply o) db) = q.foldl (apply o) db := by
  have hself {page : List Event} (h : Increasing page) :
      page.foldl (apply o) (page.foldl (apply o) db) = page.foldl (apply o) db :=
    foldl_apply_eq_self (absorbs_of_applied h)
  refine ⟨?_, hself hincreasing⟩
  obtain ⟨rest, rfl⟩ := hgrown
  have hp : Increasing p := by
    intro id
    have hall := hincreasing id
    rw [logOf_append, List.map_append] at hall
    exact (List.pairwise_append.mp hall).1
  rw [List.foldl_append, hself hp, List.foldl_append]

/-- A commit and a record more, behind a record with a gap before it. -/
theorem reapply_gap :
    [Event.upsert kSysTables 1 [1] ⟨10, false, false, [2]⟩, .upsert kSysTables 3 [1] ⟨10, false, false, [3]⟩] <+:
        [Event.upsert kSysTables 1 [1] ⟨10, false, false, [2]⟩, .upsert kSysTables 3 [1] ⟨10, false, false, [3]⟩,
          .commit 10, .upsert kSysTables 4 [1] ⟨11, false, false, [4]⟩] ∧
      [Event.upsert kSysTables 1 [1] ⟨10, false, false, [2]⟩, .upsert kSysTables 3 [1] ⟨10, false, false, [3]⟩,
          .commit 10, .upsert kSysTables 4 [1] ⟨11, false, false, [4]⟩].foldl (apply ⟨10⟩)
        ([Event.upsert kSysTables 1 [1] ⟨10, false, false, [2]⟩,
          .upsert kSysTables 3 [1] ⟨10, false, false, [3]⟩].foldl (apply ⟨10⟩)
    (init ⟨10⟩ (fun _ => none) Dir.empty)) =
        [Event.upsert kSysTables 1 [1] ⟨10, false, false, [2]⟩, .upsert kSysTables 3 [1] ⟨10, false, false, [3]⟩,
          .commit 10, .upsert kSysTables 4 [1] ⟨11, false, false, [4]⟩].foldl (apply ⟨10⟩)
          (init ⟨10⟩ (fun _ => none) Dir.empty) := by
  refine ⟨⟨_, rfl⟩, (reapply ⟨10⟩ _ _ _ ⟨_, rfl⟩ ?_).1⟩
  intro id
  by_cases hid : kSysTables = id <;> simp [logOf, hid]

end Db

end StructureDb
