import StructureDb.Proofs.Maintenance

/-! What a lookup returns beside other threads: a version that its storage held when the iterator
was made, and that was frozen, its own or committed when it was looked at. -/

namespace StructureDb.Service

open Coroutine

variable {o : Options} {s : Node} {tx : TransactionId} {id key name : Bytes} {E : Terms Node Op} {P : Node → Prop}
  {X : Node → Exception → Prop}

theorem lift_bind {α β : Type} (c : Server.Program α) (f : α → Server.Program β) :
    lift (c >>= f) = lift c >>= fun a => lift (f a) := by
  induction c with
  | ret a => rfl
  | raise e => rfl
  | call op k ih => exact congrArg (Coro.call (Op.server op)) (funext ih)

theorem sat_lift {op : Server.Op} {Q : Node → Server.Res op → Prop} (h : Calls (kernel o) E (.server op) Q s) :
    (lift (Server.call op)).Sat (kernel o) E Q X s := h

theorem perform_isCommited (o : Options) (s : Node) (tx : TransactionId) :
    perform o s (.server (.isCommited tx)) = (s, .inl (s.context.txStorage.isCommited tx)) := by
  simp only [perform, Server.perform, events, List.append_nil]
  rfl

theorem perform_scan (o : Options) (s : Node) (id key : Bytes) :
    perform o s (.server (.scan id key)) = (s, .inl ((s.context.storages id).elim [] fun l => l.scanKey key)) := by
  simp only [perform, Server.perform, events, List.append_nil]
  rfl

theorem perform_hasStorage (o : Options) (s : Node) (id : Bytes) :
    perform o s (.server (.hasStorage id)) = (s, .inl (s.context.storages id).isSome) := by
  simp only [perform, Server.perform, events, List.append_nil]
  rfl

structure Seen (E : Terms Node Op) (P : Node → Prop) (tx : TransactionId) (rows : List Row) (row : Row) : Prop where
  mem : row ∈ rows
  live : row.value.isDeleted = false
  visible : row.value.isFrozen = true ∨ row.value.tx = tx ∨
    ∃ s, E.inv s ∧ P s ∧ s.context.txStorage.txStatus row.value.tx = some .commited

theorem sat_visible (hrefl : ∀ s, E.guarantee s s) (hs : P s) (v : TransactionalValue) :
    (lift (Server.visible tx v)).Sat (kernel o) E (fun s found => P s ∧ (found = true →
      v.isFrozen = true ∨ v.tx = tx ∨
        ∃ s, E.inv s ∧ P s ∧ s.context.txStorage.txStatus v.tx = some .commited)) X s := by
  unfold Server.visible
  split_ifs with hv
  · refine ⟨hs, fun _ => ?_⟩
    rw [Bool.or_eq_true, beq_iff_eq] at hv
    exact hv.imp_right Or.inl
  · refine sat_lift (calls_now (perform_isCommited o s v.tx) fun hi _ => ⟨hi, hrefl s, hs, fun hc => ?_⟩)
    exact Or.inr (Or.inr ⟨s, hi, hs, TxStorage.isCommited_iff.mp hc⟩)

structure Entry (E : Terms Node Op) (P : Node → Prop) (tx : TransactionId) (name : Bytes) (info : TableInfo) :
    Prop where
  found : ∃ s l row, E.inv s ∧ P s ∧ s.context.storages kSysTables = some l ∧ Seen E P tx (l.scanKey name) row ∧
    TableInfo.parse row.value.value = info

section
variable (hrefl : ∀ s, E.guarantee s s) (hstable : ∀ s s', P s → E.rely s s' → P s')
include hrefl hstable

theorem sat_lookupRows (tx : TransactionId) (rows : List Row) (hs : P s) :
    (lift (Server.lookupRows tx rows)).Sat (kernel o) E (fun s found => P s ∧ ∀ row, found = some row →
      Seen E P tx rows row) X s := by
  induction rows generalizing s with
  | nil => exact ⟨hs, fun row h => nomatch h⟩
  | cons first rest ih =>
    have hio : (lift (Server.call .io)).Sat (kernel o) E (fun s _ => P s) X s := sat_io hrefl hstable hs
    rw [Server.lookupRows, lift_bind]
    refine Coro.Sat.bind (hio.mono (fun u _ hu => ?_) fun _ _ h => h)
    rw [lift_bind]
    refine Coro.Sat.bind ((sat_visible hrefl hu first.value).mono (fun v found hv => ?_) fun _ _ h => h)
    cases found with
    | true =>
      rw [if_pos rfl]
      split_ifs with hdeleted
      · exact ⟨hv.1, fun row h => nomatch h⟩
      · refine ⟨hv.1, fun row h => ?_⟩
        cases h
        exact ⟨List.mem_cons_self, Bool.not_eq_true _ ▸ hdeleted, hv.2 rfl⟩
    | false =>
      rw [if_neg Bool.false_ne_true]
      refine (ih hv.1).mono (fun w found hw => ⟨hw.1, fun row h => ?_⟩) fun _ _ h => h
      exact ⟨List.mem_cons_of_mem _ (hw.2 row h).mem, (hw.2 row h).live, (hw.2 row h).visible⟩

theorem sat_lookup (tx : TransactionId) (id key : Bytes) (hs : P s) :
    (lift (Server.lookup tx id key)).Sat (kernel o) E (fun s found => P s ∧ ∀ row, found = some row →
      ∃ u l, E.inv u ∧ P u ∧ u.context.storages id = some l ∧ Seen E P tx (l.scanKey key) row) X s := by
  rw [Server.lookup, lift_bind]
  refine Coro.Sat.bind (sat_lift (calls_now (perform_scan o s id key) fun hi _ => ⟨hi, hrefl s, ?_⟩))
  rw [lift_bind]
  have hio : (lift (Server.call .io)).Sat (kernel o) E (fun s _ => P s) X s := sat_io hrefl hstable hs
  refine Coro.Sat.bind (hio.mono (fun u _ hu => ?_) fun _ _ h => h)
  refine (sat_lookupRows hrefl hstable tx _ hu).mono (fun v found hv => ⟨hv.1, fun row h => ?_⟩) fun _ _ h => h
  have hseen := hv.2 row h
  rcases hl : s.context.storages id with _ | l
  · rw [hl] at hseen
    exact absurd hseen.mem List.not_mem_nil
  · rw [hl] at hseen
    exact ⟨s, l, hi, hs, hl, hseen⟩

theorem sat_getTableInfo (tx : TransactionId) (name : Bytes) (hs : P s) :
    (lift (Server.getTableInfo tx name)).Sat (kernel o) E (fun s found => P s ∧ ∀ info, found = some info →
      Entry E P tx name info) X s := by
  rw [Server.getTableInfo, lift_bind]
  refine Coro.Sat.bind ((sat_lookup hrefl hstable tx kSysTables name hs).mono (fun u found hu => ⟨hu.1, ?_⟩)
    fun _ _ h => h)
  intro info hinfo
  obtain ⟨row, hrow, rfl⟩ := Option.map_eq_some_iff.mp hinfo
  obtain ⟨v, l, hi, hv, hl, hseen⟩ := hu.2 row hrow
  exact ⟨v, l, row, hi, hv, hl, hseen, rfl⟩

theorem sat_getStorageId (tx : TransactionId) (name : Bytes) (hs : P s) :
    (lift (Server.getStorageId tx name)).Sat (kernel o) E (fun s found => P s ∧ ∀ id, found = some id →
      Entry E P tx name ⟨false, id⟩) X s := by
  rw [Server.getStorageId, lift_bind]
  refine Coro.Sat.bind ((sat_getTableInfo hrefl hstable tx name hs).mono (fun u found hu => ?_) fun _ _ h => h)
  cases found with
  | none => exact ⟨hu.1, fun id h => nomatch h⟩
  | some info =>
    refine ⟨hu.1, fun id hid => ?_⟩
    split_ifs at hid with hdropped
    cases hid
    have hinfo : info = ⟨false, info.id⟩ := by
      cases info
      rw [Bool.not_eq_true] at hdropped
      cases hdropped
      rfl
    exact hinfo ▸ hu.2 info rfl

/-- The storage of a table is the one that the catalog names. -/
theorem sat_getTable (tx : TransactionId) (name : Bytes) (hs : P s) :
    (getTable tx name).Sat (kernel o) E (fun s found => P s ∧ ∀ id, found = some (.transactional id) →
      Entry E P tx name ⟨false, id⟩) (fun _ _ => True) s := by
  unfold getTable
  split_ifs
  · exact ⟨hs, fun id h => nomatch h⟩
  · exact ⟨hs, fun id h => nomatch h⟩
  · refine Coro.Sat.bind ((sat_getStorageId hrefl hstable tx name hs).mono (fun u found hu => ?_) fun _ _ h => h)
    cases found with
    | none => exact ⟨hu.1, fun id h => nomatch h⟩
    | some id =>
      refine Coro.Sat.bind (Coro.sat_perform (calls_now (perform_hasStorage o u id) fun hi _ => ⟨hi, hrefl u, ?_⟩))
      split_ifs
      · refine ⟨hu.1, fun id' h => ?_⟩
        cases h
        exact hu.2 id rfl
      · trivial

end

end StructureDb.Service
