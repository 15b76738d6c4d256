import StructureDb.Proofs.Maintenance
import StructureDb.Proofs.Ownership

/-! Where the versions in the storages come from. Flushing and compaction write versions again
and mark them frozen; beside other threads they invent none. So a version that is new after
a step was put and logged in it. -/

namespace StructureDb.Service

open Coroutine

/-- A version without the mark that compaction sets. -/
def thawed (row : Row) : Row := { row with value := { row.value with isFrozen := false } }

def versions (l : Lsm TransactionalValue) : List Row := l.records.map thawed

theorem thawed_freezeRow (status : Option Status) (row : Row) : thawed (freezeRow status row) = thawed row := by
  unfold freezeRow
  split_ifs <;> rfl

theorem Compacted.versions {known : TransactionId → Option Status → Prop} {last : Option Bytes} {rows out : List Row}
    (h : Compacted known last rows out) : ∀ row ∈ out, thawed row ∈ rows.map thawed := by
  induction h with
  | nil last => exact fun row hrow => absurd hrow List.not_mem_nil
  | deleted _ _ ih => exact fun row hrow => List.mem_cons_of_mem _ (ih row hrow)
  | skipped _ _ _ _ ih => exact fun row hrow => List.mem_cons_of_mem _ (ih row hrow)
  | added _ _ _ _ _ ih =>
    intro row hrow
    rcases List.mem_cons.mp hrow with rfl | hrow
    · rw [thawed_freezeRow]
      exact List.mem_cons_self
    · exact List.mem_cons_of_mem _ (ih row hrow)
  | shadowed _ _ _ _ _ ih => exact fun row hrow => List.mem_cons_of_mem _ (ih row hrow)

section
variable {l l' : Lsm TransactionalValue}

theorem versions_of_levels (h : l'.levels = l.levels) : versions l' = versions l := by
  rw [versions, Lsm.records, h]
  rfl

theorem versions_publishCompact {known : TransactionId → Option Status → Prop} {path : Bytes} {out : List Row}
    (hss : l'.ssTables = l.ssTables) (hout : Compacted known none l.mergedRecords out) :
    ∀ v ∈ versions (l'.publishCompact ⟨path, out⟩), v ∈ versions l' := by
  have hrecords : (l'.publishCompact ⟨path, out⟩).records = l'.memRecords ++ out := by
    simp [Lsm.records, Lsm.publishCompact_levels, Lsm.memRecords]
  have hold : l'.ssRecords = l.ssRecords := by rw [Lsm.ssRecords, hss, Lsm.ssRecords]
  intro v hv
  rw [versions, hrecords, List.map_append, List.mem_append] at hv
  rw [versions, Lsm.records_eq, List.map_append, List.mem_append]
  rcases hv with hv | hv
  · exact Or.inl hv
  · obtain ⟨row, hrow, rfl⟩ := List.mem_map.mp hv
    rw [hold]
    exact Or.inr ((l.mergedRecords_perm.map thawed).subset (hout.versions row hrow))

theorem versions_put (o : Options) (l : Lsm TransactionalValue) (key : Bytes) (value : TransactionalValue) :
    ∀ v ∈ versions (l.put o key value).1, v = thawed ⟨key, l.nextSeqNo, value⟩ ∨ v ∈ versions l := by
  intro v hv
  have hmem :=
    ((Lsm.doPut_records_perm o { l with nextSeqNo := l.nextSeqNo + 1 } l.nextSeqNo key value).map thawed).subset hv
  rw [List.map_cons, List.mem_cons] at hmem
  exact hmem

end

section
variable {o : Options} {s s' s'' : Node} {op : Op} {no n : ℕ} {id : Bytes} {l l' : Lsm TransactionalValue}

/-- What the others leave to the holder of a mutex: the mutex, the tables and the frozen mem tables. -/
structure Keeps (n : ℕ) (s s' : Node) : Prop where
  mutex : ∀ id, s.maintenance id = some n → s'.maintenance id = some n
  tree : ∀ id l, s.maintenance id = some n → s.context.storages id = some l →
    ∃ l', s'.context.storages id = some l' ∧ l'.ssTables = l.ssTables ∧ l.roMemTables <+: l'.roMemTables

namespace Keeps

theorem of_eq (hmutex : s'.maintenance = s.maintenance) (hstorages : s'.context.storages = s.context.storages) :
    Keeps n s s' := by
  refine ⟨fun id h => by rw [hmutex, h], fun id l _ hl => ⟨l, by rw [hstorages, hl], rfl, List.prefix_rfl⟩⟩

theorem trans (h : Keeps n s s') (h' : Keeps n s' s'') : Keeps n s s'' := by
  refine ⟨fun id hid => h'.mutex id (h.mutex id hid), fun id l hid hl => ?_⟩
  obtain ⟨l', hl', hss, hro⟩ := h.tree id l hid hl
  obtain ⟨l'', hl'', hss', hro'⟩ := h'.tree id l' (h.mutex id hid) hl'
  exact ⟨l'', hl'', hss'.trans hss, hro.trans hro'⟩

theorem held (h : Keeps n s s') (hs : Held n id l s) : Held n id l s' := by
  obtain ⟨hmutex, l', hl, hss, hro⟩ := hs
  obtain ⟨l'', hl', hss', hro'⟩ := h.tree id l' hmutex hl
  exact ⟨h.mutex id hmutex, l'', hl', hss'.trans hss, hro.trans hro'⟩

theorem of_storage (hmutex : s'.maintenance = s.maintenance) (id : Bytes)
    (hothers : ∀ id', id' ≠ id → s'.context.storages id' = s.context.storages id')
    (hid : s.maintenance id = some n → ∀ l, s.context.storages id = some l →
      ∃ l', s'.context.storages id = some l' ∧ l'.ssTables = l.ssTables ∧ l.roMemTables <+: l'.roMemTables) :
    Keeps n s s' := by
  refine ⟨fun id' h => by rw [hmutex, h], fun id' l hm hl => ?_⟩
  by_cases heq : id' = id
  · subst heq
    exact hid hm l hl
  · exact ⟨l, by rw [hothers id' heq, hl], rfl, List.prefix_rfl⟩

/-- An event of the leader goes into the mem table. -/
theorem apply (o : Options) (s : Node) (event : Event) : Keeps n s (s.apply o event) := by
  cases event with
  | commit tx => exact of_eq rfl rfl
  | upsert id seqNo key value =>
    refine of_storage rfl id (fun id' hne => Function.update_of_ne hne ..) fun _ l hl => ?_
    refine ⟨_, Function.update_self .., ?_⟩
    change ((s.context.storages id).getD _ |>.putSeq o seqNo key value).1.ssTables = l.ssTables ∧
      l.roMemTables <+: ((s.context.storages id).getD _ |>.putSeq o seqNo key value).1.roMemTables
    rw [hl, Option.getD_some, Lsm.putSeq]
    split_ifs
    · exact ⟨rfl, List.prefix_rfl⟩
    · exact ⟨Lsm.doPut_ssTables .., Lsm.doPut_roMemTables ..⟩

end Keeps

def Holds (s : Node) (id : Bytes) (v : Row) : Prop := ∃ l, s.context.storages id = some l ∧ v ∈ versions l

def upsertOf (id : Bytes) (row : Row) : Event := .upsert id row.seqNo row.key row.value

/-- Every version that is new was logged on the way. -/
def Adds (s s' : Node) : Prop :=
  ∃ events, s'.log = s.log ++ events ∧
    ∀ id v, Holds s' id v → Holds s id v ∨ ∃ row, v = thawed row ∧ upsertOf id row ∈ events

namespace Adds

theorem of_eq (hstorages : s'.context.storages = s.context.storages) (hlog : ∃ events, s'.log = s.log ++ events) :
    Adds s s' := by
  obtain ⟨events, hlog⟩ := hlog
  refine ⟨events, hlog, fun id v hv => Or.inl ?_⟩
  unfold Holds at hv ⊢
  rwa [hstorages] at hv

theorem trans (h : Adds s s') (h' : Adds s' s'') : Adds s s'' := by
  obtain ⟨es, hlog, hs⟩ := h
  obtain ⟨es', hlog', hs'⟩ := h'
  refine ⟨es ++ es', by rw [hlog', hlog, List.append_assoc], fun id v hv => ?_⟩
  rcases hs' id v hv with hv | ⟨row, rfl, hrow⟩
  · rcases hs id v hv with hv | ⟨row, rfl, hrow⟩
    · exact Or.inl hv
    · exact Or.inr ⟨row, rfl, List.mem_append_left _ hrow⟩
  · exact Or.inr ⟨row, rfl, List.mem_append_right _ hrow⟩

theorem of_storage {events : List Event} (hlog : s'.log = s.log ++ events) (id : Bytes)
    (hothers : ∀ id', id' ≠ id → s'.context.storages id' = s.context.storages id')
    (hid : ∀ v, Holds s' id v → Holds s id v ∨ ∃ row, v = thawed row ∧ upsertOf id row ∈ events) :
    Adds s s' := by
  refine ⟨events, hlog, fun id' v hv => ?_⟩
  by_cases heq : id' = id
  · subst heq
    exact hid v hv
  · left
    unfold Holds at hv ⊢
    rwa [hothers id' heq] at hv

end Adds

def Op.Plain : Op → Prop
  | .lockMaintenance _ _ => False
  | .unlockMaintenance _ _ => False
  | .writeTable _ _ _ => False
  | .publishFlush _ _ _ => False
  | .publishCompact _ _ _ => False
  | .remove _ _ _ => False
  | _ => True

theorem plain_reads : Reads Op.Plain :=
  ⟨⟨fun _ _ => trivial, fun _ => trivial, fun _ => trivial, trivial⟩, fun _ => trivial, fun _ _ => trivial⟩

theorem plain_writesFor (tx : TransactionId) : WritesFor Op.Plain tx :=
  ⟨plain_reads, fun _ _ => ⟨plain_reads.server, trivial, fun _ _ _ => trivial⟩⟩

theorem plain_body {no : ℕ} {tx : TransactionId} {request : Request} (h : request.maintains = false) :
    (body no tx request).All Op.Plain :=
  Handles.body ⟨plain_reads, fun _ => plain_writesFor tx, fun hm => absurd (h.symm.trans hm) Bool.false_ne_true,
    fun _ => all_lift ((Server.all_call trivial).bind fun _ => Server.all_call trivial), fun _ _ => ⟨trivial, trivial⟩⟩

structure Works (no : ℕ) (s s' : Node) : Prop where
  others : ∀ n, n ≠ no → Keeps n s s'
  adds : Adds s s'

namespace Works

theorem of_eq (hmutex : s'.maintenance = s.maintenance) (hstorages : s'.context.storages = s.context.storages)
    (hlog : ∃ events, s'.log = s.log ++ events) : Works no s s' :=
  ⟨fun _ _ => .of_eq hmutex hstorages, .of_eq hstorages hlog⟩

theorem refl (s : Node) : Works no s s := of_eq rfl rfl ⟨[], (List.append_nil _).symm⟩

theorem trans (h : Works no s s') (h' : Works no s' s'') : Works no s s'' :=
  ⟨fun n hn => (h.others n hn).trans (h'.others n hn), h.adds.trans h'.adds⟩

theorem mutex {holder : Option ℕ} (hfree : ∀ n, n ≠ no → s.maintenance id ≠ some n) :
    Works no s { s with maintenance := Function.update s.maintenance id holder } := by
  refine ⟨fun n hn => ⟨fun id' h => ?_, fun id' l _ hl => ⟨l, hl, rfl, List.prefix_rfl⟩⟩,
    .of_eq rfl ⟨[], (List.append_nil _).symm⟩⟩
  have hne : id' ≠ id := fun heq => hfree n hn (heq ▸ h)
  exact (Function.update_of_ne hne ..).trans h

/-- The holder of the mutex replaces the tables by versions that are there. -/
theorem setTree (hmutex : s.maintenance id = some no) (hl : s.context.storages id = some l)
    (hsub : ∀ v ∈ versions l', v ∈ versions l) : Works no s (setTree s id l') := by
  refine ⟨fun n hn => .of_storage rfl id (fun _ hne => setTree_of_ne hne l') fun hm => ?_,
    .of_storage (List.append_nil _).symm id (fun _ hne => setTree_of_ne hne l') fun v hv => ?_⟩
  · exact absurd (Option.some.inj (hm.symm.trans hmutex)) hn
  · obtain ⟨l'', hl'', hv⟩ := hv
    obtain rfl := Option.some.inj (hl''.symm.trans (setTree_self s id l'))
    exact Or.inl ⟨l, hl, hsub v hv⟩

theorem put (hl : s.context.storages id = some l) (hmutex : s'.maintenance = s.maintenance)
    {key : Bytes} {value : TransactionalValue}
    (hstorages : s'.context.storages = Function.update s.context.storages id (some (l.put o key value).1))
    (hlog : s'.log = s.log ++ [.upsert id l.nextSeqNo key value]) : Works no s s' := by
  have hothers : ∀ id', id' ≠ id → s'.context.storages id' = s.context.storages id' := by
    intro id' hne
    rw [hstorages, Function.update_of_ne hne]
  have hself : s'.context.storages id = some (l.put o key value).1 := by rw [hstorages, Function.update_self]
  refine ⟨fun n hn => .of_storage hmutex id hothers fun _ l₀ hl₀ => ?_, .of_storage hlog id hothers fun v hv => ?_⟩
  · obtain rfl := Option.some.inj (hl₀.symm.trans hl)
    exact ⟨_, hself, Lsm.doPut_ssTables .., Lsm.doPut_roMemTables o { l₀ with nextSeqNo := l₀.nextSeqNo + 1 } ..⟩
  · obtain ⟨l'', hl'', hv⟩ := hv
    obtain rfl := Option.some.inj (hl''.symm.trans hself)
    rcases versions_put o l key value v hv with rfl | hv
    · exact Or.inr ⟨_, rfl, List.mem_singleton_self _⟩
    · exact Or.inl ⟨l, hl, hv⟩

theorem emplace (hnone : s.context.storages id = none) (hmutex : s'.maintenance = s.maintenance)
    (hstorages : s'.context.storages = Function.update s.context.storages id (some (Lsm.init Dir.empty)))
    (hlog : s'.log = s.log) : Works no s s' := by
  have hothers : ∀ id', id' ≠ id → s'.context.storages id' = s.context.storages id' := by
    intro id' hne
    rw [hstorages, Function.update_of_ne hne]
  refine ⟨fun n hn => .of_storage hmutex id hothers fun _ l hl => ?_,
    .of_storage (hlog.trans (List.append_nil _).symm) id hothers fun v hv => ?_⟩
  · rw [hnone] at hl
    cases hl
  · obtain ⟨l, hl, hv⟩ := hv
    rw [hstorages, Function.update_self] at hl
    cases hl
    exact absurd hv List.not_mem_nil

theorem effect (hop : op.Plain) (he : Effect o s op s') : Works no s s' := by
  cases he with
  | same => exact refl s
  | begin => exact of_eq rfl rfl ⟨[], (List.append_nil _).symm⟩
  | setStatus tx status => exact of_eq rfl rfl ⟨[], (List.append_nil _).symm⟩
  | logCommit tx => exact of_eq rfl rfl ⟨_, rfl⟩
  | grant tx rowKey txStorage ha => exact of_eq rfl rfl ⟨[], (List.append_nil _).symm⟩
  | sleep tx rowKey => exact of_eq rfl rfl ⟨[], (List.append_nil _).symm⟩
  | release tx => exact of_eq rfl rfl ⟨[], (List.append_nil _).symm⟩
  | emplace id hnone => exact emplace hnone rfl rfl rfl
  | put id key value l hl => exact put hl rfl rfl rfl
  | resume op call walWriter hw => exact of_eq rfl rfl ⟨[], (List.append_nil _).symm⟩
  | createDirectory id => exact of_eq rfl rfl ⟨[], (List.append_nil _).symm⟩
  | lock n id hfree => exact hop.elim
  | unlock n id => exact hop.elim
  | edit op n id f l hedit hl => cases op <;> first | exact hop.elim | cases hedit

end Works

def tending (no : ℕ) : Terms Node Op where
  inv := fun _ => True
  check := fun _ _ => True
  rely := Keeps no
  guarantee := Works no

theorem tends (no : ℕ) : Tends (tending no) no where
  refl := fun s => Works.refl s
  mutex := fun id s s' h hr => hr.mutex id h
  held := fun id l s s' h hr => hr.held h
  lock := by
    intro id s _ hfree
    refine ⟨trivial, Works.mutex fun n _ hn => ?_⟩
    rw [hfree] at hn
    cases hn
  unlock := by
    intro id s _ hheld
    refine ⟨trivial, Works.mutex fun n hne hn => hne ?_⟩
    exact Option.some.inj (hn.symm.trans hheld)
  remove := fun _ _ _ _ _ hmutex hl => ⟨trivial, Works.setTree hmutex hl fun _ hv => hv⟩
  write := fun _ _ _ _ _ _ _ hmutex hl _ _ => ⟨trivial, Works.setTree hmutex hl fun _ hv => hv⟩
  flush := by
    intro id s l m rest t _ hmutex hl hro ht
    refine ⟨trivial, Works.setTree hmutex hl fun v hv => ?_⟩
    rwa [versions_of_levels (Lsm.publishFlush_levels hro ht)] at hv

theorem compacts (o : Options) (no : ℕ) : Compacts o (tending no) no (fun _ => True) fun _ _ _ => True where
  toTends := tends no
  table := fun tx name _ => (sat_reads (P := fun _ => True) Works.refl (fun _ _ _ _ => trivial)
    (Service.reads.getTable tx name) trivial).mono (fun _ _ _ _ _ => trivial) fun _ _ _ => trivial
  found := fun _ _ _ _ _ _ => trivial
  seen := fun _ _ _ _ _ _ => trivial
  writeCompact := fun _ _ _ _ _ _ _ _ hmutex hl _ _ => ⟨trivial, Works.setTree hmutex hl fun _ hv => hv⟩
  compact := fun _ _ _ _ _ _ _ _ hmutex hl hss hout =>
    ⟨trivial, Works.setTree hmutex hl (versions_publishCompact hss hout)⟩

theorem sat_plain {α : Type} {c : Program α} (hc : c.All Op.Plain) :
    c.Sat (kernel o) (tending no) (fun _ _ => True) (fun _ _ => True) s :=
  hc.sat (P := fun _ => True) (fun _ _ _ _ => trivial)
    (fun s op hop _ _ _ => ⟨trivial, Works.effect hop (perform_effect o s op), trivial⟩)
    (fun _ _ _ _ hop _ _ _ hw => ⟨trivial, Works.effect hop (wake_effect (o := o) hw), trivial⟩) trivial

theorem sat_body_tending (no : ℕ) (tx : TransactionId) (request : Request) :
    (body no tx request).Sat (kernel o) (tending no) (fun _ _ => True) (fun _ _ => True) s := by
  by_cases hm : request.maintains = true
  · exact (compacts o no).sat_body hm
  · exact sat_plain (plain_body (Bool.not_eq_true _ ▸ hm))

theorem sat_program_tending (th : Thread) (s : Node) :
    (program th).Sat (kernel o) (tending th.no) (fun _ _ => True) (fun _ _ => True) s := by
  obtain ⟨no, activity⟩ := th
  cases activity with
  | session request tx =>
    exact Coro.Sat.handle ((sat_body_tending no tx request).mono (fun _ _ h => h) fun _ _ _ => trivial)
  | rollback tx =>
    exact sat_plain ((all_lift ((Server.all_call trivial).bind fun _ => Server.all_call trivial)).bind fun _ => trivial)
  | flush ids => exact Coro.Sat.bind (((tends no).sat_flushAll ids).mono (fun _ _ _ => trivial) fun _ _ h => h)

theorem Starts.keeps {action : Action} {node : Node} {activity : Activity} (h : Starts s action node activity) :
    node.maintenance = s.maintenance ∧ node.context.storages = s.context.storages := by
  cases h <;> exact ⟨rfl, rfl⟩

end

structure Tended (o : Options) (s : Service) : Prop where
  basic : Basic s
  sat : ∀ x ∈ s.tasks, x.2.Sat (kernel o) (tending x.1.no) (fun _ _ => True) (fun _ _ => True) s.shared

namespace Tended

variable {o : Options} {s s' : Service} {action : Action}

theorem spawn (h : Tended o s) {node : Node} {activity : Activity} (hs : Starts s.shared action node activity) :
    Tended o ⟨node, s.tasks ++ [s.spawned activity]⟩ := by
  refine ⟨h.basic.spawn hs, fun x hx => ?_⟩
  rcases List.mem_append.mp hx with hx | hx
  · exact (h.sat x hx).stable (fun _ h => h) (fun _ h => h) (.of_eq hs.keeps.1 hs.keeps.2)
  · obtain rfl := List.mem_singleton.mp hx
    exact ⟨fun _ => True, fun _ _ _ _ => trivial, trivial, fun node _ => sat_program_tending _ node⟩

theorem advance {node node' : Node} {pre post : List (Thread × Task Res Wait Exception Response)}
    {x : Thread × Task Res Wait Exception Response} {t' : Task Res Wait Exception Response}
    (h : Tended o ⟨node, pre ++ x :: post⟩) (ha : (kernel o).advance node x.2 = some (node', t')) :
    Works x.1.no node node' ∧ Tended o ⟨node', pre ++ (x.1, t') :: post⟩ := by
  obtain ⟨hperm, hsat⟩ := sat_splice (T := fun th : Thread => tending th.no) (Q := fun _ _ _ => True)
    (X := fun _ _ _ => True) (fun s => Works.refl s) (fun _ _ _ => Works.trans) h.sat trivial
    ((kernel o).meets_of_forall (fun _ _ => trivial) _ _) ha
    fun y hy hg => ⟨hg.others _ (h.basic.numbered.ne hy), fun _ h => h, fun _ h => h⟩
  exact ⟨hperm.2, h.basic.advance ha, hsat⟩

theorem step (h : Tended o s) (hstep : s.step o action = some s') : Tended o s' := by
  rcases step_cases hstep with ⟨node, activity, hs, node', t', ha, rfl⟩ |
    ⟨i, x, pre, post, -, -, htasks, node', t', ha, rfl⟩ | ⟨event, -, rfl⟩ | ⟨events, -, rfl⟩
  · exact ((h.spawn hs).advance ha).2
  · have hpool : Tended o ⟨s.shared, pre ++ x :: post⟩ := htasks ▸ h
    exact (hpool.advance ha).2
  · refine ⟨h.basic.apply event, fun x hx => ?_⟩
    exact (h.sat x hx).stable (fun _ h => h) (fun _ h => h) (.apply o s.shared event)
  · exact ⟨Basic.restart s events, fun x hx => absurd hx List.not_mem_nil⟩

end Tended

end StructureDb.Service
