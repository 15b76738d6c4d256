import StructureDb.Spec.Clients
import StructureDb.Proofs.Rollback

/-! What a `ROLLBACK` of a client leaves behind. The server never hears of it, so the transaction stays started and
keeps its row locks. For as long as the server runs, nobody can write the keys it wrote, in any table, and what is
committed to them does not change any more. -/

namespace StructureDb

namespace World

variable {o : Options} {w w' : World} {op : Op} {ops : List Op} {h : Label} {key : Bytes}

theorem Effect.still_started (he : Effect o w op w') (hw : w.Inv) (hc : w.Calm op)
    (hop : op ≠ .commit h ∧ op ≠ .rollback h) (hs : (w.tx h).isSome = true) : (w'.tx h).isSome = true := by
  rw [he.started hw hc, hs]
  cases op with
  | commit g =>
    have hne : g ≠ h := fun hg => hop.1 (hg ▸ rfl)
    simpa [Op.started] using hne
  | rollback g =>
    have hne : g ≠ h := fun hg => hop.2 (hg ▸ rfl)
    simpa [Op.started] using hne
  | begin g => exact Bool.or_true _
  | _ => rfl

structure Holds (w : World) (h : Label) (key : Bytes) : Prop where
  inv : w.Inv
  started : (w.tx h).isSome = true
  wrote : ∃ id, TxMap.own h (id, key) w.hist ≠ none

theorem Holds.locked (hw : w.Holds h key) : ∃ t, w.tx h = some t ∧ w.db.txStorage.rowLocks key = some t := by
  obtain ⟨t, ht⟩ := Option.isSome_iff_exists.mp hw.started
  obtain ⟨id, hown⟩ := hw.wrote
  exact ⟨t, ht, hw.inv.refines.held h t id key ht hown⟩

/-- The lock is on the key in every storage, and its holder does not pass it either. -/
theorem Holds.blocked (hw : w.Holds h key) (o : Options) (id : Bytes) (value : TransactionalValue) :
    w.db.writeRow o id key value = none := by
  obtain ⟨t, -, hl⟩ := hw.locked
  rw [Db.writeRow, TxStorage.acquireRowLock, hl, if_neg (by simp)]

theorem Holds.step (hw : w.Holds h key) (he : Effect o w op w') (hc : w.Calm op)
    (hop : op ≠ .commit h ∧ op ≠ .rollback h) :
    w'.Holds h key ∧ ∀ id, TxMap.committed (id, key) w'.hist = TxMap.committed (id, key) w.hist := by
  refine ⟨⟨he.inv hw.inv hc, he.still_started hw.inv hc hop hw.started, ?_⟩, ?_⟩
  · obtain ⟨id, hown⟩ := hw.wrote
    obtain ⟨new, hhist, -⟩ := he.hist
    exact ⟨id, hhist ▸ TxMap.own_append_ne_none hown⟩
  · intro id
    cases he with
    | write _ _ _ hs =>
      obtain ⟨_, _, _, -, -, rfl⟩ := writeRow_cases hs
      rfl
    | @commit g t' ht' =>
      -- a transaction that commits and has written the key would hold its lock
      have hnone : TxMap.own g (id, key) w.hist = none := by
        by_contra hown
        obtain ⟨t, ht, hl⟩ := hw.locked
        have hl' := hw.inv.refines.held g t' id key ht' hown
        obtain rfl := Option.some.inj (hl.symm.trans hl')
        exact hop.1 (hw.inv.refines.inj g h t ht' ht ▸ rfl)
      change TxMap.committed (id, key) (.commit g :: w.hist) = _
      rw [TxMap.committed_commit, TxMap.read, hnone, Option.none_or]
    | restart => exact hc.elim
    | _ => rfl

theorem Holds.run (hw : w.Holds h key) (hg : Machine.Guarded (World.step o) Calm w ops)
    (hops : ∀ op ∈ ops, op ≠ .commit h ∧ op ≠ .rollback h) (hr : Machine.run (World.step o) w ops = some w') :
    w'.Holds h key ∧ ∀ id, TxMap.committed (id, key) w'.hist = TxMap.committed (id, key) w.hist := by
  induction ops generalizing w with
  | nil =>
    cases hr
    exact ⟨hw, fun _ => rfl⟩
  | cons op ops ih =>
    obtain ⟨u, hu, hr⟩ := Machine.run_cons.mp hr
    rw [Machine.Guarded, hu] at hg
    obtain ⟨hu', hsame⟩ := hw.step (step_effect hu) hg.1 (hops op List.mem_cons_self)
    obtain ⟨hw', hrest⟩ := ih hu' hg.2 (fun op hop => hops op (List.mem_cons_of_mem _ hop)) hr
    exact ⟨hw', fun id => (hrest id).trans (hsame id)⟩

theorem run_started (hw : w.Inv) (hg : Machine.Guarded (World.step o) Calm w ops)
    (hops : ∀ op ∈ ops, op ≠ .commit h ∧ op ≠ .rollback h) (hr : Machine.run (World.step o) w ops = some w')
    (hs : (w.tx h).isSome = true) : (w'.tx h).isSome = true := by
  induction ops generalizing w with
  | nil =>
    cases hr
    exact hs
  | cons op ops ih =>
    obtain ⟨u, hu, hr⟩ := Machine.run_cons.mp hr
    rw [Machine.Guarded, hu] at hg
    have he := step_effect hu
    exact ih (he.inv hw hg.1) hg.2 (fun op hop => hops op (List.mem_cons_of_mem _ hop)) hr
      (he.still_started hw hg.1 (hops op List.mem_cons_self) hs)

end World

namespace Clients

variable {o : Options} {s s' : Clients} {action : Action} {client : ℕ} {command : Cli.Command} {fresh h : Label}
  {id key : Bytes} {w : World} {ops : List Op}

def Calm (o : Options) (s : Clients) : Action → Prop
  | .compaction fresh => Machine.Guarded (World.step o) World.Calm s.world ((Request.compaction fresh).ops s.world)
  | _ => True

instance (o : Options) (s : Clients) : (action : Action) → Decidable (s.Calm o action)
  | .compaction fresh => inferInstanceAs (Decidable (Machine.Guarded (World.step o) World.Calm s.world
      ((Request.compaction fresh).ops s.world)))
  | .execute .. | .flush | .clean => isTrue trivial

def Plain (op : Op) : Prop := (∀ w : World, w.Calm op) ∧ ∀ g, op ≠ .commit g ∧ op ≠ .rollback g

theorem requestOps_plain (hops : requestOps w h id command = some ops) : ∀ op ∈ ops, Plain op := by
  have hnonempty : ∀ {os : List Op}, requestOps.nonempty os = some ops → os = ops := by
    intro os hos
    unfold requestOps.nonempty at hos
    split_ifs at hos
    exact Option.some.inj hos
  intro op hop
  cases command with
  | createTable =>
    rw [← hnonempty hops] at hop
    simp only [Request.ops] at hop
    split at hop
    · cases hop
    · rcases List.mem_cons.mp hop with rfl | hop
      · exact ⟨fun _ => trivial, by simp⟩
      · rw [List.mem_singleton.mp hop]
        exact ⟨fun _ => trivial, by simp⟩
  | dropTable | upsert | delete =>
    rw [← hnonempty hops] at hop
    simp only [Request.ops] at hop
    split at hop
    · cases hop
    · rw [List.mem_singleton.mp hop]
      exact ⟨fun _ => trivial, by simp⟩
  | lookup | scan =>
    obtain ⟨t, -, hfound⟩ := Option.bind_eq_some_iff.mp hops
    obtain ⟨_, -, rfl⟩ := Option.map_eq_some_iff.mp hfound
    cases hop
  | begin | commit | rollback => cases hops

def Ends (s : Clients) (client : ℕ) (fresh : Label) (command : Cli.Command) (ops : List Op) (g : Label) : Prop :=
  command = .commit ∧ s.tx client = some g ∨ g = fresh ∧ ∃ rest, ops = .begin fresh :: rest

theorem requests_spec {os : List Op} (hos : os = match s.tx client with
      | some h => (requestOps s.world h id command).getD []
      | none => autocommitOps s.world fresh id command) :
    ∀ op ∈ os, (∀ w : World, w.Calm op) ∧ ∀ g, op ≠ .rollback g ∧
      (op = .commit g → s.Ends client fresh command os g) := by
  intro op hop
  rcases htx : s.tx client with _ | h <;> simp only [htx] at hos
  · have hbegin : ∃ rest, os = .begin fresh :: rest := ⟨_, hos⟩
    rw [hos, autocommitOps] at hop
    rcases List.mem_cons.mp hop with rfl | hop
    · exact ⟨fun _ => trivial, by simp⟩
    split at hop
    · cases hop
    · rename_i ops hops
      rcases List.mem_append.mp hop with hop | hop
      · obtain ⟨hcalm, hplain⟩ := requestOps_plain hops op hop
        exact ⟨hcalm, fun g => ⟨(hplain g).2, fun he => absurd he (hplain g).1⟩⟩
      · rw [List.mem_singleton.mp hop]
        refine ⟨fun _ => trivial, fun g => ⟨by simp, fun he => Or.inr ⟨?_, hbegin⟩⟩⟩
        cases he
        rfl
  · rcases hops : requestOps s.world h id command with _ | ops <;> rw [hops] at hos <;> rw [hos] at hop
    · cases hop
    · obtain ⟨hcalm, hplain⟩ := requestOps_plain hops op hop
      exact ⟨hcalm, fun g => ⟨(hplain g).2, fun he => absurd he (hplain g).1⟩⟩

theorem ops_spec (s : Clients) (client : ℕ) (fresh : Label) (id : Bytes) (command : Cli.Command) :
    ∀ op ∈ s.ops client fresh id command, (∀ w : World, w.Calm op) ∧
      ∀ g, op ≠ .rollback g ∧ (op = .commit g → s.Ends client fresh command (s.ops client fresh id command) g) := by
  cases command with
  | begin =>
    intro op hop
    simp only [ops] at hop
    split_ifs at hop
    · rw [List.mem_singleton.mp hop]
      exact ⟨fun _ => trivial, by simp⟩
    · cases hop
  | commit =>
    intro op hop
    rcases htx : s.tx client with _ | h <;> simp only [ops, htx, Option.elim, Request.ops] at hop
    · cases hop
    · split_ifs at hop
      · cases hop
      · rw [List.mem_singleton.mp hop]
        refine ⟨fun _ => trivial, fun g => ⟨by simp, fun he => Or.inl ⟨rfl, ?_⟩⟩⟩
        cases he
        exact htx
  | rollback => exact fun op hop => absurd hop List.not_mem_nil
  | createTable | dropTable | upsert | delete | lookup | scan => exact requests_spec rfl

/-- Every transaction in a context is started, and so is every one that was rolled back. -/
structure Inv (s : Clients) : Prop where
  world : s.world.Inv
  started : ∀ client h, s.tx client = some h → (s.world.tx h).isSome = true
  apart : ∀ client client' h, s.tx client = some h → s.tx client' = some h → client = client'
  left : ∀ h ∈ s.rolledBack, (s.world.tx h).isSome = true ∧ ∀ client, s.tx client ≠ some h

theorem start_inv (o : Options) : (start o).Inv :=
  ⟨World.start_inv o, by simp [start], by simp [start], by simp [start]⟩

theorem begun_of_started {h : Label} (hs : (w.tx h).isSome = true) : h ∈ w.begun.map Prod.fst := by
  obtain ⟨t, ht⟩ := Option.isSome_iff_exists.mp hs
  exact Refines.label_mem ht

/-- The effects of a command leave every transaction started but the one that a `COMMIT` is for. -/
theorem ops_leave {w' : World} (hr : Machine.run (World.step o) s.world (s.ops client fresh id command) = some w')
    (hs : (s.world.tx h).isSome = true) (hne : ¬(command = .commit ∧ s.tx client = some h)) :
    ∀ op ∈ s.ops client fresh id command, op ≠ .commit h ∧ op ≠ .rollback h := by
  intro op hop
  obtain ⟨-, hspec⟩ := s.ops_spec client fresh id command op hop
  refine ⟨fun he => ?_, (hspec h).1⟩
  rcases (hspec h).2 he with hcommit | ⟨rfl, rest, hrest⟩
  · exact hne hcommit
  -- a transaction that begins now is not one that is started
  · rw [hrest] at hr
    obtain ⟨u, hu, -⟩ := Machine.run_cons.mp hr
    simp only [World.step] at hu
    split_ifs at hu with hnew
    exact hnew (begun_of_started hs)

theorem ops_guarded (s : Clients) (client : ℕ) (fresh : Label) (id : Bytes) (command : Cli.Command) :
    Machine.Guarded (World.step o) World.Calm s.world (s.ops client fresh id command) :=
  Machine.guarded_of_forall (fun op hop => (s.ops_spec client fresh id command op hop).1) _

theorem compactOps_leave (db : Db) (t : TransactionId) (names : List Bytes) (h : Label) :
    ∀ op ∈ Request.compactOps db t names, op ≠ .commit h ∧ op ≠ .rollback h := by
  induction names generalizing db with
  | nil => exact fun op hop => absurd hop List.not_mem_nil
  | cons name names ih =>
    intro op hop
    rw [Request.compactOps] at hop
    split at hop
    · exact ih db op hop
    · rename_i id _
      rcases List.mem_cons.mp hop with rfl | hop
      · exact ⟨by simp, by simp⟩
      · exact ih (db.compact id) op hop

theorem step_world (hg : s.Calm o action) (hs : s.step o action = some s') :
    ∃ ops, Machine.run (World.step o) s.world ops = some s'.world ∧
      Machine.Guarded (World.step o) World.Calm s.world ops ∧
      ∀ h, (s.world.tx h).isSome = true → (∀ client fresh id, action = .execute client .commit fresh id →
        s.tx client ≠ some h) →
        ∀ op ∈ ops, op ≠ .commit h ∧ op ≠ .rollback h := by
  cases action with
  | execute client command fresh id =>
    obtain ⟨world, hr, rfl⟩ := Option.map_eq_some_iff.mp hs
    refine ⟨_, hr, s.ops_guarded client fresh id command, ?_⟩
    intro h hstarted hne
    refine ops_leave hr hstarted ?_
    rintro ⟨rfl, htx⟩
    exact hne client fresh id rfl htx
  | compaction fresh =>
    obtain ⟨world, hr, rfl⟩ := Option.map_eq_some_iff.mp hs
    refine ⟨_, hr, hg, ?_⟩
    intro h _ _ op hop
    rcases List.mem_cons.mp hop with rfl | hop
    · exact ⟨by simp, by simp⟩
    · exact compactOps_leave _ _ _ h op hop
  | flush | clean =>
    simp only [step, Option.map_eq_some_iff] at hs
    obtain ⟨world, hr, rfl⟩ := hs
    refine ⟨_, hr, Machine.guarded_of_forall ?_ _, ?_⟩
    · intro op hop w
      rw [List.mem_singleton.mp hop]
      trivial
    · intro h _ _ op hop
      rw [List.mem_singleton.mp hop]
      exact ⟨by simp, by simp⟩

theorem Inv.begin (hi : s.Inv) {w' : World}
    (hr : Machine.run (World.step o) s.world [.begin fresh] = some w') (hw : w'.Inv)
    (hkeep : ∀ h, (s.world.tx h).isSome = true → (w'.tx h).isSome = true) :
    Inv { s with world := w', tx := Function.update s.tx client (some fresh) } := by
  obtain ⟨u, hu, hr⟩ := Machine.run_cons.mp hr
  cases hr
  have hbegun : (w'.tx fresh).isSome = true := by
    rw [(World.step_effect hu).started hi.world trivial, Op.started, beq_self_eq_true, Bool.true_or]
  have hnew : ∀ h, (s.world.tx h).isSome = true → h ≠ fresh := by
    rintro h hstarted rfl
    simp only [World.step] at hu
    split_ifs at hu with hold
    exact hold (begun_of_started hstarted)
  have hcases : ∀ {c g}, Function.update s.tx client (some fresh) c = some g →
      c = client ∧ g = fresh ∨ c ≠ client ∧ s.tx c = some g := by
    intro c g hc
    by_cases hclient : c = client
    · rw [hclient, Function.update_self] at hc
      exact Or.inl ⟨hclient, (Option.some.inj hc).symm⟩
    · rw [Function.update_of_ne hclient] at hc
      exact Or.inr ⟨hclient, hc⟩
  refine ⟨hw, ?_, ?_, ?_⟩
  · intro c g hc
    rcases hcases hc with ⟨-, rfl⟩ | ⟨-, hc⟩
    · exact hbegun
    · exact hkeep g (hi.started c g hc)
  · intro c c' g hc hc'
    rcases hcases hc with ⟨hclient, hg⟩ | ⟨-, hold⟩ <;> rcases hcases hc' with ⟨hclient', hg'⟩ | ⟨-, hold'⟩
    · rw [hclient, hclient']
    · exact absurd hg (hnew g (hi.started c' g hold'))
    · exact absurd hg' (hnew g (hi.started c g hold))
    · exact hi.apart c c' g hold hold'
  · intro g hg
    obtain ⟨hstarted, hnone⟩ := hi.left g hg
    refine ⟨hkeep g hstarted, fun c hc => ?_⟩
    rcases hcases hc with ⟨-, rfl⟩ | ⟨-, hc⟩
    · exact hnew _ hstarted rfl
    · exact hnone c hc

/-- A context gives up its transaction, which goes on being started if it was rolled back. -/
theorem Inv.reset (hi : s.Inv) {w' : World} (htx : s.tx client = some h) (hw : w'.Inv) {rolledBack : List Label}
    (hkeep : ∀ g, (s.world.tx g).isSome = true → g = h ∨ (w'.tx g).isSome = true)
    (hleft : ∀ g ∈ rolledBack, g ∈ s.rolledBack ∨ g = h ∧ (w'.tx h).isSome = true) :
    Inv { world := w', tx := Function.update s.tx client none, rolledBack } := by
  have hcases : ∀ {c g}, Function.update s.tx client none c = some g → s.tx c = some g ∧ g ≠ h := by
    intro c g hc
    by_cases hclient : c = client
    · rw [hclient, Function.update_self] at hc
      cases hc
    · rw [Function.update_of_ne hclient] at hc
      refine ⟨hc, ?_⟩
      rintro rfl
      exact hclient (hi.apart c client g hc htx)
  refine ⟨hw, ?_, ?_, ?_⟩
  · intro c g hc
    obtain ⟨hc, hne⟩ := hcases hc
    exact (hkeep g (hi.started c g hc)).resolve_left hne
  · intro c c' g hc hc'
    exact hi.apart c c' g (hcases hc).1 (hcases hc').1
  · intro g hg
    rcases hleft g hg with hold | ⟨rfl, hstarted⟩
    · obtain ⟨hstarted, hnone⟩ := hi.left g hold
      refine ⟨(hkeep g hstarted).resolve_left ?_, fun c hc => hnone c (hcases hc).1⟩
      rintro rfl
      exact hnone client htx
    · exact ⟨hstarted, fun c hc => (hcases hc).2 rfl⟩

theorem Inv.same (hi : s.Inv) {w' : World} (hw : w'.Inv)
    (hkeep : ∀ g, (s.world.tx g).isSome = true → (w'.tx g).isSome = true) : Inv { s with world := w' } :=
  ⟨hw, fun c g hc => hkeep g (hi.started c g hc), hi.apart,
    fun g hg => ⟨hkeep g (hi.left g hg).1, (hi.left g hg).2⟩⟩

theorem Inv.step (hi : s.Inv) (hg : s.Calm o action) (hs : s.step o action = some s') : s'.Inv := by
  obtain ⟨ops, hr, hguard, hleave⟩ := step_world hg hs
  have hw := hi.world.run_calm hguard hr
  have hkeep : ∀ g, (s.world.tx g).isSome = true →
      (∀ client fresh id, action = .execute client .commit fresh id → s.tx client ≠ some g) →
        (s'.world.tx g).isSome = true :=
    fun g hg hne => World.run_started hi.world hguard (hleave g hg hne) hr hg
  cases action with
  | execute client command fresh id =>
    obtain ⟨world, hrun, rfl⟩ := Option.map_eq_some_iff.mp hs
    cases command with
    | begin =>
      rcases htx : s.tx client with _ | h
      · simp only [setContext, Clients.ops, htx, if_true] at hrun ⊢
        exact hi.begin hrun hw fun g hg => hkeep g hg (by simp)
      · simp only [setContext, htx, reduceCtorEq, if_false]
        exact hi.same hw fun g hg => hkeep g hg (by simp)
    | commit =>
      rcases htx : s.tx client with _ | h
      · simp only [setContext, htx]
        refine hi.same hw fun g hg => hkeep g hg ?_
        intro c _ _ he
        cases he
        rw [htx]
        simp
      · have hstarted := hi.started client h htx
        have hsome : s.world.tx h ≠ none := Option.isSome_iff_ne_none.mp hstarted
        simp only [setContext, htx, if_neg hsome]
        refine hi.reset htx hw ?_ fun g hg => Or.inl hg
        intro g hg
        by_cases hgh : g = h
        · exact Or.inl hgh
        · refine Or.inr (hkeep g hg ?_)
          intro c _ _ he hc
          cases he
          exact hgh (Option.some.inj (hc.symm.trans htx))
    | rollback =>
      have hall : ∀ g, (s.world.tx g).isSome = true → (world.tx g).isSome = true := fun g hg => hkeep g hg (by simp)
      rcases htx : s.tx client with _ | h <;> simp only [setContext, htx]
      · exact hi.same hw hall
      · refine hi.reset htx hw (fun g hg => Or.inr (hall g hg)) ?_
        intro g hg
        rcases List.mem_cons.mp hg with rfl | hg
        · exact Or.inr ⟨rfl, hall g (hi.started client g htx)⟩
        · exact Or.inl hg
    | createTable | dropTable | upsert | delete | lookup | scan => exact hi.same hw fun g hg => hkeep g hg (by simp)
  | flush | clean | compaction =>
    simp only [Clients.step, Option.map_eq_some_iff] at hs
    obtain ⟨world, -, rfl⟩ := hs
    exact hi.same hw fun g hg => hkeep g hg (by simp)

/-- The keys of a transaction that was rolled back stay as they are. -/
theorem Inv.holds (hi : s.Inv) (hh : h ∈ s.rolledBack) (hw : s.world.Holds h key) (hg : s.Calm o action)
    (hs : s.step o action = some s') :
    h ∈ s'.rolledBack ∧ s'.world.Holds h key ∧
      ∀ id, TxMap.committed (id, key) s'.world.hist = TxMap.committed (id, key) s.world.hist := by
  obtain ⟨ops, hr, hguard, hleave⟩ := step_world hg hs
  obtain ⟨hstarted, hnone⟩ := hi.left h hh
  obtain ⟨hholds, hsame⟩ := hw.run hguard (hleave h hstarted fun c _ _ _ => hnone c) hr
  refine ⟨?_, hholds, hsame⟩
  cases action with
  | execute client command fresh id =>
    obtain ⟨world, -, rfl⟩ := Option.map_eq_some_iff.mp hs
    cases command with
    | begin =>
      simp only [setContext]
      split_ifs <;> exact hh
    | commit =>
      simp only [setContext]
      split
      · exact hh
      · split_ifs <;> exact hh
    | rollback =>
      simp only [setContext]
      split
      · exact hh
      · exact List.mem_cons_of_mem _ hh
    | createTable | dropTable | upsert | delete | lookup | scan => exact hh
  | flush | clean | compaction =>
    simp only [Clients.step, Option.map_eq_some_iff] at hs
    obtain ⟨world, -, rfl⟩ := hs
    exact hh

end Clients

end StructureDb
