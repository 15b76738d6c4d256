import StructureDb.Proofs.Rollback
import StructureDb.Proofs.Visibility

/-! Reads against a snapshot. A transaction reads what is committed at the time of the read,
so it reads the snapshot of its `Begin` only as long as nobody else commits a write to
the key. -/

namespace StructureDb

namespace World

open TransactionalTable

variable {o : Options} {w w' : World}

theorem run_hist {ops : List Op} (hr : Machine.run (step o) w ops = some w') : ∃ new, w'.hist = new ++ w.hist := by
  refine Machine.run_inv (G := fun _ _ => True) (P := fun _ v => ∃ new, v.hist = new ++ w.hist) ⟨[], rfl⟩ ?_
    (Machine.guarded_of_forall (fun _ _ _ => trivial) _) hr
  intro _ u op v hu _ hs
  obtain ⟨new, hu⟩ := hu
  obtain ⟨ev, hv, -⟩ := (step_effect hs).hist
  exact ⟨ev ++ new, by rw [hv, hu, List.append_assoc]⟩

theorem Effect.own {op : Op} (he : Effect o w op w') {h : Label} {id key : Bytes}
    (hop : ∀ t value, op.version t ≠ some (h, id, key, value)) :
    TxMap.own h (id, key) w'.hist = TxMap.own h (id, key) w.hist := by
  cases he with
  | write hv _ _ hs =>
    obtain ⟨s, db, n, -, -, rfl⟩ := writeRow_cases hs
    refine TxMap.own_write_of_ne _ ?_
    rintro ⟨rfl, hk⟩
    obtain ⟨rfl, rfl⟩ := Prod.mk.inj hk
    exact hop _ _ hv
  | _ => rfl

/-- A transaction that does not write a key keeps its last write to it. -/
theorem run_own {ops : List Op} {h : Label} {id key : Bytes}
    (hops : ∀ op ∈ ops, ∀ t value, op.version t ≠ some (h, id, key, value))
    (hr : Machine.run (step o) w ops = some w') : TxMap.own h (id, key) w'.hist = TxMap.own h (id, key) w.hist := by
  refine Machine.run_inv (G := fun _ op => ∀ t value, op.version t ≠ some (h, id, key, value))
    (P := fun _ v => TxMap.own h (id, key) v.hist = TxMap.own h (id, key) w.hist) rfl ?_
    (Machine.guarded_of_forall (fun op hop _ => hops op hop) _) hr
  intro _ u op v hu hop hs
  exact ((step_effect hs).own hop).trans hu

/-- Nobody has committed a write to the key since `w₁`, or the transaction has written it itself. -/
def Undisturbed (w₁ w : World) (h : Label) (id key : Bytes) : Prop := TxMap.Undisturbed h (id, key) w₁.hist w.hist

instance (w₁ w : World) (h : Label) (id key : Bytes) : Decidable (w₁.Undisturbed w h id key) :=
  inferInstanceAs (Decidable (TxMap.Undisturbed ..))

theorem Inv.lookup_snapshot (hw : w.Inv) {w₁ : World} {new : List HistEvent} (hnew : w.hist = new ++ w₁.hist)
    {h : Label} {t : TransactionId} (ht : w.tx h = some t) {id key : Bytes} (hu : w₁.Undisturbed w h id key) :
    w.db.lookup t id key = (TxMap.snapshot h (id, key) w₁.hist w.hist).join := by
  unfold Undisturbed at hu
  rw [hw.lookup_eq ht]
  rw [hnew] at hu ⊢
  rw [TxMap.read_eq_snapshot hu]

/-- While nobody else commits a write to what it reads and all records fit in a page, a transaction looks up and scans
the snapshot of its `Begin` with its own writes on top, and a second look at a key that it has not written in between
shows the same. -/
theorem reads_snapshot (o : Options) (f : FileOptions) (hsmall : f.pageSize < 2 ^ 31) (h : Label) (ops₁ ops₂ : List Op)
    (hops₁ : ∀ op ∈ ops₁, op.plain = true ∧ op.FitsRecord f.pageSize)
    (hops₂ : ∀ op ∈ ops₂, op.plain = true ∧ op.FitsRecord f.pageSize)
    (hlen : ops₁.length + ops₂.length < 2 ^ 61) (w₁ w : World)
    (hr₁ : Machine.run (step o) (start o) ops₁ = some w₁)
    (hr : Machine.run (step o) w₁ (.begin h :: ops₂) = some w) (t : TransactionId) (ht : w.tx h = some t) (id : Bytes) :
    (∀ key, w₁.Undisturbed w h id key →
        w.db.lookupFiles f t id key = some (TxMap.snapshot h (id, key) w₁.hist w.hist).join) ∧
      (∀ l lowerBound upperBound, w.db.storages id = some l →
        (∀ key, ScanRange.contains ⟨lowerBound, upperBound⟩ key = true →
          w₁.Undisturbed w h id key ∧ ScanSafe w.db.txStorage t l key) →
        ∃ rows, w.db.scanFiles f t id lowerBound upperBound = some rows ∧ (rows.map Prod.fst).Pairwise (· < ·) ∧
          ∀ key value, (key, value) ∈ rows ↔ ScanRange.contains ⟨lowerBound, upperBound⟩ key = true ∧
            (TxMap.snapshot h (id, key) w₁.hist w.hist).join = some value) ∧
      ∀ key ops₃ w', (∀ op ∈ ops₃, op.plain = true ∧ op.FitsRecord f.pageSize) → ops₃.length < 2 ^ 61 →
        Machine.run (step o) w ops₃ = some w' → w'.tx h = some t →
        (∀ op ∈ ops₃, ∀ t value, op.version t ≠ some (h, id, key, value)) →
        w₁.Undisturbed w h id key → w₁.Undisturbed w' h id key →
        w'.db.lookupFiles f t id key = w.db.lookupFiles f t id key := by
  have hops : ∀ op ∈ ops₁ ++ .begin h :: ops₂, op.plain = true ∧ op.FitsRecord f.pageSize := by
    intro op hop
    rcases List.mem_append.mp hop with hop | hop
    · exact hops₁ op hop
    · rcases List.mem_cons.mp hop with rfl | hop
      · exact ⟨rfl, trivial⟩
      · exact hops₂ op hop
  have hrun := Machine.run_append hr₁ hr
  have hw : w.Inv := (start_inv o).run (fun op hop => (hops op hop).1) hrun
  have hdisk : w.db.OnDisk f := by
    refine Limited.run_calm (guarded_plain fun op hop => (hops op hop).1) hrun (fun op hop => (hops op hop).2) ?_ hsmall
    rw [List.length_append, List.length_cons]
    omega
  obtain ⟨new, hnew⟩ := run_hist hr
  refine ⟨?_, ?_, ?_⟩
  · intro key hu
    rw [hdisk.lookup, hw.lookup_snapshot hnew ht hu]
  · intro l lowerBound upperBound hl hsafe
    have htidy := run_tree_inv (Lsm.treeInv_tidy o) hrun id l hl
    refine ⟨_, hdisk.scan t id lowerBound upperBound, ?_, ?_⟩
    · simp only [Db.scan, hl]
      exact scan_ascending _ t htidy.levels lowerBound upperBound
    · intro key value
      simp only [Db.scan, hl, mem_scan _ t key htidy.levels]
      refine and_congr_right fun hc => ?_
      obtain ⟨hu, hs⟩ := hsafe key hc
      rw [← hw.lookup_snapshot hnew ht hu, (scan_agrees_key _ t key htidy.levels).mpr hs value]
      simp only [Db.lookup, hl]
  · intro key ops₃ w' hops₃ hlen₃ hr₃ ht' hquiet hu hu'
    have hops' : ∀ op ∈ (ops₁ ++ .begin h :: ops₂) ++ ops₃, op.plain = true ∧ op.FitsRecord f.pageSize := by
      intro op hop
      rcases List.mem_append.mp hop with hop | hop
      · exact hops op hop
      · exact hops₃ op hop
    have hdisk' : w'.db.OnDisk f := by
      refine Limited.run_calm (guarded_plain fun op hop => (hops' op hop).1) (Machine.run_append hrun hr₃)
        (fun op hop => (hops' op hop).2) ?_ hsmall
      rw [List.length_append, List.length_append, List.length_cons]
      omega
    have hw' : w'.Inv := hw.run (fun op hop => (hops₃ op hop).1) hr₃
    obtain ⟨new', hnew'⟩ := run_hist hr₃
    rw [hnew, ← List.append_assoc] at hnew'
    rw [hdisk.lookup, hdisk'.lookup, hw'.lookup_snapshot hnew' ht' hu', hw.lookup_snapshot hnew ht hu, TxMap.snapshot,
      TxMap.snapshot, run_own hquiet hr₃]

/-- Reader 1 with a write of its own, while another transaction commits a write to a third key; the first row is in a
file. -/
theorem reads_snapshot_beside_writer :
    ∃ w₁ w w' l, Machine.run (step ⟨0⟩) (start ⟨0⟩)
        [.addStorage [84], .begin 0, .upsert 0 [84] [1] [5], .commit 0, .flush] = some w₁ ∧
      Machine.run (step ⟨0⟩) w₁ [.begin 1, .upsert 1 [84] [2] [7]] = some w ∧
      Machine.run (step ⟨0⟩) w [.begin 2, .upsert 2 [84] [3] [9], .commit 2] = some w' ∧
      w.db.storages [84] = some l ∧
      w.db.lookupFiles ⟨fun _ => 0, 64, 3⟩ 11 [84] [1] = some (some [5]) ∧
      w.db.lookupFiles ⟨fun _ => 0, 64, 3⟩ 11 [84] [2] = some (some [7]) ∧
      (∃ rows, w.db.scanFiles ⟨fun _ => 0, 64, 3⟩ 11 [84] (some [1]) (some [1]) = some rows ∧
        ([1], [5]) ∈ rows) ∧
      w'.db.lookupFiles ⟨fun _ => 0, 64, 3⟩ 11 [84] [1] = w.db.lookupFiles ⟨fun _ => 0, 64, 3⟩ 11 [84] [1] := by
  have h : (Machine.run (step ⟨0⟩) (start ⟨0⟩)
      [.addStorage [84], .begin 0, .upsert 0 [84] [1] [5], .commit 0, .flush]).any (fun w₁ =>
        (Machine.run (step ⟨0⟩) w₁ [.begin 1, .upsert 1 [84] [2] [7]]).any fun w =>
          (Machine.run (step ⟨0⟩) w [.begin 2, .upsert 2 [84] [3] [9], .commit 2]).any fun w' =>
            decide (w.tx 1 = some 11 ∧ w'.tx 1 = some 11 ∧
              (∃ l ∈ w.db.storages [84], ScanSafe w.db.txStorage 11 l [1]) ∧
              w₁.Undisturbed w 1 [84] [1] ∧ w₁.Undisturbed w 1 [84] [2] ∧ w₁.Undisturbed w' 1 [84] [1] ∧
              (TxMap.snapshot 1 ([84], [1]) w₁.hist w.hist).join = some [5] ∧
              (TxMap.snapshot 1 ([84], [2]) w₁.hist w.hist).join = some [7])) = true := by
    decide
  obtain ⟨w₁, hr₁, h⟩ := Machine.exists_of_any h
  obtain ⟨w, hr, h⟩ := Machine.exists_of_any h
  obtain ⟨w', hr', h⟩ := Machine.exists_of_any h
  obtain ⟨ht, ht', ⟨l, hl, hsafe⟩, hu1, hu2, hu', hs1, hs2⟩ := of_decide_eq_true h
  obtain ⟨hlookup, hscan, hagain⟩ :=
    reads_snapshot ⟨0⟩ ⟨fun _ => 0, 64, 3⟩ (by decide) 1 _ _ (by decide) (by decide) (by decide) w₁ w hr₁ hr 11
      ht [84]
  have honly : ∀ key, ScanRange.contains ⟨some [1], some [1]⟩ key = true → key = [1] := by
    intro key hc
    simpa using (ScanRange.contains_only [1] key).symm.trans hc
  refine ⟨w₁, w, w', l, hr₁, hr, hr', hl, (hlookup _ hu1).trans (congrArg some hs1),
    (hlookup _ hu2).trans (congrArg some hs2), ?_, ?_⟩
  · obtain ⟨rows, hrows, -, hmem⟩ := hscan l (some [1]) (some [1]) hl fun key hc => by
      rw [honly key hc]
      exact ⟨hu1, hsafe⟩
    exact ⟨rows, hrows, (hmem [1] [5]).mpr ⟨by decide, hs1⟩⟩
  · exact hagain [1] _ w' (by decide) (by decide) hr' ht' (by simp [Op.version]) hu1 hu'

/-- The reader began before the second writer, and its second lookup returns the second writer's value. -/
theorem lookup_not_repeatable :
    ∃ w w', Machine.run (step ⟨0⟩) (start ⟨0⟩)
        [.addStorage [84], .begin 0, .upsert 0 [84] [1] [5], .commit 0, .begin 1] = some w ∧
      Machine.run (step ⟨0⟩) w [.begin 2, .upsert 2 [84] [1] [6], .commit 2] = some w' ∧
      w.tx 1 = some 11 ∧ w'.tx 1 = some 11 ∧
      w.db.lookup 11 [84] [1] = some [5] ∧ w'.db.lookup 11 [84] [1] = some [6] := by
  exact Machine.exists_runs_of (by decide) fun _ _ _ _ h => h

end World

end StructureDb
