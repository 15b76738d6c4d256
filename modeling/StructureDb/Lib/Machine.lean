import Mathlib.Data.List.Basic
import Mathlib.Tactic

/-! Machines given by a partial step function: `none` is a step that is not
enabled. `run` takes a list of inputs, `Guarded` says that a condition on the
state before holds at every step, and `run_inv` is the induction rule for
invariants that may mention the trace. -/

namespace Machine

variable {σ ι : Type} (step : σ → ι → Option σ)

def run : σ → List ι → Option σ
  | s, [] => some s
  | s, a :: as =>
    match step s a with
    | some t => run t as
    | none => none

/-- Every step taken from `s` along the inputs meets `G`. -/
def Guarded (G : σ → ι → Prop) : σ → List ι → Prop
  | _, [] => True
  | s, a :: as =>
    G s a ∧ match step s a with
      | some t => Guarded G t as
      | none => True

instance Guarded.decidable (G : σ → ι → Prop) [∀ s a, Decidable (G s a)] :
    ∀ (s : σ) (as : List ι), Decidable (Guarded step G s as)
  | _, [] => isTrue trivial
  | s, a :: as =>
    match h : step s a with
    | some t =>
      have := Guarded.decidable G t as
      decidable_of_iff (G s a ∧ Guarded step G t as) (by rw [Guarded, h])
    | none => decidable_of_iff (G s a) (by rw [Guarded, h, and_true])

variable {step}

theorem run_cons {s u : σ} {a : ι} {as : List ι} :
    run step s (a :: as) = some u ↔ ∃ t, step s a = some t ∧ run step t as = some u := by
  rw [run]
  cases step s a <;> simp

theorem run_append {s t u : σ} {as bs : List ι} (ha : run step s as = some t) (hb : run step t bs = some u) :
    run step s (as ++ bs) = some u := by
  induction as generalizing s with
  | nil =>
    cases ha
    exact hb
  | cons a as ih =>
    obtain ⟨v, hv, ha⟩ := run_cons.mp ha
    exact run_cons.mpr ⟨v, hv, ih ha⟩

/-- A run on fixed inputs, looked at through a test of its last state. -/
theorem exists_of_any {p : σ → Bool} {s : σ} {as : List ι} (h : (run step s as).any p = true) :
    ∃ t, run step s as = some t ∧ p t = true := by
  rcases hr : run step s as with _ | t
  · rw [hr] at h
    cases h
  · rw [hr] at h
    exact ⟨t, rfl, h⟩

/-- A run on fixed inputs whose last state passes a test, and what follows from the test. -/
theorem exists_run_of {T Q : σ → Prop} [DecidablePred T] {s : σ} {as : List ι}
    (h : (run step s as).any (fun t => decide (T t)) = true) (hq : ∀ t, run step s as = some t → T t → Q t) :
    ∃ t, run step s as = some t ∧ Q t := by
  obtain ⟨t, ht, hp⟩ := exists_of_any h
  exact ⟨t, ht, hq t ht (of_decide_eq_true hp)⟩

theorem exists_run {Q : σ → Prop} [DecidablePred Q] {s : σ} {as : List ι}
    (h : (run step s as).any (fun t => decide (Q t)) = true) : ∃ t, run step s as = some t ∧ Q t :=
  exists_run_of h fun _ _ hq => hq

/-- The same for a run that is looked at twice. -/
theorem exists_runs_of {T Q : σ → σ → Prop} [∀ t u, Decidable (T t u)] {s : σ} {as bs : List ι}
    (h : (run step s as).any (fun t => (run step t bs).any fun u => decide (T t u)) = true)
    (hq : ∀ t u, run step s as = some t → run step t bs = some u → T t u → Q t u) :
    ∃ t u, run step s as = some t ∧ run step t bs = some u ∧ Q t u := by
  obtain ⟨t, ht, hu⟩ := exists_of_any h
  obtain ⟨u, hu, hp⟩ := exists_of_any hu
  exact ⟨t, u, ht, hu, hq t u ht hu (of_decide_eq_true hp)⟩

theorem guarded_of_forall {G : σ → ι → Prop} {as : List ι} (h : ∀ a ∈ as, ∀ s, G s a) (s : σ) :
    Guarded step G s as := by
  induction as generalizing s with
  | nil => trivial
  | cons a as ih =>
    refine ⟨h a (by simp) s, ?_⟩
    cases step s a with
    | none => trivial
    | some t => exact ih (fun b hb => h b (by simp [hb])) t

/-- What holds at the start and is kept by every guarded step holds after every guarded run. -/
theorem run_inv {G : σ → ι → Prop} {P : List ι → σ → Prop} {s t : σ} {as : List ι} (h0 : P [] s)
    (hstep : ∀ tr s a t, P tr s → G s a → step s a = some t → P (tr ++ [a]) t)
    (hg : Guarded step G s as) (hr : run step s as = some t) : P as t := by
  suffices h : ∀ tr, P tr s → P (tr ++ as) t from h [] h0
  clear h0
  induction as generalizing s with
  | nil =>
    intro tr htr
    cases hr
    simpa using htr
  | cons a as ih =>
    intro tr htr
    obtain ⟨u, hu, hr⟩ := run_cons.mp hr
    rw [Guarded, hu] at hg
    simpa using ih hg.2 hr (tr ++ [a]) (hstep tr s a u htr hg.1 hu)

/-- A second machine that follows every guarded step of the first follows its guarded runs, and keeps to its own
guard. -/
theorem run_simulates {τ κ : Type} {step' : τ → κ → Option τ} {f : ι → κ} {G : σ → ι → Prop}
    {H : τ → κ → Prop} {R : σ → τ → Prop} {s t : σ} {s' : τ} {as : List ι}
    (hstep : ∀ s s' a t, R s s' → G s a → step s a = some t →
      H s' (f a) ∧ ∃ t', step' s' (f a) = some t' ∧ R t t')
    (h0 : R s s') (hg : Guarded step G s as) (hr : run step s as = some t) :
    ∃ t', run step' s' (as.map f) = some t' ∧ Guarded step' H s' (as.map f) ∧ R t t' := by
  induction as generalizing s s' with
  | nil =>
    cases hr
    exact ⟨s', rfl, trivial, h0⟩
  | cons a as ih =>
    obtain ⟨u, hu, hr⟩ := run_cons.mp hr
    rw [Guarded, hu] at hg
    obtain ⟨hH, u', hu', hR⟩ := hstep s s' a u h0 hg.1 hu
    obtain ⟨t', ht', hguard, hR'⟩ := ih hR hg.2 hr
    refine ⟨t', run_cons.mpr ⟨u', hu', ht'⟩, ?_, hR'⟩
    rw [List.map_cons, Guarded, hu']
    exact ⟨hH, hguard⟩

/-- A second run that leaves some of the inputs out and stays related to the first. -/
theorem run_filter {G : σ → ι → Prop} {R : σ → σ → Prop} {p : ι → Bool} {s s' t : σ} {as : List ι}
    (h0 : R s s') (hkeep : ∀ a ∈ as, p a = true → ∀ s s' t, R s s' → G s a → G s' a → step s a = some t →
      ∃ t', step s' a = some t' ∧ R t t')
    (hdrop : ∀ a ∈ as, p a = false → ∀ s s' t, R s s' → G s a → step s a = some t → R t s')
    (hg : Guarded step G s as) (hg' : Guarded step G s' (as.filter p)) (hr : run step s as = some t) :
    ∃ t', run step s' (as.filter p) = some t' ∧ R t t' := by
  induction as generalizing s s' with
  | nil =>
    cases hr
    exact ⟨s', rfl, h0⟩
  | cons a as ih =>
    obtain ⟨u, hu, hr⟩ := run_cons.mp hr
    rw [Guarded, hu] at hg
    have ih := fun s' (hR : R u s') => @ih u s' hR (fun b hb => hkeep b (List.mem_cons_of_mem _ hb))
      (fun b hb => hdrop b (List.mem_cons_of_mem _ hb)) hg.2
    rcases hk : p a with _ | _
    · rw [List.filter_cons_of_neg (by simp [hk])] at hg' ⊢
      exact ih s' (hdrop a List.mem_cons_self hk s s' u h0 hg.1 hu) hg' hr
    · rw [List.filter_cons_of_pos hk] at hg' ⊢
      obtain ⟨u', hu', hR⟩ := hkeep a List.mem_cons_self hk s s' u h0 hg.1 hg'.1 hu
      rw [Guarded, hu'] at hg'
      obtain ⟨t', ht', hR'⟩ := ih u' hR hg'.2 hr
      exact ⟨t', run_cons.mpr ⟨u', hu', ht'⟩, hR'⟩

end Machine
