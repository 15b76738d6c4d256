import Mathlib.Tactic

/-! The search for the first place at which a test succeeds, by halving an interval. The test
goes through a state and may fail. -/

namespace BinarySearch

variable {σ : Type}

/-- The first place in `lo ≤ i < hi` that passes, or `hi`. -/
def lowerBound (test : ℕ → σ → Option (Bool × σ)) : ℕ → ℕ → ℕ → σ → Option (ℕ × σ)
  | 0, lo, hi, s => if lo < hi then none else some (lo, s)
  | rounds + 1, lo, hi, s =>
    if lo < hi then
      match test (lo + (hi - lo) / 2) s with
      | none => none
      | some (true, s) => lowerBound test rounds lo (lo + (hi - lo) / 2) s
      | some (false, s) => lowerBound test rounds (lo + (hi - lo) / 2 + 1) hi s
    else some (lo, s)

/-- If the test keeps an invariant of the state and decides an upward closed property, the search ends at the first
place that has the property. Every round shortens the interval. -/
theorem lowerBound_spec {test : ℕ → σ → Option (Bool × σ)} {I : σ → Prop} {p : ℕ → Bool} {n : ℕ}
    (htest : ∀ i < n, ∀ s, I s → ∃ s', test i s = some (p i, s') ∧ I s')
    (hmono : ∀ i j, i ≤ j → j < n → p i = true → p j = true) {rounds lo hi : ℕ} {s : σ}
    (hr : hi - lo ≤ rounds) (hlo : lo ≤ hi) (hhi : hi ≤ n) (hs : I s) (hbelow : ∀ i < lo, p i = false)
    (habove : ∀ i, hi ≤ i → i < n → p i = true) :
    ∃ r s', lowerBound test rounds lo hi s = some (r, s') ∧ I s' ∧ r ≤ n ∧ (∀ i < r, p i = false) ∧
      ∀ i, r ≤ i → i < n → p i = true := by
  induction rounds generalizing lo hi s with
  | zero =>
    have heq : lo = hi := by omega
    subst heq
    exact ⟨lo, s, by rw [lowerBound, if_neg (lt_irrefl _)], hs, hhi, hbelow, habove⟩
  | succ rounds ih =>
    rw [lowerBound]
    split_ifs with hlt
    · obtain ⟨s', htest', hs'⟩ := htest (lo + (hi - lo) / 2) (by omega) s hs
      rw [htest']
      cases hp : p (lo + (hi - lo) / 2) with
      | true =>
        refine ih (by omega) (by omega) (by omega) hs' hbelow ?_
        intro i hi' hn
        exact hmono _ _ hi' hn hp
      | false =>
        refine ih (by omega) (by omega) hhi hs' ?_ habove
        intro i hi'
        by_contra hc
        have hmid := hmono i (lo + (hi - lo) / 2) (by omega) (by omega) (by simpa using hc)
        rw [hp] at hmid
        cases hmid
    · have heq : lo = hi := by omega
      subst heq
      exact ⟨lo, s, rfl, hs, hhi, hbelow, habove⟩

end BinarySearch
