import Mathlib.Data.List.Basic
import Mathlib.Tactic

/-! Lists whose elements carry consecutive numbers. -/

namespace Consecutive

variable {α : Type} {f : α → ℕ}

/-- The numbers of the elements are `n`, `n + 1`, and so on. -/
def From (f : α → ℕ) : ℕ → List α → Prop
  | _, [] => True
  | n, a :: as => f a = n ∧ From f (n + 1) as

theorem From.bounds {n : ℕ} {as : List α} (h : From f n as) : ∀ a ∈ as, n ≤ f a ∧ f a < n + as.length := by
  induction as generalizing n with
  | nil => simp
  | cons b as ih =>
    obtain ⟨hb, has⟩ := h
    intro a ha
    rw [List.length_cons]
    rcases List.mem_cons.mp ha with rfl | ha
    · omega
    · have := ih has a ha
      omega

/-- An element stands at the place of its number. -/
theorem From.getElem? {n : ℕ} {as : List α} (h : From f n as) {a : α} (ha : a ∈ as) : as[f a - n]? = some a := by
  induction as generalizing n with
  | nil => cases ha
  | cons b as ih =>
    obtain ⟨hb, has⟩ := h
    rcases List.mem_cons.mp ha with rfl | ha
    · rw [hb, Nat.sub_self]
      rfl
    · have hn := (has.bounds a ha).1
      rw [show f a - n = f a - (n + 1) + 1 by omega, List.getElem?_cons_succ]
      exact ih has ha

theorem From.map_eq {n : ℕ} {as : List α} (h : From f n as) : as.map f = List.range' n as.length := by
  induction as generalizing n with
  | nil => rfl
  | cons a as ih =>
    rw [List.map_cons, List.length_cons, List.range'_succ, h.1, ih h.2]

theorem From.exists {n m : ℕ} {as : List α} (h : From f n as) (hn : n ≤ m) (hm : m < n + as.length) :
    ∃ a ∈ as, f a = m := by
  induction as generalizing n with
  | nil =>
    rw [List.length_nil] at hm
    omega
  | cons a as ih =>
    obtain ⟨ha, has⟩ := h
    rw [List.length_cons] at hm
    by_cases he : m = n
    · exact ⟨a, List.mem_cons_self, by omega⟩
    · obtain ⟨b, hb, hbm⟩ := ih has (by omega) (by omega)
      exact ⟨b, List.mem_cons_of_mem _ hb, hbm⟩

theorem from_append {n : ℕ} {as bs : List α} :
    From f n (as ++ bs) ↔ From f n as ∧ From f (n + as.length) bs := by
  induction as generalizing n with
  | nil => simp [From]
  | cons a as ih =>
    rw [List.cons_append, From, From, ih, and_assoc, List.length_cons, add_right_comm, add_assoc]

/-- What is left from a number on. -/
theorem From.filter {n m : ℕ} {as : List α} (h : From f n as) (hn : n ≤ m) (hm : m ≤ n + as.length) :
    From f m (as.filter fun a => m ≤ f a) ∧ m + (as.filter fun a => m ≤ f a).length = n + as.length := by
  induction as generalizing n with
  | nil =>
    rw [List.length_nil] at hm
    simp only [List.filter_nil, List.length_nil, From, true_and]
    omega
  | cons a as ih =>
    rw [List.length_cons] at hm ⊢
    by_cases he : m = n
    · have hall : (a :: as).filter (fun a => m ≤ f a) = a :: as := by
        rw [List.filter_eq_self]
        intro b hb
        rw [decide_eq_true_eq, he]
        exact (h.bounds b hb).1
      rw [hall, he, List.length_cons]
      exact ⟨h, rfl⟩
    · obtain ⟨ha, has⟩ := h
      have hdrop : ¬m ≤ f a := by omega
      rw [List.filter_cons_of_neg (by simpa using hdrop)]
      have := ih has (by omega) (by omega)
      refine ⟨this.1, ?_⟩
      omega

/-- The elements above a number are those behind its place. -/
theorem From.filter_lt {n m : ℕ} {as : List α} (h : From f (n + 1) as) :
    as.filter (fun a => n + m < f a) = as.drop m := by
  induction as generalizing n m with
  | nil => simp
  | cons a as ih =>
    have hbounds := h.bounds
    obtain ⟨ha, has⟩ := h
    cases m with
    | zero =>
      rw [List.drop_zero, List.filter_eq_self]
      intro b hb
      simpa using (hbounds b hb).1
    | succ m =>
      have hsame : (fun b => decide (n + (m + 1) < f b)) = fun b => decide (n + 1 + m < f b) := by
        funext b
        rw [Nat.add_right_comm n 1 m]
        rfl
      rw [List.drop_succ_cons, List.filter_cons_of_neg (by simp only [decide_eq_true_eq]; omega), hsame, ih has]

end Consecutive
