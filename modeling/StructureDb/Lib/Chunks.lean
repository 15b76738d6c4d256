import Mathlib.Tactic

/-! A list that is kept in pieces, and what is left of it from a place in one of the pieces. -/

namespace Chunks

variable {α : Type} {chunks : List (List α)} {c : List α} {p i : ℕ}

/-- From the `i`-th element of the `p`-th piece on. -/
def rest (chunks : List (List α)) (p i : ℕ) : List α := (chunks.drop p).flatten.drop i

theorem rest_zero (chunks : List (List α)) : rest chunks 0 0 = chunks.flatten := by simp [rest]

theorem rest_of_le (h : chunks.length ≤ p) (i : ℕ) : rest chunks p i = [] := by
  rw [rest, List.drop_eq_nil_of_le h, List.flatten_nil, List.drop_nil]

/-- What is left of a piece, and the pieces behind it. -/
theorem rest_eq_append (h : chunks[p]? = some c) (hi : i ≤ c.length) :
    rest chunks p i = c.drop i ++ rest chunks (p + 1) 0 := by
  obtain ⟨hp, hc⟩ := List.getElem?_eq_some_iff.mp h
  rw [rest, rest, List.drop_zero, List.drop_eq_getElem_cons hp, hc, List.flatten_cons, List.drop_append_of_le_length hi]

theorem rest_cons {b : List α} (h : chunks[p]? = some b) (hi : i < b.length) :
    rest chunks p i = b[i] :: rest chunks p (i + 1) := by
  rw [rest_eq_append h hi.le, rest_eq_append h hi, List.drop_eq_getElem_cons hi, List.cons_append]

/-- Behind the last element of a piece the next one begins. -/
theorem rest_length (h : chunks[p]? = some c) : rest chunks p c.length = rest chunks (p + 1) 0 := by
  rw [rest_eq_append h le_rfl, List.drop_length, List.nil_append]

/-- Of pieces of equal length each is found by its number. -/
theorem take_drop_flatten {n : ℕ} (hlen : ∀ b ∈ chunks, b.length = n) (h : chunks[p]? = some c) :
    (chunks.flatten.drop (p * n)).take n = c := by
  induction chunks generalizing p with
  | nil => cases h
  | cons b chunks ih =>
    have hb := hlen b List.mem_cons_self
    rw [List.flatten_cons]
    cases p with
    | zero =>
      rw [List.getElem?_cons_zero, Option.some.injEq] at h
      rw [Nat.zero_mul, List.drop_zero, List.take_left' hb, h]
    | succ p =>
      rw [List.getElem?_cons_succ] at h
      rw [Nat.add_mul, Nat.one_mul, Nat.add_comm, ← hb, ← List.drop_drop, List.drop_left, hb]
      exact ih (fun b' hb' => hlen b' (List.mem_cons_of_mem _ hb')) h

end Chunks
