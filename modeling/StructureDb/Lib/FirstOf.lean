import Mathlib.Order.Basic
import Mathlib.Data.List.Basic
import Mathlib.Tactic

/-! One pass over a list sorted by key that takes, of every group of equal keys, the
first element with a property, remembering only the key it took last. -/

namespace FirstOf

variable {α κ : Type} [DecidableEq κ] (key : α → κ) (p : α → Bool)

def pick : Option κ → List α → List α
  | _, [] => []
  | last, a :: rest =>
    if p a = true ∧ last ≠ some (key a) then a :: pick (some (key a)) rest else pick last rest

theorem pick_sublist (last : Option κ) (l : List α) : (pick key p last l).Sublist l := by
  induction l generalizing last with
  | nil => exact List.Sublist.slnil
  | cons a l ih =>
    rw [pick]
    split_ifs
    · exact (ih _).cons_cons a
    · exact (ih _).cons a

end FirstOf

namespace FirstOf

variable {α κ : Type} [DecidableEq κ] [LinearOrder κ] {key : α → κ} {p : α → Bool}

/-- Of the group of `k` the pass takes the first element with the property. -/
theorem pick_filter {last : Option κ} {l : List α} (hs : l.Pairwise fun a b => key a ≤ key b)
    (hlast : ∀ k ∈ last, ∀ a ∈ l, k ≤ key a) (k : κ) :
    (pick key p last l).filter (fun a => key a = k) =
      if last = some k then [] else ((l.filter fun a => key a = k).find? p).toList := by
  induction l generalizing last with
  | nil => simp [pick]
  | cons a l ih =>
    rw [List.pairwise_cons] at hs
    have hnone (hk : key a ≠ k) (hle : k ≤ key a) : l.filter (fun b => key b = k) = [] := by
      rw [List.filter_eq_nil_iff]
      intro b hb he
      have hle' := hs.1 b hb
      rw [of_decide_eq_true he] at hle'
      exact hk (le_antisymm hle' hle)
    have hrest := @ih last hs.2 fun k hk b hb => hlast k hk b (by simp [hb])
    have htaken := @ih (some (key a)) hs.2 fun k hk b hb => by
      obtain rfl := Option.some.inj hk
      exact hs.1 b hb
    by_cases hk : key a = k
    · subst hk
      rw [List.filter_cons_of_pos (by simp)]
      by_cases hl : last = some (key a)
      · rw [pick, if_neg (fun h => h.2 hl), hrest, if_pos hl, if_pos hl]
      · rw [if_neg hl]
        by_cases hp : p a = true
        · rw [pick, if_pos ⟨hp, hl⟩, List.filter_cons_of_pos (by simp), htaken, if_pos rfl,
            List.find?_cons_of_pos hp, Option.toList_some]
        · rw [pick, if_neg (fun h => hp h.1), hrest, if_neg hl, List.find?_cons_of_neg hp]
    · rw [List.filter_cons_of_neg (by simpa using hk)]
      by_cases h : p a = true ∧ last ≠ some (key a)
      · rw [pick, if_pos h, List.filter_cons_of_neg (by simpa using hk), htaken,
          if_neg fun he => hk (Option.some.inj he)]
        split_ifs with hl
        · rw [hnone hk (hlast k hl a (by simp))]
          rfl
        · rfl
      · rw [pick, if_neg h, hrest]

/-- An element with nothing of `p` before it is the first of `p`. -/
theorem find?_eq_some_of_pairwise {q : α → Prop} {p : α → Bool} {l : List α} {a : α}
    (h : l.Pairwise fun b c => q c → p b = false) (ha : a ∈ l) (hp : p a = true) (hq : q a) :
    l.find? p = some a := by
  induction l with
  | nil => cases ha
  | cons b l ih =>
    rw [List.pairwise_cons] at h
    rcases List.mem_cons.mp ha with rfl | ha
    · exact List.find?_cons_of_pos hp
    · rw [List.find?_cons_of_neg (by simp [h.1 a ha hq])]
      exact ih h.2 ha

/-- A narrower property that holds of the first element of the wider one has the same first element. -/
theorem find?_eq_of_first {p q : α → Bool} {l : List α} (hqp : ∀ a ∈ l, q a = true → p a = true)
    (hfirst : ∀ a, l.find? p = some a → q a = true) : l.find? q = l.find? p := by
  induction l with
  | nil => rfl
  | cons a l ih =>
    by_cases hp : p a = true
    · rw [List.find?_cons_of_pos hp] at hfirst ⊢
      exact List.find?_cons_of_pos (hfirst a rfl)
    · rw [List.find?_cons_of_neg hp] at hfirst ⊢
      rw [List.find?_cons_of_neg fun hq => hp (hqp a List.mem_cons_self hq)]
      exact ih (fun b hb => hqp b (List.mem_cons_of_mem _ hb)) hfirst

/-- The keys of what the pass takes are distinct and in order. -/
theorem pick_ascending {last : Option κ} {l : List α} (hs : l.Pairwise fun a b => key a ≤ key b)
    (hlast : ∀ k ∈ last, ∀ a ∈ l, k ≤ key a) :
    (pick key p last l).Pairwise (fun a b => key a < key b) ∧ ∀ k ∈ last, ∀ a ∈ pick key p last l, k < key a := by
  induction l generalizing last with
  | nil => simp [pick]
  | cons a l ih =>
    rw [List.pairwise_cons] at hs
    rw [pick]
    split_ifs with h
    · obtain ⟨h1, h2⟩ := @ih (some (key a)) hs.2 fun k hk b hb => by
        obtain rfl := Option.some.inj hk
        exact hs.1 b hb
      refine ⟨List.pairwise_cons.mpr ⟨h2 _ rfl, h1⟩, ?_⟩
      intro k hk b hb
      have hlt : k < key a := lt_of_le_of_ne (hlast k hk a (by simp)) fun he => h.2 (he ▸ hk)
      rcases List.mem_cons.mp hb with rfl | hb
      · exact hlt
      · exact hlt.trans (h2 _ rfl b hb)
    · exact ih hs.2 fun k hk b hb => hlast k hk b (by simp [hb])

end FirstOf
