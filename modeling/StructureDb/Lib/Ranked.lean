import Mathlib.Data.List.Basic
import Mathlib.Logic.Relation
import Mathlib.Order.Basic
import Mathlib.Tactic

/-! Who waits for whom, where everybody waits for a key of a finite set and whoever has the key waits only for
greater ones: nobody waits for itself in the end, and behind everyone who waits stands one who does not. -/

namespace Ranked

variable {α κ : Type} [LinearOrder κ]

structure Ascending (r : α → α → Prop) (asks : α → κ → Prop) (keys : List κ) : Prop where
  mem : ∀ a k, asks a k → k ∈ keys
  edge : ∀ a b, r a b → ∃ k, asks a k ∧ ∀ k', asks b k' → k < k'
  next : ∀ a k, asks a k → ∃ b, r a b ∧ ∀ k', asks b k' → k < k'

variable {r : α → α → Prop} {asks : α → κ → Prop} {keys : List κ} {a b : α}

theorem Ascending.path (h : Ascending r asks keys) (hab : Relation.TransGen r a b) :
    ∃ k, asks a k ∧ ∀ k', asks b k' → k < k' := by
  induction hab with
  | single hab => exact h.edge a _ hab
  | tail _ hbc ih =>
    obtain ⟨k, hk, hbelow⟩ := ih
    obtain ⟨k', hk', hbelow'⟩ := h.edge _ _ hbc
    exact ⟨k, hk, fun k'' hk'' => (hbelow k' hk').trans (hbelow' k'' hk'')⟩

theorem Ascending.acyclic (h : Ascending r asks keys) : ¬Relation.TransGen r a a := by
  intro haa
  obtain ⟨k, hk, hbelow⟩ := h.path haa
  exact lt_irrefl k (hbelow k hk)

/-- The number of keys above one. -/
def above (keys : List κ) (k : κ) : ℕ := keys.countP fun k' => k < k'

theorem above_lt {k k' : κ} (hk' : k' ∈ keys) (h : k < k') : above keys k' < above keys k := by
  induction keys with
  | nil => cases hk'
  | cons x keys ih =>
    have hmono : above keys k' ≤ above keys k := by
      refine List.countP_mono_left fun y _ hy => ?_
      rw [decide_eq_true_eq] at hy ⊢
      exact h.trans hy
    unfold above at ih hmono ⊢
    rw [List.countP_cons, List.countP_cons]
    rcases List.mem_cons.mp hk' with rfl | hk'
    · rw [if_neg (by simp), if_pos (by simpa using h)]
      omega
    · have hlt := ih hk'
      have hle : (if decide (k' < x) = true then 1 else 0) ≤ if decide (k < x) = true then 1 else 0 := by
        by_cases hx : k' < x
        · rw [if_pos (by simpa using hx), if_pos (by simpa using h.trans hx)]
        · rw [if_neg (by simpa using hx)]
          exact Nat.zero_le _
      omega

theorem Ascending.exists_end (h : Ascending r asks keys) {k : κ} (hk : asks a k) :
    ∃ b, Relation.TransGen r a b ∧ ∀ k', ¬asks b k' := by
  induction hn : above keys k using Nat.strong_induction_on generalizing a k with
  | _ n ih =>
    obtain ⟨b, hab, hbelow⟩ := h.next a k hk
    by_cases hb : ∃ k', asks b k'
    · obtain ⟨k', hk'⟩ := hb
      have hlt : above keys k' < n := hn ▸ above_lt (h.mem b k' hk') (hbelow k' hk')
      obtain ⟨c, hbc, hc⟩ := ih _ hlt hk' rfl
      exact ⟨c, Relation.TransGen.head hab hbc, hc⟩
    · exact ⟨b, .single hab, not_exists.mp hb⟩

end Ranked
