import Mathlib.Data.List.Basic
import Mathlib.Tactic

/-! Lists split at one of their elements, and lists whose elements carry the numbers of their
places. -/

namespace Splits

variable {α : Type}

/-- An element of a list with one more at the end is the last one, or it is in the list. -/
theorem concat_eq_append_cons {es pre post : List α} {e x : α} (h : es ++ [e] = pre ++ x :: post) :
    (e = x ∧ es = pre ∧ post = []) ∨ ∃ post', es = pre ++ x :: post' := by
  rcases List.eq_nil_or_concat post with rfl | ⟨post', e', rfl⟩
  · obtain ⟨rfl, he⟩ := List.append_inj' h rfl
    exact Or.inl ⟨List.singleton_inj.mp he, rfl, rfl⟩
  · rw [List.concat_eq_append, ← List.cons_append, ← List.append_assoc] at h
    exact Or.inr ⟨post', (List.append_inj' h rfl).1⟩

/-- The element at a place, and what a change of it does. -/
theorem of_getElem? {l : List α} {i : ℕ} {x : α} (h : l[i]? = some x) :
    ∃ pre post, l = pre ++ x :: post ∧ ∀ y, l.set i y = pre ++ y :: post := by
  obtain ⟨hi, rfl⟩ := List.getElem?_eq_some_iff.mp h
  refine ⟨l.take i, l.drop (i + 1), ?_, ?_⟩
  · rw [← List.drop_eq_getElem_cons hi, List.take_append_drop]
  · intro y
    rw [List.set_eq_take_append_cons_drop, if_pos hi]

/-- The elements have the numbers of their places. -/
def Numbered (f : α → ℕ) (l : List α) : Prop := l.map f = List.range l.length

namespace Numbered

variable {f : α → ℕ} {l pre post : List α} {x y : α}

theorem concat (h : Numbered f l) (hx : f x = l.length) : Numbered f (l ++ [x]) := by
  rw [Numbered, List.map_append, h, List.length_append, List.length_singleton, List.range_succ, List.map_singleton, hx]

/-- Another element with the same number. -/
theorem splice (h : Numbered f (pre ++ x :: post)) (hy : f y = f x) : Numbered f (pre ++ y :: post) := by
  simp only [Numbered, List.map_append, List.map_cons, List.length_append, List.length_cons] at h ⊢
  rw [hy]
  exact h

/-- The others have other numbers. -/
theorem ne (h : Numbered f (pre ++ x :: post)) (hy : y ∈ pre ∨ y ∈ post) : f y ≠ f x := by
  have hnodup : ((pre ++ x :: post).map f).Nodup := by
    rw [h]
    exact List.nodup_range
  rw [List.map_append, List.map_cons, List.nodup_append] at hnodup
  obtain ⟨-, hcons, hacross⟩ := hnodup
  rcases hy with hy | hy
  · exact hacross _ (List.mem_map_of_mem hy) _ List.mem_cons_self
  · intro heq
    exact (List.nodup_cons.mp hcons).1 (heq ▸ List.mem_map_of_mem hy)

end Numbered

end Splits
