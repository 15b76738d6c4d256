import Mathlib.Data.List.Sort
import Mathlib.Data.List.Perm.Basic
import Mathlib.Tactic

/-! Merging sorted sequences with a heap that keeps one lookahead element per
live input, and cutting a range out of one sorted sequence. -/

namespace KMerge

variable {α : Type*}

/-- On a list where `p` never comes back once it has failed, `dropWhile` is a filter. -/
theorem dropWhile_eq_filter {p : α → Bool} {l : List α}
    (h : l.Pairwise fun a b => p b = true → p a = true) : l.dropWhile p = l.filter fun a => !p a := by
  induction l with
  | nil => rfl
  | cons a l ih =>
    rw [List.pairwise_cons] at h
    by_cases ha : p a = true
    · rw [List.dropWhile_cons_of_pos ha, ih h.2, List.filter_cons_of_neg (by simp [ha])]
    · rw [List.dropWhile_cons_of_neg ha, List.filter_cons_of_pos (by simp [ha])]
      refine congrArg _ (List.filter_eq_self.mpr fun b hb => ?_).symm
      have := h.1 b hb
      simp_all

theorem takeWhile_eq_filter {p : α → Bool} {l : List α}
    (h : l.Pairwise fun a b => p b = true → p a = true) : l.takeWhile p = l.filter p := by
  induction l with
  | nil => rfl
  | cons a l ih =>
    rw [List.pairwise_cons] at h
    by_cases ha : p a = true
    · rw [List.takeWhile_cons_of_pos ha, ih h.2, List.filter_cons_of_pos ha]
    · rw [List.takeWhile_cons_of_neg ha, List.filter_cons_of_neg ha]
      refine (List.filter_eq_nil_iff.mpr fun b hb hpb => ha (h.1 b hb hpb)).symm

/-- An item is an input's lookahead element with what the input has left. -/
abbrev Heap (α : Type*) := List (α × List α)

/-- Take the lookahead of an input that is not exhausted. -/
def add (h : Heap α) : List α → Heap α
  | [] => h
  | x :: xs => (x, xs) :: h

/-- Everything the heap will still deliver. -/
def contents (h : Heap α) : List α := h.flatMap fun i => i.1 :: i.2

theorem contents_cons (i : α × List α) (h : Heap α) : contents (i :: h) = i.1 :: i.2 ++ contents h :=
  List.flatMap_cons

theorem contents_add (h : Heap α) (it : List α) : (contents (add h it)).Perm (it ++ contents h) := by
  cases it with
  | nil => exact List.Perm.refl _
  | cons x xs => rw [add, contents_cons]

theorem contents_perm {h h' : Heap α} (hp : h.Perm h') : (contents h).Perm (contents h') :=
  hp.flatMap_right _

theorem contents_foldl_add (its : List (List α)) (h : Heap α) :
    (contents (its.foldl add h)).Perm (its.flatten ++ contents h) := by
  induction its generalizing h with
  | nil => exact List.Perm.refl _
  | cons it its ih =>
    rw [List.foldl_cons, List.flatten_cons, List.append_assoc]
    refine (ih (add h it)).trans (((contents_add h it).append_left _).trans ?_)
    exact List.perm_append_comm_assoc _ _ _

variable [LinearOrder α]

variable {β : Type*}

/-- Remove an item with the least lookahead, whatever stands for the rest of its input. -/
def pop : List (α × β) → Option ((α × β) × List (α × β))
  | [] => none
  | x :: h =>
    match pop h with
    | none => some (x, [])
    | some (y, h') => if y.1 < x.1 then some (y, x :: h') else some (x, h)

/-- Pop `n` times, refilling from the input just popped. -/
def drain : ℕ → Heap α → List α
  | 0, _ => []
  | n + 1, h =>
    match pop h with
    | none => []
    | some (x, h') => x.1 :: drain n (add h' x.2)

def merge (its : List (List α)) : List α := drain its.flatten.length (its.foldl add [])

theorem pop_eq_none {h : List (α × β)} : pop h = none ↔ h = [] := by
  cases h with
  | nil => simp [pop]
  | cons x h =>
    simp only [pop]
    split
    · simp
    · split_ifs <;> simp

theorem pop_perm {h h' : List (α × β)} {x : α × β} (hp : pop h = some (x, h')) : h.Perm (x :: h') := by
  induction h generalizing x h' with
  | nil => simp [pop] at hp
  | cons y h ih =>
    simp only [pop] at hp
    split at hp
    next hn =>
      obtain rfl := pop_eq_none.mp hn
      cases hp
      exact List.Perm.refl _
    next z t hs =>
      split_ifs at hp with hlt
      · cases hp
        exact ((ih hs).cons y).trans (List.Perm.swap _ _ _)
      · cases hp
        exact List.Perm.refl _

theorem pop_le {h h' : List (α × β)} {x : α × β} (hp : pop h = some (x, h')) : ∀ i ∈ h, x.1 ≤ i.1 := by
  induction h generalizing x h' with
  | nil => simp
  | cons y h ih =>
    simp only [pop] at hp
    split at hp
    next hn =>
      obtain rfl := pop_eq_none.mp hn
      cases hp
      simp
    next z t hs =>
      have hz := ih hs
      split_ifs at hp with hlt
      · cases hp
        exact List.forall_mem_cons.mpr ⟨hlt.le, hz⟩
      · cases hp
        exact List.forall_mem_cons.mpr ⟨le_rfl, fun i hi => (not_lt.mp hlt).trans (hz i hi)⟩

/-- Two heaps whose items correspond, with the same lookaheads, are popped alike. -/
theorem pop_forall₂ {γ : Type*} {R : α × β → α × γ → Prop} (hR : ∀ i j, R i j → i.1 = j.1)
    {h : List (α × β)} {g : List (α × γ)} (hh : List.Forall₂ R h g) {x : α × β} {h' : List (α × β)}
    (hp : pop h = some (x, h')) :
    ∃ y g', pop g = some (y, g') ∧ R x y ∧ List.Forall₂ R h' g' := by
  induction hh generalizing x h' with
  | nil => cases hp
  | @cons i j h g hij hh ih =>
    rw [pop] at hp ⊢
    cases hph : pop h with
    | none =>
      rw [hph] at hp
      cases hp
      obtain rfl := pop_eq_none.mp hph
      obtain rfl := List.forall₂_nil_left_iff.mp hh
      exact ⟨j, [], rfl, hij, hh⟩
    | some z =>
      rw [hph] at hp
      obtain ⟨y, g', hpg, hzy, hrest⟩ := ih hph
      rw [hpg]
      dsimp only at hp ⊢
      rw [← hR _ _ hij, ← hR _ _ hzy]
      split_ifs at hp ⊢ with hlt
      · cases hp
        exact ⟨y, j :: g', rfl, hzy, .cons hij hrest⟩
      · cases hp
        exact ⟨j, g, rfl, hij, hh⟩

theorem drain_perm (n : ℕ) (h : Heap α) (hn : (contents h).length ≤ n) : (drain n h).Perm (contents h) := by
  induction n generalizing h with
  | zero =>
    rw [List.eq_nil_of_length_eq_zero (Nat.le_zero.mp hn)]
    exact List.Perm.refl _
  | succ n ih =>
    simp only [drain]
    split
    next hp =>
      rw [pop_eq_none.mp hp]
      exact List.Perm.refl _
    next x h' hp =>
      have h1 := contents_perm (pop_perm hp)
      rw [contents_cons] at h1
      have h2 := contents_add h' x.2
      have hl : (contents (add h' x.2)).length ≤ n := by
        have e1 := h1.length_eq
        have e2 := h2.length_eq
        simp only [List.cons_append, List.length_cons] at e1
        omega
      exact (((ih _ hl).trans h2).cons x.1).trans h1.symm

/-- Every input of the heap is sorted from its lookahead on. -/
def Sorted (h : Heap α) : Prop := ∀ i ∈ h, (i.1 :: i.2).Pairwise (· ≤ ·)

theorem sorted_add {h : Heap α} {it : List α} (hh : Sorted h) (hit : it.Pairwise (· ≤ ·)) :
    Sorted (add h it) := by
  cases it with
  | nil => exact hh
  | cons x xs => exact List.forall_mem_cons.mpr ⟨hit, hh⟩

theorem le_contents {h : Heap α} {x : α} (hh : Sorted h) (hx : ∀ i ∈ h, x ≤ i.1) :
    ∀ y ∈ contents h, x ≤ y := by
  intro y hy
  obtain ⟨i, hi, hy⟩ := List.mem_flatMap.mp hy
  rcases List.mem_cons.mp hy with rfl | hy
  · exact hx i hi
  · exact (hx i hi).trans ((List.pairwise_cons.mp (hh i hi)).1 y hy)

theorem drain_mem (n : ℕ) (h : Heap α) : ∀ y ∈ drain n h, y ∈ contents h := by
  induction n generalizing h with
  | zero => simp [drain]
  | succ n ih =>
    intro y hy
    simp only [drain] at hy
    split at hy
    next => simp at hy
    next x h' hp =>
      have h1 := contents_perm (pop_perm hp)
      rw [contents_cons] at h1
      refine h1.symm.subset ?_
      rcases List.mem_cons.mp hy with rfl | hy
      · simp
      · exact List.mem_cons_of_mem _ ((contents_add h' x.2).subset (ih _ y hy))

theorem drain_sorted (n : ℕ) (h : Heap α) (hh : Sorted h) : (drain n h).Pairwise (· ≤ ·) := by
  induction n generalizing h with
  | zero => simp [drain]
  | succ n ih =>
    simp only [drain]
    split
    next => simp
    next x h' hp =>
      have hperm := pop_perm hp
      have hx := hh x (hperm.symm.subset (by simp))
      have hh' : Sorted h' := fun i hi => hh i (hperm.symm.subset (by simp [hi]))
      refine List.pairwise_cons.mpr ⟨fun y hy => ?_, ih _ (sorted_add hh' (List.pairwise_cons.mp hx).2)⟩
      -- what is left is the popped input's tail and the other inputs, all at or above the minimum
      rcases List.mem_append.mp ((contents_add h' x.2).subset (drain_mem n _ y hy)) with hy | hy
      · exact (List.pairwise_cons.mp hx).1 y hy
      · exact le_contents hh' (fun i hi => pop_le hp i (hperm.symm.subset (by simp [hi]))) y hy

theorem merge_perm (its : List (List α)) : (merge its).Perm its.flatten := by
  have h : (contents (its.foldl add [])).Perm its.flatten := by
    simpa [contents] using contents_foldl_add its []
  exact (drain_perm _ _ h.length_eq.le).trans h

theorem sorted_foldl_add (its : List (List α)) (h : Heap α) (hh : Sorted h)
    (hits : ∀ it ∈ its, it.Pairwise (· ≤ ·)) : Sorted (its.foldl add h) := by
  induction its generalizing h with
  | nil => exact hh
  | cons it its ih =>
    exact ih _ (sorted_add hh (hits it (by simp))) (fun i hi => hits i (by simp [hi]))

theorem merge_sorted (its : List (List α)) (hits : ∀ it ∈ its, it.Pairwise (· ≤ ·)) :
    (merge its).Pairwise (· ≤ ·) :=
  drain_sorted _ _ (sorted_foldl_add its [] (by simp [Sorted]) hits)

/-- Merging sorted inputs is sorting: a sorted list with the same elements is the result. -/
theorem merge_eq {its : List (List α)} {l : List α} (hits : ∀ it ∈ its, it.Pairwise (· ≤ ·))
    (hl : l.Pairwise (· ≤ ·)) (hp : l.Perm its.flatten) : merge its = l :=
  ((merge_perm its).trans hp.symm).eq_of_pairwise (fun _ _ _ _ => le_antisymm) (merge_sorted its hits) hl

end KMerge
