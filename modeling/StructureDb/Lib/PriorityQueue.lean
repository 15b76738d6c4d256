import StructureDb.Lib.Merge

/-! Cursors over finite sequences, and priority queues: whatever keeps its elements and hands out
one that is not less than any other. Which one of several that are equal is left open. -/

/-- What is read element by element. `next` fails where there is nothing left. -/
structure Cursor (σ α : Type*) where
  hasMore : σ → Bool
  next : σ → Option (α × σ)

namespace Cursor

variable {σ α : Type*}

/-- Reading until `hasMore` is false gives this list. -/
def Yields (c : Cursor σ α) : σ → List α → Prop
  | s, [] => c.hasMore s = false
  | s, a :: l => c.hasMore s = true ∧ ∃ s', c.next s = some (a, s') ∧ c.Yields s' l

/-- A list is read from its head. -/
def ofList : Cursor (List α) α where
  hasMore l := !l.isEmpty
  next
    | [] => none
    | a :: l => some (a, l)

theorem ofList_yields (l : List α) : ofList.Yields l l := by
  induction l with
  | nil => rfl
  | cons a l ih => exact ⟨rfl, l, rfl, ih⟩

end Cursor

/-- A priority queue for the order `lt`, by what it contains. -/
structure PriorityQueue (Q : Type*) (α : Type*) (lt : α → α → Prop) where
  empty : Q
  push : Q → α → Q
  pop : Q → Option (α × Q)
  items : Q → List α
  items_empty : items empty = []
  items_push : ∀ q a, (items (push q a)).Perm (a :: items q)
  pop_none : ∀ q, pop q = none → items q = []
  pop_some : ∀ q a q', pop q = some (a, q') → (items q).Perm (a :: items q') ∧ ∀ b ∈ items q, ¬ lt a b

namespace PriorityQueue

variable {Q α β : Type*} {lt : α → α → Prop}

theorem pop_isSome (P : PriorityQueue Q α lt) {q : Q} (h : P.items q ≠ []) : ∃ a q', P.pop q = some (a, q') := by
  cases hp : P.pop q with
  | none => exact absurd (P.pop_none q hp) h
  | some x => exact ⟨x.1, x.2, rfl⟩

/-- Elements with keys in a linear order, the one with the least key first, kept in a list. -/
def ofKey [LinearOrder β] (key : α → β) (hlt : ∀ a b, lt a b ↔ key b < key a) : PriorityQueue (List α) α lt where
  empty := []
  push q a := a :: q
  pop q := (KMerge.pop (q.map fun a => (key a, a))).map fun x => (x.1.2, x.2.map Prod.snd)
  items q := q
  items_empty := rfl
  items_push _ _ := List.Perm.refl _
  pop_none q h := by
    rw [Option.map_eq_none_iff, KMerge.pop_eq_none] at h
    exact List.map_eq_nil_iff.mp h
  pop_some q a q' h := by
    obtain ⟨⟨x, rest⟩, hp, he⟩ := Option.map_eq_some_iff.mp h
    cases he
    have hperm := KMerge.pop_perm hp
    have hsnd := hperm.map Prod.snd
    have hx : x ∈ q.map fun a => (key a, a) := hperm.symm.subset List.mem_cons_self
    obtain ⟨a, -, rfl⟩ := List.mem_map.mp hx
    rw [List.map_map] at hsnd
    refine ⟨by simpa [Function.comp_def] using hsnd, ?_⟩
    intro b hb hba
    rw [hlt] at hba
    exact absurd (KMerge.pop_le hp (key b, b) (List.mem_map_of_mem hb)) (not_le.mpr hba)

end PriorityQueue
