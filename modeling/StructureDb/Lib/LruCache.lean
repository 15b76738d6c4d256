import Mathlib.Data.List.Nodup
import Mathlib.Tactic

/-! A cache of bounded size in which the entry that was used last stands first and the last
entry is evicted, and what the calls so far say about its entries. -/

namespace Recency

variable {κ α : Type}

/-- A call with its result. A history of calls has the last one first. -/
inductive Call (κ α : Type)
  | put (k : κ) (a : α)
  | get (k : κ) (result : Option α)
  | contains (k : κ) (result : Bool)
  | clear

variable [DecidableEq κ]

/-- The keys that were put or found, since the last `clear`, the one that was used last first. -/
def touched : List (Call κ α) → List κ
  | [] => []
  | .put k _ :: history => k :: (touched history).filter fun k' => k' ≠ k
  | .get k (some _) :: history => k :: (touched history).filter fun k' => k' ≠ k
  | .get _ none :: history => touched history
  | .contains _ _ :: history => touched history
  | .clear :: _ => []

/-- What was put last for the key, since the last `clear`. -/
def lastPut (k : κ) : List (Call κ α) → Option α
  | [] => none
  | .put k' a :: history => if k' = k then some a else lastPut k history
  | .get _ _ :: history => lastPut k history
  | .contains _ _ :: history => lastPut k history
  | .clear :: _ => none

theorem nodup_touched (history : List (Call κ α)) : (touched history).Nodup := by
  have huse {history : List (Call κ α)} (k : κ) (ih : (touched history).Nodup) :
      (k :: (touched history).filter fun k' => k' ≠ k).Nodup :=
    List.nodup_cons.mpr ⟨by simp, ih.sublist List.filter_sublist⟩
  induction history with
  | nil => exact List.nodup_nil
  | cons call history ih =>
    cases call with
    | put k a => exact huse k ih
    | get k result =>
      cases result with
      | none => exact ih
      | some a => exact huse k ih
    | contains k result => exact ih
    | clear => exact List.nodup_nil

/-- In a list with distinct keys every entry is found. -/
theorem lookup_of_mem {l : List (κ × α)} (hnodup : (l.map Prod.fst).Nodup) {k : κ} {a : α} (h : (k, a) ∈ l) :
    l.lookup k = some a := by
  induction l with
  | nil => cases h
  | cons e l ih =>
    rw [List.map_cons, List.nodup_cons] at hnodup
    rcases List.mem_cons.mp h with rfl | h
    · exact List.lookup_cons_self
    · have hne : k ≠ e.1 := by
        intro he
        exact hnodup.1 (List.mem_map.mpr ⟨(k, a), h, he⟩)
      rw [List.lookup_cons, beq_false_of_ne hne]
      exact ih hnodup.2 h

/-- Only one key is taken out, so the first `n` are those among the first `n + 1`. -/
theorem take_filter_ne {keys : List κ} (hnodup : keys.Nodup) (n : ℕ) (k : κ) :
    (((keys.take (n + 1)).filter fun k' => k' ≠ k).take n) = (keys.filter fun k' => k' ≠ k).take n := by
  induction keys generalizing n with
  | nil => simp
  | cons x keys ih =>
    rw [List.nodup_cons] at hnodup
    rw [List.take_succ_cons]
    by_cases hx : x = k
    · have hk : ∀ k' ∈ keys, decide (k' ≠ k) = true := by
        intro k' hk'
        rw [decide_eq_true_eq]
        rintro rfl
        exact hnodup.1 (hx ▸ hk')
      rw [List.filter_cons_of_neg (by simp [hx]), List.filter_cons_of_neg (by simp [hx]), List.filter_eq_self.mpr hk,
        List.filter_eq_self.mpr fun k' hk' => hk k' (List.mem_of_mem_take hk'), List.take_take, min_self]
    · rw [List.filter_cons_of_pos (by simpa using hx), List.filter_cons_of_pos (by simpa using hx)]
      cases n with
      | zero => rfl
      | succ n => rw [List.take_succ_cons, List.take_succ_cons, ih hnodup.2]

end Recency

structure LruCache (κ α : Type) where
  capacity : ℕ
  entries : List (κ × α)
  nodup : (entries.map Prod.fst).Nodup
  bounded : entries.length ≤ capacity

namespace LruCache

variable {κ α : Type}

def empty (capacity : ℕ) : LruCache κ α := ⟨capacity, [], List.nodup_nil, Nat.zero_le _⟩

/-- Every entry is as it should be. -/
def Holds (P : κ → α → Prop) (c : LruCache κ α) : Prop := ∀ e ∈ c.entries, P e.1 e.2

theorem Holds.empty (P : κ → α → Prop) (capacity : ℕ) : (LruCache.empty capacity).Holds P := fun _ he => nomatch he

variable [DecidableEq κ]

/-- The entry of the key stands first; what exceeds the capacity is evicted. If the key had an entry already, or the
cache keeps nothing, that is nothing else. -/
def put (c : LruCache κ α) (k : κ) (a : α) : LruCache κ α where
  capacity := c.capacity
  entries := ((k, a) :: c.entries.filter fun e => e.1 ≠ k).take c.capacity
  nodup := by
    refine List.Nodup.sublist ((List.take_sublist _ _).map Prod.fst) ?_
    rw [List.map_cons, List.nodup_cons]
    exact ⟨by simp, c.nodup.sublist (List.filter_sublist.map Prod.fst)⟩
  bounded := by
    rw [List.length_take]
    exact min_le_left _ _

/-- A hit is used last. -/
def get (c : LruCache κ α) (k : κ) : Option (α × LruCache κ α) := (c.entries.lookup k).map fun a => (a, c.put k a)

variable {P : κ → α → Prop} {c : LruCache κ α}

theorem Holds.put (h : c.Holds P) {k : κ} {a : α} (ha : P k a) : (c.put k a).Holds P := by
  intro e he
  rcases List.mem_cons.mp (List.mem_of_mem_take he) with rfl | he
  · exact ha
  · exact h e (List.mem_filter.mp he).1

theorem Holds.get (h : c.Holds P) {k : κ} {a : α} {c' : LruCache κ α} (hg : c.get k = some (a, c')) :
    P k a ∧ c'.Holds P := by
  obtain ⟨b, hb, he⟩ := Option.map_eq_some_iff.mp hg
  cases he
  obtain ⟨l₁, l₂, hl, -⟩ := List.lookup_eq_some_iff.mp hb
  have ha : P k a := h (k, a) (by rw [hl]; simp)
  exact ⟨ha, h.put ha⟩
open Recency

/-- The entries are those of the keys that were used last, with what was put last. -/
structure Recent (c : LruCache κ α) (history : List (Call κ α)) : Prop where
  keys : c.entries.map Prod.fst = (touched history).take c.capacity
  values : ∀ e ∈ c.entries, lastPut e.1 history = some e.2

namespace Recent

variable {history history' : List (Call κ α)} {k : κ} {a : α}

theorem empty (capacity : ℕ) : (LruCache.empty capacity : LruCache κ α).Recent [] :=
  ⟨by simp [LruCache.empty, touched], fun _ he => nomatch he⟩

theorem clear (history : List (Call κ α)) (capacity : ℕ) :
    (LruCache.empty capacity : LruCache κ α).Recent (.clear :: history) :=
  ⟨by simp [LruCache.empty, touched], fun _ he => nomatch he⟩

/-- The key comes first, however the history says so. -/
theorem use (h : c.Recent history) (hkeys : touched history' = k :: (touched history).filter fun k' => k' ≠ k)
    (hself : lastPut k history' = some a) (hother : ∀ k', k' ≠ k → lastPut k' history' = lastPut k' history) :
    (c.put k a).Recent history' := by
  refine ⟨?_, ?_⟩
  · have hfilter : ((c.entries.filter fun e => e.1 ≠ k).map Prod.fst) =
        ((touched history).take c.capacity).filter fun k' => k' ≠ k := by
      rw [← h.keys, List.filter_map]
      rfl
    rw [hkeys, LruCache.put, List.map_take, List.map_cons, hfilter]
    cases hcapacity : c.capacity with
    | zero => rfl
    | succ n => rw [List.take_succ_cons, List.take_succ_cons, take_filter_ne (nodup_touched history)]
  · intro e he
    rcases List.mem_cons.mp (List.mem_of_mem_take he) with rfl | he
    · exact hself
    · obtain ⟨he, hne⟩ := List.mem_filter.mp he
      rw [hother e.1 (by simpa using hne)]
      exact h.values e he

theorem put (h : c.Recent history) (k : κ) (a : α) : (c.put k a).Recent (.put k a :: history) :=
  h.use rfl (by simp [lastPut]) fun k' hk' => by rw [lastPut, if_neg (Ne.symm hk')]

theorem hit (h : c.Recent history) (hl : c.entries.lookup k = some a) :
    (c.put k a).Recent (.get k (some a) :: history) := by
  have hlast : lastPut k history = some a := by
    obtain ⟨l₁, l₂, hentries, -⟩ := List.lookup_eq_some_iff.mp hl
    exact h.values (k, a) (by rw [hentries]; simp)
  exact h.use rfl hlast fun _ _ => rfl

end Recent

end LruCache
