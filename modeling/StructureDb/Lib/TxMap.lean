import Mathlib.Data.List.Basic
import Mathlib.Tactic

/-! A map read and written by transactions, given by its history, newest event
first: a transaction reads its own last write, or else that of the most recently
committed transaction that wrote the key. -/

namespace TxMap

inductive Event (L K P : Type)
  | write (h : L) (k : K) (p : P)
  | commit (h : L)
  | rollback (h : L)
deriving DecidableEq

variable {L K P : Type}

def Event.label : Event L K P → L
  | .write h _ _ => h
  | .commit h => h
  | .rollback h => h

/-- The events since the history was `old`. -/
def since (old hist : List (Event L K P)) : List (Event L K P) := hist.take (hist.length - old.length)

@[simp] theorem since_append (new old : List (Event L K P)) : since old (new ++ old) = new := by
  simp [since]

variable [DecidableEq L] [DecidableEq K]

/-- What `h` last wrote to `k`. -/
def own (h : L) (k : K) : List (Event L K P) → Option P
  | [] => none
  | .write h' k' p :: rest => if h' = h ∧ k' = k then some p else own h k rest
  | .commit _ :: rest => own h k rest
  | .rollback _ :: rest => own h k rest

/-- What the most recently committed writer of `k` last wrote to it. -/
def committed (k : K) : List (Event L K P) → Option P
  | [] => none
  | .write _ _ _ :: rest => committed k rest
  | .commit h :: rest => (own h k rest).or (committed k rest)
  | .rollback _ :: rest => committed k rest

def read (h : L) (k : K) (hist : List (Event L K P)) : Option P := (own h k hist).or (committed k hist)

variable {h T : L} {k : K} {hist : List (Event L K P)}

@[simp] theorem own_write_self (p : P) : own h k (.write h k p :: hist) = some p := by simp [own]

theorem own_write_of_ne {h' : L} {k' : K} (p : P) (hne : ¬(h' = h ∧ k' = k)) :
    own h k (.write h' k' p :: hist) = own h k hist := by rw [own, if_neg hne]

/-- A transaction without events has written nothing. -/
theorem own_eq_none (hh : ∀ e ∈ hist, e.label ≠ h) : own h k hist = none := by
  induction hist with
  | nil => rfl
  | cons e hist ih =>
    have ih := ih fun e' he' => hh e' (List.mem_cons_of_mem _ he')
    cases e with
    | write g k' p =>
      have hg : g ≠ h := hh (.write g k' p) List.mem_cons_self
      rw [own_write_of_ne p fun hc => hg hc.1, ih]
    | commit g => exact ih
    | rollback g => exact ih

@[simp] theorem committed_write (g : L) (k' : K) (p : P) : committed k (.write g k' p :: hist) = committed k hist := rfl

@[simp] theorem committed_rollback (g : L) : committed k (.rollback g :: hist) = committed k hist := rfl

/-- A commit makes public what the transaction itself would read. -/
theorem committed_commit (g : L) : committed k (.commit g :: hist) = read g k hist := rfl

/-- What was committed when the history was `old`, overlaid with what `h` wrote. -/
def snapshot (h : L) (k : K) (old hist : List (Event L K P)) : Option P := (own h k hist).or (committed k old)

/-- `h` wrote `k` itself, or no transaction that has committed since wrote it. -/
def Undisturbed (h : L) (k : K) (old hist : List (Event L K P)) : Prop :=
  own h k hist ≠ none ∨ ∀ e ∈ since old hist, e = .commit e.label → own e.label k hist = none

instance [DecidableEq P] (h : L) (k : K) (old hist : List (Event L K P)) : Decidable (Undisturbed h k old hist) :=
  inferInstanceAs (Decidable (_ ∨ _))

theorem own_eq_none_of_cons {e : Event L K P} (hn : own h k (e :: hist) = none) : own h k hist = none := by
  cases e with
  | write g k' p =>
    rw [own] at hn
    split_ifs at hn
    exact hn
  | commit g => exact hn
  | rollback g => exact hn

theorem own_append_ne_none {new : List (Event L K P)} (ho : own h k hist ≠ none) : own h k (new ++ hist) ≠ none := by
  induction new with
  | nil => exact ho
  | cons e new ih => exact fun hn => ih (own_eq_none_of_cons hn)

/-- A transaction that has written a key has a last write to it. -/
theorem own_ne_none_of_mem {p : P} (hm : .write h k p ∈ hist) : own h k hist ≠ none := by
  induction hist with
  | nil => cases hm
  | cons e hist ih =>
    intro hn
    rcases List.mem_cons.mp hm with rfl | hm
    · rw [own_write_self] at hn
      cases hn
    · exact ih hm (own_eq_none_of_cons hn)

theorem mem_of_own {p : P} (ho : own h k hist = some p) : .write h k p ∈ hist := by
  induction hist with
  | nil => cases ho
  | cons e hist ih =>
    cases e with
    | write g k' q =>
      rw [own] at ho
      split_ifs at ho with hself
      · obtain ⟨rfl, rfl⟩ := hself
        cases ho
        exact List.mem_cons_self
      · exact List.mem_cons_of_mem _ (ih ho)
    | commit g => exact List.mem_cons_of_mem _ (ih ho)
    | rollback g => exact List.mem_cons_of_mem _ (ih ho)

theorem mem_of_committed {p : P} (hc : committed k hist = some p) : ∃ g, .commit g ∈ hist ∧ .write g k p ∈ hist := by
  have hlift {e : Event L K P} {hist : List (Event L K P)} (hm : ∃ g, .commit g ∈ hist ∧ .write g k p ∈ hist) :
      ∃ g, .commit g ∈ e :: hist ∧ .write g k p ∈ e :: hist :=
    hm.imp fun _ hg => ⟨List.mem_cons_of_mem _ hg.1, List.mem_cons_of_mem _ hg.2⟩
  induction hist with
  | nil => cases hc
  | cons e hist ih =>
    cases e with
    | write g k' q => exact hlift (ih hc)
    | commit g =>
      rw [committed_commit, read, Option.or_eq_some_iff] at hc
      rcases hc with hown | ⟨-, hc⟩
      · exact ⟨g, List.mem_cons_self, List.mem_cons_of_mem _ (mem_of_own hown)⟩
      · exact hlift (ih hc)
    | rollback g => exact hlift (ih hc)

/-- What is read was written by the reader itself or by a committed transaction. -/
theorem mem_of_read {p : P} (hr : read h k hist = some p) :
    ∃ g, (g = h ∨ .commit g ∈ hist) ∧ .write g k p ∈ hist := by
  rw [read, Option.or_eq_some_iff] at hr
  rcases hr with hown | ⟨-, hc⟩
  · exact ⟨h, .inl rfl, mem_of_own hown⟩
  · obtain ⟨g, hg, hm⟩ := mem_of_committed hc
    exact ⟨g, .inr hg, hm⟩

/-- Commits of transactions that did not write the key leave what is committed to it. -/
theorem committed_append {new old : List (Event L K P)}
    (hn : ∀ e ∈ new, e = .commit e.label → own e.label k (new ++ old) = none) :
    committed k (new ++ old) = committed k old := by
  induction new with
  | nil => rfl
  | cons e new ih =>
    have ih := ih fun e' he' hc => own_eq_none_of_cons (hn e' (List.mem_cons_of_mem _ he') hc)
    cases e with
    | write g k' p => exact ih
    | commit g =>
      have hg : own g k (new ++ old) = none := own_eq_none_of_cons (hn (.commit g) List.mem_cons_self rfl)
      rw [List.cons_append, committed_commit, read, hg, Option.none_or, ih]
    | rollback g => exact ih

theorem read_eq_snapshot {new old : List (Event L K P)} (hu : Undisturbed h k old (new ++ old)) :
    read h k (new ++ old) = snapshot h k old (new ++ old) := by
  rw [read, snapshot]
  rcases hu with hown | hn
  · obtain ⟨p, hp⟩ := Option.ne_none_iff_exists'.mp hown
    rw [hp, Option.some_or, Option.some_or]
  · rw [since_append] at hn
    rw [committed_append hn]

/-- The history with the events of one transaction left out. -/
def without (T : L) (hist : List (Event L K P)) : List (Event L K P) := hist.filter fun e => e.label ≠ T

theorem own_without (hne : h ≠ T) : own h k (without T hist) = own h k hist := by
  induction hist with
  | nil => rfl
  | cons e hist ih =>
    unfold without at ih ⊢
    by_cases he : e.label = T
    · rw [List.filter_cons_of_neg (by simp [he]), ih]
      cases e with
      | write g k' p =>
        have hg : g ≠ h := fun hg => hne (hg.symm.trans he)
        rw [own_write_of_ne p fun h' => hg h'.1]
      | commit g => rfl
      | rollback g => rfl
    · rw [List.filter_cons_of_pos (by simp [he])]
      cases e <;> simp only [own, ih]

/-- Leaving out a transaction that never committed changes nothing that is committed. -/
theorem committed_without (hT : .commit T ∉ hist) : committed k (without T hist) = committed k hist := by
  induction hist with
  | nil => rfl
  | cons e hist ih =>
    have ih := ih fun hm => hT (List.mem_cons_of_mem _ hm)
    by_cases he : e.label = T
    · have hskip : without T (e :: hist) = without T hist := List.filter_cons_of_neg (by simp [he])
      rw [hskip, ih]
      cases e with
      | write g k' p => rfl
      | commit g => exact absurd (he ▸ List.mem_cons_self) hT
      | rollback g => rfl
    · have hkeep : without T (e :: hist) = e :: without T hist := List.filter_cons_of_pos (by simp [he])
      rw [hkeep]
      cases e with
      | write g k' p => exact ih
      | commit g =>
        have hg : g ≠ T := he
        rw [committed_commit, committed_commit, read, read, ih, own_without hg]
      | rollback g => exact ih

end TxMap
