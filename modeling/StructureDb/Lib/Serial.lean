import StructureDb.Lib.TxMap

/-! The history in which the committed transactions come one after another, in the order of their
commits, each with its writes. Nothing that is committed differs from it. -/

namespace TxMap

variable {L K P : Type} [DecidableEq L]

def Event.isWriteOf (h : L) : Event L K P → Bool
  | .write g _ _ => g = h
  | .commit _ => false
  | .rollback _ => false

/-- The writes of one transaction. -/
def writesOf (h : L) (hist : List (Event L K P)) : List (Event L K P) := hist.filter fun e => e.isWriteOf h

/-- Each transaction makes all its writes right before its commit; what was not committed is left out. -/
def serial : List (Event L K P) → List (Event L K P)
  | [] => []
  | .write _ _ _ :: rest => serial rest
  | .commit h :: rest => .commit h :: (writesOf h rest ++ serial rest)
  | .rollback _ :: rest => serial rest

variable [DecidableEq K] {h g : L} {k : K} {hist old : List (Event L K P)}

theorem own_writesOf_self (h : L) (k : K) (hist old : List (Event L K P)) :
    own h k (writesOf h hist ++ old) = (own h k hist).or (own h k old) := by
  induction hist with
  | nil => rfl
  | cons e hist ih =>
    unfold writesOf at ih ⊢
    cases e with
    | write g k' p =>
      by_cases hg : g = h
      · subst hg
        rw [List.filter_cons_of_pos (by simp [Event.isWriteOf]), List.cons_append, own, own, ih]
        split_ifs
        · rfl
        · rfl
      · rw [List.filter_cons_of_neg (by simp [Event.isWriteOf, hg]), ih, own_write_of_ne p fun hc => hg hc.1]
    | commit g => exact ih
    | rollback g => exact ih

theorem own_writesOf_of_ne (hne : g ≠ h) : own h k (writesOf g hist ++ old) = own h k old := by
  induction hist with
  | nil => rfl
  | cons e hist ih =>
    unfold writesOf at ih ⊢
    cases e with
    | write g' k' p =>
      by_cases hg : g' = g
      · subst hg
        rw [List.filter_cons_of_pos (by simp [Event.isWriteOf]), List.cons_append,
          own_write_of_ne p fun hc => hne hc.1, ih]
      · rw [List.filter_cons_of_neg (by simp [Event.isWriteOf, hg]), ih]
    | commit g' => exact ih
    | rollback g' => exact ih

theorem committed_writesOf (g : L) (k : K) (hist old : List (Event L K P)) :
    committed k (writesOf g hist ++ old) = committed k old := by
  induction hist with
  | nil => rfl
  | cons e hist ih =>
    unfold writesOf at ih ⊢
    cases e with
    | write g' k' p =>
      by_cases hg : g' = g
      · rw [List.filter_cons_of_pos (by simp [Event.isWriteOf, hg]), List.cons_append, committed_write, ih]
      · rw [List.filter_cons_of_neg (by simp [Event.isWriteOf, hg]), ih]
    | commit g' => exact ih
    | rollback g' => exact ih

theorem own_serial (hn : own h k hist = none) : own h k (serial hist) = none := by
  induction hist with
  | nil => rfl
  | cons e hist ih =>
    have ih := ih (own_eq_none_of_cons hn)
    cases e with
    | write g k' p => exact ih
    | commit g =>
      rw [serial, own]
      by_cases hg : g = h
      · subst hg
        have hnone : own g k hist = none := hn
        rw [own_writesOf_self, hnone, ih, Option.none_or]
      · rw [own_writesOf_of_ne hg, ih]
    | rollback g => exact ih

theorem committed_serial (k : K) (hist : List (Event L K P)) : committed k (serial hist) = committed k hist := by
  induction hist with
  | nil => rfl
  | cons e hist ih =>
    cases e with
    | write g k' p => exact ih
    | commit g =>
      rw [serial, committed, committed, committed_writesOf, ih, own_writesOf_self]
      rcases hown : own g k hist with _ | p
      · rw [own_serial hown, Option.none_or]
      · rw [Option.some_or]
    | rollback g => exact ih

end TxMap
