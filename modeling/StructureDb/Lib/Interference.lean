import StructureDb.Lib.Coroutine

/-! One coroutine among others. While it waits, the others change the shared state within
`rely`; what it does itself stays within `guarantee` and keeps `inv`; `check` is known of
every operation that it does. `Sat` says that it ends in its postconditions whatever the
others do: the fold of these terms over the tree of its operations. -/

namespace Coroutine

variable {S Op B ε α β : Type} {Res : Op → Type}

structure Terms (S Op : Type) where
  inv : S → Prop
  check : S → Op → Prop
  rely : S → S → Prop
  guarantee : S → S → Prop

/-- What a coroutine may do to the shared state. -/
def Terms.Permits (E : Terms S Op) (s s' : S) : Prop := E.inv s' ∧ E.guarantee s s'

section
variable (K : Kernel S Res B)

/-- Every operation up to the next wait meets `C`. -/
def Kernel.RunMeets (C : S → Op → Prop) : S → Coro Res ε α → Prop
  | _, .ret _ => True
  | _, .raise _ => True
  | s, .call op k =>
    C s op ∧ match K.perform s op with
      | (s, .inl r) => Kernel.RunMeets C s (k r)
      | (_, .inr _) => True

/-- Every operation of the next step of a task meets `C`. -/
def Kernel.Meets (C : S → Op → Prop) (s : S) : Task Res B ε α → Prop
  | .ready c => K.RunMeets C s c
  | .suspended op b k =>
    C s op ∧ match K.wake s op b with
      | some (s, .inl r) => K.RunMeets C s (k r)
      | _ => True
  | .finished _ => True

instance Kernel.decidableRunMeets (C : S → Op → Prop) [∀ s op, Decidable (C s op)] :
    ∀ (s : S) (c : Coro Res ε α), Decidable (K.RunMeets C s c)
  | _, .ret _ => isTrue trivial
  | _, .raise _ => isTrue trivial
  | s, .call op k =>
    match h : K.perform s op with
    | (s', .inl r) =>
      have := Kernel.decidableRunMeets C s' (k r)
      decidable_of_iff (C s op ∧ K.RunMeets C s' (k r)) (by rw [Kernel.RunMeets, h])
    | (_, .inr _) => decidable_of_iff (C s op) (by rw [Kernel.RunMeets, h, and_true])

instance Kernel.decidableMeets (C : S → Op → Prop) [∀ s op, Decidable (C s op)] (s : S) :
    ∀ t : Task Res B ε α, Decidable (K.Meets C s t)
  | .ready c => Kernel.decidableRunMeets K C s c
  | .suspended op b k =>
    match h : K.wake s op b with
    | some (s', .inl r) => decidable_of_iff (C s op ∧ K.RunMeets C s' (k r)) (by rw [Kernel.Meets, h])
    | some (_, .inr _) => decidable_of_iff (C s op) (by rw [Kernel.Meets, h, and_true])
    | none => decidable_of_iff (C s op) (by rw [Kernel.Meets, h, and_true])
  | .finished _ => isTrue trivial

theorem Kernel.runMeets_of_forall {C : S → Op → Prop} (h : ∀ s op, C s op) (s : S) (c : Coro Res ε α) :
    K.RunMeets C s c := by
  induction c generalizing s with
  | ret a => trivial
  | raise e => trivial
  | call op k ih =>
    rw [Kernel.RunMeets]
    refine ⟨h s op, ?_⟩
    split
    · exact ih _ _
    · trivial

theorem Kernel.meets_of_forall {C : S → Op → Prop} (h : ∀ s op, C s op) (s : S) (t : Task Res B ε α) :
    K.Meets C s t := by
  cases t with
  | ready c => exact K.runMeets_of_forall h s c
  | suspended op b k =>
    refine ⟨h s op, ?_⟩
    split
    · exact K.runMeets_of_forall h _ _
    · trivial
  | finished x => trivial

variable (E : Terms S Op)

/-- An operation called in `s` has led to `x`: it has answered, or it waits. -/
structure After {R : Type} (s : S) (wait : S → B → Prop) (post : S → R → Prop) (x : S × (R ⊕ B)) : Prop where
  inv : E.inv x.1
  guarantee : E.guarantee s x.1
  result : Sum.elim (post x.1) (wait x.1) x.2

/-- `wait` holds as long as the operation waits, and then it ends in `post`. -/
structure Waits (op : Op) (wait : S → B → Prop) (post : S → Res op → Prop) : Prop where
  stable : ∀ s s' b, wait s b → E.rely s s' → wait s' b
  woken : ∀ s b x, wait s b → E.inv s → E.check s op → K.wake s op b = some x → After E s wait post x

/-- The operation, called in `s`, ends in `post`. -/
def Calls (op : Op) (post : S → Res op → Prop) (s : S) : Prop :=
  ∃ wait : S → B → Prop, Waits K E op wait post ∧ (E.inv s → E.check s op → After E s wait post (K.perform s op))

/-- The coroutine, run from `s`, returns in `Q` or throws in `X`. -/
def Coro.Sat (Q : S → α → Prop) (X : S → ε → Prop) : Coro Res ε α → S → Prop
  | .ret a, s => Q s a
  | .raise e, s => X s e
  | .call op k, s => Calls K E op (fun s' r => (k r).Sat Q X s') s

/-- What is left to do of the coroutine. -/
def Task.Sat (Q : S → α → Prop) (X : S → ε → Prop) : Task Res B ε α → S → Prop
  | .ready c, s => ∃ P : S → Prop, (∀ s s', P s → E.rely s s' → P s') ∧ P s ∧ ∀ s, P s → c.Sat K E Q X s
  | .suspended op b k, s => ∃ wait, Waits K E op wait (fun s' r => (k r).Sat K E Q X s') ∧ wait s b
  | .finished (.ok a), s => Q s a
  | .finished (.error e), s => X s e

end

variable {K : Kernel S Res B} {E : Terms S Op} {s s' : S} {op : Op} {Q Q' : S → α → Prop} {X X' : S → ε → Prop}

section
variable {R : Type} {wait : S → B → Prop} {post post' : S → R → Prop} {x : S × (R ⊕ B)}

theorem After.mono (h : After E s wait post x) (hp : ∀ s r, post s r → post' s r) : After E s wait post' x := by
  refine ⟨h.inv, h.guarantee, ?_⟩
  have hres := h.result
  rcases x with ⟨u, r | b⟩
  · exact hp u r hres
  · exact hres

end

section
variable {post post' : S → Res op → Prop}

theorem Calls.mono (h : Calls K E op post s) (hp : ∀ s r, post s r → post' s r) : Calls K E op post' s := by
  obtain ⟨wait, hwait, hcall⟩ := h
  exact ⟨wait, ⟨hwait.stable, fun u b x hu hi hc hw => (hwait.woken u b x hu hi hc hw).mono hp⟩,
    fun hi hc => (hcall hi hc).mono hp⟩

/-- An operation that answers at once. -/
theorem calls_now {r : Res op} (h : K.perform s op = (s', .inl r))
    (hpost : E.inv s → E.check s op → E.inv s' ∧ E.guarantee s s' ∧ post s' r) : Calls K E op post s := by
  refine ⟨fun _ _ => False, ⟨fun _ _ _ hf _ => hf, fun _ _ _ hf => hf.elim⟩, fun hi hc => ?_⟩
  obtain ⟨hinv, hg, hp⟩ := hpost hi hc
  rw [h]
  exact ⟨hinv, hg, hp⟩

/-- The general rule: `P` holds while it waits. -/
theorem calls_of {P : S → Prop} (hstable : ∀ s s', P s → E.rely s s' → P s')
    (hperform : E.inv s → E.check s op → After E s (fun s _ => P s) post (K.perform s op))
    (hwake : ∀ u b x, P u → E.inv u → E.check u op → K.wake u op b = some x → After E u (fun s _ => P s) post x) :
    Calls K E op post s :=
  ⟨fun u _ => P u, ⟨fun u u' _ hu hr => hstable u u' hu hr, fun u b x hu hi hc hw => hwake u b x hu hi hc hw⟩,
    hperform⟩

end

namespace Coro

variable {c : Coro Res ε α} {f : α → Coro Res ε β}

theorem Sat.mono (h : c.Sat K E Q X s) (hq : ∀ s a, Q s a → Q' s a) (hx : ∀ s e, X s e → X' s e) :
    c.Sat K E Q' X' s := by
  induction c generalizing s with
  | ret a => exact hq s a h
  | raise e => exact hx s e h
  | call op k ih => exact Calls.mono h fun u r hu => ih r hu

theorem Sat.bind {Q : S → β → Prop} (h : c.Sat K E (fun s a => (f a).Sat K E Q X s) X s) :
    (c >>= f).Sat K E Q X s := by
  induction c generalizing s with
  | ret a => exact h
  | raise e => exact h
  | call op k ih => exact Calls.mono h fun u r hu => ih r hu

theorem Sat.handle {g : ε → Coro Res ε α} (h : c.Sat K E Q (fun s e => (g e).Sat K E Q X s) s) :
    (tryCatch c g).Sat K E Q X s := by
  induction c generalizing s with
  | ret a => exact h
  | raise e => exact h
  | call op k ih => exact Calls.mono h fun u r hu => ih r hu

theorem sat_perform {op : Op} {Q : S → Res op → Prop} (h : Calls K E op Q s) :
    (perform op : Coro Res ε (Res op)).Sat K E Q X s := h

/-- Operations that keep `P`, whatever they answer. -/
theorem All.sat {A : Op → Prop} {P : S → Prop} (hstable : ∀ s s', P s → E.rely s s' → P s')
    (hperform : ∀ s op, A op → P s → E.inv s → E.check s op →
      E.inv (K.perform s op).1 ∧ E.guarantee s (K.perform s op).1 ∧ P (K.perform s op).1)
    (hwake : ∀ s op b x, A op → P s → E.inv s → E.check s op → K.wake s op b = some x →
      E.inv x.1 ∧ E.guarantee s x.1 ∧ P x.1)
    (hc : c.All A) (hs : P s) : c.Sat K E (fun s _ => P s) (fun s _ => P s) s := by
  induction c generalizing s with
  | ret a => exact hs
  | raise e => exact hs
  | call op k ih =>
    refine calls_of hstable ?_ ?_
    · intro hi hck
      obtain ⟨hinv, hg, hu⟩ := hperform s op hc.1 hs hi hck
      refine ⟨hinv, hg, ?_⟩
      rcases hp : K.perform s op with ⟨u, r | b⟩
      · rw [hp] at hu
        exact ih r (hc.2 r) hu
      · rw [hp] at hu
        exact hu
    · rintro u b ⟨u', y⟩ hP hi hck hw
      obtain ⟨hinv, hg, hu⟩ := hwake u op b _ hc.1 hP hi hck hw
      refine ⟨hinv, hg, ?_⟩
      cases y with
      | inl r => exact ih r (hc.2 r) hu
      | inr b => exact hu

end Coro

section
variable (hrefl : ∀ s, E.guarantee s s)
    (htrans : ∀ s s' s'', E.guarantee s s' → E.guarantee s' s'' → E.guarantee s s'')
include hrefl htrans

/-- Running a coroutine to its next wait. -/
theorem Coro.Sat.run {c : Coro Res ε α} (h : c.Sat K E Q X s) (hi : E.inv s) (hm : K.RunMeets E.check s c) :
    E.inv (K.run s c).1 ∧ E.guarantee s (K.run s c).1 ∧ (K.run s c).2.Sat K E Q X (K.run s c).1 := by
  induction c generalizing s with
  | ret a => exact ⟨hi, hrefl s, h⟩
  | raise e => exact ⟨hi, hrefl s, h⟩
  | call op k ih =>
    obtain ⟨wait, hwait, hcall⟩ := h
    rw [Kernel.RunMeets] at hm
    have hafter := hcall hi hm.1
    rw [Kernel.run]
    rcases hp : K.perform s op with ⟨u, r | b⟩
    · rw [hp] at hafter hm
      obtain ⟨hinv, hg, hsat⟩ := ih r hafter.result hafter.inv hm.2
      exact ⟨hinv, htrans _ _ _ hafter.guarantee hg, hsat⟩
    · rw [hp] at hafter
      exact ⟨hafter.inv, hafter.guarantee, wait, hwait, hafter.result⟩

/-- One step of a task. -/
theorem Task.Sat.advance {t t' : Task Res B ε α} (h : t.Sat K E Q X s) (hi : E.inv s) (hm : K.Meets E.check s t)
    (ha : K.advance s t = some (s', t')) : E.inv s' ∧ E.guarantee s s' ∧ t'.Sat K E Q X s' := by
  cases t with
  | ready c =>
    obtain ⟨P, -, hs, hsat⟩ := h
    have hrun := (hsat s hs).run hrefl htrans hi hm
    rw [Option.some.inj ha] at hrun
    exact hrun
  | suspended op b k =>
    obtain ⟨wait, hwait, hb⟩ := h
    rw [Kernel.advance] at ha
    rw [Kernel.Meets] at hm
    rcases hw : K.wake s op b with _ | ⟨u, r | b'⟩
    · rw [hw] at ha
      cases ha
    · have hafter := hwait.woken s b _ hb hi hm.1 hw
      rw [hw] at ha hm
      obtain ⟨hinv, hg, hsat⟩ := Coro.Sat.run hrefl htrans hafter.result hafter.inv hm.2
      have hgu := htrans _ _ _ hafter.guarantee hg
      rw [Option.some.inj ha] at hinv hgu hsat
      exact ⟨hinv, hgu, hsat⟩
    · have hafter := hwait.woken s b _ hb hi hm.1 hw
      rw [hw] at ha
      cases ha
      exact ⟨hafter.inv, hafter.guarantee, wait, hwait, hafter.result⟩
  | finished x => cases ha

end

/-- What the others do. -/
theorem Task.Sat.stable {t : Task Res B ε α} (h : t.Sat K E Q X s) (hq : ∀ a, Q s a → Q s' a)
    (hx : ∀ e, X s e → X s' e) (hr : E.rely s s') : t.Sat K E Q X s' := by
  cases t with
  | ready c =>
    obtain ⟨P, hstable, hs, hsat⟩ := h
    exact ⟨P, hstable, hstable s s' hs hr, hsat⟩
  | suspended op b k =>
    obtain ⟨wait, hwait, hb⟩ := h
    exact ⟨wait, hwait, hwait.stable s s' b hb hr⟩
  | finished x =>
    cases x with
    | ok a => exact hq a h
    | error e => exact hx e h

/-- One step of a task among the others, each under its own terms. -/
theorem sat_splice {L : Type} {T : L → Terms S Op} {Q : L → S → α → Prop} {X : L → S → ε → Prop}
    {pre post : List (L × Task Res B ε α)} {x : L × Task Res B ε α} {t' : Task Res B ε α}
    (hrefl : ∀ s, (T x.1).guarantee s s)
    (htrans : ∀ s s' s'', (T x.1).guarantee s s' → (T x.1).guarantee s' s'' → (T x.1).guarantee s s'')
    (hsat : ∀ y ∈ pre ++ x :: post, y.2.Sat K (T y.1) (Q y.1) (X y.1) s) (hi : (T x.1).inv s)
    (hm : K.Meets (T x.1).check s x.2) (ha : K.advance s x.2 = some (s', t'))
    (hothers : ∀ y, y ∈ pre ∨ y ∈ post → (T x.1).guarantee s s' →
      (T y.1).rely s s' ∧ (∀ a, Q y.1 s a → Q y.1 s' a) ∧ ∀ e, X y.1 s e → X y.1 s' e) :
    (T x.1).Permits s s' ∧ ∀ y ∈ pre ++ (x.1, t') :: post, y.2.Sat K (T y.1) (Q y.1) (X y.1) s' := by
  obtain ⟨hinv, hg, hown⟩ := (hsat x (by simp)).advance hrefl htrans hi hm ha
  refine ⟨⟨hinv, hg⟩, ?_⟩
  have hstable : ∀ y, y ∈ pre ∨ y ∈ post → y.2.Sat K (T y.1) (Q y.1) (X y.1) s' := by
    intro y hy
    obtain ⟨hr, hq, hx⟩ := hothers y hy hg
    refine (hsat y ?_).stable hq hx hr
    simp only [List.mem_append, List.mem_cons]
    tauto
  intro y hy
  rcases List.mem_append.mp hy with hy | hy
  · exact hstable y (Or.inl hy)
  · rcases List.mem_cons.mp hy with rfl | hy
    · exact hown
    · exact hstable y (Or.inr hy)

end Coroutine
