import StructureDb.Lib.Machine
import StructureDb.Lib.Splits

/-! Coroutines on one thread. A coroutine is a tree of operations, with a branch for every
answer. A kernel says what an operation does to the shared state: it answers, or it
suspends the coroutine, which goes on when it can be woken. A pool holds any number of
coroutines and resumes them in any order. -/

namespace Coroutine

inductive Coro {Op : Type} (Res : Op → Type) (ε α : Type) : Type
  | ret (a : α)
  | raise (e : ε)
  | call (op : Op) (k : Res op → Coro Res ε α)

section
variable {Op : Type} {Res : Op → Type} {ε α β : Type}

namespace Coro

def bind : Coro Res ε α → (α → Coro Res ε β) → Coro Res ε β
  | ret a, f => f a
  | raise e, _ => raise e
  | call op k, f => call op fun r => (k r).bind f

def handle : Coro Res ε α → (ε → Coro Res ε α) → Coro Res ε α
  | ret a, _ => ret a
  | raise e, f => f e
  | call op k, f => call op fun r => (k r).handle f

instance : Monad (Coro Res ε) where
  pure := ret
  bind := bind

instance : MonadExceptOf ε (Coro Res ε) where
  throw := raise
  tryCatch := handle

def perform (op : Op) : Coro Res ε (Res op) := call op ret

/-- Every operation it may come to is in `A`. -/
def All (A : Op → Prop) : Coro Res ε α → Prop
  | ret _ => True
  | raise _ => True
  | call op k => A op ∧ ∀ r, (k r).All A

/-- On no path it comes to two operations in `A`. -/
def Once (A : Op → Prop) : Coro Res ε α → Prop
  | ret _ => True
  | raise _ => True
  | call op k => (A op → ∀ r, (k r).All fun o => ¬ A o) ∧ ∀ r, (k r).Once A

/-- Behind an operation in `E` it comes only to operations in `A`. -/
def Then (E A : Op → Prop) : Coro Res ε α → Prop
  | ret _ => True
  | raise _ => True
  | call op k => (E op → ∀ r, (k r).All A) ∧ ∀ r, (k r).Then E A

/-- The same coroutine with more operations and exceptions around it. -/
def embed {Op' ε' : Type} {Res' : Op' → Type} (f : Op → Op') (g : ε → ε') :
    Coro (fun op => Res' (f op)) ε α → Coro Res' ε' α
  | ret a => ret a
  | raise e => raise (g e)
  | call op k => call (f op) fun r => (k r).embed f g

variable {A : Op → Prop} {c : Coro Res ε α} {f : α → Coro Res ε β}

theorem bind_assoc {γ : Type} (c : Coro Res ε α) (f : α → Coro Res ε β) (g : β → Coro Res ε γ) :
    (c >>= f) >>= g = c >>= fun a => f a >>= g := by
  induction c with
  | ret a => rfl
  | raise e => rfl
  | call op k ih => exact congrArg (Coro.call op) (funext ih)

theorem All.bind (hc : c.All A) (hf : ∀ a, (f a).All A) : (c >>= f).All A := by
  induction c with
  | ret a => exact hf a
  | raise e => trivial
  | call op k ih => exact ⟨hc.1, fun r => ih r (hc.2 r)⟩

theorem All.handle {h : ε → Coro Res ε α} (hc : c.All A) (hh : ∀ e, (h e).All A) : (tryCatch c h).All A := by
  induction c with
  | ret a => trivial
  | raise e => exact hh e
  | call op k ih => exact ⟨hc.1, fun r => ih r (hc.2 r)⟩

theorem all_of_forall (h : ∀ op, A op) (c : Coro Res ε α) : c.All A := by
  induction c with
  | ret a => trivial
  | raise e => trivial
  | call op k ih => exact ⟨h op, ih⟩

theorem all_perform {op : Op} (h : A op) : (perform op : Coro Res ε (Res op)).All A := ⟨h, fun _ => trivial⟩

theorem All.once (hc : c.All fun o => ¬ A o) : c.Once A := by
  induction c with
  | ret a => trivial
  | raise e => trivial
  | call op k ih => exact ⟨fun h => absurd h hc.1, fun r => ih r (hc.2 r)⟩

theorem once_perform {op : Op} : (perform op : Coro Res ε (Res op)).Once A := ⟨fun _ _ => trivial, fun _ => trivial⟩

/-- What comes behind does none of them. -/
theorem Once.bind_all (hc : c.Once A) (hf : ∀ a, (f a).All fun o => ¬ A o) : (c >>= f).Once A := by
  induction c with
  | ret a => exact (hf a).once
  | raise e => trivial
  | call op k ih => exact ⟨fun h r => (hc.1 h r).bind hf, fun r => ih r (hc.2 r)⟩

/-- What comes before does none of them. -/
theorem All.bind_once (hc : c.All fun o => ¬ A o) (hf : ∀ a, (f a).Once A) : (c >>= f).Once A := by
  induction c with
  | ret a => exact hf a
  | raise e => trivial
  | call op k ih => exact ⟨fun h => absurd h hc.1, fun r => ih r (hc.2 r)⟩

theorem Once.handle {h : ε → Coro Res ε α} (hc : c.Once A) (hh : ∀ e, (h e).All fun o => ¬ A o) :
    (tryCatch c h).Once A := by
  induction c with
  | ret a => trivial
  | raise e => exact (hh e).once
  | call op k ih => exact ⟨fun ha r => (hc.1 ha r).handle hh, fun r => ih r (hc.2 r)⟩

theorem All.mono {A' : Op → Prop} (hc : c.All A) (h : ∀ op, A op → A' op) : c.All A' := by
  induction c with
  | ret a => trivial
  | raise e => trivial
  | call op k ih => exact ⟨h op hc.1, fun r => ih r (hc.2 r)⟩

theorem All.embed {Op' ε' : Type} {Res' : Op' → Type} {f : Op → Op'} {g : ε → ε'} {A : Op' → Prop}
    {c : Coro (fun op => Res' (f op)) ε α} (hc : c.All fun op => A (f op)) : (c.embed f g).All A := by
  induction c with
  | ret a => trivial
  | raise e => trivial
  | call op k ih => exact ⟨hc.1, fun r => ih r (hc.2 r)⟩

theorem All.then_of_not {E : Op → Prop} (hc : c.All fun op => ¬ E op) : c.Then E A := by
  induction c with
  | ret a => trivial
  | raise e => trivial
  | call op k ih => exact ⟨fun h => absurd h hc.1, fun r => ih r (hc.2 r)⟩

theorem All.bind_then {E : Op → Prop} (hc : c.All fun op => ¬ E op) (hf : ∀ a, (f a).Then E A) :
    (c >>= f).Then E A := by
  induction c with
  | ret a => exact hf a
  | raise e => trivial
  | call op k ih => exact ⟨fun h => absurd h hc.1, fun r => ih r (hc.2 r)⟩

theorem Then.handle {E : Op → Prop} {h : ε → Coro Res ε α} (hc : c.Then E A) (hall : ∀ e, (h e).All A)
    (hthen : ∀ e, (h e).Then E A) : (tryCatch c h).Then E A := by
  induction c with
  | ret a => trivial
  | raise e => exact hthen e
  | call op k ih => exact ⟨fun ha r => (hc.1 ha r).handle hall, fun r => ih r (hc.2 r)⟩

end Coro

end

/-- `B` is what a suspended operation waits for. `wake` is `none` while it has to wait. -/
structure Kernel (S : Type) {Op : Type} (Res : Op → Type) (B : Type) where
  perform : S → (op : Op) → S × (Res op ⊕ B)
  wake : S → (op : Op) → B → Option (S × (Res op ⊕ B))

inductive Task {Op : Type} (Res : Op → Type) (B ε α : Type)
  | ready (c : Coro Res ε α)
  | suspended (op : Op) (b : B) (k : Res op → Coro Res ε α)
  | finished (result : Except ε α)

variable {S L Op B ε α : Type} {Res : Op → Type}

namespace Task

def Unfinished : Task Res B ε α → Prop
  | .finished _ => False
  | _ => True

instance : (t : Task Res B ε α) → Decidable t.Unfinished
  | .ready _ => isTrue trivial
  | .suspended _ _ _ => isTrue trivial
  | .finished _ => isFalse not_false

/-- It has ended with an exception. -/
def Threw : Task Res B ε α → Prop
  | .finished (.error _) => True
  | _ => False

instance : (t : Task Res B ε α) → Decidable t.Threw
  | .ready _ => isFalse not_false
  | .suspended _ _ _ => isFalse not_false
  | .finished (.ok _) => isFalse not_false
  | .finished (.error _) => isTrue trivial

/-- What is left to do of the coroutine. -/
def All (A : Op → Prop) : Task Res B ε α → Prop
  | .ready c => c.All A
  | .suspended op _ k => (Coro.call op k).All A
  | .finished _ => True

theorem All.mono {A A' : Op → Prop} {t : Task Res B ε α} (h : t.All A) (hA : ∀ op, A op → A' op) : t.All A' := by
  cases t with
  | ready c => exact Coro.All.mono h hA
  | suspended op b k => exact Coro.All.mono h hA
  | finished result => trivial

theorem all_of_forall {A : Op → Prop} (h : ∀ op, A op) (t : Task Res B ε α) : t.All A := by
  cases t with
  | ready c => exact Coro.all_of_forall h c
  | suspended op b k => exact Coro.all_of_forall h _
  | finished result => trivial

theorem all_of_not_unfinished {A : Op → Prop} {t : Task Res B ε α} (h : ¬ t.Unfinished) : t.All A := by
  cases t with
  | ready c => exact absurd trivial h
  | suspended op b k => exact absurd trivial h
  | finished result => trivial

/-- Behind an operation in `E` only operations in `A` are left. -/
def Then (E A : Op → Prop) : Task Res B ε α → Prop
  | .ready c => c.Then E A
  | .suspended op _ k => (Coro.call op k).Then E A
  | .finished _ => True

end Task

namespace Kernel

variable (K : Kernel S Res B)

/-- Run a coroutine until it is suspended or at its end. -/
def run : S → Coro Res ε α → S × Task Res B ε α
  | s, .ret a => (s, .finished (.ok a))
  | s, .raise e => (s, .finished (.error e))
  | s, .call op k =>
    match K.perform s op with
    | (s, .inl r) => run s (k r)
    | (s, .inr b) => (s, .suspended op b k)

def advance (s : S) : Task Res B ε α → Option (S × Task Res B ε α)
  | .ready c => some (K.run s c)
  | .suspended op b k =>
    match K.wake s op b with
    | none => none
    | some (s, .inl r) => some (K.run s (k r))
    | some (s, .inr b) => some (s, .suspended op b k)
  | .finished _ => none

variable {K} {s s' : S} {t t' : Task Res B ε α}

/-- An operation that answers at once. -/
theorem run_call {op : Op} {k : Res op → Coro Res ε α} {r : Res op} (h : K.perform s op = (s', .inl r)) :
    K.run s (.call op k) = K.run s' (k r) := by rw [run, h]

/-- Invariants of a running coroutine: `I` holds while it runs, and `F` where it stops. -/
structure Invariant (K : Kernel S Res B) (I : S → Coro Res ε α → Prop)
    (F : S → Task Res B ε α → Prop) : Prop where
  ready : ∀ s c, F s (.ready c) → I s c
  ret : ∀ s a, I s (.ret a) → F s (.finished (.ok a))
  raise : ∀ s e, I s (.raise e) → F s (.finished (.error e))
  done : ∀ s op k s' r, I s (.call op k) → K.perform s op = (s', .inl r) → I s' (k r)
  wait : ∀ s op k s' b, I s (.call op k) → K.perform s op = (s', .inr b) → F s' (.suspended op b k)
  woken : ∀ s op b k s' r, F s (.suspended op b k) → K.wake s op b = some (s', .inl r) → I s' (k r)
  again : ∀ s op b k s' b', F s (.suspended op b k) → K.wake s op b = some (s', .inr b') → F s' (.suspended op b' k)

namespace Invariant

variable {I : S → Coro Res ε α → Prop} {F : S → Task Res B ε α → Prop}

theorem run (h : Invariant K I F) {c : Coro Res ε α} (hc : I s c) : F (K.run s c).1 (K.run s c).2 := by
  induction c generalizing s with
  | ret a => exact h.ret s a hc
  | raise e => exact h.raise s e hc
  | call op k ih =>
    rw [Kernel.run]
    rcases hp : K.perform s op with ⟨s', r | b⟩
    · exact ih r (h.done s op k s' r hc hp)
    · exact h.wait s op k s' b hc hp

theorem advance (h : Invariant K I F) (ht : F s t) (ha : K.advance s t = some (s', t')) : F s' t' := by
  cases t with
  | ready c =>
    have hrun := h.run (h.ready s c ht)
    rw [Option.some.inj ha] at hrun
    exact hrun
  | suspended op b k =>
    rw [Kernel.advance] at ha
    rcases hw : K.wake s op b with _ | ⟨u, r | b'⟩
    · rw [hw] at ha
      cases ha
    · rw [hw] at ha
      have hrun := h.run (h.woken s op b k u r ht hw)
      rw [Option.some.inj ha] at hrun
      exact hrun
    · rw [hw] at ha
      cases ha
      exact h.again s op b k s' b' ht hw
  | finished result => cases ha

end Invariant

/-- What every operation in `A` does to the shared state, a task of such operations does. -/
theorem advance_rel {A : Op → Prop} {R : S → S → Prop} (hrefl : ∀ s, R s s)
    (htrans : ∀ s s' s'', R s s' → R s' s'' → R s s'') (hperform : ∀ s op, A op → R s (K.perform s op).1)
    (hwake : ∀ s op b s' x, A op → K.wake s op b = some (s', x) → R s s') (ht : t.All A)
    (ha : K.advance s t = some (s', t')) : R s s' ∧ t'.All A := by
  have hinv : K.Invariant (fun u c => R s u ∧ c.All A) (fun u (t : Task Res B ε α) => R s u ∧ t.All A) := by
    refine ⟨fun _ _ h => h, fun _ _ h => ⟨h.1, trivial⟩, fun _ _ h => ⟨h.1, trivial⟩, ?_, ?_, ?_, ?_⟩
    · intro u op k u' r h hp
      have hu := hperform u op h.2.1
      rw [hp] at hu
      exact ⟨htrans _ _ _ h.1 hu, h.2.2 r⟩
    · intro u op k u' b h hp
      have hu := hperform u op h.2.1
      rw [hp] at hu
      exact ⟨htrans _ _ _ h.1 hu, h.2⟩
    · intro u op b k u' r h hw
      exact ⟨htrans _ _ _ h.1 (hwake u op b u' _ h.2.1 hw), h.2.2 r⟩
    · intro u op b k u' b' h hw
      exact ⟨htrans _ _ _ h.1 (hwake u op b u' _ h.2.1 hw), h.2⟩
  exact hinv.advance ⟨hrefl s, ht⟩ ha

/-- A task does what the operations outside `E` do, or only operations in `A` are left of it. -/
theorem advance_then {E A : Op → Prop} {R : S → S → Prop} (hrefl : ∀ s, R s s)
    (htrans : ∀ s s' s'', R s s' → R s' s'' → R s s'') (hE : ∀ op, E op → A op)
    (hperform : ∀ s op, ¬ E op → R s (K.perform s op).1)
    (hwake : ∀ s op b s' x, ¬ E op → K.wake s op b = some (s', x) → R s s') (ht : t.Then E A)
    (ha : K.advance s t = some (s', t')) : t'.Then E A ∧ (R s s' ∨ t'.All A) := by
  have hinv : K.Invariant (fun u c => c.Then E A ∧ (R s u ∨ c.All A))
      (fun u (t : Task Res B ε α) => t.Then E A ∧ (R s u ∨ t.All A)) := by
    refine ⟨fun _ _ h => h, fun _ _ h => ⟨trivial, Or.inr trivial⟩, fun _ _ h => ⟨trivial, Or.inr trivial⟩, ?_,
      ?_, ?_, ?_⟩
    · rintro u op k u' r ⟨hthen, hu⟩ hp
      refine ⟨hthen.2 r, ?_⟩
      by_cases hop : E op
      · exact Or.inr (hthen.1 hop r)
      · have hR := hperform u op hop
        rw [hp] at hR
        exact hu.imp (fun h => htrans _ _ _ h hR) fun h => h.2 r
    · rintro u op k u' b ⟨hthen, hu⟩ hp
      refine ⟨hthen, ?_⟩
      by_cases hop : E op
      · exact Or.inr ⟨hE op hop, hthen.1 hop⟩
      · have hR := hperform u op hop
        rw [hp] at hR
        exact hu.imp (fun h => htrans _ _ _ h hR) fun h => h
    · rintro u op b k u' r ⟨hthen, hu⟩ hw
      refine ⟨hthen.2 r, ?_⟩
      by_cases hop : E op
      · exact Or.inr (hthen.1 hop r)
      · exact hu.imp (fun h => htrans _ _ _ h (hwake u op b u' _ hop hw)) fun h => h.2 r
    · rintro u op b k u' b' ⟨hthen, hu⟩ hw
      refine ⟨hthen, ?_⟩
      by_cases hop : E op
      · exact Or.inr ⟨hE op hop, hthen.1 hop⟩
      · exact hu.imp (fun h => htrans _ _ _ h (hwake u op b u' _ hop hw)) fun h => h
  exact hinv.advance ⟨ht, Or.inl (hrefl s)⟩ ha

end Kernel

structure Pool (S L : Type) {Op : Type} (Res : Op → Type) (B ε α : Type) where
  shared : S
  tasks : List (L × Task Res B ε α)

inductive Action (L : Type)
  | start (l : L)
  | resume (task : ℕ)

/-- `prog` is the code of a task. -/
def Pool.step (K : Kernel S Res B) (prog : L → Coro Res ε α) (p : Pool S L Res B ε α) :
    Action L → Option (Pool S L Res B ε α)
  | .start l => some ⟨p.shared, p.tasks ++ [(l, .ready (prog l))]⟩
  | .resume i =>
    match p.tasks[i]? with
    | none => none
    | some (l, t) =>
      match K.advance p.shared t with
      | none => none
      | some (s, t) => some ⟨s, p.tasks.set i (l, t)⟩

/-- A task that runs at once, in a state made ready for it, up to its first wait. -/
def Pool.launch (K : Kernel S Res B) (prog : L → Coro Res ε α) (p : Pool S L Res B ε α) (s : S) (l : L) :
    Pool S L Res B ε α :=
  ⟨(K.run s (prog l)).1, p.tasks ++ [(l, (K.run s (prog l)).2)]⟩

namespace Pool

variable {K : Kernel S Res B} {prog : L → Coro Res ε α} {p p' : Pool S L Res B ε α} {action : Action L}

/-- A step starts a task or lets one task go on. -/
theorem step_cases (h : p.step K prog action = some p') :
    (∃ l, action = .start l ∧ p' = ⟨p.shared, p.tasks ++ [(l, .ready (prog l))]⟩) ∨
    ∃ i l t s t' pre post, action = .resume i ∧ p.tasks[i]? = some (l, t) ∧ K.advance p.shared t = some (s, t') ∧
      p.tasks = pre ++ (l, t) :: post ∧ p' = ⟨s, pre ++ (l, t') :: post⟩ := by
  cases action with
  | start l => exact Or.inl ⟨l, rfl, (Option.some.inj h).symm⟩
  | resume i =>
    right
    rw [step] at h
    rcases hi : p.tasks[i]? with _ | ⟨l, t⟩
    · rw [hi] at h
      cases h
    rw [hi] at h
    rcases ha : K.advance p.shared t with _ | ⟨s, t'⟩
    · simp only [ha] at h
      cases h
    simp only [ha] at h
    obtain ⟨pre, post, htasks, hset⟩ := Splits.of_getElem? hi
    exact ⟨i, l, t, s, t', pre, post, rfl, hi, ha, htasks, by rw [← Option.some.inj h, hset]⟩

/-- The step of one task. -/
theorem step_resume {i : ℕ} {l : L} {t : Task Res B ε α} (hi : p.tasks[i]? = some (l, t))
    (h : p.step K prog (.resume i) = some p') :
    ∃ s t', K.advance p.shared t = some (s, t') ∧ p'.shared = s ∧ p'.tasks[i]? = some (l, t') := by
  rw [step, hi] at h
  dsimp only at h
  rcases ha : K.advance p.shared t with _ | ⟨s, t'⟩
  · rw [ha] at h
    cases h
  · rw [ha] at h
    rw [← Option.some.inj h]
    have hlt := (List.getElem?_eq_some_iff.mp hi).1
    exact ⟨s, t', rfl, rfl, by rw [List.getElem?_set_self hlt]⟩

theorem step_start {l : L} (h : p.step K prog (.start l) = some p') :
    p'.shared = p.shared ∧ ∀ (j : ℕ) (x : L × Task Res B ε α), p'.tasks[j]? = some x →
      p.tasks[j]? = some x ∨ x = (l, .ready (prog l)) := by
  rw [← Option.some.inj h]
  refine ⟨rfl, fun j x hx => ?_⟩
  by_cases hj : j < p.tasks.length
  · rw [List.getElem?_append_left hj] at hx
    exact Or.inl hx
  · rw [List.getElem?_append_right (not_lt.mp hj), List.getElem?_singleton] at hx
    split_ifs at hx
    exact Or.inr (Option.some.inj hx).symm

/-- The others stay where they are. -/
theorem step_other {i j : ℕ} (h : p.step K prog (.resume i) = some p') (hj : j ≠ i) : p'.tasks[j]? = p.tasks[j]? := by
  rw [step] at h
  rcases hi : p.tasks[i]? with _ | ⟨l, t⟩
  · rw [hi] at h
    cases h
  rw [hi] at h
  rcases ha : K.advance p.shared t with _ | ⟨s, t'⟩
  · simp only [ha] at h
    cases h
  simp only [ha] at h
  rw [← Option.some.inj h, List.getElem?_set_ne hj.symm]

/-- The rule for an invariant `P` of the shared state and `Q` of each task, where `R` is what a task does to the shared
state. -/
theorem step_inv {P : S → Prop} {Q : S → L → Task Res B ε α → Prop} {R : S → S → Prop}
    (hstart : ∀ l, action = .start l → Q p.shared l (.ready (prog l)))
    (hadvance : ∀ l t s t', P p.shared → Q p.shared l t → K.advance p.shared t = some (s, t') →
      P s ∧ Q s l t' ∧ R p.shared s)
    (hstable : ∀ s l t, R p.shared s → Q p.shared l t → Q s l t)
    (hp : P p.shared ∧ ∀ x ∈ p.tasks, Q p.shared x.1 x.2) (h : p.step K prog action = some p') :
    P p'.shared ∧ ∀ x ∈ p'.tasks, Q p'.shared x.1 x.2 := by
  rcases step_cases h with ⟨l, ha, rfl⟩ | ⟨i, l, t, s, t', pre, post, -, -, hadv, htasks, rfl⟩
  · refine ⟨hp.1, ?_⟩
    intro x hx
    rcases List.mem_append.mp hx with hx | hx
    · exact hp.2 x hx
    · obtain rfl := List.mem_singleton.mp hx
      exact hstart l ha
  · have hmem : ∀ x ∈ pre ++ (l, t) :: post, Q p.shared x.1 x.2 := htasks ▸ hp.2
    obtain ⟨hP, hQ, hR⟩ := hadvance l t s t' hp.1 (hmem (l, t) (by simp)) hadv
    refine ⟨hP, ?_⟩
    intro x hx
    rcases List.mem_append.mp hx with hx | hx
    · exact hstable s x.1 x.2 hR (hmem x (by simp [hx]))
    · rcases List.mem_cons.mp hx with rfl | hx
      · exact hQ
      · exact hstable s x.1 x.2 hR (hmem x (by simp [hx]))

end Pool

end Coroutine
