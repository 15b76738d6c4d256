import StructureDb.Lib.Machine
import StructureDb.Spec.SharedLsm

/-! Coroutines on one `io::SharedMutex`. Between two `co_await`s that suspend no other one runs: a
call of `LockShared` or `LockExclusive` runs until it has the lock or sleeps on a timer of its own,
an unlock runs to its end and cancels the timers, and a coroutine whose timer is cancelled goes on
some time later, in any order. `state_` is an `int`; here it has no bound. -/

namespace StructureDb

/-- A coroutine in the loop of `TryLock`, with the timer it waits for. -/
structure Waiter where
  no : ℕ
  mode : Mode
  timer : ℕ
deriving DecidableEq

structure MutexCalls where
  mutex : SharedMutex
  waiting : List Waiter
deriving DecidableEq

namespace MutexCalls

inductive Action
  | lock (no : ℕ) (mode : Mode)
  | unlock (no : ℕ) (mode : Mode)
  -- a coroutine whose timer is cancelled goes on
  | resume (no : ℕ)

def start : MutexCalls := ⟨.unlocked, []⟩

/-- It sleeps as long as nobody has cancelled its timer. -/
def asleep (s : MutexCalls) (w : Waiter) : Prop := w.timer ∈ s.mutex.waiters

instance (s : MutexCalls) (w : Waiter) : Decidable (s.asleep w) := inferInstanceAs (Decidable (_ ∈ _))

def blocked (s : MutexCalls) (no : ℕ) : Prop := no ∈ s.waiting.map Waiter.no

instance (s : MutexCalls) (no : ℕ) : Decidable (s.blocked no) := inferInstanceAs (Decidable (_ ∈ _))

/-- One turn of the loop of `TryLock`. -/
def tryLock (s : MutexCalls) (no : ℕ) (mode : Mode) : MutexCalls :=
  match s.mutex.tryLock no mode with
  | (mutex, .inl ()) => { s with mutex }
  | (mutex, .inr timer) => { mutex, waiting := s.waiting ++ [⟨no, mode, timer⟩] }

/-- A coroutine unlocks what it has locked, in the same mode. -/
def step (s : MutexCalls) : Action → Option MutexCalls
  | .lock no mode => if s.blocked no then none else some (s.tryLock no mode)
  | .unlock no mode =>
    if s.blocked no ∨ (no, mode) ∉ s.mutex.owners then none else some { s with mutex := s.mutex.unlock no mode }
  | .resume no =>
    match s.waiting.find? fun w => w.no = no with
    | none => none
    | some w =>
      if s.asleep w then none
      else some ({ s with waiting := s.waiting.filter fun w' => w'.no ≠ no }.tryLock no w.mode)

end MutexCalls

end StructureDb
