import StructureDb.Lib.Interference
import StructureDb.Proofs.PutOrder

/-! The calls of a tree beside each other. What a call may count on while it waits is
`Undisturbed`: it keeps its locks, under `maintenance_mutex_` it finds the tables as it has left
them, and the one `Put` under way keeps its turn. Every call keeps to that for the others. -/

namespace StructureDb

namespace SharedMutex

variable {m : SharedMutex} {no : ℕ} {mode : Mode}

/-- What `state_` says about those who have locked it. -/
inductive Owned (m : SharedMutex) : Prop
  | shared (hstate : m.state = m.owners.length) (hmode : ∀ x ∈ m.owners, x.2 = Mode.shared)
  | exclusive (no : ℕ) (hstate : m.state = -1) (howners : m.owners = [(no, Mode.exclusive)])

theorem owned_unlocked : Owned unlocked := .shared rfl (by simp [unlocked])

theorem Owned.locked (h : m.Owned) (hp : m.predicate mode) (no : ℕ) : (m.locked no mode).Owned := by
  cases mode with
  | shared =>
    cases h with
    | shared hstate hmode =>
      refine .shared ?_ ?_
      · change m.state + 1 = ((m.owners.length + 1 : ℕ) : ℤ)
        rw [hstate, Nat.cast_succ]
      · intro x hx
        rcases List.mem_cons.mp hx with rfl | hx
        · rfl
        · exact hmode x hx
    | exclusive no' hstate howners =>
      change 0 ≤ m.state at hp
      omega
  | exclusive =>
    change m.state = 0 at hp
    refine .exclusive no rfl ?_
    cases h with
    | shared hstate hmode =>
      have hnil : m.owners = [] := List.eq_nil_of_length_eq_zero (by omega)
      change (no, Mode.exclusive) :: m.owners = _
      rw [hnil]
    | exclusive no' hstate howners => omega

theorem Owned.unlock (h : m.Owned) (hmem : (no, mode) ∈ m.owners) : (m.unlock no mode).Owned := by
  cases h with
  | shared hstate hmode =>
    obtain rfl : mode = .shared := hmode _ hmem
    refine .shared ?_ fun x hx => hmode x (List.mem_of_mem_erase hx)
    change m.state - 1 = ((m.owners.erase (no, Mode.shared)).length : ℤ)
    have hpos := List.length_pos_of_mem hmem
    rw [List.length_erase_of_mem hmem, hstate]
    omega
  | exclusive no' hstate howners =>
    rw [howners, List.mem_singleton] at hmem
    cases hmem
    have hnil : (m.unlock no Mode.exclusive).owners = [] := by
      change m.owners.erase (no, Mode.exclusive) = []
      rw [howners, List.erase_cons_head]
    refine .shared ?_ ?_
    · rw [hnil]
      rfl
    · rw [hnil]
      intro x hx
      cases hx

theorem Owned.sole (h : m.Owned) (hmem : (no, Mode.exclusive) ∈ m.owners) : m.owners = [(no, .exclusive)] := by
  cases h with
  | shared hstate hmode => cases hmode _ hmem
  | exclusive no' hstate howners =>
    rw [howners, List.mem_singleton] at hmem
    cases hmem
    exact howners

end SharedMutex

namespace SharedLsm

open Coroutine

variable {V : Type} [LinearOrder V]

def locks (s : SharedLsm V) (no : ℕ) (m : Mutex) (mode : Mode) : ℕ := (s.mutex m).owners.count (no, mode)

def noLocks (_ : Mutex) (_ : Mode) : ℕ := 0

def plus (f : Mutex → Mode → ℕ) (m : Mutex) (mode : Mode) (m' : Mutex) (mode' : Mode) : ℕ :=
  if m' = m ∧ mode' = mode then f m' mode' + 1 else f m' mode'

theorem plus_self (f : Mutex → Mode → ℕ) (m : Mutex) (mode : Mode) : 0 < plus f m mode m mode := by simp [plus]

structure Undisturbed (no : ℕ) (s s' : SharedLsm V) : Prop where
  locks : s'.locks no = s.locks no
  tables : 0 < s.locks no .maintenance .exclusive →
    s'.lsm.ssTables = s.lsm.ssTables ∧ s.lsm.roMemTables <+: s'.lsm.roMemTables
  overlapped : s'.overlapped = false → s.overlapped = false
  puts : s'.overlapped = false → ∀ r, s.putting = [(no, r)] →
    s'.putting = s.putting ∧ s'.entered = s.entered ∧ s'.lsm.nextSeqNo = s.lsm.nextSeqNo

inductive Effect : Call V → Lsm V → Lsm V → Prop
  | put (key : Bytes) (value : V) (l l' : Lsm V) : Effect (.put key value) l l'
  | putSeq (r : Record V) (l l' : Lsm V) : Effect (.putSeq r) l l'
  | files (c : Call V) (l : Lsm V) (dir : Dir Bytes (List (Record V))) : Effect c l { l with dir }
  | flush (l : Lsm V) (m : MemTable V) (rest : List (MemTable V)) (hro : l.roMemTables = m :: rest) :
      Effect .flush l (l.publishFlush (l.flushTable m))
  | compact (strategy : List (Record V) → List (Record V)) (l : Lsm V) :
      Effect (.compact strategy) l (l.publishCompact (l.compactTable strategy))

variable {o : Options} {base no : ℕ} {fs : List Bool} {c : Caller V} {s s' s'' : SharedLsm V} {r : Record V} {l : Lsm V}
  {f : Mutex → Mode → ℕ} {Q : SharedLsm V → Prop} {X : SharedLsm V → Exception → Prop}

namespace Undisturbed

theorem refl (no : ℕ) (s : SharedLsm V) : Undisturbed no s s :=
  ⟨rfl, fun _ => ⟨rfl, List.prefix_rfl⟩, id, fun _ _ _ => ⟨rfl, rfl, rfl⟩⟩

theorem trans (h : Undisturbed no s s') (h' : Undisturbed no s' s'') : Undisturbed no s s'' where
  locks := h'.locks.trans h.locks
  tables := by
    intro hlock
    obtain ⟨hss, hro⟩ := h.tables hlock
    obtain ⟨hss', hro'⟩ := h'.tables (by rw [h.locks]; exact hlock)
    exact ⟨hss'.trans hss, hro.trans hro'⟩
  overlapped := fun ho => h.overlapped (h'.overlapped ho)
  puts := by
    intro ho r hp
    obtain ⟨hputting, hentered, hnext⟩ := h.puts (h'.overlapped ho) r hp
    obtain ⟨hputting', hentered', hnext'⟩ := h'.puts ho r (hputting.trans hp)
    exact ⟨hputting'.trans hputting, hentered'.trans hentered, hnext'.trans hnext⟩

end Undisturbed

structure Did (c : Caller V) (s s' : SharedLsm V) : Prop where
  others : ∀ no, no ≠ c.no → Undisturbed no s s'
  effect : Relation.ReflTransGen (Effect c.call) s.lsm s'.lsm

theorem Did.refl (c : Caller V) (s : SharedLsm V) : Did c s s := ⟨fun no _ => .refl no s, .refl⟩

theorem Did.trans (h : Did c s s') (h' : Did c s' s'') : Did c s s'' :=
  ⟨fun no hne => (h.others no hne).trans (h'.others no hne), h.effect.trans h'.effect⟩

structure Inv (fs : List Bool) (base : ℕ) (s : SharedLsm V) : Prop where
  owned : ∀ m, (s.mutex m).Owned
  faults : s.faults <:+ fs
  order : s.overlapped = false → InOrder base s

def terms (fs : List Bool) (base : ℕ) (c : Caller V) : Terms (SharedLsm V) (Op V) where
  inv := Inv fs base
  check := fun _ _ => True
  rely := Undisturbed c.no
  guarantee := Did c

def Quiet (s s' : SharedLsm V) : Prop := ∃ mutex faults dir, s' = { s with mutex, faults, lsm := { s.lsm with dir } }

theorem Inv.quiet (h : Inv fs base s) (hq : Quiet s s') (howned : ∀ m, (s'.mutex m).Owned)
    (hfaults : s'.faults <:+ fs) :
    Inv fs base s' := by
  refine ⟨howned, hfaults, ?_⟩
  obtain ⟨mutex, faults, dir, rfl⟩ := hq
  intro ho
  have hold := h.order ho
  exact ⟨hold.ascending, hold.next, hold.below, hold.waiting, hold.drawn, hold.kept, hold.memory, hold.newer, hold.mark⟩

theorem Did.quiet (hq : Quiet s s') (hlocks : ∀ no, no ≠ c.no → s'.locks no = s.locks no) : Did c s s' := by
  refine ⟨?_, ?_⟩
  · intro no hne
    refine ⟨hlocks no hne, ?_, ?_, ?_⟩
    all_goals obtain ⟨mutex, faults, dir, rfl⟩ := hq
    · exact fun _ => ⟨rfl, List.prefix_rfl⟩
    · exact id
    · exact fun _ _ _ => ⟨rfl, rfl, rfl⟩
  · obtain ⟨mutex, faults, dir, rfl⟩ := hq
    exact .single (.files c.call s.lsm dir)

/-- What a call with the locks `f` knows, whatever the others and its own locks and files do. -/
structure Steady (no : ℕ) (f : Mutex → Mode → ℕ) (Q : SharedLsm V → Prop) : Prop where
  stable : ∀ s s', s.locks no = f → Q s → Undisturbed no s s' → Q s'
  quiet : ∀ s s', Q s → Quiet s s' → Q s'

theorem steady_true (no : ℕ) (f : Mutex → Mode → ℕ) : Steady no f fun _ : SharedLsm V => True :=
  ⟨fun _ _ _ _ _ => trivial, fun _ _ _ _ => trivial⟩

def At (no : ℕ) (f : Mutex → Mode → ℕ) (Q : SharedLsm V → Prop) (s : SharedLsm V) : Prop := s.locks no = f ∧ Q s

theorem Steady.at (hQ : Steady no f Q) (h : At no f Q s) (hu : Undisturbed no s s') : At no f Q s' :=
  ⟨hu.locks.trans h.1, hQ.stable s s' h.1 h.2 hu⟩

section Locking

variable {m : Mutex} {mode : Mode} {mutex : SharedMutex}

theorem quiet_update (s : SharedLsm V) (m : Mutex) (mutex : SharedMutex) :
    Quiet s { s with mutex := Function.update s.mutex m mutex } := ⟨_, s.faults, s.lsm.dir, rfl⟩

theorem owned_update (h : ∀ m, (s.mutex m).Owned) (hm : mutex.Owned) (m' : Mutex) :
    (Function.update s.mutex m mutex m').Owned := by
  by_cases he : m' = m
  · rw [he, Function.update_self]
    exact hm
  · rw [Function.update_of_ne he]
    exact h m'

theorem locks_update (s : SharedLsm V) (no : ℕ) (m m' : Mutex) (mutex : SharedMutex) (mode' : Mode) :
    locks { s with mutex := Function.update s.mutex m mutex } no m' mode' =
      if m' = m then mutex.owners.count (no, mode') else s.locks no m' mode' := by
  by_cases he : m' = m
  · rw [if_pos he, he, locks]
    simp only [Function.update_self]
  · rw [if_neg he, locks]
    simp only [Function.update_of_ne he]
    rfl

/-- A mutex with other owners, none of whom is `no`. -/
theorem locks_update_eq (h : ∀ mode', mutex.owners.count (no, mode') = (s.mutex m).owners.count (no, mode')) :
    locks { s with mutex := Function.update s.mutex m mutex } no = s.locks no := by
  funext m' mode'
  rw [locks_update]
  split_ifs with he
  · rw [he]
    exact h mode'
  · rfl

theorem count_locked (mutex : SharedMutex) (no no' : ℕ) (mode mode' : Mode) :
    (mutex.locked no mode).owners.count (no', mode') =
      mutex.owners.count (no', mode') + if no' = no ∧ mode' = mode then 1 else 0 := by
  change ((no, mode) :: mutex.owners).count (no', mode') = _
  rw [List.count_cons]
  congr 1
  by_cases he : no' = no ∧ mode' = mode
  · rw [if_pos he, he.1, he.2]
    simp
  · rw [if_neg he, if_neg]
    intro hb
    cases eq_of_beq hb
    exact he ⟨rfl, rfl⟩

theorem count_unlock (mutex : SharedMutex) (no no' : ℕ) (mode mode' : Mode) :
    (mutex.unlock no mode).owners.count (no', mode') =
      mutex.owners.count (no', mode') - if no' = no ∧ mode' = mode then 1 else 0 := by
  change (mutex.owners.erase (no, mode)).count (no', mode') = _
  rw [List.count_erase]
  congr 1
  by_cases he : no' = no ∧ mode' = mode
  · rw [if_pos he, he.1, he.2]
    simp
  · rw [if_neg he, if_neg]
    intro hb
    cases eq_of_beq hb
    exact he ⟨rfl, rfl⟩

/-- A turn of `TryLock` takes the lock, or leaves one more to wait. -/
theorem after_tryLock (hQ : Steady c.no f Q) (hs : At c.no f Q s) (hi : Inv fs base s) :
    After (terms fs base c) s (fun s _ => At c.no f Q s) (fun s _ => At c.no (plus f m mode) Q s)
      (s.tryLock c.no m mode) := by
  rw [tryLock, SharedMutex.tryLock]
  by_cases hp : (s.mutex m).predicate mode
  · rw [if_pos hp]
    have hq := quiet_update s m ((s.mutex m).locked c.no mode)
    refine ⟨hi.quiet hq (owned_update hi.owned ((hi.owned m).locked hp c.no)) hi.faults, Did.quiet hq ?_, ?_,
      hQ.quiet _ _ hs.2 hq⟩
    · intro no hne
      refine locks_update_eq fun mode' => ?_
      rw [count_locked, if_neg fun h => hne h.1, Nat.add_zero]
    · funext m' mode'
      change locks { s with mutex := Function.update s.mutex m ((s.mutex m).locked c.no mode) } c.no m' mode' = _
      rw [locks_update, plus, ← hs.1]
      by_cases hm : m' = m
      · rw [if_pos hm, hm, count_locked, locks]
        by_cases hmode : mode' = mode
        · rw [if_pos ⟨rfl, hmode⟩, if_pos ⟨rfl, hmode⟩]
        · rw [if_neg fun h => hmode h.2, if_neg fun h => hmode h.2, Nat.add_zero]
      · rw [if_neg hm, if_neg fun h => hm h.1]
  · rw [if_neg hp]
    have hq := quiet_update s m
      { s.mutex m with waiters := (s.mutex m).waiters ++ [(s.mutex m).timers], timers := (s.mutex m).timers + 1 }
    have howned : SharedMutex.Owned
        { s.mutex m with
          waiters := (s.mutex m).waiters ++ [(s.mutex m).timers]
          timers := (s.mutex m).timers + 1 } := by
      cases hi.owned m with
      | shared hstate hmode => exact .shared hstate hmode
      | exclusive no hstate howners => exact .exclusive no hstate howners
    exact ⟨hi.quiet hq (owned_update hi.owned howned) hi.faults,
      Did.quiet hq fun no _ => locks_update_eq (m := m) fun _ => rfl,
      Eq.trans (locks_update_eq (m := m) (fun _ => rfl)) hs.1, hQ.quiet _ _ hs.2 hq⟩

theorem calls_lock (hQ : Steady c.no f Q) (hs : At c.no f Q s) :
    Calls (kernel o) (terms fs base c) (.lock c.no m mode) (fun s _ => At c.no (plus f m mode) Q s) s := by
  refine calls_of (P := At c.no f Q) (fun _ _ hP hu => hQ.at hP hu) ?_ ?_
  · intro hi _
    exact after_tryLock hQ hs hi
  · intro u b x hP hi _ hw
    cases b with
    | disk => cases hw
    | timer n =>
      change (if n ∈ (u.mutex m).waiters then none else some (u.tryLock c.no m mode)) = some x at hw
      split_ifs at hw
      rw [← Option.some.inj hw]
      exact after_tryLock hQ hP hi

theorem calls_unlock (hQ : Steady c.no f Q) (hs : At c.no (plus f m mode) Q s) :
    Calls (kernel o) (terms fs base c) (.unlock c.no m mode) (fun s _ => At c.no f Q s) s := by
  refine calls_now (r := ()) rfl fun hi _ => ?_
  have hq := quiet_update s m ((s.mutex m).unlock c.no mode)
  have hmem : (c.no, mode) ∈ (s.mutex m).owners := by
    rw [← List.count_pos_iff]
    change 0 < s.locks c.no m mode
    rw [hs.1]
    exact plus_self f m mode
  refine ⟨hi.quiet hq (owned_update hi.owned ((hi.owned m).unlock hmem)) hi.faults, Did.quiet hq ?_, ?_,
    hQ.quiet _ _ hs.2 hq⟩
  · intro no hne
    refine locks_update_eq fun mode' => ?_
    rw [count_unlock, if_neg fun h => hne h.1, Nat.sub_zero]
  · funext m' mode'
    have hold : s.locks c.no m' mode' = plus f m mode m' mode' := congrFun (congrFun hs.1 m') mode'
    rw [locks_update]
    by_cases hm : m' = m
    · rw [if_pos hm, count_unlock, ← hm]
      change s.locks c.no m' mode' - _ = _
      rw [hold, plus]
      by_cases hmode : mode' = mode
      · rw [if_pos ⟨hm, hmode⟩, if_pos ⟨rfl, hmode⟩, Nat.add_sub_cancel]
      · rw [if_neg fun h => hmode h.2, if_neg fun h => hmode h.2, Nat.sub_zero]
    · rw [if_neg hm, hold, plus, if_neg fun h => hm h.1]

end Locking

section Files

theorem calls_tree {post : SharedLsm V → Lsm V → Prop} (hpost : post s s.lsm) :
    Calls (kernel o) (terms fs base c) .tree post s :=
  calls_now (r := s.lsm) rfl fun hi _ => ⟨hi, .refl c s, hpost⟩

theorem calls_writeTable (hQ : Steady c.no f Q) (hs : At c.no f Q s) (t : SSTable V) :
    Calls (kernel o) (terms fs base c) (.writeTable t) (fun s _ => At c.no f Q s) s := by
  refine calls_now (r := ()) rfl fun hi _ => ?_
  have hq : Quiet s { s with lsm := s.lsm.writeTable t } := ⟨s.mutex, s.faults, _, rfl⟩
  exact ⟨hi.quiet hq hi.owned hi.faults, Did.quiet hq fun _ _ => rfl, hs.1, hQ.quiet _ _ hs.2 hq⟩

theorem mem_of_headD {faults : List Bool} (h : faults <:+ fs) (ht : faults.headD false = true) : true ∈ fs := by
  cases faults with
  | nil => cases ht
  | cons b faults =>
    obtain rfl : b = true := ht
    exact h.subset List.mem_cons_self

/-- A file operation that has thrown is one of the faults. -/
theorem calls_disk (op : Op V) (hQ : Steady c.no f Q) (hs : At c.no f Q s) {threw : Res op → Prop}
    (hperform : ∀ s : SharedLsm V, perform o s op = (s, .inr .disk))
    (hwake : ∀ (s : SharedLsm V) b x, wake s op b = some x → ∃ u res, x = (u, .inl res) ∧ Quiet s u ∧
      u.mutex = s.mutex ∧
      u.faults = s.faults.tail ∧ (threw res → s.faults.headD false = true)) :
    Calls (kernel o) (terms fs base c) op (fun s res => At c.no f Q s ∧ (threw res → true ∈ fs)) s := by
  refine calls_of (P := At c.no f Q) (fun _ _ hP hu => hQ.at hP hu) ?_ ?_
  · intro hi _
    change After _ _ _ _ (perform o s op)
    rw [hperform s]
    exact ⟨hi, .refl c s, hs⟩
  · intro u b x hP hi _ hw
    obtain ⟨u', res, rfl, hq, hmutex, hfaults, hthrew⟩ := hwake u b x hw
    have hsuffix : u'.faults <:+ fs := by
      rw [hfaults]
      exact (List.tail_suffix _).trans hi.faults
    have hlocks (no : ℕ) : u'.locks no = u.locks no := by
      funext m mode
      rw [locks, locks, hmutex]
    exact ⟨hi.quiet hq (by rw [hmutex]; exact hi.owned) hsuffix, Did.quiet hq fun no _ => hlocks no,
      ⟨(hlocks c.no).trans hP.1, hQ.quiet _ _ hP.2 hq⟩, fun ht => mem_of_headD hi.faults (hthrew ht)⟩

theorem calls_io (hQ : Steady c.no f Q) (hs : At c.no f Q s) :
    Calls (kernel o) (terms fs base c) .io (fun s threw => At c.no f Q s ∧ (threw = true → true ∈ fs)) s := by
  refine calls_disk (o := o) .io hQ hs (fun _ => rfl) ?_
  intro s b x hw
  cases b with
  | timer n => cases hw
  | disk =>
    rw [← Option.some.inj hw]
    exact ⟨_, _, rfl, ⟨s.mutex, s.faults.tail, s.lsm.dir, rfl⟩, rfl, rfl, id⟩

theorem calls_remove (hQ : Steady c.no f Q) (hs : At c.no f Q s) (path : Bytes) :
    Calls (kernel o) (terms fs base c) (.remove path)
      (fun s threw => At c.no f Q s ∧ (threw = true → true ∈ fs)) s := by
  refine calls_disk (o := o) (.remove path) hQ hs (fun _ => rfl) ?_
  intro s b x hw
  cases b with
  | timer n => cases hw
  | disk =>
    rw [wake] at hw
    split_ifs at hw with hthrew
    · rw [← Option.some.inj hw]
      exact ⟨_, _, rfl, ⟨s.mutex, s.faults.tail, s.lsm.dir, rfl⟩, rfl, rfl, fun _ => hthrew⟩
    · rw [← Option.some.inj hw]
      exact ⟨_, _, rfl, ⟨s.mutex, s.faults.tail, _, rfl⟩, rfl, rfl, fun h => by cases h⟩

def Throws (fs : List Bool) (no : ℕ) (f : Mutex → Mode → ℕ) (Q : SharedLsm V → Prop)
    (X : SharedLsm V → Exception → Prop) : Prop := ∀ s e, At no f Q s → true ∈ fs → X s e

theorem sat_io (hQ : Steady c.no f Q) (hX : Throws fs c.no f Q X) (hs : At c.no f Q s) :
    (io : Program V Unit).Sat (kernel o) (terms fs base c) (fun s _ => At c.no f Q s) X s := by
  refine Coro.Sat.bind (Coro.sat_perform ((calls_io hQ hs).mono ?_))
  rintro u threw ⟨hu, hthrew⟩
  cases threw with
  | true => exact hX u _ hu (hthrew rfl)
  | false => exact hu

theorem sat_ios (hQ : Steady c.no f Q) (hX : Throws fs c.no f Q X) (n : ℕ) (hs : At c.no f Q s) :
    (ios n : Program V Unit).Sat (kernel o) (terms fs base c) (fun s _ => At c.no f Q s) X s := by
  induction n generalizing s with
  | zero => exact hs
  | succ n ih => exact Coro.Sat.bind ((sat_io hQ hX hs).mono (fun u _ hu => ih hu) fun _ _ h => h)

theorem sat_buildTable (hQ : Steady c.no f Q) (hX : Throws fs c.no f Q X) (t : SSTable V) (hs : At c.no f Q s) :
    (buildTable t).Sat (kernel o) (terms fs base c) (fun s _ => At c.no f Q s) X s := by
  refine Coro.Sat.bind ((sat_ios hQ hX 2 hs).mono (fun u _ hu => ?_) fun _ _ h => h)
  refine Coro.Sat.bind ((sat_ios hQ hX _ hu).mono (fun u _ hu => ?_) fun _ _ h => h)
  refine Coro.Sat.bind ((sat_ios hQ hX 2 hu).mono (fun u _ hu => ?_) fun _ _ h => h)
  refine Coro.Sat.bind (Coro.sat_perform ((calls_writeTable hQ hu t).mono fun u _ hu => ?_))
  exact sat_ios hQ hX 2 hu

theorem sat_removeFiles (hQ : Steady c.no f Q) (hX : Throws fs c.no f Q X) (paths : List Bytes) (hs : At c.no f Q s) :
    (removeFiles paths : Program V Unit).Sat (kernel o) (terms fs base c) (fun s _ => At c.no f Q s) X s := by
  induction paths generalizing s with
  | nil => exact hs
  | cons path paths ih =>
    refine Coro.Sat.bind (Coro.sat_perform ((calls_remove hQ hs path).mono ?_))
    rintro u threw ⟨hu, hthrew⟩
    cases threw with
    | true => exact hX u _ hu (hthrew rfl)
    | false => exact ih hu

end Files

end SharedLsm

end StructureDb
