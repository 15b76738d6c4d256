import StructureDb.Proofs.SharedRuns

/-! `Put` takes its number before it waits for `shared_mutex_`, and who waits can be overtaken. As
long as no `Put` comes while another one waits, records come into memory in the order of their
numbers, and what is at most `max_persistent_seq_no_` has been in a table. -/

namespace StructureDb.SharedLsm

open Coroutine

variable {V : Type} [LinearOrder V] {o : Options} {α : Type}

def Op.Draws : Op V → Prop
  | .assign _ _ _ => True
  | .accept _ _ => True
  | _ => False

def DrawsNot (c : Program V α) : Prop := c.All fun op => ¬ op.Draws

namespace DrawsNot

theorem ret (a : α) : DrawsNot (pure a : Program V α) := trivial

theorem raise (e : Exception) : DrawsNot (throw e : Program V α) := trivial

theorem call {op : Op V} (h : ¬ op.Draws) : DrawsNot (call op) := Coro.all_perform h

theorem bind {β : Type} {c : Program V α} {f : α → Program V β} (hc : DrawsNot c) (hf : ∀ a, DrawsNot (f a)) :
    DrawsNot (c >>= f) := Coro.All.bind hc hf

/-- A file operation that may throw, and what comes behind. -/
theorem threw {b : Bool} {c : Program V α} (hc : DrawsNot c) : DrawsNot (if b then throw .file else c) := by
  cases b
  · exact hc
  · exact raise _

theorem io : DrawsNot (io : Program V Unit) := bind (call not_false) fun _ => threw (ret ())

theorem ios (n : ℕ) : DrawsNot (ios n : Program V Unit) := by
  induction n with
  | zero => exact ret ()
  | succ n ih => exact io.bind fun _ => ih

theorem doPut (no : ℕ) (r : Record V) : DrawsNot (doPut no r) :=
  bind (call not_false) fun _ => bind (call not_false) fun _ => call not_false

theorem load (x : Source V) : DrawsNot x.load := by
  rw [Source.load]
  split_ifs
  · exact io
  · exact ret ()

theorem advance (current : Source V) (pending : List (Source V)) : DrawsNot (advance current pending) := by
  induction pending generalizing current with
  | nil => obtain ⟨onDisk, _ | ⟨r, rest⟩⟩ := current <;> exact ret _
  | cons next pending ih =>
    obtain ⟨onDisk, _ | ⟨r, rest⟩⟩ := current
    · exact (load next).bind fun _ => ih next
    · exact ret _

theorem first (l : Lsm V) (key : Bytes) : DrawsNot (first l key) := by
  refine (advance _ _).bind ?_
  rintro ⟨⟨onDisk, _ | ⟨r, rest⟩⟩, pending⟩
  · exact ret _
  · exact (load _).bind fun _ => (advance _ _).bind fun _ => ret _

theorem get (no : ℕ) (key : Bytes) : DrawsNot (get no key : Program V (Option V)) :=
  bind (call not_false) fun _ => bind (call not_false) fun l => (first l key).bind fun _ =>
    bind (call not_false) fun _ => ret _

theorem buildTable (t : SSTable V) : DrawsNot (buildTable t) :=
  (ios 2).bind fun _ => (ios _).bind fun _ => (ios 2).bind fun _ => bind (call not_false) fun _ => ios 2

theorem flushFront (no : ℕ) : DrawsNot (flushFront no : Program V Unit) := by
  refine bind (call not_false) fun l => ?_
  rcases hl : Lsm.roMemTables l with _ | ⟨m, rest⟩
  · exact ret ()
  · exact (buildTable _).bind fun _ => bind (call not_false) fun _ => bind (call not_false) fun _ => call not_false

theorem flushTables (no pending : ℕ) : DrawsNot (flushTables no pending : Program V Unit) := by
  induction pending with
  | zero => exact ret ()
  | succ pending ih => exact (flushFront no).bind fun _ => ih

theorem flush (no : ℕ) : DrawsNot (flush no : Program V Unit) :=
  bind (call not_false) fun _ => bind (call not_false) fun _ => bind (call not_false) fun _ =>
    bind (call not_false) fun _ => (flushTables no _).bind fun _ => call not_false

theorem removeFiles (paths : List Bytes) : DrawsNot (removeFiles paths : Program V Unit) := by
  induction paths with
  | nil => exact ret ()
  | cons path paths ih => exact bind (call not_false) fun _ => threw ih

theorem compact (no : ℕ) (strategy : List (Record V) → List (Record V)) : DrawsNot (compact no strategy) :=
  bind (call not_false) fun _ => bind (call not_false) fun _ => (ios _).bind fun _ => (ios _).bind fun _ =>
    (buildTable _).bind fun _ => bind (call not_false) fun _ => bind (call not_false) fun _ =>
    bind (call not_false) fun _ => (removeFiles _).bind fun _ => call not_false

end DrawsNot

def TakesTurns (p : CallPool V) : Action V → Prop
  | .call (.put _ _) => p.shared.putting = []
  | .call (.putSeq r) => r.seqNo = p.shared.lsm.nextSeqNo → p.shared.putting = []
  | _ => True

instance [DecidableEq V] (p : CallPool V) : (a : Action V) → Decidable (TakesTurns p a)
  | .call (.put _ _) => inferInstanceAs (Decidable (p.shared.putting = []))
  | .call (.putSeq r) => inferInstanceAs (Decidable (r.seqNo = p.shared.lsm.nextSeqNo → p.shared.putting = []))
  | .call (.get _) => isTrue trivial
  | .call .flush => isTrue trivial
  | .call (.compact _) => isTrue trivial
  | .resume _ => isTrue trivial

/-- No two calls of `Put` have been under way at once, and those that have their numbers take no more. -/
structure TurnsTaken (p : CallPool V) : Prop where
  alone : p.shared.overlapped = false
  tasks : ∀ x ∈ p.tasks, x.2.All fun op => ¬ op.Draws

namespace TurnsTaken

variable {p p' : CallPool V} {s s' : SharedLsm V} {op : Op V}

theorem overlapped_perform (h : ¬ op.Draws) : (perform o s op).1.overlapped = s.overlapped := by
  cases op with
  | assign no key value => exact absurd trivial h
  | accept no r => exact absurd trivial h
  | _ => rfl

theorem overlapped_wake {b : Wait} {x : Res op ⊕ Wait} (h : wake s op b = some (s', x)) :
    s'.overlapped = s.overlapped := by
  cases op with
  | lock no m mode =>
    cases b with
    | disk => cases h
    | timer n =>
      rw [wake] at h
      split_ifs at h
      cases h
      rfl
  | io =>
    cases b with
    | timer n => cases h
    | disk =>
      cases h
      rfl
  | remove path =>
    cases b with
    | timer n => cases h
    | disk =>
      rw [wake] at h
      split_ifs at h <;> cases h <;> rfl
  | _ => cases h

theorem advance {t t' : Task (Res (V := V)) Wait Exception (Answer V)} (ht : t.All fun op => ¬ op.Draws)
    (ha : (kernel o).advance s t = some (s', t')) : s'.overlapped = s.overlapped ∧ t'.All fun op => ¬ op.Draws :=
  Kernel.advance_rel (R := fun s s' : SharedLsm V => s'.overlapped = s.overlapped) (fun _ => rfl)
    (fun _ _ _ h h' => h'.trans h)
    (fun _ _ hop => overlapped_perform hop) (fun _ _ _ _ _ _ hw => overlapped_wake hw) ht ha

theorem add (h : TurnsTaken p) {c : Caller V} {t : Task (Res (V := V)) Wait Exception (Answer V)}
    (hs : s.overlapped = false) (ht : t.All fun op => ¬ op.Draws) : TurnsTaken ⟨s, p.tasks ++ [(c, t)]⟩ := by
  refine ⟨hs, ?_⟩
  intro x hx
  rcases List.mem_append.mp hx with hx | hx
  · exact h.tasks x hx
  · obtain rfl := List.mem_singleton.mp hx
    exact ht

theorem rest (no : ℕ) (r : Record V) (increment : ℕ) (answer : α) :
    DrawsNot (do doPut no r; call (.settle no increment); pure answer : Program V α) :=
  .bind (.doPut no r) fun _ => .bind (.call not_false) fun _ => .ret answer

theorem launch (h : TurnsTaken p) {c : Caller V} (hc : DrawsNot (program c)) :
    TurnsTaken (p.launch (kernel o) program p.shared c) := by
  have hready : Task.All (fun op => ¬ op.Draws)
      (.ready (program c) : Task (Res (V := V)) Wait Exception (Answer V)) := hc
  obtain ⟨hs, ht⟩ := advance (o := o) hready rfl
  exact h.add (hs.trans h.alone) ht

/-- A call whose first operation may give it its number. -/
theorem launch_call (h : TurnsTaken p) {c : Caller V} {k : Res op → Program V (Answer V)} {res : Res op}
    (hc : program c = .call op k) (hperform : perform o p.shared op = (s, .inl res)) (hs : s.overlapped = false)
    (hk : DrawsNot (k res)) : TurnsTaken (p.launch (kernel o) program p.shared c) := by
  have hready : Task.All (fun op => ¬ op.Draws) (.ready (k res) : Task (Res (V := V)) Wait Exception (Answer V)) := hk
  obtain ⟨hs', ht⟩ := advance (o := o) (s := s) hready rfl
  rw [Pool.launch, hc, Kernel.run_call hperform]
  exact h.add (hs'.trans hs) ht

theorem overlapped_draw (h : TurnsTaken p) (hidle : p.shared.putting = []) (no : ℕ) (r : Record V) :
    (p.shared.draw no r).overlapped = false := by
  change (p.shared.overlapped || !p.shared.putting.isEmpty) = false
  rw [h.alone, hidle]
  rfl

theorem step {a : Action V} (h : TurnsTaken p) (hg : TakesTurns p a) (hstep : SharedLsm.step o p a = some p') :
    TurnsTaken p' := by
  cases a with
  | call call =>
    rw [← Option.some.inj hstep]
    cases call with
    | put key value =>
      exact h.launch_call rfl rfl (h.overlapped_draw hg p.tasks.length ⟨key, p.shared.lsm.nextSeqNo, value⟩)
        (.bind (rest _ _ 0 _) fun _ => .ret _)
    | putSeq r =>
      by_cases hseq : r.seqNo = p.shared.lsm.nextSeqNo
      · have hperform : perform o p.shared (.accept p.tasks.length r) = (p.shared.draw p.tasks.length r,
          .inl true) := by
          rw [perform, if_neg (not_not.mpr hseq)]
        exact h.launch_call rfl hperform (h.overlapped_draw (hg hseq) _ _) (.bind (rest _ _ 1 _) fun _ => .ret _)
      · have hperform : perform o p.shared (.accept p.tasks.length r) = (p.shared, .inl false) := by
          rw [perform, if_pos hseq]
        exact h.launch_call rfl hperform h.alone (.bind (.ret _) fun _ => .ret _)
    | get key => exact h.launch (.bind (.get _ key) fun _ => .ret _)
    | flush => exact h.launch (.bind (.flush _) fun _ => .ret _)
    | compact strategy => exact h.launch (.bind (.compact _ strategy) fun _ => .ret _)
  | resume i =>
    rw [SharedLsm.step] at hstep
    rcases Pool.step_cases hstep with ⟨_, hl, -⟩ | ⟨j, c, t, s, t', pre, post, hj, hi, ha, htasks, rfl⟩
    · cases hl
    · have hmem : ∀ x ∈ pre ++ (c, t) :: post, x.2.All fun op => ¬ op.Draws := htasks ▸ h.tasks
      obtain ⟨hoverlapped, ht'⟩ := advance (hmem (c, t) (by simp)) ha
      refine ⟨hoverlapped.trans h.alone, ?_⟩
      intro x hx
      rcases List.mem_append.mp hx with hx | hx
      · exact hmem x (by simp [hx])
      · rcases List.mem_cons.mp hx with rfl | hx
        · exact ht'
        · exact hmem x (by simp [hx])

end TurnsTaken

theorem insertion_order (o : Options) (dir : Dir Bytes (List (Record V))) (faults : List Bool) (acts : List (Action V))
    (p : CallPool V) (hg : Machine.Guarded (step o) TakesTurns (start dir faults) acts)
    (hr : Machine.run (step o) (start dir faults) acts = some p) :
    (p.shared.entered.Pairwise fun r r' => r.seqNo < r'.seqNo) ∧
      (∀ r ∈ p.shared.lsm.memRecords, p.shared.lsm.maxPersistentSeqNo < r.seqNo) ∧
      ∀ r ∈ p.shared.drawn, r.seqNo ≤ p.shared.lsm.maxPersistentSeqNo → r ∈ p.shared.tabled := by
  have hturns : TurnsTaken p :=
    Machine.run_inv (P := fun _ p => TurnsTaken p) ⟨rfl, fun _ hx => absurd hx List.not_mem_nil⟩
      (fun _ _ _ _ hp hg hstep => hp.step hg hstep) hg hr
  have horder := (Running.run hr).inv.order hturns.alone
  exact ⟨horder.ascending, fun r hr => (horder.memory r hr).2, fun r hr hle => horder.tabled hr hle⟩

/-- A `Put` comes while a flush is under way. -/
theorem insertion_order_flush :
    ∃ p, Machine.run (step ⟨0⟩) (start (Dir.empty : Dir Bytes (List (Record ℕ))) [])
        ([.call (.put [1] 5), .call .flush, .resume 1, .call (.put [2] 6)] ++ List.replicate 6 (.resume 1)) = some p ∧
      (p.shared.lsm.maxPersistentSeqNo = 1 ∧ p.shared.entered = [⟨[1], 1, 5⟩, ⟨[2], 2, 6⟩]) ∧
      (p.shared.entered.Pairwise fun r r' => r.seqNo < r'.seqNo) ∧
      (∀ r ∈ p.shared.lsm.memRecords, p.shared.lsm.maxPersistentSeqNo < r.seqNo) ∧
      ∀ r ∈ p.shared.drawn, r.seqNo ≤ p.shared.lsm.maxPersistentSeqNo → r ∈ p.shared.tabled :=
  Machine.exists_run_of
    (T := fun p : CallPool ℕ => p.shared.lsm.maxPersistentSeqNo = 1 ∧
      p.shared.entered = [⟨[1], 1, 5⟩, ⟨[2], 2, 6⟩])
    (by decide +kernel) fun p hp ht => ⟨ht, insertion_order _ _ _ _ p (by decide +kernel) hp⟩

/-- A `Get` has `shared_mutex_` while a `Put` with number 2 waits for it. When it is free again, another `Put` comes
first; its record, with number 3, is frozen and flushed, and what has number 2 is below the mark and in no table. -/
theorem overtaken_put :
    ∃ p ∈ Machine.run (step ⟨0⟩) (start (Dir.empty.create (sstName 0) [⟨[1], 1, 4⟩]) [])
        ([.call (.get [1]), .call (.put [2] 5), .resume 0, .resume 0, .call (.put [3] 6), .call .flush] ++
          List.replicate 7 (.resume 3) ++ [.resume 1]),
      p.shared.entered = [⟨[3], 3, 6⟩, ⟨[2], 2, 5⟩] ∧ p.shared.lsm.maxPersistentSeqNo = 3 ∧
      (⟨[2], 2, 5⟩ : Record ℕ) ∈ p.shared.lsm.memRecords ∧ (⟨[2], 2, 5⟩ : Record ℕ) ∈ p.shared.drawn ∧
      (⟨[2], 2, 5⟩ : Record ℕ) ∉ p.shared.tabled := by
  decide +kernel

end StructureDb.SharedLsm
