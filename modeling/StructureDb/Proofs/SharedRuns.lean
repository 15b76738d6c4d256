import StructureDb.Proofs.SharedCalls

/-! Runs of a tree under concurrent calls: what each call comes to, and from that what holds of
the mutexes and of the order of the records after every interleaving. -/

namespace StructureDb.SharedLsm

open Coroutine

variable {V : Type} [LinearOrder V] {o : Options} {base no : ℕ} {fs : List Bool} {c : Caller V} {s s' : SharedLsm V}
  {r : Record V} {l : Lsm V} {f : Mutex → Mode → ℕ} {X : SharedLsm V → Exception → Prop}

section Put

variable {increment : ℕ}

/-- The call is the only `Put` under way, if there has never been another beside one. -/
def Alone (base no : ℕ) (r : Record V) (increment : ℕ) (s : SharedLsm V) : Prop :=
  s.overlapped = false → Waiting base no r increment s

theorem steady_alone (f : Mutex → Mode → ℕ) : Steady no f (Alone base no r increment) where
  stable := by
    intro s s' _ hs hu ho
    have hw := hs (hu.overlapped ho)
    obtain ⟨hputting, hentered, hnext⟩ := hu.puts ho r hw.putting
    exact ⟨hputting.trans hw.putting, hw.base, by rw [hentered]; exact hw.below, by rw [hnext]; exact hw.next⟩
  quiet := by
    rintro s s' hs ⟨mutex, faults, dir, rfl⟩ ho
    have hw := hs ho
    exact ⟨hw.putting, hw.base, hw.below, hw.next⟩

theorem calls_draw (op : Op V) (increment next : ℕ) {res : Res op} (hc : ∀ l l', Effect c.call l l')
    (hperform : perform o s op = ({ s.draw c.no r with lsm := { s.lsm with nextSeqNo := next } }, .inl res))
    (hseq : r.seqNo = s.lsm.nextSeqNo) (hnext : next + increment = r.seqNo + 1) (hmono : s.lsm.nextSeqNo ≤ next)
    (hs : s.locks c.no = noLocks) :
    Calls (kernel o) (terms fs base c) op
      (fun s res' => res' = res ∧ At c.no noLocks (Alone base c.no r increment) s) s := by
  refine calls_now hperform fun hi _ => ?_
  -- without another `Put` before, this one is alone
  have halone : (s.draw c.no r).overlapped = false → s.overlapped = false ∧ s.putting = [] := by
    intro ho
    change (s.overlapped || !s.putting.isEmpty) = false at ho
    simp only [Bool.or_eq_false_iff, Bool.not_eq_false', List.isEmpty_iff] at ho
    exact ho
  have hdraw : (s.draw c.no r).overlapped = false → _ := fun ho =>
    (hi.order (halone ho).1).draw c.no (halone ho).2 (hseq ▸ (hi.order (halone ho).1).next)
      (fun r' hr' => hseq ▸ (hi.order (halone ho).1).below (halone ho).2 r' hr') hnext hmono
  refine ⟨⟨hi.owned, hi.faults, fun ho => (hdraw ho).1⟩, ⟨?_, .single (hc _ _)⟩, rfl, hs, fun ho => (hdraw ho).2⟩
  intro no hne
  refine ⟨rfl, fun _ => ⟨rfl, List.prefix_rfl⟩, fun ho => (halone ho).1, ?_⟩
  intro ho r' hp
  rw [(halone ho).2] at hp
  cases hp

theorem calls_enter (hc : ∀ l l', Effect c.call l l') (hs : At c.no f (Alone base c.no r increment) s) :
    Calls (kernel o) (terms fs base c) (.enter r)
      (fun s _ => At c.no f (fun s => s.overlapped = false → Brought c.no r increment s) s) s := by
  refine calls_now (r := ()) rfl fun hi _ => ?_
  have henter := fun ho => (hi.order ho).enter (hs.2 ho) o
  refine ⟨⟨hi.owned, hi.faults, fun ho => (henter ho).1⟩, ⟨?_, .single (hc _ _)⟩, hs.1, fun ho => (henter ho).2⟩
  intro no hne
  refine ⟨rfl, fun _ => ⟨Lsm.doPut_ssTables .., Lsm.doPut_roMemTables ..⟩, id, ?_⟩
  intro ho r' hp
  rw [(hs.2 ho).putting] at hp
  cases List.singleton_inj.mp hp
  exact absurd rfl hne

theorem calls_settle (hc : ∀ l l', Effect c.call l l')
    (hs : At c.no f (fun s => s.overlapped = false → Brought c.no r increment s) s) :
    Calls (kernel o) (terms fs base c) (.settle c.no increment) (fun s _ => s.locks c.no = f) s := by
  refine calls_now (r := ()) rfl fun hi _ => ?_
  refine ⟨⟨hi.owned, hi.faults, fun ho => (hi.order ho).settle (hs.2 ho)⟩, ⟨?_, .single (hc _ _)⟩, hs.1⟩
  intro no hne
  refine ⟨rfl, fun _ => ⟨rfl, List.prefix_rfl⟩, id, ?_⟩
  intro ho r' hp
  rw [(hs.2 ho).putting] at hp
  cases List.singleton_inj.mp hp
  exact absurd rfl hne

theorem steady_brought : Steady (V := V) no f fun s => s.overlapped = false → Brought no r increment s where
  stable := by
    intro s s' _ hs hu ho
    have hb := hs (hu.overlapped ho)
    obtain ⟨hputting, hentered, hnext⟩ := hu.puts ho r hb.putting
    exact ⟨hputting.trans hb.putting, by rw [hentered]; exact hb.entered, by rw [hentered]; exact hb.below,
      by rw [hnext]; exact hb.next⟩
  quiet := by
    rintro s s' hs ⟨mutex, faults, dir, rfl⟩ ho
    have hb := hs ho
    exact ⟨hb.putting, hb.entered, hb.below, hb.next⟩

theorem sat_doPut (hc : ∀ l l', Effect c.call l l') (hs : At c.no noLocks (Alone base c.no r increment) s) :
    (doPut c.no r).Sat (kernel o) (terms fs base c)
      (fun s _ => At c.no noLocks (fun s => s.overlapped = false → Brought c.no r increment s) s) X s := by
  refine Coro.Sat.bind (Coro.sat_perform ((calls_lock (steady_alone _) hs).mono fun u _ hu => ?_))
  refine Coro.Sat.bind (Coro.sat_perform ((calls_enter hc hu).mono fun u _ hu => ?_))
  exact Coro.sat_perform (calls_unlock steady_brought hu)

theorem sat_put {key : Bytes} {value : V} (hc : ∀ l l', Effect c.call l l') (hs : s.locks c.no = noLocks) :
    (put c.no key value).Sat (kernel o) (terms fs base c) (fun s _ => s.locks c.no = noLocks) X s := by
  refine Coro.Sat.bind (Coro.sat_perform ((calls_draw (r := ⟨key, s.lsm.nextSeqNo, value⟩)
    (.assign c.no key value) 0 _ hc rfl rfl rfl (Nat.le_succ _) hs).mono ?_))
  rintro u n ⟨rfl, hu⟩
  refine Coro.Sat.bind ((sat_doPut hc hu).mono (fun u _ hu => ?_) fun _ _ h => h)
  exact Coro.Sat.bind (Coro.sat_perform ((calls_settle hc hu).mono fun u _ hu => hu))

theorem sat_putSeq (hc : ∀ l l', Effect c.call l l') (hs : s.locks c.no = noLocks) :
    (putSeq c.no r).Sat (kernel o) (terms fs base c) (fun s _ => s.locks c.no = noLocks) X s := by
  by_cases hseq : r.seqNo = s.lsm.nextSeqNo
  · have hperform : perform o s (.accept c.no r) = (s.draw c.no r, .inl true) := by
      rw [perform, if_neg (not_not.mpr hseq)]
    refine Coro.Sat.bind (Coro.sat_perform ((calls_draw (r := r) (.accept c.no r) 1
      s.lsm.nextSeqNo hc hperform hseq (by omega) le_rfl hs).mono ?_))
    rintro u accepted ⟨rfl, hu⟩
    refine Coro.Sat.bind ((sat_doPut hc hu).mono (fun u _ hu => ?_) fun _ _ h => h)
    exact Coro.Sat.bind (Coro.sat_perform ((calls_settle hc hu).mono fun u _ hu => hu))
  · have hperform : perform o s (.accept c.no r) = (s, .inl false) := by rw [perform, if_pos hseq]
    exact Coro.Sat.bind (Coro.sat_perform (calls_now (r := false) hperform fun hi _ => ⟨hi, .refl c s, hs⟩))

end Put

section Get

theorem sat_load (hX : Throws fs c.no f (fun _ => True) X) (x : Source V) (hs : At c.no f (fun _ => True) s) :
    x.load.Sat (kernel o) (terms fs base c) (fun s _ => At c.no f (fun _ => True) s) X s := by
  rw [Source.load]
  split_ifs
  · exact sat_io (steady_true _ _) hX hs
  · exact hs

theorem sat_advance (hX : Throws fs c.no f (fun _ => True) X) (pending : List (Source V)) (current : Source V)
    (hs : At c.no f (fun _ => True) s) :
    (advance current pending).Sat (kernel o) (terms fs base c) (fun s _ => At c.no f (fun _ => True) s) X s := by
  induction pending generalizing current s with
  | nil =>
    obtain ⟨onDisk, _ | ⟨r, rest⟩⟩ := current
    · exact hs
    · exact hs
  | cons next pending ih =>
    obtain ⟨onDisk, _ | ⟨r, rest⟩⟩ := current
    · exact Coro.Sat.bind ((sat_load hX next hs).mono (fun u _ hu => ih next hu) fun _ _ h => h)
    · exact hs

theorem sat_first (hX : Throws fs c.no f (fun _ => True) X) (key : Bytes) (hs : At c.no f (fun _ => True) s) :
    (first l key).Sat (kernel o) (terms fs base c) (fun s _ => At c.no f (fun _ => True) s) X s := by
  refine Coro.Sat.bind ((sat_advance hX _ _ hs).mono ?_ fun _ _ h => h)
  rintro u ⟨⟨onDisk, _ | ⟨r, rest⟩⟩, pending⟩ hu
  · exact hu
  · refine Coro.Sat.bind ((sat_load hX _ hu).mono (fun u _ hu => ?_) fun _ _ h => h)
    exact Coro.Sat.bind ((sat_advance hX _ _ hu).mono (fun u _ hu => hu) fun _ _ h => h)

theorem sat_get {key : Bytes} (hX : Throws fs c.no (plus noLocks .shared .shared) (fun _ => True) X)
    (hs : s.locks c.no = noLocks) :
    (get c.no key).Sat (kernel o) (terms fs base c) (fun s _ => s.locks c.no = noLocks) X s := by
  refine Coro.Sat.bind (Coro.sat_perform ((calls_lock (steady_true _ _) ⟨hs, trivial⟩).mono fun u _ hu => ?_))
  refine Coro.Sat.bind (Coro.sat_perform (calls_tree ?_))
  refine Coro.Sat.bind ((sat_first hX key hu).mono (fun u _ hu => ?_) fun _ _ h => h)
  exact Coro.Sat.bind (Coro.sat_perform ((calls_unlock (steady_true _ _) hu).mono fun u _ hu => hu.1))

end Get

section Maintenance

def Held (l : Lsm V) (s : SharedLsm V) : Prop := s.lsm.ssTables = l.ssTables ∧ l.roMemTables <+: s.lsm.roMemTables

theorem held_self (s : SharedLsm V) : Held s.lsm s := ⟨rfl, List.prefix_rfl⟩

theorem steady_held (hf : 0 < f .maintenance .exclusive) (l : Lsm V) : Steady no f (Held l) where
  stable := by
    intro s s' hlocks hs hu
    obtain ⟨hss, hro⟩ := hu.tables (by rw [hlocks]; exact hf)
    exact ⟨hss.trans hs.1, hs.2.trans hro⟩
  quiet := by
    rintro s s' hs ⟨mutex, faults, dir, rfl⟩
    exact hs

/-- Under its lock on `maintenance_mutex_` a call moves the tables. -/
theorem did_publish (hi : Inv fs base s) (hlock : 0 < s.locks c.no .maintenance .exclusive) {l' : Lsm V} {t : SSTable V}
    (hnext : l'.nextSeqNo = s.lsm.nextSeqNo) (heffect : Effect c.call s.lsm l') : Did c s (s.publish l' t) := by
  refine ⟨fun no hne => ⟨rfl, ?_, id, fun _ _ _ => ⟨rfl, rfl, hnext⟩⟩, .single heffect⟩
  intro hother
  have hsole := (hi.owned .maintenance).sole (List.count_pos_iff.mp hlock)
  have hmem := List.count_pos_iff.mp hother
  rw [hsole, List.mem_singleton] at hmem
  cases hmem
  exact absurd rfl hne

variable (hf : 0 < f .maintenance .exclusive)
include hf

theorem calls_publishFlush {m : MemTable V} {rest : List (MemTable V)} (hc : c.call = .flush)
    (hl : l.roMemTables = m :: rest) (hs : At c.no f (Held l) s) :
    Calls (kernel o) (terms fs base c) (.publishFlush (l.flushTable m)) (fun s _ => At c.no f (fun _ => True) s) s := by
  refine calls_now (r := ()) rfl fun hi _ => ?_
  obtain ⟨hlocks, hss, tail, hro⟩ := hs
  rw [hl, List.cons_append] at hro
  have htable : l.flushTable m = s.lsm.flushTable m := by rw [Lsm.flushTable, Lsm.flushTable, hss]
  refine ⟨⟨hi.owned, hi.faults, fun ho => (hi.order ho).publishFlush hro.symm rfl⟩, ?_, hlocks, trivial⟩
  refine did_publish hi (by rw [hlocks]; exact hf) rfl ?_
  rw [hc, htable]
  exact .flush s.lsm m _ hro.symm

theorem calls_publishCompact {strategy : List (Record V) → List (Record V)} (hc : c.call = .compact strategy)
    (hs : At c.no f (Held l) s) :
    Calls (kernel o) (terms fs base c) (.publishCompact (l.compactTable strategy))
      (fun s _ => At c.no f (fun _ => True) s) s := by
  refine calls_now (r := ()) rfl fun hi _ => ?_
  obtain ⟨hlocks, hss, -⟩ := hs
  have htable : l.compactTable strategy = s.lsm.compactTable strategy := by
    simp only [Lsm.compactTable, Lsm.compactNo, Lsm.mergedRecords, hss]
  refine ⟨⟨hi.owned, hi.faults, fun ho => (hi.order ho).publishCompact _⟩, ?_, hlocks, trivial⟩
  refine did_publish hi (by rw [hlocks]; exact hf) rfl ?_
  rw [hc, htable]
  exact .compact strategy s.lsm

theorem sat_flushFront (hc : c.call = .flush) (hX : ∀ Q, Throws fs c.no f Q X) (hs : At c.no f (fun _ => True) s) :
    (flushFront c.no : Program V Unit).Sat (kernel o) (terms fs base c)
    (fun s _ => At c.no f (fun _ => True) s) X s := by
  refine Coro.Sat.bind (Coro.sat_perform (calls_tree ?_))
  rcases hl : s.lsm.roMemTables with _ | ⟨m, rest⟩
  · exact hs
  · have hplus : 0 < plus f .shared .exclusive .maintenance .exclusive := by simpa [plus] using hf
    refine Coro.Sat.bind ((sat_buildTable (steady_held hf s.lsm) (hX _) _ ⟨hs.1, held_self s⟩).mono (fun u _ hu => ?_)
      fun _ _ h => h)
    refine Coro.Sat.bind (Coro.sat_perform ((calls_lock (steady_held hf s.lsm) hu).mono fun u _ hu => ?_))
    refine Coro.Sat.bind (Coro.sat_perform ((calls_publishFlush hplus hc hl hu).mono fun u _ hu => ?_))
    exact Coro.sat_perform (calls_unlock (steady_true _ _) hu)

theorem sat_flushTables (hc : c.call = .flush) (hX : ∀ Q, Throws fs c.no f Q X) (pending : ℕ)
    (hs : At c.no f (fun _ => True) s) :
    (flushTables c.no pending : Program V Unit).Sat (kernel o) (terms fs base c)
      (fun s _ => At c.no f (fun _ => True) s) X s := by
  induction pending generalizing s with
  | zero => exact hs
  | succ pending ih => exact Coro.Sat.bind ((sat_flushFront hf hc hX hs).mono (fun u _ hu => ih hu) fun _ _ h => h)

omit hf

theorem sat_flush (hc : c.call = .flush) (hX : ∀ Q, Throws fs c.no (plus noLocks .maintenance .exclusive) Q X)
    (hs : s.locks c.no = noLocks) :
    (flush c.no : Program V Unit).Sat (kernel o) (terms fs base c) (fun s _ => s.locks c.no = noLocks) X s := by
  refine Coro.Sat.bind (Coro.sat_perform ((calls_lock (steady_true _ _) ⟨hs, trivial⟩).mono fun u _ hu => ?_))
  refine Coro.Sat.bind (Coro.sat_perform ((calls_lock (steady_true _ _) hu).mono fun u _ hu => ?_))
  refine Coro.Sat.bind (Coro.sat_perform (calls_tree ?_))
  refine Coro.Sat.bind (Coro.sat_perform ((calls_unlock (steady_true _ _) hu).mono fun u _ hu => ?_))
  refine Coro.Sat.bind ((sat_flushTables (plus_self ..) hc hX _ hu).mono (fun u _ hu => ?_) fun _ _ h => h)
  exact Coro.sat_perform ((calls_unlock (steady_true _ _) hu).mono fun u _ hu => hu.1)

theorem sat_compact {strategy : List (Record V) → List (Record V)} (hc : c.call = .compact strategy)
    (hX : ∀ Q, Throws fs c.no (plus noLocks .maintenance .exclusive) Q X) (hs : s.locks c.no = noLocks) :
    (compact c.no strategy).Sat (kernel o) (terms fs base c) (fun s _ => s.locks c.no = noLocks) X s := by
  have hf : 0 < plus noLocks .maintenance .exclusive .maintenance .exclusive := plus_self ..
  have hplus : 0 < plus (plus noLocks .maintenance .exclusive) .shared .exclusive .maintenance .exclusive := by
    simp [plus]
  refine Coro.Sat.bind (Coro.sat_perform ((calls_lock (steady_true _ _) ⟨hs, trivial⟩).mono fun u _ hu => ?_))
  refine Coro.Sat.bind (Coro.sat_perform (calls_tree ?_))
  have hheld : Steady c.no _ (Held u.lsm) := steady_held hf u.lsm
  refine Coro.Sat.bind ((sat_ios hheld (hX _) _ ⟨hu.1, held_self u⟩).mono (fun v _ hv => ?_) fun _ _ h => h)
  refine Coro.Sat.bind ((sat_ios hheld (hX _) _ hv).mono (fun v _ hv => ?_) fun _ _ h => h)
  refine Coro.Sat.bind ((sat_buildTable hheld (hX _) _ hv).mono (fun v _ hv => ?_) fun _ _ h => h)
  refine Coro.Sat.bind (Coro.sat_perform ((calls_lock hheld hv).mono fun v _ hv => ?_))
  refine Coro.Sat.bind (Coro.sat_perform ((calls_publishCompact hplus hc hv).mono fun v _ hv => ?_))
  refine Coro.Sat.bind (Coro.sat_perform ((calls_unlock (steady_true _ _) hv).mono fun v _ hv => ?_))
  refine Coro.Sat.bind ((sat_removeFiles (steady_true _ _) (hX _) _ hv).mono (fun v _ hv => ?_) fun _ _ h => h)
  exact Coro.sat_perform ((calls_unlock (steady_true _ _) hv).mono fun v _ hv => hv.1)

end Maintenance

/-- The lock that is left when a file operation of the call throws. -/
def Call.leaves : Call V → Option (Mutex × Mode)
  | .put _ _ => none
  | .putSeq _ => none
  | .get _ => some (.shared, .shared)
  | .flush => some (.maintenance, .exclusive)
  | .compact _ => some (.maintenance, .exclusive)

def Ended (c : Caller V) (s : SharedLsm V) (_ : Answer V) : Prop := s.locks c.no = noLocks

def Failed (fs : List Bool) (c : Caller V) (s : SharedLsm V) (_ : Exception) : Prop :=
  ∃ x ∈ c.call.leaves, s.locks c.no = plus noLocks x.1 x.2 ∧ true ∈ fs

theorem throws_failed {x : Mutex × Mode} (hx : x ∈ c.call.leaves) (Q : SharedLsm V → Prop) :
    Throws fs c.no (plus noLocks x.1 x.2) Q (Failed fs c) := fun _ _ hs hfs => ⟨x, hx, hs.1, hfs⟩

theorem sat_program (c : Caller V) (hs : s.locks c.no = noLocks) :
    (program c).Sat (kernel o) (terms fs base c) (Ended c) (Failed fs c) s := by
  obtain ⟨no, call⟩ := c
  cases call with
  | put key value =>
    exact Coro.Sat.bind ((sat_put (fun l l' => .put key value l l') hs).mono (fun _ _ h => h) fun _ _ h => h)
  | putSeq r => exact Coro.Sat.bind ((sat_putSeq (fun l l' => .putSeq r l l') hs).mono (fun _ _ h => h) fun _ _ h => h)
  | get key =>
    exact Coro.Sat.bind ((sat_get (throws_failed (x := (.shared, .shared)) rfl _) hs).mono (fun _ _ h => h)
      fun _ _ h => h)
  | flush =>
    exact Coro.Sat.bind ((sat_flush rfl (throws_failed (x := (.maintenance, .exclusive)) rfl) hs).mono (fun _ _ h => h)
      fun _ _ h => h)
  | compact strategy =>
    exact Coro.Sat.bind ((sat_compact rfl (throws_failed (x := (.maintenance, .exclusive)) rfl) hs).mono
      (fun _ _ h => h)
      fun _ _ h => h)

structure Running (o : Options) (fs : List Bool) (base : ℕ) (p : CallPool V) : Prop where
  inv : Inv fs base p.shared
  numbered : Splits.Numbered (fun x => x.1.no) p.tasks
  sat : ∀ x ∈ p.tasks, x.2.Sat (kernel o) (terms fs base x.1) (Ended x.1) (Failed fs x.1) p.shared
  fresh : ∀ no, p.tasks.length ≤ no → p.shared.locks no = noLocks

namespace Running

variable {p p' : CallPool V}

theorem advance {s s' : SharedLsm V} {pre post : List (Caller V × Task (Res (V := V)) Wait Exception (Answer V))}
    {x : Caller V × Task (Res (V := V)) Wait Exception (Answer V)} {t' : Task (Res (V := V)) Wait Exception (Answer V)}
    (h : Running o fs base ⟨s, pre ++ x :: post⟩) (ha : (kernel o).advance s x.2 = some (s', t')) :
    Did x.1 s s' ∧ Running o fs base ⟨s', pre ++ (x.1, t') :: post⟩ := by
  obtain ⟨⟨hinv, hdid⟩, hsat⟩ := sat_splice (T := terms fs base) (Q := Ended) (X := Failed fs) (Did.refl x.1)
    (fun _ _ _ => Did.trans) h.sat h.inv ((kernel o).meets_of_forall (fun _ _ => trivial) _ _) ha
    (fun y hy hg => by
      have hu := hg.others _ (h.numbered.ne hy)
      exact ⟨hu, fun _ hy => hu.locks.trans hy, fun _ ⟨x, hx, hy, hfs⟩ => ⟨x, hx, hu.locks.trans hy, hfs⟩⟩)
  refine ⟨hdid, hinv, h.numbered.splice rfl, hsat, ?_⟩
  intro no hno
  have hlen : (pre ++ x :: post).length ≤ no := by simpa using hno
  -- the number of a task is the number of its place
  have hne : no ≠ x.1.no := by
    have hmem : x.1.no ∈ List.range (pre ++ x :: post).length := by
      rw [← h.numbered]
      exact List.mem_map.mpr ⟨x, by simp, rfl⟩
    have := List.mem_range.mp hmem
    omega
  exact (hdid.others no hne).locks.trans (h.fresh no hlen)

theorem init (o : Options) (dir : Dir Bytes (List (Record V))) (fs : List Bool) :
    Running o fs (Lsm.init dir).maxPersistentSeqNo (start dir fs) where
  inv := ⟨fun _ => SharedMutex.owned_unlocked, List.suffix_rfl, fun _ => .init dir fs⟩
  numbered := rfl
  sat := fun _ hx => absurd hx List.not_mem_nil
  fresh := fun _ _ => rfl

theorem launch (h : Running o fs base p) (call : Call V) :
    Running o fs base
      ⟨p.shared, p.tasks ++ [(⟨p.tasks.length, call⟩, .ready (program ⟨p.tasks.length, call⟩))]⟩ := by
  refine ⟨h.inv, h.numbered.concat rfl, ?_, fun no hno => h.fresh no (by simp at hno; omega)⟩
  intro x hx
  rcases List.mem_append.mp hx with hx | hx
  · exact h.sat x hx
  · obtain rfl := List.mem_singleton.mp hx
    exact ⟨fun s => s.locks p.tasks.length = noLocks, fun _ _ hs hu => hu.locks.trans hs, h.fresh _ le_rfl,
      fun _ hs => sat_program _ hs⟩

end Running

def caller (p : CallPool V) : Action V → Option (Caller V)
  | .call c => some ⟨p.tasks.length, c⟩
  | .resume i => p.tasks[i]?.map Prod.fst

theorem Running.step {p p' : CallPool V} {a : Action V} (h : Running o fs base p) (hstep : step o p a = some p') :
    Running o fs base p' ∧ ∀ c ∈ caller p a, Did c p.shared p'.shared := by
  cases a with
  | call call =>
    have hpool : Running o fs base ⟨p.shared, p.tasks ++ [_]⟩ := h.launch call
    obtain ⟨hdid, hp'⟩ := hpool.advance rfl
    rw [← Option.some.inj hstep]
    exact ⟨hp', fun c hc => Option.some.inj hc ▸ hdid⟩
  | resume i =>
    rw [SharedLsm.step] at hstep
    rcases Pool.step_cases hstep with ⟨_, hl, -⟩ | ⟨j, c, t, s, t', pre, post, hj, hi, ha, htasks, rfl⟩
    · cases hl
    · cases hj
      have hpool : Running o fs base ⟨p.shared, pre ++ (c, t) :: post⟩ := htasks ▸ h
      obtain ⟨hdid, hp'⟩ := hpool.advance ha
      refine ⟨hp', ?_⟩
      intro c' hc'
      rw [caller, hi] at hc'
      exact Option.some.inj hc' ▸ hdid

theorem Running.run {dir : Dir Bytes (List (Record V))} {acts : List (Action V)} {p : CallPool V}
    (hr : Machine.run (SharedLsm.step o) (start dir fs) acts = some p) :
    Running o fs (Lsm.init dir).maxPersistentSeqNo p :=
  Machine.run_inv (G := fun _ _ => True) (P := fun _ p => Running o fs (Lsm.init dir).maxPersistentSeqNo p)
    (.init o dir fs)
    (fun _ _ _ _ hp _ hstep => (hp.step hstep).1) (Machine.guarded_of_forall (fun _ _ _ => trivial) _) hr

end StructureDb.SharedLsm
