import StructureDb.Proofs.OpenIterators

/-! Scans of a tree that is in use. As long as no table goes away that the iterator stands on or has
still to come to, it delivers what there was at its creation, once and in order. -/

namespace StructureDb

variable {V : Type} [LinearOrder V]

namespace OpenScan

variable {rest : List (Record V)}

/-- The tables that go away or move are not those of the iterator: the mem table it stands on is not frozen; no frozen
mem table that it stands on or has still to come to is flushed, nor the vector moved under it; and no compaction
replaces the tables it stands on or has still to come to. -/
def Undisturbed (o : Options) (s : OpenScan V) : Input V → Prop
  | .act (.put _ _) =>
    o.maxRecordsInMemTable ≤ s.served.lsm.memTable.size → ∀ c ∈ s.it.tableIterators, c.source ≠ .active
  | .act .advance =>
    match s.served.job with
    | .flushWritten _ _ => ¬ s.it.frozenLeft ∧
      ∀ c ∈ s.it.tableIterators, c.source ≠ .frozen ∧ (s.room = 0 → c.source ≠ .stored)
    | .compactWritten _ _ => ¬ s.it.storedLeft ∧ ∀ c ∈ s.it.tableIterators, c.source ≠ .stored
    | _ => True
  | _ => True

instance (o : Options) (s : OpenScan V) (a : Input V) : Decidable (s.Undisturbed o a) := by
  have : Decidable s.it.frozenLeft := by cases s.it <;> unfold Iterator.frozenLeft <;> infer_instance
  have : Decidable s.it.storedLeft := by cases s.it <;> unfold Iterator.storedLeft <;> infer_instance
  cases a with
  | next => exact isTrue trivial
  | act a =>
    cases a with
    | put key value =>
      unfold Undisturbed
      infer_instance
    | advance =>
      unfold Undisturbed
      cases s.served.job <;> infer_instance
    | _ => exact isTrue trivial

variable {o : Options} {s t : OpenScan V}

theorem put_survives (hit : s.it.Rest s.memory rest) (key : Bytes) (value : V)
    (hr : (s.served.lsm.put o key value).1.Readable) (hsafe : s.Undisturbed o (.act (.put key value))) :
    ∃ rest', s.it.Rest ⟨(s.served.lsm.put o key value).1, s.popped, s.storage⟩ rest' ∧
      Extended ⟨key, s.served.lsm.nextSeqNo, value⟩ rest rest' := by
  have hsize : (s.served.lsm.memTable.put ⟨key, s.served.lsm.nextSeqNo, value⟩).size = s.served.lsm.memTable.size + 1 :=
    List.orderedInsert_length ..
  by_cases hfull : o.maxRecordsInMemTable ≤ s.served.lsm.memTable.size
  · have hput : (s.served.lsm.put o key value).1 = { s.served.lsm with
        memTable := MemTable.empty
        roMemTables := s.served.lsm.roMemTables ++ [s.served.lsm.memTable.put ⟨key, s.served.lsm.nextSeqNo, value⟩]
        nextSeqNo := s.served.lsm.nextSeqNo + 1 } := by
      simp only [Lsm.put, Lsm.doPut]
      rw [if_pos (by omega)]
    refine ⟨rest, hit.survives ⟨?_, ?_, ?_⟩, Or.inl rfl⟩
    · intro c hc
      refine TableIterator.survives_of (fun h => absurd h (hsafe hfull c hc)) (fun _ => ⟨rfl, ?_⟩) fun _ => ⟨rfl, ?_⟩
      · rw [hput]
        exact List.prefix_append ..
      · rw [hput]
        exact List.prefix_rfl
    · intro _
      rw [hput]
      exact List.prefix_append ..
    · intro _
      rw [hput]
      exact List.prefix_rfl
  · have hput : (s.served.lsm.put o key value).1 = { s.served.lsm with
        memTable := s.served.lsm.memTable.put ⟨key, s.served.lsm.nextSeqNo, value⟩
        nextSeqNo := s.served.lsm.nextSeqNo + 1 } := by
      simp only [Lsm.put, Lsm.doPut]
      rw [if_neg (by omega)]
    refine hit.put ⟨?_, ?_, ?_, rfl, rfl, hr.active⟩ <;> rw [hput] <;> rfl

theorem act_survives {a : Action V} {served : Served V} (hs : s.served.Readable) (hit : s.it.Rest s.memory rest)
    (ha : ∀ key value, a ≠ .put key value) (hrestart : a ≠ .restart) (h : s.served.step o a = some served)
    (hsafe : s.Undisturbed o (.act a)) : s.it.Rest ({ s.moved a with served } : OpenScan V).memory rest := by
  have hsame (dir : Dir Bytes (List (Record V))) :
      s.it.Rest ⟨{ s.served.lsm with dir }, s.popped, s.storage⟩ rest := by
    refine hit.survives ⟨fun c _ => ?_, fun _ => List.prefix_rfl, fun _ => List.prefix_rfl⟩
    exact TableIterator.survives_of (fun _ => ⟨rfl, rfl⟩) (fun _ => ⟨rfl, List.prefix_rfl⟩)
      fun _ => ⟨rfl, List.prefix_rfl⟩
  cases a with
  | put key value => exact absurd rfl (ha key value)
  | beginFlush =>
    obtain rfl := Served.step_beginFlush h
    exact hit
  | beginCompact =>
    obtain rfl := Served.step_beginCompact h
    exact hit
  | restart => exact absurd rfl hrestart
  | advance =>
    simp only [memory, moved]
    simp only [Undisturbed] at hsafe
    rcases Served.advance_cases hs h with ⟨hflush, hcompact, dir, hlsm, -⟩ |
        ⟨p, u, t, rest', hjob, hro, -, hlsm⟩ | ⟨ps, u, hjob, -, hlsm⟩
    · rw [hlsm]
      split
      · exact absurd ‹_› (hflush _ _)
      · exact absurd ‹_› (hcompact _ _)
      · exact hsame dir
    · rw [hjob] at hsafe ⊢
      obtain ⟨hleft, hsources⟩ := hsafe
      dsimp only
      rw [hlsm]
      refine hit.survives ⟨fun c hc => ?_, fun h => absurd h hleft, fun _ => List.prefix_append ..⟩
      refine TableIterator.survives_of (fun _ => ⟨rfl, ?_⟩) (fun h => absurd h (hsources c hc).1) fun hstored => ⟨?_,
        ?_⟩
      · simp only [Memory.activeNo, Lsm.publishFlush, memory, hro, List.tail_cons, List.length_cons]
        omega
      · have hroom : s.room ≠ 0 := fun hroom => (hsources c hc).2 hroom hstored
        simp only [pushBack, if_neg hroom, memory]
      · exact List.prefix_append ..
    · rw [hjob] at hsafe ⊢
      obtain ⟨hleft, hsources⟩ := hsafe
      have hpopped (size n : ℕ) : (({ s with storage := s.storage + 1, room := n } : OpenScan V).pushBack size).popped =
          s.popped := by
        unfold pushBack
        split_ifs <;> rfl
      dsimp only
      rw [hlsm, hpopped]
      refine hit.survives ⟨fun c hc => ?_, fun _ => List.prefix_rfl, fun h => absurd h hleft⟩
      exact TableIterator.survives_of (fun _ => ⟨rfl, rfl⟩) (fun _ => ⟨rfl, List.prefix_rfl⟩)
        fun h => absurd h (hsources c hc)

theorem moved_scan (s : OpenScan V) (a : Action V) :
    (s.moved a).it = s.it ∧ (s.moved a).yielded = s.yielded ∧ (s.moved a).faulted = s.faulted := by
  have hpush (s : OpenScan V) (size : ℕ) :
      (s.pushBack size).it = s.it ∧ (s.pushBack size).yielded = s.yielded ∧ (s.pushBack size).faulted = s.faulted := by
    unfold pushBack
    split_ifs <;> exact ⟨rfl, rfl, rfl⟩
  cases a with
  | advance =>
    rw [moved]
    split
    · exact hpush s _
    · exact hpush _ 0
    · exact ⟨rfl, rfl, rfl⟩
  | _ => exact ⟨rfl, rfl, rfl⟩

/-- How far a scan has come: what it has delivered and what it has still to deliver are what there was at its
creation, and records that have been put since. -/
structure Scanning (served : Served V) (query : Query) (s : OpenScan V) (rest : List (Record V)) : Prop where
  readable : s.served.Readable
  sound : s.faulted = false
  ahead : s.it.Rest s.memory rest
  fresh : ∀ r ∈ served.lsm.records, r.seqNo < s.served.lsm.nextSeqNo
  kept : ((s.yielded ++ rest).filter fun r => r ∈ served.lsm.records) = Iterator.scanned served.lsm query
  log : ∃ puts, s.served.log = served.log ++ puts ∧
    (s.yielded ++ rest).length ≤ (Iterator.scanned served.lsm query).length + puts.length ∧
    ∀ r ∈ s.yielded ++ rest, r ∈ Iterator.scanned served.lsm query ∨ r ∈ puts
  ranged : ∀ range, query = .range range → (∃ it, s.it = .range it) ∧ (s.yielded ++ rest).Pairwise (· ≤ ·)

namespace Scanning

variable {served : Served V} {query : Query}

theorem create (hs : served.Readable) (room : ℕ) (query : Query) :
    ∃ s, create served room query = some s ∧ Scanning served query s (Iterator.scanned served.lsm query) := by
  have hm : (⟨served.lsm, 0, 0⟩ : Memory V).lsm.Readable := hs.lsm
  obtain ⟨it, hcreate, hrest⟩ := Iterator.Rest.create hm query
  refine ⟨⟨served, 0, 0, room, it, [], false⟩,
    by rw [OpenScan.create, hcreate]; rfl, hs, rfl, hrest, hs.lsm.bound, ?_, ?_, ?_⟩
  · refine List.filter_eq_self.mpr fun r hr => decide_eq_true ?_
    exact (List.mem_filter.mp ((Iterator.scanned_perm hs.lsm.toTidy query).mem_iff.mp hr)).1
  · exact ⟨[], (List.append_nil _).symm, le_rfl, fun r hr => Or.inl hr⟩
  · rintro range rfl
    obtain ⟨x, -, rfl⟩ := Option.map_eq_some_iff.mp hcreate
    exact ⟨⟨x, rfl⟩, hrest.1⟩

/-- A call of `Next` delivers the first of what is left. -/
theorem next {r : Record V} {rest : List (Record V)} (h : Scanning served query s (r :: rest)) (o : Options) :
    ∃ t, step o s .next = some t ∧ t.yielded = s.yielded ++ [r] ∧ Scanning served query t rest := by
  obtain ⟨it, hnext, hrest⟩ := h.ahead.next h.readable.lsm
  have hlist : s.yielded ++ [r] ++ rest = s.yielded ++ r :: rest := List.append_assoc ..
  refine ⟨{ s with it, yielded := s.yielded ++ [r] }, ?_, rfl, h.readable, h.sound, hrest, h.fresh, ?_, ?_, ?_⟩
  · have hmore := h.ahead.hasMore
    simp only [OpenScan.step, h.sound, Bool.false_eq_true, if_false, hmore, List.isEmpty_cons, Bool.not_false, hnext]
  · rw [hlist]
    exact h.kept
  · rw [hlist]
    exact h.log
  · intro range hquery
    obtain ⟨⟨it₀, hit₀⟩, hsorted⟩ := h.ranged range hquery
    rw [hit₀] at hnext
    rw [hlist]
    exact ⟨Iterator.next_range hnext, hsorted⟩

theorem extend {key : Bytes} {value : V} {rest rest' : List (Record V)} (h : Scanning served query s rest)
    (hreadable : (⟨(s.served.lsm.put o key value).1, s.served.job,
      s.served.log ++ [⟨key, s.served.lsm.nextSeqNo, value⟩]⟩ : Served V).Readable)
    (hrest : s.it.Rest ⟨(s.served.lsm.put o key value).1, s.popped, s.storage⟩ rest')
    (hext : Extended ⟨key, s.served.lsm.nextSeqNo, value⟩ rest rest') :
    Scanning served query { s with served := ⟨(s.served.lsm.put o key value).1, s.served.job,
      s.served.log ++ [⟨key, s.served.lsm.nextSeqNo, value⟩]⟩ } rest' := by
  obtain ⟨puts, hlog, hlen, hmem⟩ := h.log
  have hnext : (s.served.lsm.put o key value).1.nextSeqNo = s.served.lsm.nextSeqNo + 1 := Lsm.doPut_nextSeqNo ..
  have hfresh : ∀ r ∈ served.lsm.records, r.seqNo < (s.served.lsm.put o key value).1.nextSeqNo := by
    intro r hr
    have := h.fresh r hr
    omega
  have hlog' : s.served.log ++ [⟨key, s.served.lsm.nextSeqNo, value⟩] =
      served.log ++ (puts ++ [⟨key, s.served.lsm.nextSeqNo, value⟩]) := by rw [hlog, List.append_assoc]
  rcases hext with rfl | ⟨u, v, r, rfl, rfl, hr, hlt⟩
  · refine ⟨hreadable, h.sound, hrest, hfresh, h.kept, ⟨_, hlog', ?_, ?_⟩, h.ranged⟩
    · refine hlen.trans (Nat.add_le_add_left ?_ _)
      exact (List.prefix_append ..).length_le
    · exact fun r hr => (hmem r hr).imp_right (List.mem_append_left _)
  · -- the new record was not there at the creation
    have hnew : (⟨key, s.served.lsm.nextSeqNo, value⟩ : Record V) ∉ served.lsm.records :=
      fun hx => absurd (h.fresh _ hx) (lt_irrefl _)
    refine ⟨hreadable, h.sound, hrest, hfresh, ?_, ⟨_, hlog', ?_, ?_⟩, ?_⟩
    · rw [← h.kept]
      simp [List.filter_append, hnew]
    · simp only [List.length_append, List.length_cons, List.length_nil] at hlen ⊢
      omega
    · intro y hy
      simp only [List.mem_append, List.mem_cons] at hy hmem ⊢
      rcases hy with hy | hy | rfl | hy
      · exact (hmem y (Or.inl hy)).imp_right Or.inl
      · exact (hmem y (Or.inr (Or.inl hy))).imp_right Or.inl
      · exact Or.inr (Or.inr (Or.inl rfl))
      · exact (hmem y (Or.inr (Or.inr hy))).imp_right Or.inl
    · intro range hquery
      obtain ⟨⟨it, hit⟩, hsorted⟩ := h.ranged range hquery
      rw [hit] at hrest
      obtain ⟨hyielded, -, hle⟩ := List.pairwise_append.mp hsorted
      refine ⟨⟨it, hit⟩, List.pairwise_append.mpr ⟨hyielded, hrest.1, ?_⟩⟩
      intro y hy z hz
      rcases List.mem_append.mp hz with hz | hz
      · exact hle y hy z (List.mem_append_left _ hz)
      · rcases List.mem_cons.mp hz with rfl | hz
        · exact (hle y hy r hr).trans hlt.le
        · exact hle y hy z (List.mem_append_right _ hz)

/-- A step of the tree changes nothing, or it is a put whose record may come among what is left. -/
theorem act {a : Action V} {rest : List (Record V)} (h : Scanning served query s rest)
    (hsafe : s.Undisturbed o (.act a)) (hstep : step o s (.act a) = some t) :
    ∃ rest', Scanning served query t rest' := by
  by_cases hrestart : a = .restart
  · subst hrestart
    cases hstep
  have hstep' : (s.served.step o a).map (fun served => ({ s.moved a with served } : OpenScan V)) = some t := by
    cases a with
    | restart => exact absurd rfl hrestart
    | _ => exact hstep
  obtain ⟨served', hserved, rfl⟩ := Option.map_eq_some_iff.mp hstep'
  have hreadable := h.readable.step o hserved
  by_cases hput : ∃ key value, a = .put key value
  · obtain ⟨key, value, rfl⟩ := hput
    cases hserved
    obtain ⟨rest', hrest', hext⟩ := put_survives h.ahead key value hreadable.lsm hsafe
    exact ⟨rest', h.extend hreadable hrest' hext⟩
  · have hother : ∀ key value, a ≠ .put key value := fun key value ha => hput ⟨key, value, ha⟩
    obtain ⟨hit, hyielded, hfaulted⟩ := moved_scan s a
    have hlog := Served.step_log hother hserved
    obtain ⟨key, value, ha, -⟩ | ⟨-, -, hnext, -⟩ := Served.step_lsm o h.readable.job hrestart hserved
    · exact absurd ha (hother key value)
    have hrest := act_survives h.readable h.ahead hother hrestart hserved hsafe
    refine ⟨rest, hreadable, hfaulted.trans h.sound, ?_, fun r hr => (h.fresh r hr).trans_le hnext.ge, ?_, ?_, ?_⟩
    · change (s.moved a).it.Rest _ rest
      rw [hit]
      exact hrest
    · change (((s.moved a).yielded ++ rest).filter _) = _
      rw [hyielded]
      exact h.kept
    · change ∃ puts, served'.log = served.log ++ puts ∧ ((s.moved a).yielded ++ rest).length ≤ _ ∧
        ∀ r ∈ (s.moved a).yielded ++ rest, _
      rw [hlog, hyielded]
      exact h.log
    · change ∀ range, query = .range range → (∃ it, (s.moved a).it = .range it) ∧
        ((s.moved a).yielded ++ rest).Pairwise (· ≤ ·)
      rw [hit, hyielded]
      exact h.ranged

theorem run {rest : List (Record V)} {inputs : List (Input V)} (h : Scanning served query s rest)
    (hg : Machine.Guarded (step o) (Undisturbed o) s inputs) (hr : Machine.run (step o) s inputs = some t) :
    ∃ rest', Scanning served query t rest' := by
  refine Machine.run_inv (P := fun _ s => ∃ rest, Scanning served query s rest) ⟨rest, h⟩ ?_ hg hr
  rintro - s a t ⟨rest, h⟩ hsafe hstep
  cases a with
  | act a => exact h.act hsafe hstep
  | next =>
    cases rest with
    | nil =>
      have hmore := h.ahead.hasMore
      simp [OpenScan.step, h.sound, hmore] at hstep
    | cons r rest =>
      obtain ⟨t', hstep', -, ht'⟩ := h.next o
      obtain rfl := Option.some.inj (hstep.symm.trans hstep')
      exact ⟨rest, ht'⟩

/-- If nothing comes between, the iteration ends. -/
theorem finish {rest : List (Record V)} (h : Scanning served query s rest) (o : Options) :
    ∃ t, Machine.run (step o) s (List.replicate rest.length .next) = some t ∧ Scanning served query t [] := by
  induction rest generalizing s with
  | nil => exact ⟨s, rfl, h⟩
  | cons r rest ih =>
    obtain ⟨t, hstep, -, ht⟩ := h.next o
    obtain ⟨t', hrun, ht'⟩ := ih ht
    exact ⟨t', Machine.run_cons.mpr ⟨t, hstep, hrun⟩, ht'⟩

end Scanning

/-- An iterator that is open while the tree is in use: its indices are in range and its tables there, the iteration
ends, and it delivers what there was at its creation, once and in order. -/
theorem open_iterators (o : Options) (before : List (Action V)) (served : Served V) (room : ℕ) (query : Query)
    (hreach : Machine.run (Served.step o) (Served.start Dir.empty) before = some served) :
    (Iterator.scanned served.lsm query).Perm (served.lsm.records.filter fun r => Iterator.asked query r.key) ∧
    ∃ s₀, create served room query = some s₀ ∧ ∀ inputs s, Machine.Guarded (step o) (Undisturbed o) s₀ inputs →
      Machine.run (step o) s₀ inputs = some s →
        s.faulted = false ∧ s.it.Valid s.memory ∧
        s.yielded.length + served.log.length ≤ (Iterator.scanned served.lsm query).length + s.served.log.length ∧
        (∃ n t, Machine.run (step o) s (List.replicate n .next) = some t ∧ t.it.hasMore t.memory = some false) ∧
        (s.yielded.filter fun r => r ∈ served.lsm.records) <+: Iterator.scanned served.lsm query ∧
        (s.it.hasMore s.memory = some false →
          (s.yielded.filter fun r => r ∈ served.lsm.records) = Iterator.scanned served.lsm query) ∧
        (∀ r ∈ s.yielded, r ∈ Iterator.scanned served.lsm query ∨ r ∈ s.served.log.drop served.log.length) ∧
        ∀ range, query = .range range → s.yielded.Pairwise (· ≤ ·) := by
  have hs := Served.Readable.run o hreach
  obtain ⟨s₀, hcreate, h₀⟩ := Scanning.create hs room query
  refine ⟨Iterator.scanned_perm hs.lsm.toTidy query, s₀, hcreate, ?_⟩
  intro inputs s hg hr
  obtain ⟨rest, h⟩ := h₀.run hg hr
  obtain ⟨puts, hlog, hlen, hmem⟩ := h.log
  obtain ⟨t, hrun, ht⟩ := h.finish o
  refine ⟨h.sound, h.ahead.valid, ?_, ⟨_, t, hrun, ht.ahead.hasMore⟩, ?_, ?_, ?_, ?_⟩
  · rw [hlog]
    simp only [List.length_append] at hlen ⊢
    omega
  · rw [← h.kept, List.filter_append]
    exact List.prefix_append ..
  · intro hmore
    have hempty : rest = [] := by simpa using h.ahead.hasMore.symm.trans hmore
    have hkept := h.kept
    rw [hempty, List.append_nil] at hkept
    exact hkept
  · intro r hr
    rw [hlog, List.drop_left]
    exact hmem r (List.mem_append_left _ hr)
  · intro range hquery
    exact (List.pairwise_append.mp (h.ranged range hquery).2).1

/-- A put and the beginning of a compaction come between the calls of `Next` of a scan over the mem table
and a table. -/
theorem open_iterators_compact :
    ∃ served s₀ s, Machine.run (Served.step ⟨2⟩) (Served.start (V := Bytes) Dir.empty) [.put [1] [5], .put [3] [6],
        .put [5] [], .beginFlush, .advance, .advance, .advance, .put [2] [7]] = some served ∧
      create served 3 (.range .fullScan) = some s₀ ∧
      Machine.run (step ⟨2⟩) s₀ [.next, .act (.put [4] [8]), .act .beginCompact, .next, .act .advance, .next, .next] =
        some s ∧
      s.yielded.length = 4 ∧
      (s.yielded.filter fun r => r ∈ served.lsm.records) = Iterator.scanned served.lsm (.range .fullScan) := by
  have hrun : ∃ served, Machine.run (Served.step ⟨2⟩) (Served.start (V := Bytes) Dir.empty) [.put [1] [5],
    .put [3] [6],
        .put [5] [], .beginFlush, .advance, .advance, .advance, .put [2] [7]] = some served ∧
      ∃ s₀ ∈ create served 3 (.range .fullScan), Machine.Guarded (step ⟨2⟩) (Undisturbed ⟨2⟩) s₀
          [.next, .act (.put [4] [8]), .act .beginCompact, .next, .act .advance, .next, .next] ∧
        ∃ s ∈ Machine.run (step ⟨2⟩) s₀
            [.next, .act (.put [4] [8]), .act .beginCompact, .next, .act .advance, .next, .next],
          s.yielded.length = 4 ∧ s.it.hasMore s.memory = some false := Machine.exists_run (by decide +kernel)
  obtain ⟨served, hreach, s₀, hcreate, hg, s, hr, hlen, hmore⟩ := hrun
  obtain ⟨-, s₁, hcreate', hall⟩ := open_iterators ⟨2⟩ _ served 3 (.range .fullScan) hreach
  obtain rfl : s₀ = s₁ := Option.some.inj (hcreate.symm.trans hcreate')
  obtain ⟨-, -, -, -, -, hkept, -⟩ := hall _ s hg hr
  refine ⟨served, s₀, s, hreach, hcreate, hr, hlen, ?_⟩
  convert hkept hmore

/-- A flush between two calls of `Next`: the index now is that of another table, so one record comes twice and one not
at all. A put that freezes the mem table: the iterator runs over the end. A compaction: the table is gone. -/
theorem disturbed_iterators :
    (∃ served ∈ Machine.run (Served.step ⟨0⟩) (Served.start Dir.empty) [Action.put [1] [5], .put [1] [6]],
      ∃ s₀ ∈ create served 5 (.key [1]), ∃ s ∈ Machine.run (step ⟨0⟩) s₀
        [.act .beginFlush, .act .advance, .act .advance, .next, .next],
        s.yielded = [⟨[1], 2, [6]⟩, ⟨[1], 2, [6]⟩] ∧ s.it.hasMore s.memory = some false) ∧
    (∃ served ∈ Machine.run (Served.step ⟨1⟩) (Served.start Dir.empty) [Action.put [1] [5]],
      ∃ s₀ ∈ create served 5 (.key [1]), ∃ s ∈ Machine.run (step ⟨1⟩) s₀ [.act (.put [0] [6]), .next],
        s.faulted = true) ∧
    ∃ served ∈ Machine.run (Served.step ⟨0⟩) (Served.start Dir.empty)
        ([Action.put [1] [5], .put [1] [6], .beginFlush] ++ List.replicate 5 Action.advance),
      ∃ s₀ ∈ create served 5 (.key [1]), ∃ s ∈ Machine.run (step ⟨0⟩) s₀
        [.act .beginCompact, .act .advance, .act .advance, .next], s.faulted = true := by
  decide +kernel

end OpenScan

end StructureDb
