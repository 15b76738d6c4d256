import StructureDb.Proofs.LeaderLog
import StructureDb.Spec.Mirror

/-! The log of a follower. As long as the follower's own commits stay below one page, a file that was
received holds the page that was received last, and only such a file has the size of a page: a
follower asks for every segment that it has not received. One more commit makes a page of
them, and the segment is taken for a received one. -/

namespace StructureDb

theorem walName_ne_unlinkedPath (n : ℕ) : walName n ≠ unlinkedPath := by
  intro h
  have := congrArg List.length h
  simp [walName, walSuffix, unlinkedPath] at this

theorem hasWholePage_iff {dir : Dir Bytes Bytes} {n : ℕ} :
    hasWholePage dir n = true ↔ ∃ data, (walName n, data) ∈ dir.files ∧ kWalPageSize ≤ data.length := by
  unfold hasWholePage
  cases h : dir.files.lookup (walName n) with
  | none =>
    simp only [Bool.false_eq_true, false_iff, not_exists, not_and]
    intro data hf
    exact absurd hf (Dir.not_mem_of_lookup h data)
  | some data =>
    have hf := Dir.mem_of_lookup h
    simp only [decide_eq_true_eq]
    constructor
    · exact fun hlen => ⟨data, hf, hlen⟩
    · rintro ⟨data', hf', hlen⟩
      rwa [Dir.unique hf hf']

theorem WriteCall.detach_of_onPage {call : WriteCall} (h : call.onPage = true) (name : Bytes) :
    call.detach name = call := by
  cases call with
  | padding data => rfl
  | opening path data => cases h
  | writing size => rfl
  | returned => rfl

theorem Writes.createFile_calls {s : Writes} (h : ∀ c ∈ s.calls, c.2.onPage = true) (name : Bytes) :
    (s.createFile name).calls = s.calls := by
  rw [createFile]
  conv_rhs => rw [← List.map_id s.calls]
  refine List.map_congr_left ?_
  intro c hc
  rw [WriteCall.detach_of_onPage (h c hc)]
  rfl

namespace Mirror

variable {s s' : Mirror} {action : Action}

/-- The follower's own events stay below one page, and a restart finds names of four digits. -/
def Quiet (s : Mirror) : Action → Prop
  | .write event =>
    s.writes.writer.currentPageSize + s.writes.inFlight + (flushEvent event).length < kWalPageSize
  | .restart => ∀ name ∈ s.dir.names, getSegmentNoFromName name < 10000
  | _ => True

instance (s : Mirror) : (action : Action) → Decidable (s.Quiet action)
  | .write _ => inferInstanceAs (Decidable (_ < _))
  | .restart => inferInstanceAs (Decidable (∀ name ∈ s.dir.names, _))
  | .resume _ | .createFile _ _ | .writePage | .nextSegmentToFetch | .fileSize => isTrue trivial

/-- The file that the follower's writer has open is not a received one, and holds no more than the writer has
written. -/
def OwnFile (s : Mirror) (path : Bytes) : Prop :=
  path = unlinkedPath ∨ ∃ m, path = walName m ∧ s.received m = none ∧ (∀ data, s.receiving ≠ some (m, data)) ∧
    ∀ data, (walName m, data) ∈ s.dir.files → data.length ≤ s.writes.writer.currentPageSize + s.writes.inFlight

structure Mirrors (s : Mirror) : Prop where
  names : ∀ name ∈ s.dir.names, ∃ n, name = walName n
  calls : ∀ c ∈ s.writes.calls, c.2.onPage = true
  room : s.writes.writer.currentPageSize + s.writes.inFlight < kWalPageSize
  own : s.OwnFile s.writes.writer.currentSegmentWriter
  received : ∀ n data, s.received n = some data → (walName n, data) ∈ s.dir.files
  short : ∀ n data, (walName n, data) ∈ s.dir.files → s.received n = none → data.length < kWalPageSize
  receiving : ∀ n data, s.receiving = some (n, data) → (walName n, []) ∈ s.dir.files ∧ s.received n = none
  fetched : ∀ k, s.fetching = some k → s.receiving = none ∧ ∀ m < k, (s.received m).isSome = true

theorem start_mirrors : start.Mirrors := by
  refine ⟨?_, by simp [start, Writes.start], by decide, Or.inr ⟨0, rfl, rfl, by simp [start], ?_⟩, by simp [start], ?_,
    by simp [start], by simp [start]⟩
  · intro name hname
    rw [show start.dir.names = [walName 0] from rfl, List.mem_singleton] at hname
    exact ⟨0, hname⟩
  · intro data hf
    rw [show start.dir.files = [(walName 0, [])] from rfl, List.mem_singleton] at hf
    rw [(Prod.mk.inj hf).2]
    exact Nat.zero_le _
  · intro n data hf _
    rw [show start.dir.files = [(walName 0, [])] from rfl, List.mem_singleton] at hf
    rw [(Prod.mk.inj hf).2]
    decide

theorem OwnFile.ne_received {path : Bytes} (h : s.OwnFile path) {n : ℕ} {data : Bytes} (hr : s.received n = some data) :
    walName n ≠ path := by
  rcases h with rfl | ⟨m, rfl, hm, -⟩
  · exact walName_ne_unlinkedPath n
  · intro he
    rw [walName_injective he, hm] at hr
    cases hr

theorem OwnFile.ne_receiving {path : Bytes} (h : s.OwnFile path) {n : ℕ} {data : Bytes}
    (hr : s.receiving = some (n, data)) : walName n ≠ path := by
  rcases h with rfl | ⟨m, rfl, -, hm, -⟩
  · exact walName_ne_unlinkedPath n
  · intro he
    rw [walName_injective he] at hr
    exact hm data hr

/-- The follower's own file is longer; nothing that was received is touched. -/
theorem Mirrors.write (h : s.Mirrors) {event : LogEvent} (hg : s.Quiet (.write event))
    (hs : s.step (.write event) = some s') : s'.Mirrors := by
  have hroom : s.writes.writer.currentPageSize + s.writes.inFlight + (flushEvent event).length < kWalPageSize := hg
  have hw : s.writes.writer.write (flushEvent event) = s.writes.writer.writeData (flushEvent event) :=
    Writes.write_of_room (by omega)
  have hs' : s' = { s with writes := ⟨s.writes.writer.append (flushEvent event),
      s.writes.calls ++ [(event, .writing (flushEvent event).length)]⟩ } := by
    simp only [step, Writes.step, hw, Option.map_some, Option.some.injEq] at hs
    exact hs.symm
  have hfly : s'.writes.inFlight = s.writes.inFlight + (flushEvent event).length := by
    rw [hs', Writes.inFlight_append]
    rfl
  have hkept : ∀ f ∈ s.dir.files, f.1 ≠ s.writes.writer.currentSegmentWriter → f ∈ s'.dir.files := by
    intro f hf hne
    rw [hs', dir, Writer.append]
    exact Dir.mem_modify.mpr (Or.inl ⟨hf, hne⟩)
  have hmem : ∀ f ∈ s'.dir.files, f ∈ s.dir.files ∨ ∃ bytes, (s.writes.writer.currentSegmentWriter,
    bytes) ∈ s.dir.files ∧
      f = (s.writes.writer.currentSegmentWriter, bytes ++ flushEvent event) := by
    intro f hf
    rw [hs'] at hf
    exact (Dir.mem_modify.mp hf).imp_left And.left
  -- the file that grows is as long as the writer knows
  have hown : ∀ bytes, (s.writes.writer.currentSegmentWriter, bytes) ∈ s.dir.files →
      bytes.length ≤ s.writes.writer.currentPageSize + s.writes.inFlight := by
    intro bytes hf
    rcases h.own with hpath | ⟨m, hpath, -, -, hlen⟩
    · rw [hpath] at hf
      obtain ⟨n, hn⟩ := h.names _ (Dir.mem_names.mpr ⟨bytes, hf⟩)
      exact absurd hn.symm (walName_ne_unlinkedPath n)
    · rw [hpath] at hf
      exact hlen bytes hf
  have hpage : s'.writes.writer.currentPageSize = s.writes.writer.currentPageSize := by rw [hs']; rfl
  refine ⟨?_, ?_, by rw [hfly, hpage]; omega, ?_, ?_, ?_, ?_, ?_⟩
  · intro name hname
    rw [hs', dir, Writer.append, Dir.names_modify] at hname
    exact h.names name hname
  · intro c hc
    rw [hs'] at hc
    rcases List.mem_append.mp hc with hc | hc
    · exact h.calls c hc
    · rw [List.mem_singleton.mp hc]
      rfl
  · have hpath : s'.writes.writer.currentSegmentWriter = s.writes.writer.currentSegmentWriter := by rw [hs']; rfl
    rw [hpath]
    refine h.own.imp_right ?_
    rintro ⟨m, hm, hreceived, hreceiving, hlen⟩
    refine ⟨m, hm, by rw [hs']; exact hreceived, by rw [hs']; exact hreceiving, ?_⟩
    intro data hf
    rw [hfly, hpage]
    rcases hmem _ hf with hf | ⟨bytes, hbytes, he⟩
    · exact (hlen data hf).trans (by omega)
    · have hle := hown bytes hbytes
      rw [(Prod.mk.inj he).2, List.length_append]
      omega
  · intro n data hr
    rw [hs'] at hr
    exact hkept _ (h.received n data hr) (h.own.ne_received hr)
  · intro n data hf hr
    rcases hmem _ hf with hf | ⟨bytes, hbytes, he⟩
    · rw [hs'] at hr
      exact h.short n data hf hr
    · have hle := hown bytes hbytes
      rw [(Prod.mk.inj he).2, List.length_append]
      omega
  · intro n data hr
    rw [hs'] at hr
    obtain ⟨hf, hnone⟩ := h.receiving n data hr
    exact ⟨hkept _ hf (h.own.ne_receiving hr), by rw [hs']; exact hnone⟩
  · rw [hs']
    exact h.fetched

theorem Mirrors.resume (h : s.Mirrors) {call : ℕ} (hs : s.step (.resume call) = some s') : s'.Mirrors := by
  simp only [step, Writes.step] at hs
  rcases hi : s.writes.calls[call]? with _ | ⟨ev, wait⟩ <;> simp only [hi] at hs
  · cases hs
  split_ifs at hs with hdone
  · cases hs
  cases hs
  obtain ⟨pre, post, hsplit, hset⟩ := Splits.of_getElem? hi
  have hon := h.calls (ev, wait) (by rw [hsplit]; simp)
  cases wait with
  | padding data => cases hon
  | opening path data => cases hon
  | returned => exact absurd rfl hdone
  | writing n =>
    -- the bytes count as written now
    have hfly : s.writes.writer.currentPageSize + n +
          Writes.inFlight ⟨s.writes.writer, s.writes.calls.set call (ev, .returned)⟩ =
        s.writes.writer.currentPageSize + s.writes.inFlight := by
      have happend := Writes.inFlight_append s.writes.writer pre ((ev, .writing n) :: post)
      rw [← hsplit] at happend
      rw [hset, Writes.inFlight_append]
      change _ = Writes.inFlight _ + (n + Writes.inFlight ⟨s.writes.writer, post⟩) at happend
      change s.writes.writer.currentPageSize + n +
        (Writes.inFlight _ + (0 + Writes.inFlight ⟨s.writes.writer, post⟩)) = _
      change _ = _ + Writes.inFlight ⟨s.writes.writer, s.writes.calls⟩
      omega
    refine ⟨h.names, ?_, hfly.trans_lt h.room, ?_, h.received, h.short, h.receiving, h.fetched⟩
    · intro c hc
      change c ∈ s.writes.calls.set call (ev, .returned) at hc
      rw [hset] at hc
      rcases List.mem_append.mp hc with hc | hc
      · exact h.calls c (by rw [hsplit]; exact List.mem_append_left _ hc)
      · rcases List.mem_cons.mp hc with rfl | hc
        · rfl
        · exact h.calls c (by rw [hsplit]; exact List.mem_append_right _ (List.mem_cons_of_mem _ hc))
    · refine h.own.imp_right ?_
      rintro ⟨m, hm, hreceived, hreceiving, hlen⟩
      exact ⟨m, hm, hreceived, hreceiving, fun data hf => (hlen data hf).trans hfly.ge⟩

theorem setReceived_self (received : ℕ → Option Bytes) (n : ℕ) (data : Option Bytes) :
    setReceived received n data n = data := if_pos rfl

theorem setReceived_of_ne (received : ℕ → Option Bytes) {n m : ℕ} (data : Option Bytes) (h : m ≠ n) :
    setReceived received n data m = received m := if_neg h

theorem Mirrors.createFile (h : s.Mirrors) {n : ℕ} {data : Bytes} (hs : s.step (.createFile n data) = some s') :
    s'.Mirrors := by
  simp only [step] at hs
  split_ifs at hs with hidle
  cases hs
  have hcalls := Writes.createFile_calls h.calls (walName n)
  have hfly : (s.writes.createFile (walName n)).inFlight = s.writes.inFlight := by
    rw [Writes.inFlight, Writes.inFlight, hcalls]
  refine ⟨?_, ?_, ?_, ?_, ?_, ?_, ?_, fun k hk => by cases hidle.2.symm.trans hk⟩
  · intro name hname
    obtain ⟨data', hf⟩ := Dir.mem_names.mp hname
    rcases Dir.mem_create.mp hf with he | ⟨hf, -⟩
    · exact ⟨n, (Prod.mk.inj he).1⟩
    · exact h.names name (Dir.mem_names.mpr ⟨data', hf⟩)
  · change ∀ c ∈ (s.writes.createFile (walName n)).calls, _
    rw [hcalls]
    exact h.calls
  · change s.writes.writer.currentPageSize + (s.writes.createFile (walName n)).inFlight < _
    rw [hfly]
    exact h.room
  · change OwnFile _ (detachPath (walName n) s.writes.writer.currentSegmentWriter)
    rw [detachPath]
    split_ifs with hpath
    · exact Or.inl rfl
    · refine h.own.imp_right ?_
      rintro ⟨m, hm, hreceived, -, hlen⟩
      have hne : m ≠ n := by
        rintro rfl
        exact hpath hm
      refine ⟨m, hm, (setReceived_of_ne _ _ hne).trans hreceived, ?_, ?_⟩
      · intro data' he
        exact hne (Prod.mk.inj (Option.some.inj he)).1.symm
      · intro data' hf
        change _ ≤ s.writes.writer.currentPageSize + (s.writes.createFile (walName n)).inFlight
        rw [hfly]
        rcases Dir.mem_create.mp hf with he | ⟨hf, -⟩
        · exact absurd (walName_injective (Prod.mk.inj he).1) hne
        · exact hlen data' hf
  · intro m data' hr
    by_cases hm : m = n
    · rw [hm] at hr
      cases (setReceived_self s.received n none).symm.trans hr
    · refine Dir.mem_create.mpr (Or.inr ⟨h.received m data' ((setReceived_of_ne _ _ hm).symm.trans hr), ?_⟩)
      exact fun he => hm (walName_injective he)
  · intro m data' hf hr
    rcases Dir.mem_create.mp hf with he | ⟨hf, hne⟩
    · rw [(Prod.mk.inj he).2]
      decide
    · have hm : m ≠ n := fun he => hne (congrArg walName he)
      exact h.short m data' hf ((setReceived_of_ne _ _ hm).symm.trans hr)
  · intro m data' he
    obtain ⟨rfl, rfl⟩ := Prod.mk.inj (Option.some.inj he)
    exact ⟨Dir.mem_create.mpr (Or.inl rfl), setReceived_self ..⟩

theorem Mirrors.writePage (h : s.Mirrors) (hs : s.step .writePage = some s') : s'.Mirrors := by
  rcases hr : s.receiving with _ | ⟨n, data⟩ <;> simp only [step, hr] at hs <;> cases hs
  obtain ⟨hempty, -⟩ := h.receiving n data hr
  have hold : ∀ f, f ∈ s.dir.files → f.1 ≠ walName n → f ∈ (s.dir.modify (walName n) fun bytes =>
      data ++ bytes.drop data.length).files := fun f hf hne => Dir.mem_modify.mpr (Or.inl ⟨hf, hne⟩)
  have hnew : ∀ {m data'}, m ≠ n → (walName m, data') ∈ (s.dir.modify (walName n) fun bytes =>
      data ++ bytes.drop data.length).files → (walName m, data') ∈ s.dir.files := by
    intro m data' hne hf
    rcases Dir.mem_modify.mp hf with ⟨hf, -⟩ | ⟨bytes, -, he⟩
    · exact hf
    · exact absurd (walName_injective (Prod.mk.inj he).1) hne
  refine ⟨?_, h.calls, h.room, ?_, ?_, ?_, (fun _ _ he => nomatch he), ?_⟩
  · intro name hname
    rw [dir, Dir.names_modify] at hname
    exact h.names name hname
  · have hown := h.own
    refine hown.imp_right ?_
    rintro ⟨m, hm, hreceived, hreceiving, hlen⟩
    have hne : m ≠ n := by
      rintro rfl
      exact hreceiving data hr
    exact ⟨m, hm, (setReceived_of_ne _ _ hne).trans hreceived, (fun _ he => nomatch he), fun data' hf =>
      hlen data' (hnew hne hf)⟩
  · intro m data' hm
    by_cases hmn : m = n
    · subst hmn
      rw [← Option.some.inj ((setReceived_self s.received m (some data)).symm.trans hm)]
      change (walName m, data) ∈ (s.dir.modify (walName m) fun bytes => data ++ bytes.drop data.length).files
      refine Dir.mem_modify.mpr (Or.inr ⟨[], hempty, ?_⟩)
      rw [List.drop_nil, List.append_nil]
    · exact hold _ (h.received m data' ((setReceived_of_ne _ _ hmn).symm.trans hm)) fun he => hmn (walName_injective he)
  · intro m data' hf hm
    by_cases hmn : m = n
    · rw [hmn] at hm
      exact nomatch (setReceived_self s.received n (some data)).symm.trans hm
    · exact h.short m data' (hnew hmn hf) ((setReceived_of_ne _ _ hmn).symm.trans hm)
  · intro k hk
    exact nomatch hr.symm.trans (h.fetched k hk).1

theorem Mirrors.fileSize (h : s.Mirrors) (hs : s.step .fileSize = some s') : s'.Mirrors := by
  rcases hk : s.fetching with _ | k <;> simp only [step, hk] at hs <;> cases hs
  refine ⟨h.names, h.calls, h.room, h.own, h.received, h.short, h.receiving, ?_⟩
  obtain ⟨hidle, hbelow⟩ := h.fetched k hk
  intro j hj
  refine ⟨hidle, ?_⟩
  change (if hasWholePage s.dir k = true then some (k + 1) else none) = some j at hj
  split_ifs at hj with hwhole
  obtain rfl := Option.some.inj hj
  intro m hm
  rcases Nat.lt_succ_iff_lt_or_eq.mp hm with hm | rfl
  · exact hbelow m hm
  · -- only what was received is as long as a page
    obtain ⟨data, hf, hlen⟩ := hasWholePage_iff.mp hwhole
    rcases hr : s.received m with _ | page
    · exact absurd (h.short m data hf hr) (not_lt.mpr hlen)
    · rfl

theorem Mirrors.restart (h : s.Mirrors) (hg : s.Quiet .restart) (hs : s.step .restart = some s') : s'.Mirrors := by
  cases hs
  -- every number in use is below the one of the new segment
  have hbelow : ∀ n data, (walName n, data) ∈ s.dir.files → n < initialSegmentNo s.dir := by
    intro n data hf
    refine Writer.Named.lt_initialSegmentNo (w := { s.writes.writer with currentSegmentNo := 9999 }) ?_
      (show 9999 < 10000 by decide) (Dir.mem_names.mpr ⟨data, hf⟩)
    intro name hname
    obtain ⟨m, rfl⟩ := h.names name hname
    have hm := hg _ hname
    rw [getSegmentNoFromName_walName] at hm
    exact ⟨m, by simp only; omega, rfl⟩
  refine ⟨?_, (fun c hc => nomatch hc), show 0 < kWalPageSize by decide,
    Or.inr ⟨initialSegmentNo s.dir, rfl, ?_, (fun _ he => nomatch he), ?_⟩, ?_, ?_, (fun _ _ he => nomatch he),
    (fun _ he => nomatch he)⟩
  · intro name hname
    obtain ⟨data, hf⟩ := Dir.mem_names.mp hname
    rcases Dir.mem_touch.mp hf with hf | ⟨-, he⟩
    · exact h.names name (Dir.mem_names.mpr ⟨data, hf⟩)
    · exact ⟨_, (Prod.mk.inj he).1⟩
  · rcases hr : s.received (initialSegmentNo s.dir) with _ | data
    · rfl
    · exact absurd (hbelow _ _ (h.received _ _ hr)) (lt_irrefl _)
  · intro data hf
    rcases Dir.mem_touch.mp hf with hf | ⟨-, he⟩
    · exact absurd (hbelow _ _ hf) (lt_irrefl _)
    · rw [(Prod.mk.inj he).2]
      exact Nat.zero_le _
  · intro n data hr
    exact Dir.mem_touch.mpr (Or.inl (h.received n data hr))
  · intro n data hf hr
    rcases Dir.mem_touch.mp hf with hf | ⟨-, he⟩
    · exact h.short n data hf hr
    · rw [(Prod.mk.inj he).2]
      decide

theorem Mirrors.step (h : s.Mirrors) (hg : s.Quiet action) (hs : s.step action = some s') : s'.Mirrors := by
  cases action with
  | write event => exact h.write hg hs
  | resume call => exact h.resume hs
  | createFile n data => exact h.createFile hs
  | writePage => exact h.writePage hs
  | nextSegmentToFetch =>
    simp only [Mirror.step] at hs
    split_ifs at hs with hidle
    cases hs
    refine ⟨h.names, h.calls, h.room, h.own, h.received, h.short, h.receiving, ?_⟩
    intro k hk
    obtain rfl := Option.some.inj hk
    exact ⟨hidle.1, fun m hm => absurd hm (Nat.not_lt_zero m)⟩
  | fileSize => exact h.fileSize hs
  | restart => exact h.restart hg hs

/-- Every file that was received holds the bytes of the page received last, and a segment that `NextSegmentToFetch` goes
past was received. -/
theorem received_mirrored (actions : List Action) (s : Mirror) (hg : Machine.Guarded Mirror.step Quiet start actions)
    (hr : Machine.run Mirror.step start actions = some s) :
    (∀ n data, s.received n = some data → (walName n, data) ∈ s.dir.files) ∧
      ∀ k, s.fetching = some k → ∀ m < k, (s.received m).isSome = true := by
  have h : s.Mirrors := Machine.run_inv (P := fun _ s => s.Mirrors) start_mirrors
    (fun _ _ _ _ h hg hs => h.step hg hs) hg hr
  exact ⟨h.received, fun k hk => (h.fetched k hk).2⟩

/-- A page is received, a session of the follower commits, and the follower asks for the next segment. -/
theorem received_mirrored_one :
    ∃ s, Machine.run Mirror.step start [.createFile 0 [1, 2], .write (.txStorageCommit 10), .writePage, .resume 0,
        .nextSegmentToFetch, .fileSize] = some s ∧ (walName 0, [1, 2]) ∈ s.dir.files := by
  refine Machine.exists_run_of (T := fun s => s.received 0 = some [1, 2]) (by decide) ?_
  intro s hs hreceived
  exact (received_mirrored _ s (by decide) hs).1 0 _ hreceived

def localCommits (n : ℕ) : List Action :=
  (List.range n).flatMap fun i => [.write (.txStorageCommit (BitVec.ofNat 64 (10 + i))), .resume i]

theorem localCommits_succ (n : ℕ) : localCommits (n + 1) =
    localCommits n ++ [.write (.txStorageCommit (BitVec.ofNat 64 (10 + n))), .resume n] := by
  rw [localCommits, List.range_succ, List.flatMap_append, List.flatMap_singleton]
  rfl

theorem length_flushEvent_commit (tx : BitVec 64) : (flushEvent (.txStorageCommit tx)).length = 16 := by
  simp [flushEvent, LogEvent.flush, length_writeInt]

/-- As long as they fit in a page, they go into the first segment. -/
theorem run_localCommits (n : ℕ) (hn : 16 * n ≤ kWalPageSize) :
    ∃ s data, Machine.run Mirror.step start (localCommits n) = some s ∧ s.dir.files = [(walName 0, data)] ∧
      data.length = 16 * n ∧ s.writes.writer.currentSegmentWriter = walName 0 ∧
      s.writes.writer.currentPageSize = 16 * n ∧ s.writes.calls.length = n ∧ s.receiving = none ∧ s.fetching = none ∧
      ∀ m, s.received m = none := by
  induction n with
  | zero => exact ⟨start, [], rfl, rfl, rfl, rfl, rfl, rfl, rfl, rfl, fun _ => rfl⟩
  | succ n ih =>
    obtain ⟨s, data, hrun, hfiles, hlen, hpath, hsize, hcalls, hreceiving, hfetching, hreceived⟩ := ih (by omega)
    rw [localCommits_succ]
    generalize BitVec.ofNat 64 (10 + n) = tx
    have hevent := length_flushEvent_commit tx
    have hw : s.writes.writer.write (flushEvent (.txStorageCommit tx)) =
        s.writes.writer.writeData (flushEvent (.txStorageCommit tx)) := Writes.write_of_room (by omega)
    have hs₁ : s.step (.write (.txStorageCommit tx)) = some { s with writes :=
        ⟨s.writes.writer.append (flushEvent (.txStorageCommit tx)),
          s.writes.calls ++ [(.txStorageCommit tx, .writing 16)]⟩ } := by
      simp only [Mirror.step, Writes.step, hw, Writer.writeData, hevent, Option.map_some]
    have hcall : (s.writes.calls ++ [(LogEvent.txStorageCommit tx, WriteCall.writing 16)])[n]? =
        some (.txStorageCommit tx, .writing 16) := by
      rw [← hcalls, List.getElem?_concat_length]
    have hs₂ : step { s with writes := ⟨s.writes.writer.append (flushEvent (.txStorageCommit tx)),
          s.writes.calls ++ [(.txStorageCommit tx, .writing 16)]⟩ } (.resume n) = some { s with writes :=
        ⟨{ s.writes.writer.append (flushEvent (.txStorageCommit tx)) with
            currentPageSize := s.writes.writer.currentPageSize + 16 },
          (s.writes.calls ++ [(LogEvent.txStorageCommit tx, WriteCall.writing 16)]).set n
            (.txStorageCommit tx, .returned)⟩ } := by
      simp only [Mirror.step, Writes.step, hcall, reduceCtorEq, if_false, Writer.resume, Option.map_some]
      rfl
    refine ⟨_, data ++ flushEvent (.txStorageCommit tx), Machine.run_append hrun (Machine.run_cons.mpr ⟨_, hs₁,
      Machine.run_cons.mpr ⟨_, hs₂, rfl⟩⟩), ?_, ?_, hpath, ?_, ?_, hreceiving, hfetching, hreceived⟩
    · change (s.dir.files.map fun file => if file.1 = s.writes.writer.currentSegmentWriter then
        (file.1, file.2 ++ flushEvent (.txStorageCommit tx)) else file) = _
      rw [hpath, hfiles]
      simp
    · rw [List.length_append, hlen, hevent]
      omega
    · change s.writes.writer.currentPageSize + 16 = _
      omega
    · simp [hcalls]

/-- A new follower serves 256 sessions before it gets the first page. Their commit events fill segment 0, and
`NextSegmentToFetch` goes past it, although it was not received. -/
theorem own_segment_skipped :
    ∃ s, Machine.run Mirror.step start (localCommits 256 ++ [.nextSegmentToFetch, .fileSize]) = some s ∧
      s.fetching = some 1 ∧ s.received 0 = none := by
  obtain ⟨s, data, hrun, hfiles, hlen, -, -, -, hreceiving, hfetching, hreceived⟩ := run_localCommits 256 (by decide)
  have hwhole : hasWholePage s.dir 0 = true := hasWholePage_iff.mpr ⟨data, by rw [hfiles]; simp, by rw [hlen]; decide⟩
  have hs₁ : s.step .nextSegmentToFetch = some { s with fetching := some 0 } := if_pos ⟨hreceiving, hfetching⟩
  have hs₂ : step { s with fetching := some 0 } .fileSize =
      some { s with fetching := if hasWholePage s.dir 0 then some 1 else none } := rfl
  rw [if_pos hwhole] at hs₂
  refine ⟨_, Machine.run_append hrun (Machine.run_cons.mpr ⟨_, hs₁, Machine.run_cons.mpr ⟨_, hs₂, rfl⟩⟩), rfl,
    hreceived 0⟩

end Mirror

end StructureDb
