import StructureDb.Proofs.LeaderLog

/-! The stream of log pages to a follower. The position of a stream moves only past full pages that
were sent, and those stay as they are. If every page that a poll finds is full but the last
one, a poll that sends nothing has nothing left to send; a short page with others behind it
stops the stream. -/

namespace StructureDb

open GetEventsReactor

def Position.next (p : Position) : Position := ⟨p.segmentNo, p.pageNo + 1⟩

theorem Position.not_lt_next {p q : Position} : ¬q < p.next ↔ p < q := by
  simp only [lt_iff, next]
  omega

theorem Position.not_lt_trans {p q r : Position} (hpq : ¬q < p) (hqr : ¬r < q) : ¬r < p := by
  rw [lt_iff] at *
  omega

theorem Position.eq_of_not_lt {p q : Position} (hpq : ¬p < q) (hqp : ¬q < p) : p = q := by
  rw [lt_iff] at *
  obtain ⟨a, i⟩ := p
  obtain ⟨b, j⟩ := q
  simp only [Position.mk.injEq] at *
  omega

namespace Writer

variable {w w' : Writer} {pos : Position} {page : WalPageData}

/-- All files of the position's segment reach up to it, and the segment was given out. -/
def Reached (w : Writer) (pos : Position) : Prop :=
  ∃ n k : ℕ, pos = ⟨n, k⟩ ∧ n ≤ w.currentSegmentNo ∧
    ∀ data, (walName n, data) ∈ w.dir.files → k * kWalPageSize ≤ data.length

theorem Reached.grows (h : w.Reached pos) (hg : w.Grows w') : w'.Reached pos := by
  obtain ⟨n, k, hpos, hn, hlen⟩ := h
  refine ⟨n, k, hpos, hn.trans hg.le, ?_⟩
  intro data' hf
  obtain ⟨data, hf, hp, -⟩ := hg.old n hn data' hf
  exact (hlen data hf).trans hp.length_le

/-- No page comes up before a position that was reached. -/
theorem Reached.old (h : w.Reached pos) (hg : w.Grows w') (hpage : PageOf w'.dir page) (hlt : page.position < pos) :
    PageOf w.dir page := by
  obtain ⟨n, k, rfl, hn, hlen⟩ := h
  obtain ⟨m, data', i, hf, hpos, hi⟩ := hpage
  rw [hpos, Position.lt_iff, Nat.cast_lt, Nat.cast_inj, Nat.cast_lt] at hlt
  refine hg.pageOf hpos (by omega) ?_ ⟨m, data', i, hf, hpos, hi⟩
  intro hm data hf
  have hmn : m = n := by omega
  have hik : i + 1 ≤ k := by omega
  rw [hmn] at hf
  exact (Nat.mul_le_mul_right _ hik).trans (hlen data hf)

/-- The page was in the directory, and may have grown since. -/
structure Snapshot (w : Writer) (page : WalPageData) : Prop where
  place : ∃ n i : ℕ, page.position = ⟨n, i⟩ ∧ n ≤ w.currentSegmentNo ∧
    ∀ data, (walName n, data) ∈ w.dir.files → i * kWalPageSize + page.data.length ≤ data.length
  nonempty : 0 < page.data.length
  grown : ∀ p, PageOf w.dir p → p.position = page.position → page.data <+: p.data

theorem Snapshot.of_pageOf (hn : w.Named) (h : PageOf w.dir page) : w.Snapshot page := by
  obtain ⟨n, data, i, hf, hpos, hi⟩ := id h
  obtain ⟨hlen, hdata⟩ := getElem?_pages_eq_some.mp hi
  have hpage : page.data.length = min kWalPageSize (data.length - i * kWalPageSize) := by
    rw [← hdata, List.length_take, List.length_drop]
  have hsize : 0 < kWalPageSize := by decide
  refine ⟨⟨n, i, hpos, ?_, ?_⟩, by omega, ?_⟩
  · obtain ⟨m, hm, he⟩ := hn _ (Dir.mem_names.mpr ⟨data, hf⟩)
    rw [walName_injective he]
    exact hm
  · intro data' hf'
    rw [Dir.unique hf' hf]
    omega
  · intro p hp heq
    rw [hp.unique h heq]

theorem Snapshot.reached (h : w.Snapshot page) : w.Reached page.position := by
  obtain ⟨n, i, hpos, hn, hlen⟩ := h.place
  exact ⟨n, i, hpos, hn, fun data hf => (Nat.le_add_right _ _).trans (hlen data hf)⟩

theorem Snapshot.reached_next (h : w.Snapshot page) (hc : isCompleted page = true) : w.Reached page.position.next := by
  obtain ⟨n, i, hpos, hn, hlen⟩ := h.place
  refine ⟨n, i + 1, by rw [hpos]; rfl, hn, ?_⟩
  intro data hf
  have hdata := hlen data hf
  rw [of_decide_eq_true hc] at hdata
  rw [Nat.succ_mul]
  exact hdata

theorem Snapshot.grows (h : w.Snapshot page) (hg : w.Grows w') : w'.Snapshot page := by
  obtain ⟨n, i, hpos, hn, hlen⟩ := h.place
  refine ⟨⟨n, i, hpos, hn.trans hg.le, ?_⟩, h.nonempty, ?_⟩
  · intro data' hf
    obtain ⟨data, hf, hp, -⟩ := hg.old n hn data' hf
    exact (hlen data hf).trans hp.length_le
  · rintro p ⟨m, data', j, hf, hpos', hj⟩ heq
    rw [hpos', hpos, Position.mk.injEq, Nat.cast_inj, Nat.cast_inj] at heq
    obtain ⟨rfl, rfl⟩ := heq
    obtain ⟨data, hf, hp, -⟩ := hg.old m hn data' hf
    have hroom := hlen data hf
    have hpage := h.nonempty
    obtain ⟨old, hold, hprefix, -⟩ := pages_of_prefix hp (by omega) hj
    exact (h.grown ⟨p.position, old⟩ ⟨m, data, j, hf, hpos', hold⟩ (hpos'.trans hpos.symm)).trans hprefix

theorem Snapshot.eq_of_completed (h : w.Snapshot page) (hc : isCompleted page = true) {p : WalPageData}
    (hp : PageOf w.dir p) (heq : p.position = page.position) : p = page := by
  have hprefix := h.grown p hp heq
  obtain ⟨n, data, i, -, -, hi⟩ := hp
  obtain ⟨-, hdata⟩ := getElem?_pages_eq_some.mp hi
  have hle : p.data.length ≤ page.data.length := by
    rw [of_decide_eq_true hc, ← hdata, List.length_take]
    exact Nat.min_le_left _ _
  have hsame := hprefix.eq_of_length_le hle
  cases p
  cases page
  simp_all

/-- The pages of a round that are still to be sent: none is missing between the position and the last one of them. -/
def Pending (w : Writer) : Position → List WalPageData → Prop
  | _, [] => True
  | pos, page :: rest =>
    w.Snapshot page ∧ ¬page.position < pos ∧
      (∀ p, PageOf w.dir p → ¬p.position < pos → ¬p.position < page.position) ∧
      if isCompleted page then w.Pending page.position.next rest else rest = []

theorem Pending.grows {pages : List WalPageData} (hg : w.Grows w') (h : w.Pending pos pages) :
    w'.Pending pos pages := by
  induction pages generalizing pos with
  | nil => trivial
  | cons page rest ih =>
    obtain ⟨hsnap, hge, hfirst, hrest⟩ := h
    refine ⟨hsnap.grows hg, hge, ?_, ?_⟩
    · intro p hp hpos hlt
      exact hfirst p (hsnap.reached.old hg hp hlt) hpos hlt
    · split_ifs at hrest ⊢ with hc
      · exact ih hrest
      · exact hrest

/-- What a poll collects, if only the last page is not full. -/
theorem Pending.of_pages (hn : w.Named) {pages : List WalPageData}
    (hasc : pages.Pairwise fun p q => p.position < q.position)
    (hmem : ∀ p, p ∈ pages ↔ PageOf w.dir p ∧ ¬p.position < pos)
    (hfull : ∀ p ∈ pages.dropLast, isCompleted p = true) : w.Pending pos pages := by
  induction pages generalizing pos with
  | nil => trivial
  | cons page rest ih =>
    obtain ⟨hpage, hge⟩ := (hmem page).mp List.mem_cons_self
    rw [List.pairwise_cons] at hasc
    refine ⟨Snapshot.of_pageOf hn hpage, hge, ?_, ?_⟩
    · intro p hp hpos
      rcases List.mem_cons.mp ((hmem p).mpr ⟨hp, hpos⟩) with rfl | hp
      · rw [Position.lt_iff]
        omega
      · have hlt := hasc.1 p hp
        rw [Position.lt_iff] at hlt ⊢
        omega
    · cases rest with
      | nil =>
        split_ifs
        · trivial
        · rfl
      | cons next rest =>
        rw [if_pos (hfull page (by simp))]
        refine ih hasc.2 ?_ fun p hp => hfull p (by simpa using Or.inr hp)
        intro p
        rw [Position.not_lt_next]
        constructor
        · intro hp
          exact ⟨((hmem p).mp (List.mem_cons_of_mem _ hp)).1, hasc.1 p hp⟩
        · rintro ⟨hp, hlt⟩
          have hpos : ¬p.position < pos := by
            refine Position.not_lt_trans hge ?_
            rw [Position.lt_iff] at hlt ⊢
            omega
          rcases List.mem_cons.mp ((hmem p).mpr ⟨hp, hpos⟩) with rfl | hp
          · rw [Position.lt_iff] at hlt
            omega
          · exact hp

end Writer

namespace GetEventsReactor

variable {w w' : Writer} {r : GetEventsReactor} {page : WalPageData} {rest : List WalPageData}

/-- What a stream has sent: everything before its position, and the page at its position up to the tail size. -/
structure Sound (r : GetEventsReactor) (w : Writer) : Prop where
  moved : r.nextPos = r.origin ∨ w.Reached r.nextPos
  sent : ∀ p, PageOf w.dir p → ¬p.position < r.origin → p.position < r.nextPos → p ∈ r.sent ∧
    isCompleted p = true
  tail : 0 ≤ r.tailSentSize →
    ∃ data : Bytes, ⟨r.nextPos, data⟩ ∈ r.sent ∧ (data.length : ℤ) = r.tailSentSize ∧
      w.Snapshot ⟨r.nextPos, data⟩
  pending : ∀ page rest, r.writing = some (page, rest) → w.Pending r.nextPos (page :: rest)

theorem Sound.init (origin : Position) (token : ℕ) (w : Writer) : (init origin token).Sound w :=
  ⟨Or.inl rfl, fun _ _ hge hlt => absurd hlt hge, fun h => absurd h (show ¬(0 : ℤ) ≤ -1 by decide),
    fun _ _ h => nomatch h⟩

theorem Sound.grows (h : r.Sound w) (hg : w.Grows w') : r.Sound w' := by
  refine ⟨h.moved.imp_right fun hr => hr.grows hg, ?_, ?_, ?_⟩
  · intro p hp hge hlt
    rcases h.moved with heq | hr
    · rw [heq] at hlt
      exact absurd hlt hge
    · exact h.sent p (hr.old hg hp hlt) hge hlt
  · intro htail
    obtain ⟨data, hmem, hlen, hsnap⟩ := h.tail htail
    exact ⟨data, hmem, hlen, hsnap.grows hg⟩
  · intro page rest hw
    exact Writer.Pending.grows hg (h.pending page rest hw)

theorem Sound.pumpPages (hmoved : r.nextPos = r.origin ∨ w.Reached r.nextPos)
    (hsent : ∀ p, PageOf w.dir p → ¬p.position < r.origin → p.position < r.nextPos → p ∈ r.sent ∧
      isCompleted p = true)
    (htail : 0 ≤ r.tailSentSize → ∃ data : Bytes, ⟨r.nextPos, data⟩ ∈ r.sent ∧
      (data.length : ℤ) = r.tailSentSize ∧
      w.Snapshot ⟨r.nextPos, data⟩)
    {pages : List WalPageData} (hp : w.Pending r.nextPos pages) : (r.pumpPages pages).Sound w := by
  cases pages with
  | nil => exact ⟨hmoved, hsent, htail, fun _ _ h => nomatch h⟩
  | cons page rest =>
    rw [GetEventsReactor.pumpPages]
    split_ifs
    · exact ⟨hmoved, hsent, htail, fun _ _ h => nomatch h⟩
    · refine ⟨hmoved, hsent, htail, ?_⟩
      intro page' rest' h
      cases h
      exact hp

theorem Sound.poll (h : r.Sound w) (hn : w.Named) (hfew : w.currentSegmentNo < 10000)
    (hfull : ∀ p ∈ (collectPagesFrom w.dir r.nextPos).dropLast, isCompleted p = true) : (r.poll w.dir).Sound w :=
  Sound.pumpPages h.moved h.sent h.tail
    (Writer.Pending.of_pages hn (collectPagesFrom_ascending (hn.ascending hfew) _)
      (fun _ => hn.mem_collectPagesFrom) hfull)

theorem Sound.pageWritten (h : r.Sound w) (hw : r.writing = some (page, rest)) : (r.pageWritten page rest).Sound w := by
  obtain ⟨hsnap, hge, hfirst, hrest⟩ := h.pending page rest hw
  -- a page before this one was sent before
  have hbefore : ∀ p, PageOf w.dir p → ¬p.position < r.origin → p.position < page.position →
      p ∈ r.sent ∧ isCompleted p = true := by
    intro p hp horigin hlt
    refine h.sent p hp horigin ?_
    by_contra hpos
    exact hfirst p hp hpos hlt
  unfold GetEventsReactor.pageWritten
  split_ifs with hc
  · rw [if_pos hc] at hrest
    refine Sound.pumpPages (Or.inr (hsnap.reached_next hc)) ?_
      (fun htail => absurd htail (show ¬(0 : ℤ) ≤ -1 by decide))
      hrest
    intro p hp horigin hlt
    by_cases hpage : p.position < page.position
    · obtain ⟨hmem, hfull⟩ := hbefore p hp horigin hpage
      exact ⟨List.mem_append_left _ hmem, hfull⟩
    · have heq : p.position = page.position := by
        refine Position.eq_of_not_lt hpage ?_
        intro hgt
        exact Position.not_lt_next.mpr hgt hlt
      rw [hsnap.eq_of_completed hc hp heq]
      exact ⟨by simp, hc⟩
  · refine ⟨Or.inr hsnap.reached, ?_, ?_, fun _ _ h => nomatch h⟩
    · intro p hp horigin hlt
      obtain ⟨hmem, hfull⟩ := hbefore p hp horigin hlt
      exact ⟨List.mem_append_left _ hmem, hfull⟩
    · intro _
      exact ⟨page.data, by simp, rfl, hsnap⟩

theorem Sound.all_sent (h : r.Sound w) (hn : w.Named)
    (hfull : ∀ p ∈ (collectPagesFrom w.dir r.nextPos).dropLast, isCompleted p = true)
    (hidle : (r.poll w.dir).writing = none) {p : WalPageData} (hp : p ∈ collectPagesFrom w.dir r.origin) :
    p ∈ r.sent := by
  obtain ⟨hp, horigin⟩ := hn.mem_collectPagesFrom.mp hp
  by_cases hlt : p.position < r.nextPos
  · exact (h.sent p hp horigin hlt).1
  · have hmem := hn.mem_collectPagesFrom.mpr ⟨hp, hlt⟩
    unfold GetEventsReactor.poll at hidle
    cases hpages : collectPagesFrom w.dir r.nextPos with
    | nil =>
      rw [hpages] at hmem
      cases hmem
    | cons page rest =>
      rw [hpages] at hidle hmem hfull
      rw [GetEventsReactor.pumpPages] at hidle
      split_ifs at hidle with htail
      obtain ⟨hshort, htail⟩ := htail
      -- the page is not full, so it is the only one
      have hrest : rest = [] := by
        cases rest with
        | nil => rfl
        | cons next rest => exact absurd (hfull page (by simp)) hshort
      rw [hrest, List.mem_singleton] at hmem
      obtain ⟨hpos, hsize⟩ := of_decide_eq_true htail
      obtain ⟨data, hdata, hlen, hsnap⟩ := h.tail (by omega)
      rw [← hmem] at hpos hsize
      have hsame := (hsnap.grown p hp hpos).eq_of_length_le (by simp only; omega)
      have hpage : p = ⟨r.nextPos, data⟩ := by
        rw [← hpos]
        cases p
        simp_all
      rw [hpage]
      exact hdata

end GetEventsReactor

namespace Leader

variable {s s' : Leader} {action : Action}

/-- Writes do not overlap, and every page that a poll finds is full but the last one; the segment numbers have four
digits. -/
def Orderly (s : Leader) : Action → Prop
  | .write _ => ∀ c ∈ s.writes.calls, c.2 = .returned
  | .poll token => s.writes.writer.currentSegmentNo < 10000 ∧
    ∀ r ∈ s.reactor? token, ∀ p ∈ (collectPagesFrom s.dir r.nextPos).dropLast, isCompleted p = true
  | .restart => s.writes.writer.currentSegmentNo < 10000
  | _ => True

instance (s : Leader) : (action : Action) → Decidable (s.Orderly action)
  | .write _ => inferInstanceAs (Decidable (∀ c ∈ s.writes.calls, c.2 = .returned))
  | .poll _ => inferInstanceAs (Decidable (_ ∧ _))
  | .restart => inferInstanceAs (Decidable (_ < _))
  | .resume _ | .persisted _ _ | .getEvents _ | .writeDone _ | .done _ | .clean | .listDirectory | .readPage |
    .remove _ => isTrue trivial

theorem step_grows (h : s.writes.OneCall) (hg : s.Orderly action) (hs : s.step action = some s') :
    s'.writes.OneCall ∧ (action ≠ .restart → s.writes.writer.Grows s'.writes.writer) := by
  obtain ⟨event, rfl, hw⟩ | ⟨call, rfl, hw⟩ | ⟨segmentNo, rfl, hw⟩ | ⟨rfl, hw⟩ | hw := step_writes hs
  · obtain ⟨h', hgrows⟩ := h.write hg hw
    exact ⟨h', fun _ => hgrows⟩
  · obtain ⟨h', hgrows⟩ := h.resume hw
    exact ⟨h', fun _ => hgrows⟩
  · rw [hw]
    exact ⟨⟨h.named.unlink _, h.single⟩, fun _ => Writer.Grows.keep rfl fun f hf => (Dir.mem_unlink.mp hf).1⟩
  · rw [hw]
    exact ⟨.init h.named hg, fun hne => absurd rfl hne⟩
  · rw [hw]
    exact ⟨h, fun _ => Writer.Grows.refl _⟩

structure Streams (s : Leader) : Prop where
  log : s.writes.OneCall
  sound : ∀ r ∈ s.reactors, r.Sound s.writes.writer

theorem start_streams : start.Streams := by
  refine ⟨⟨?_, Or.inl ⟨rfl, by simp [start, Writes.start]⟩⟩, by simp [start]⟩
  intro name hname
  refine ⟨0, le_rfl, ?_⟩
  rw [show start.writes.writer.dir.names = [walName 0] from rfl, List.mem_singleton] at hname
  exact hname

theorem Streams.step (h : s.Streams) (hg : s.Orderly action) (hs : s.step action = some s') : s'.Streams := by
  obtain ⟨hlog, hgrows⟩ := step_grows h.log hg hs
  refine ⟨hlog, ?_⟩
  intro r' hr'
  by_cases hrestart : action = .restart
  · subst hrestart
    cases hs
    cases hr'
  obtain hr | ⟨origin, -, rfl⟩ | ⟨token, r, rfl, hr, -, rfl⟩ | ⟨token, r, page, rest, -, hr, hw, rfl⟩ :=
    step_reactors hs hr'
  · exact (h.sound r' hr).grows (hgrows hrestart)
  · exact .init origin _ _
  · exact ((h.sound r (reactor?_mem hr).1).poll h.log.named hg.1 (hg.2 r hr)).grows (hgrows hrestart)
  · exact ((h.sound r (reactor?_mem hr).1).pageWritten hw).grows (hgrows hrestart)

theorem Streams.run {actions : List Action} (h : s.Streams) (hg : Machine.Guarded Leader.step Orderly s actions)
    (hr : Machine.run Leader.step s actions = some s') : s'.Streams :=
  Machine.run_inv (P := fun _ s => s.Streams) h (fun _ _ _ _ h hg hs => h.step hg hs) hg hr

theorem run_grows {actions : List Action} (h : s.writes.OneCall) (hg : Machine.Guarded step Orderly s actions)
    (hlive : .restart ∉ actions) (hr : Machine.run step s actions = some s') :
    s.writes.writer.Grows s'.writes.writer := by
  have hinv : .restart ∉ actions → s'.writes.OneCall ∧ s.writes.writer.Grows s'.writes.writer := by
    refine Machine.run_inv (P := fun tr t => .restart ∉ tr → t.writes.OneCall ∧ s.writes.writer.Grows t.writes.writer)
      (fun _ => ⟨h, Writer.Grows.refl _⟩) ?_ hg hr
    intro tr t action t' ht hg hs hlive
    obtain ⟨hone, hgrows⟩ := ht fun hmem => hlive (List.mem_append_left _ hmem)
    obtain ⟨hone', hstep⟩ := step_grows hone hg hs
    refine ⟨hone', hgrows.trans (hstep ?_)⟩
    rintro rfl
    exact hlive (by simp)
  exact (hinv hlive).2

theorem reactor?_setReactor {r : GetEventsReactor} (r' : GetEventsReactor) (h : s.reactor? r'.token = some r) :
    (s.setReactor r').reactor? r'.token = some r' := by
  have hcomp : ((fun x : GetEventsReactor => decide (x.token = r'.token)) ∘
      fun x => if x.token = r'.token then r' else x) = fun x => decide (x.token = r'.token) := by
    funext x
    by_cases hx : x.token = r'.token <;> simp [hx]
  unfold reactor? at h
  rw [reactor?, setReactor, List.find?_map, hcomp, h, Option.map_some, if_pos]
  simpa using List.find?_some h

theorem poll_token (r : GetEventsReactor) (dir : Dir Bytes Bytes) : (r.poll dir).token = r.token := by
  unfold GetEventsReactor.poll
  cases collectPagesFrom dir r.nextPos with
  | nil => rfl
  | cons page rest =>
    rw [GetEventsReactor.pumpPages]
    split_ifs <;> rfl

/-- A page that is found before the position of a stream, then or later, was sent as it is; and when a round sends
nothing, every page from the origin of the stream on was sent as it is. -/
theorem stream_up_to_date (before after : List Action) (s s' : Leader)
    (hbefore : Machine.Guarded step Orderly start before) (hs : Machine.run step start before = some s)
    (hafter : Machine.Guarded step Orderly s after) (hs' : Machine.run step s after = some s')
    (hlive : .restart ∉ after) :
    (∀ r ∈ s.reactors, ∀ page ∈ collectPagesFrom s'.dir r.origin, page.position < r.nextPos → page ∈ r.sent) ∧
      ∀ token t r r', s.Orderly (.poll token) → s.step (.poll token) = some t → s.reactor? token = some r →
        t.reactor? token = some r' → r'.writing = none → ∀ page ∈ collectPagesFrom s.dir r.origin,
          page ∈ r.sent := by
  have h := start_streams.run hbefore hs
  have h' := (h.run hafter hs').log.named
  have hgrows := run_grows h.log hafter hlive hs'
  refine ⟨?_, ?_⟩
  · intro r hr page hpage hlt
    obtain ⟨hpage, horigin⟩ := h'.mem_collectPagesFrom.mp hpage
    exact (((h.sound r hr).grows hgrows).sent page hpage horigin hlt).1
  · intro token t r r' hg ht hr hr' hidle page hpage
    obtain ⟨hmem, rfl⟩ := reactor?_mem hr
    simp only [step, hr] at ht
    split_ifs at ht
    cases ht
    have hset := reactor?_setReactor (r.poll s.dir) (by rw [poll_token]; exact hr)
    rw [poll_token, hr'] at hset
    rw [Option.some.inj hset] at hidle
    exact (h.sound r hmem).all_sent h.log.named (hg.2 r hr) hidle hpage

/-- A page is sent, grows and is sent again, and then a round has nothing to send. -/
theorem stream_up_to_date_grown :
    ∃ s, Machine.run step start [.getEvents ⟨0, 0⟩, .write (.txStorageCommit 10), .resume 0, .poll 0, .writeDone 0,
        .write (.txStorageCommit 11), .resume 1, .poll 0, .writeDone 0] = some s ∧
      ∃ r, s.reactor? 0 = some r ∧ ∀ page ∈ collectPagesFrom s.dir r.origin, page ∈ r.sent := by
  refine Machine.exists_run_of (T := fun s => s.Orderly (.poll 0) ∧ ((s.step (.poll 0)).bind fun t =>
    (t.reactor? 0).map GetEventsReactor.writing) = some none ∧ (s.reactor? 0).isSome = true) (by decide) ?_
  rintro s hs ⟨hg, hidle, hsome⟩
  obtain ⟨r, hr⟩ := Option.isSome_iff_exists.mp hsome
  obtain ⟨t, ht, hmap⟩ := Option.bind_eq_some_iff.mp hidle
  obtain ⟨r', hr', hw⟩ := Option.map_eq_some_iff.mp hmap
  exact ⟨r, hr, (stream_up_to_date _ [] s s (by decide) hs trivial rfl (by simp)).2 0 t r r' hg ht hr hr' hw⟩

/-- The segment of an earlier life is short. The stream sends it, finds it unchanged and stops there: a round sends
nothing, while the commit event of the next segment was not sent. -/
theorem short_segment_stops_stream :
    ∃ s, Machine.run step start [.write (.txStorageCommit 10), .resume 0, .restart, .write (.txStorageCommit 11),
      .resume 0,
        .getEvents ⟨0, 0⟩, .poll 0, .writeDone 0] = some s ∧
      ((s.step (.poll 0)).bind fun t => (t.reactor? 0).map GetEventsReactor.writing) = some none ∧
      (s.reactor? 0).map GetEventsReactor.sent = some [⟨⟨0, 0⟩, flushEvent (.txStorageCommit 10)⟩] ∧
      collectPagesFrom s.dir ⟨0, 0⟩ =
        [⟨⟨0, 0⟩, flushEvent (.txStorageCommit 10)⟩, ⟨⟨1, 0⟩, flushEvent (.txStorageCommit 11)⟩] :=
  Machine.exists_run (by decide)

end Leader

end StructureDb
