import StructureDb.Proofs.ConcurrentLog
import StructureDb.Proofs.SegmentOrder
import StructureDb.Spec.Replication

/-! How the leader's log directory changes while it is read. Numbers above the current one are
not in use, and as long as no two writes overlap only the current segment grows: a page
that is full stays as it is, and new pages come behind all the others. -/

namespace StructureDb

theorem Position.lt_iff {p q : Position} :
    p < q ↔ p.segmentNo < q.segmentNo ∨ p.segmentNo = q.segmentNo ∧ p.pageNo < q.pageNo := by
  change (if p.segmentNo ≠ q.segmentNo then p.segmentNo < q.segmentNo else p.pageNo < q.pageNo) ↔ _
  split_ifs <;> omega

theorem getElem?_pages (data : Bytes) (i : ℕ) :
    (pages data)[i]? =
      if i * kWalPageSize < data.length then some ((data.drop (i * kWalPageSize)).take kWalPageSize) else none := by
  suffices h : ∀ reads data i, List.length data ≤ reads → (readPages reads data)[i]? =
      if i * kWalPageSize < data.length then some ((data.drop (i * kWalPageSize)).take kWalPageSize) else none from
    h data.length data i le_rfl
  clear data i
  have hpos : 0 < kWalPageSize := by decide
  intro reads
  induction reads with
  | zero =>
    intro data i h
    rw [List.length_eq_zero_iff.mp (Nat.le_zero.mp h)]
    simp [readPages]
  | succ reads ih =>
    intro data i h
    rw [readPages]
    by_cases hnil : data = []
    · simp [hnil]
    · rw [if_neg hnil]
      have hlen : 0 < data.length := List.length_pos_of_ne_nil hnil
      cases i with
      | zero => simp [hlen]
      | succ i =>
        rw [List.getElem?_cons_succ, ih _ _ (by rw [List.length_drop]; omega), List.length_drop, List.drop_drop,
          Nat.succ_mul, Nat.add_comm kWalPageSize]
        by_cases hi : i * kWalPageSize < data.length - kWalPageSize
        · rw [if_pos hi, if_pos (by omega)]
        · rw [if_neg hi, if_neg (by omega)]

theorem getElem?_pages_eq_some {data page : Bytes} {i : ℕ} :
    (pages data)[i]? = some page ↔
      i * kWalPageSize < data.length ∧ (data.drop (i * kWalPageSize)).take kWalPageSize = page := by
  rw [getElem?_pages]
  split_ifs with h <;> simp [h]

/-- A longer file has longer pages, and those that were full are the same. -/
theorem pages_of_prefix {data data' page' : Bytes} {i : ℕ} (hp : data <+: data')
    (hlen : i * kWalPageSize < data.length) (h : (pages data')[i]? = some page') :
    ∃ page, (pages data)[i]? = some page ∧ page <+: page' ∧ ((i + 1) * kWalPageSize ≤ data.length →
      page' = page) := by
  obtain ⟨-, rfl⟩ := getElem?_pages_eq_some.mp h
  obtain ⟨more, rfl⟩ := hp
  have hdrop : (data ++ more).drop (i * kWalPageSize) = data.drop (i * kWalPageSize) ++ more :=
    List.drop_append_of_le_length hlen.le
  refine ⟨_, getElem?_pages_eq_some.mpr ⟨hlen, rfl⟩, ?_, ?_⟩
  · rw [hdrop, List.take_append]
    exact List.prefix_append _ _
  · intro hfull
    rw [hdrop, List.take_append_of_le_length]
    rw [List.length_drop, Nat.succ_mul] at *
    omega

def PageOf (dir : Dir Bytes Bytes) (page : WalPageData) : Prop :=
  ∃ n data, ∃ i : ℕ, (walName n, data) ∈ dir.files ∧ page.position = ⟨n, i⟩ ∧
    (pages data)[i]? = some page.data

theorem PageOf.unique {dir : Dir Bytes Bytes} {p q : WalPageData} (hp : PageOf dir p) (hq : PageOf dir q)
    (h : p.position = q.position) : p = q := by
  obtain ⟨n, data, i, hf, hpos, hi⟩ := hp
  obtain ⟨m, data', j, hf', hpos', hj⟩ := hq
  rw [hpos, hpos', Position.mk.injEq, Nat.cast_inj, Nat.cast_inj] at h
  obtain ⟨rfl, rfl⟩ := h
  rw [Dir.unique hf hf', hj] at hi
  cases p
  cases q
  simp_all

namespace Writer

variable {w w' w'' : Writer}

/-- No number above the current one is in use. -/
def Named (w : Writer) : Prop := ∀ name ∈ w.dir.names, ∃ n ≤ w.currentSegmentNo, name = walName n

/-- The segments with numbers that `w` had given out were there, and only the last one of them has grown. -/
structure Grows (w w' : Writer) : Prop where
  le : w.currentSegmentNo ≤ w'.currentSegmentNo
  old : ∀ n ≤ w.currentSegmentNo, ∀ data', (walName n, data') ∈ w'.dir.files →
    ∃ data, (walName n, data) ∈ w.dir.files ∧ data <+: data' ∧ (n < w.currentSegmentNo → data' = data)

theorem Grows.refl (w : Writer) : w.Grows w :=
  ⟨le_rfl, fun _ _ data h => ⟨data, h, List.prefix_refl data, fun _ => rfl⟩⟩

theorem Grows.trans (h : w.Grows w') (h' : w'.Grows w'') : w.Grows w'' := by
  refine ⟨h.le.trans h'.le, ?_⟩
  intro n hn data'' hf
  obtain ⟨data', hf', hp', hsame'⟩ := h'.old n (hn.trans h.le) data'' hf
  obtain ⟨data, hf, hp, hsame⟩ := h.old n hn data' hf'
  refine ⟨data, hf, hp.trans hp', ?_⟩
  intro hlt
  rw [hsame' (hlt.trans_le h.le), hsame hlt]

theorem Named.numbers (h : w.Named) : ∃ numbers : Finset ℕ, (∀ n ∈ numbers, n ≤ w.currentSegmentNo) ∧
    ∀ name, name ∈ w.dir.names ↔ ∃ n ∈ numbers, name = walName n := by
  refine ⟨(Finset.range (w.currentSegmentNo + 1)).filter fun n => walName n ∈ w.dir.names, ?_, ?_⟩
  · intro n hn
    have := Finset.mem_range.mp (Finset.mem_filter.mp hn).1
    omega
  · intro name
    constructor
    · intro hname
      obtain ⟨n, hn, rfl⟩ := h name hname
      exact ⟨n, Finset.mem_filter.mpr ⟨Finset.mem_range.mpr (by omega), hname⟩, rfl⟩
    · rintro ⟨n, hn, rfl⟩
      exact (Finset.mem_filter.mp hn).2

theorem Named.ascending (h : w.Named) (hfew : w.currentSegmentNo < 10000) :
    ((Reader.segments w.dir).map Prod.fst).Pairwise (· < ·) := by
  obtain ⟨numbers, hle, hdir⟩ := h.numbers
  refine (segments_ascending_iff hdir).mpr ?_
  intro a _ b hb hab
  have hb' := hle b hb
  exact (walName_lt_iff hab).mp (walName_lt hab (by omega))

theorem Named.mem_collectPagesFrom (h : w.Named) {origin : Position} {page : WalPageData} :
    page ∈ collectPagesFrom w.dir origin ↔ PageOf w.dir page ∧ ¬page.position < origin := by
  obtain ⟨numbers, -, hdir⟩ := h.numbers
  rw [StructureDb.mem_collectPagesFrom hdir]
  constructor
  · rintro ⟨n, -, data, i, hf, hpos, hi, hge⟩
    exact ⟨⟨n, data, i, hf, hpos, hi⟩, hge⟩
  · rintro ⟨⟨n, data, i, hf, hpos, hi⟩, hge⟩
    obtain ⟨m, hm, he⟩ := (hdir _).mp (Dir.mem_names.mpr ⟨data, hf⟩)
    rw [walName_injective he] at hf hpos
    exact ⟨m, hm, data, i, hf, hpos, hi, hge⟩

/-- A restart goes on behind every number that is in use. -/
theorem Named.lt_initialSegmentNo (h : w.Named) (hfew : w.currentSegmentNo < 10000) {n : ℕ}
    (hn : walName n ∈ w.dir.names) : n < initialSegmentNo w.dir := by
  obtain ⟨numbers, hle, hdir⟩ := h.numbers
  obtain ⟨m, hm, he⟩ := (hdir _).mp hn
  rw [walName_injective he]
  exact initialSegmentNo_gt hdir (h.ascending hfew) m hm

theorem Named.init (h : w.Named) (hfew : w.currentSegmentNo < 10000) : (Writer.init w.dir).Named := by
  intro name hname
  obtain ⟨data, hf⟩ := Dir.mem_names.mp hname
  rcases Dir.mem_touch.mp hf with hf | ⟨-, he⟩
  · have hin := Dir.mem_names.mpr ⟨data, hf⟩
    obtain ⟨n, -, rfl⟩ := h name hin
    exact ⟨n, (h.lt_initialSegmentNo hfew hin).le, rfl⟩
  · exact ⟨_, le_rfl, (Prod.mk.inj he).1⟩

/-- A page of an old segment, or one that was full, is the page it was. -/
theorem Grows.pageOf (h : w.Grows w') {page : WalPageData} {n i : ℕ} (hpos : page.position = ⟨n, i⟩)
    (hn : n ≤ w.currentSegmentNo)
    (hfull : n = w.currentSegmentNo → ∀ data, (walName n, data) ∈ w.dir.files →
      (i + 1) * kWalPageSize ≤ data.length)
    (hpage : PageOf w'.dir page) : PageOf w.dir page := by
  obtain ⟨m, data', j, hf, hpos', hj⟩ := hpage
  rw [hpos, Position.mk.injEq, Nat.cast_inj, Nat.cast_inj] at hpos'
  obtain ⟨rfl, rfl⟩ := hpos'
  obtain ⟨data, hf, hp, hsame⟩ := h.old n hn data' hf
  rcases Nat.lt_or_eq_of_le hn with hlt | heq
  · rw [hsame hlt] at hj
    exact ⟨n, data, i, hf, hpos, hj⟩
  · have hle := hfull heq data hf
    have hsize : 0 < kWalPageSize := by decide
    have hlen : i * kWalPageSize < data.length := by
      rw [Nat.succ_mul] at hle
      omega
    obtain ⟨old, hold, -, hall⟩ := pages_of_prefix hp hlen hj
    exact ⟨n, data, i, hf, hpos, hold.trans (congrArg some (hall hle).symm)⟩

theorem Named.unlink (h : w.Named) (name : Bytes) : Named { w with dir := w.dir.unlink name } := by
  intro name' hname
  obtain ⟨data, hf⟩ := Dir.mem_names.mp hname
  exact h name' (Dir.mem_names.mpr ⟨data, (Dir.mem_unlink.mp hf).1⟩)

/-- A property of the directory and the current number that appended bytes and the next segment keep. -/
structure DirInv (P : Dir Bytes Bytes → ℕ → Prop) : Prop where
  append : ∀ {dir no}, P dir no → ∀ name data, P (dir.modify name fun bytes => bytes ++ data) no
  next : ∀ {dir no}, P dir no → P (dir.touch (walName (no + 1)) []) (no + 1)

namespace DirInv

variable {P : Dir Bytes Bytes → ℕ → Prop} (hP : DirInv P)
include hP

theorem endPage (h : P w.dir w.currentSegmentNo) (data : Bytes) :
    P (w.endPage data).1.dir (w.endPage data).1.currentSegmentNo := by
  rw [endPage_eq]
  exact hP.next h

theorem write (h : P w.dir w.currentSegmentNo) (data : Bytes) :
    P (w.write data).1.dir (w.write data).1.currentSegmentNo := by
  unfold Writer.write flushPage
  split_ifs
  · exact hP.append h _ data
  · exact hP.append h _ _
  · exact hP.endPage h data
  · exact hP.append h _ data

theorem resume (h : P w.dir w.currentSegmentNo) (call : WriteCall) :
    P (w.resume call).1.dir (w.resume call).1.currentSegmentNo := by
  cases call with
  | padding data => exact hP.endPage h data
  | opening path data => exact hP.append h path data
  | writing size => exact h
  | returned => exact h

end DirInv

theorem Named.dirInv : DirInv fun dir no => ∀ name ∈ dir.names, ∃ n ≤ no, name = walName n where
  append h name data := by
    rw [Dir.names_modify]
    exact h
  next h name hname := by
    obtain ⟨data', hf⟩ := Dir.mem_names.mp hname
    rcases Dir.mem_touch.mp hf with hf | ⟨-, he⟩
    · obtain ⟨n, hn, rfl⟩ := h name (Dir.mem_names.mpr ⟨data', hf⟩)
      exact ⟨n, Nat.le_succ_of_le hn, rfl⟩
    · exact ⟨_, le_rfl, (Prod.mk.inj he).1⟩

theorem names_dirInv (name : Bytes) : DirInv fun dir _ => name ∈ dir.names where
  append h _ _ := by rwa [Dir.names_modify]
  next h := Dir.names_touch _ _ _ h

theorem Grows.append (hno : w'.currentSegmentNo = w.currentSegmentNo) (data : Bytes)
    (hdir : w'.dir = w.dir.modify (walName w.currentSegmentNo) fun bytes => bytes ++ data) : w.Grows w' := by
  refine ⟨hno.ge, ?_⟩
  intro n hn data' hf
  rw [hdir] at hf
  rcases Dir.mem_modify.mp hf with ⟨hf, -⟩ | ⟨bytes, hbytes, he⟩
  · exact ⟨data', hf, List.prefix_refl data', fun _ => rfl⟩
  · obtain ⟨hname, rfl⟩ := Prod.mk.inj he
    obtain rfl := walName_injective hname
    exact ⟨bytes, hbytes, List.prefix_append bytes data, fun hlt => absurd hlt (lt_irrefl _)⟩

theorem Grows.keep (hno : w'.currentSegmentNo = w.currentSegmentNo) (hdir : ∀ f ∈ w'.dir.files, f ∈ w.dir.files) :
    w.Grows w' :=
  ⟨hno.ge, fun _ _ data hf => ⟨data, hdir _ hf, List.prefix_refl data, fun _ => rfl⟩⟩

/-- Where a suspended call is going to write is the current segment. -/
def Aims (w : Writer) : WriteCall → Prop
  | .opening path _ => path = walName w.currentSegmentNo
  | _ => w.currentSegmentWriter = walName w.currentSegmentNo

theorem endPage_grows (w : Writer) (data : Bytes) :
    w.Grows (w.endPage data).1 ∧ (w.endPage data).1.Aims (w.endPage data).2 := by
  rw [endPage_eq]
  refine ⟨⟨Nat.le_succ _, ?_⟩, rfl⟩
  intro n hn data' hf
  rcases Dir.mem_touch.mp hf with hf | ⟨-, he⟩
  · exact ⟨data', hf, List.prefix_refl data', fun _ => rfl⟩
  · have := walName_injective (Prod.mk.inj he).1
    omega

theorem append_grows (ho : w.currentSegmentWriter = walName w.currentSegmentNo) (data : Bytes) :
    w.Grows (w.append data) := by
  refine Grows.append rfl data ?_
  rw [← ho]
  rfl

theorem write_grows (ho : w.currentSegmentWriter = walName w.currentSegmentNo) (data : Bytes) :
    w.Grows (w.write data).1 ∧ (w.write data).1.Aims (w.write data).2 := by
  unfold write flushPage
  split_ifs
  · exact ⟨append_grows ho data, ho⟩
  · exact ⟨append_grows ho _, ho⟩
  · exact endPage_grows w data
  · exact ⟨append_grows ho data, ho⟩

theorem resume_grows {call : WriteCall} (ha : w.Aims call) :
    w.Grows (w.resume call).1 ∧ (w.resume call).1.Aims (w.resume call).2 := by
  cases call with
  | padding data => exact endPage_grows w data
  | opening path data =>
    refine ⟨Grows.append rfl data ?_, ha⟩
    rw [← ha]
    rfl
  | writing size => exact ⟨Grows.keep rfl fun _ hf => hf, ha⟩
  | returned => exact ⟨Grows.refl w, ha⟩

end Writer

namespace Writes

variable {s s' : Writes}

theorem step_dirInv {P : Dir Bytes Bytes → ℕ → Prop} (hP : Writer.DirInv P) {action : Action}
    (h : P s.writer.dir s.writer.currentSegmentNo) (hs : s.step action = some s') :
    P s'.writer.dir s'.writer.currentSegmentNo := by
  cases action with
  | write event =>
    cases hs
    exact hP.write h _
  | resume i =>
    obtain ⟨ev, call, pre, post, -, -, rfl⟩ := resume_cases hs
    exact hP.resume h _

theorem step_names {action : Action} (hs : s.step action = some s') {name : Bytes} (h : name ∈ s.writer.dir.names) :
    name ∈ s'.writer.dir.names :=
  step_dirInv (Writer.names_dirInv name) h hs

theorem step_named {action : Action} (h : s.writer.Named) (hs : s.step action = some s') : s'.writer.Named :=
  step_dirInv Writer.Named.dirInv h hs

def Single (P : Writer → WriteCall → Prop) (s : Writes) : Prop :=
  (P s.writer .returned ∧ ∀ c ∈ s.calls, c.2 = .returned) ∨
    ∃ front event call, s.calls = front ++ [(event, call)] ∧ (∀ c ∈ front, c.2 = .returned) ∧ P s.writer call

section Single

variable {P Q : Writer → WriteCall → Prop}

theorem Single.returned (h : s.Single P) (hreturned : ∀ c ∈ s.calls, c.2 = .returned) : P s.writer .returned := by
  obtain ⟨hp, -⟩ | ⟨front, event, call, hcalls, -, hp⟩ := h
  · exact hp
  · have hcall : call = .returned := hreturned (event, call) (by rw [hcalls]; simp)
    rw [hcall] at hp
    exact hp

theorem Single.write (hreturned : ∀ c ∈ s.calls, c.2 = .returned) {event : LogEvent}
    (hs : s.step (.write event) = some s')
    (hp : P (s.writer.write (flushEvent event)).1 (s.writer.write (flushEvent event)).2) :
    s'.writer = (s.writer.write (flushEvent event)).1 ∧ s'.Single P := by
  cases hs
  exact ⟨rfl, Or.inr ⟨s.calls, event, _, rfl, hreturned, hp⟩⟩

theorem Single.resume (h : s.Single P) {i : ℕ} (hs : s.step (.resume i) = some s')
    (hq : ∀ call, P s.writer call → Q (s.writer.resume call).1 (s.writer.resume call).2) :
    (∃ call, P s.writer call ∧ s'.writer = (s.writer.resume call).1) ∧ s'.Single Q := by
  obtain ⟨ev, call, pre, post, hdone, hsplit, rfl⟩ := resume_cases hs
  obtain ⟨-, hreturned⟩ | ⟨front, event, last, hcalls, hreturned, hp⟩ := h
  · exact absurd (hreturned (ev, call) (by rw [hsplit]; simp)) hdone
  · rw [hcalls] at hsplit
    obtain ⟨he, rfl, rfl⟩ | ⟨post', hfront⟩ := Splits.concat_eq_append_cons hsplit
    · obtain ⟨rfl, rfl⟩ := Prod.mk.inj he
      exact ⟨⟨last, hp, rfl⟩, Or.inr ⟨front, event, _, rfl, hreturned, hq last hp⟩⟩
    · exact absurd (hreturned (ev, call) (by rw [hfront]; simp)) hdone

end Single

/-- No two calls are under way, and the one that is writes to the current segment. -/
structure OneCall (s : Writes) : Prop where
  named : s.writer.Named
  single : s.Single Writer.Aims

theorem OneCall.init {w : Writer} (h : w.Named) (hfew : w.currentSegmentNo < 10000) :
    OneCall ⟨Writer.init w.dir, []⟩ := ⟨h.init hfew, Or.inl ⟨rfl, by simp⟩⟩

theorem OneCall.write (h : s.OneCall) (hreturned : ∀ c ∈ s.calls, c.2 = .returned) {event : LogEvent}
    (hs : s.step (.write event) = some s') : s'.OneCall ∧ s.writer.Grows s'.writer := by
  obtain ⟨hgrows, haims⟩ := Writer.write_grows (h.single.returned hreturned) (flushEvent event)
  obtain ⟨hw, hsingle⟩ := Single.write hreturned hs haims
  exact ⟨⟨step_named h.named hs, hsingle⟩, hw ▸ hgrows⟩

theorem OneCall.resume (h : s.OneCall) {i : ℕ} (hs : s.step (.resume i) = some s') :
    s'.OneCall ∧ s.writer.Grows s'.writer := by
  obtain ⟨⟨call, haims, hw⟩, hsingle⟩ := h.single.resume hs fun call haims => (Writer.resume_grows haims).2
  exact ⟨⟨step_named h.named hs, hsingle⟩, hw ▸ (Writer.resume_grows haims).1⟩

end Writes

namespace Leader

variable {s s' : Leader} {action : Action}

theorem mem_setReactor {r r' : GetEventsReactor} (h : r' ∈ (s.setReactor r).reactors) :
    r' = r ∨ r' ∈ s.reactors ∧ r'.token ≠ r.token := by
  obtain ⟨x, hx, rfl⟩ := List.mem_map.mp h
  split_ifs with hx'
  · exact Or.inl rfl
  · exact Or.inr ⟨hx, hx'⟩

theorem reactor?_mem {token : ℕ} {r : GetEventsReactor} (h : s.reactor? token = some r) :
    r ∈ s.reactors ∧ r.token = token :=
  ⟨List.mem_of_find?_eq_some h, by simpa using List.find?_some h⟩

/-- Where the streams of the next state come from. -/
theorem step_reactors (h : s.step action = some s') {r' : GetEventsReactor} (hr : r' ∈ s'.reactors) :
    r' ∈ s.reactors ∨
      (∃ origin, action = .getEvents origin ∧ r' = .init origin s.followers.nextToken) ∨
      (∃ token r, action = .poll token ∧ s.reactor? token = some r ∧ r.writing = none ∧ r' = r.poll s.dir) ∨
      ∃ token r page rest, action = .writeDone token ∧ s.reactor? token = some r ∧ r.writing = some (page, rest) ∧
        r' = r.pageWritten page rest := by
  cases action with
  | write event =>
    rw [step, Option.map_eq_some_iff] at h
    obtain ⟨writes, -, rfl⟩ := h
    exact Or.inl hr
  | resume call =>
    rw [step, Option.map_eq_some_iff] at h
    obtain ⟨writes, -, rfl⟩ := h
    exact Or.inl hr
  | persisted storageId seqNo =>
    cases h
    exact Or.inl hr
  | getEvents origin =>
    cases h
    rcases List.mem_append.mp hr with hr | hr
    · exact Or.inl hr
    · exact Or.inr (Or.inl ⟨origin, rfl, List.mem_singleton.mp hr⟩)
  | poll token =>
    rcases hf : s.reactor? token with _ | r <;> simp only [step, hf] at h
    · cases h
    split_ifs at h with hw
    cases h
    rcases mem_setReactor hr with rfl | ⟨hr, -⟩
    · exact Or.inr (Or.inr (Or.inl ⟨token, r, rfl, hf, by simpa using hw, rfl⟩))
    · exact Or.inl hr
  | writeDone token =>
    rcases hf : s.reactor? token with _ | r <;> simp only [step, hf] at h
    · cases h
    rcases hw : r.writing with _ | ⟨page, rest⟩ <;> simp only [hw] at h
    · cases h
    cases h
    have hr' : r' ∈ (s.setReactor (r.pageWritten page rest)).reactors := by
      unfold pageWritten at hr
      split_ifs at hr <;> exact hr
    rcases mem_setReactor hr' with rfl | ⟨hr, -⟩
    · exact Or.inr (Or.inr (Or.inr ⟨token, r, page, rest, rfl, hf, hw, rfl⟩))
    · exact Or.inl hr
  | done token =>
    cases h
    exact Or.inl (List.mem_filter.mp hr).1
  | clean =>
    simp only [step] at h
    split_ifs at h
    cases h
    exact Or.inl hr
  | listDirectory =>
    simp only [step] at h
    split at h <;> cases h
    exact Or.inl hr
  | readPage =>
    simp only [step] at h
    split at h <;> cases h
    exact Or.inl hr
  | remove segmentNo =>
    simp only [step] at h
    split at h
    · split_ifs at h
      cases h
      exact Or.inl hr
    · cases h
  | restart =>
    cases h
    cases hr

theorem step_writes (h : s.step action = some s') :
    (∃ event, action = .write event ∧ s.writes.step (.write event) = some s'.writes) ∨
      (∃ call, action = .resume call ∧ s.writes.step (.resume call) = some s'.writes) ∨
      (∃ segmentNo, action = .remove segmentNo ∧
        s'.writes = { s.writes with
          writer := { s.writes.writer with dir := s.dir.unlink (walName segmentNo.toNat) } }) ∨
      (action = .restart ∧ s'.writes = ⟨Writer.init s.dir, []⟩) ∨
      s'.writes = s.writes := by
  cases action with
  | write event =>
    rw [step, Option.map_eq_some_iff] at h
    obtain ⟨writes, hw, rfl⟩ := h
    exact Or.inl ⟨event, rfl, hw⟩
  | resume call =>
    rw [step, Option.map_eq_some_iff] at h
    obtain ⟨writes, hw, rfl⟩ := h
    exact Or.inr (Or.inl ⟨call, rfl, hw⟩)
  | remove segmentNo =>
    simp only [step] at h
    split at h
    · split_ifs at h
      cases h
      exact Or.inr (Or.inr (Or.inl ⟨segmentNo, rfl, rfl⟩))
    · cases h
  | restart =>
    cases h
    exact Or.inr (Or.inr (Or.inr (Or.inl ⟨rfl, rfl⟩)))
  | persisted storageId seqNo =>
    cases h
    exact Or.inr (Or.inr (Or.inr (Or.inr rfl)))
  | getEvents origin =>
    cases h
    exact Or.inr (Or.inr (Or.inr (Or.inr rfl)))
  | poll token =>
    simp only [step] at h
    split at h
    · cases h
    · split_ifs at h
      cases h
      exact Or.inr (Or.inr (Or.inr (Or.inr rfl)))
  | writeDone token =>
    simp only [step] at h
    split at h
    · cases h
    · split at h <;> cases h
      unfold pageWritten
      split_ifs <;> exact Or.inr (Or.inr (Or.inr (Or.inr rfl)))
  | done token =>
    cases h
    exact Or.inr (Or.inr (Or.inr (Or.inr rfl)))
  | clean =>
    simp only [step] at h
    split_ifs at h
    cases h
    exact Or.inr (Or.inr (Or.inr (Or.inr rfl)))
  | listDirectory =>
    simp only [step] at h
    split at h <;> cases h
    exact Or.inr (Or.inr (Or.inr (Or.inr rfl)))
  | readPage =>
    simp only [step] at h
    split at h <;> cases h
    exact Or.inr (Or.inr (Or.inr (Or.inr rfl)))

end Leader

end StructureDb
