import StructureDb.Proofs.WalSessions
import StructureDb.Spec.PageParsing

/-! Where the parsing loops read. A page holds whole events, and behind them nothing, zeros, or
the beginning of an event. The loops deliver the whole events. They stay inside the page
if nothing is behind the events, or at least the eight zeros that `ParseEvent` reads as a
type; less than that, or the beginning of an event, and they read beyond the end. All this is for
arguments evaluated in source order. -/

namespace StructureDb

open BufferReader

section InOrder

variable {order : EvaluationOrder} (horder : order.arguments = UpsertArgument.leftToRight)

include horder

theorem parseEvent_eq (buf : Bytes) : parseEvent buf = (readEvent order buf).toOption := by
  rw [← parseEventIn_eq, ← horder]
  unfold parseEventIn readEvent
  cases readInt buf with
  | none => rfl
  | some r =>
    dsimp only
    split_ifs
    · cases parseUpsertIn order.arguments r.2 <;> rfl
    · cases parseCommit r.2 <;> rfl
    · rfl

theorem readEvent_flushEvent {event : LogEvent} (h : (flushEvent event).length < 2 ^ 64) (rest : Bytes) :
    readEvent order (flushEvent event ++ rest) = .ok (event, rest) := by
  have hparse := parseEvent_flushEvent h rest
  rw [parseEvent_eq horder] at hparse
  cases hread : readEvent order (flushEvent event ++ rest) with
  | error fault =>
    rw [hread] at hparse
    cases hparse
  | ok r =>
    rw [hread] at hparse
    exact congrArg Except.ok (Option.some.inj hparse)

omit horder in
theorem readEvent_zeros {n : ℕ} (hn : 8 ≤ n) : readEvent order (List.replicate n 0) = .error .outOfRange := by
  have htake : (List.replicate n (0 : Byte)).take 8 = List.replicate 8 0 := by
    rw [List.take_replicate, min_eq_left hn]
  rw [readEvent, readInt, List.length_replicate, if_neg (not_lt.mpr hn), htake, LittleEndian.decode_replicate_zero]
  rfl

omit horder in
theorem readEvent_short {buf : Bytes} (h : buf.length < 8) : readEvent order buf = .error .overrun := by
  rw [readEvent, readInt, if_pos h]

/-- The beginning of an event is read beyond its end. -/
theorem readEvent_torn {event : LogEvent} (h : (flushEvent event).length < 2 ^ 64) {front back : Bytes}
    (hsplit : front ++ back = flushEvent event) (hback : back ≠ []) : readEvent order front = .error .overrun := by
  have hnone := parseEvent_torn h hsplit hback
  by_cases hshort : front.length < 8
  · exact readEvent_short hshort
  · -- the type is there
    have htype : front = BufferWriter.writeInt event.getType ++ front.drop 8 := by
      have htake : front.take 8 = BufferWriter.writeInt event.getType := by
        have hwhole : (flushEvent event).take 8 = BufferWriter.writeInt event.getType := by
          rw [flushEvent, List.take_left' (length_writeInt _)]
        rw [← hwhole, ← hsplit, List.take_append_of_le_length (not_lt.mp hshort)]
      rw [← htake, List.take_append_drop]
    rw [parseEvent_eq horder] at hnone
    unfold readEvent at hnone ⊢
    rw [htype, readInt_writeInt] at hnone ⊢
    cases event with
    | lsmStorageUpsert storageId seqNo key value =>
      simp only [LogEvent.getType, if_true] at hnone ⊢
      cases hp : parseUpsertIn order.arguments (front.drop 8) with
      | none => rfl
      | some r =>
        rw [hp] at hnone
        cases hnone
    | txStorageCommit txId =>
      simp only [LogEvent.getType, if_true, show (2 : BitVec 64) ≠ 1 by decide, if_false] at hnone ⊢
      cases hp : parseCommit (front.drop 8) with
      | none => rfl
      | some r =>
        rw [hp] at hnone
        cases hnone

/-- The loop over whole events and what is behind them. -/
theorem readEvents_flushEvents {events : List LogEvent} (h : ∀ e ∈ events, (flushEvent e).length < 2 ^ 64)
    {tail : Bytes} {fault : Option ParseFault}
    (htail : tail = [] ∧ fault = none ∨ ∃ f, tail ≠ [] ∧ readEvent order tail = .error f ∧ fault = some f)
    {rounds : ℕ} (hr : (flushEvents events ++ tail).length ≤ rounds) :
    readEvents order rounds (flushEvents events ++ tail) = (events, fault) := by
  induction events generalizing rounds with
  | nil =>
    rw [flushEvents, List.flatMap_nil, List.nil_append] at hr ⊢
    cases rounds with
    | zero =>
      rcases htail with ⟨-, rfl⟩ | ⟨f, hne, -, -⟩
      · rfl
      · exact absurd (List.length_eq_zero_iff.mp (Nat.le_zero.mp hr)) hne
    | succ rounds =>
      rw [readEvents]
      rcases htail with ⟨rfl, rfl⟩ | ⟨f, hne, hread, rfl⟩
      · rw [if_pos rfl]
      · rw [if_neg hne, hread]
  | cons e events ih =>
    have hpos := length_flushEvent_pos e
    rw [flushEvents_cons, List.append_assoc, List.length_append] at hr
    rw [flushEvents_cons, List.append_assoc]
    cases rounds with
    | zero => omega
    | succ rounds =>
      have hne : flushEvent e ++ (flushEvents events ++ tail) ≠ [] :=
        List.append_ne_nil_of_left_ne_nil (List.ne_nil_of_length_pos hpos) _
      rw [readEvents, if_neg hne, readEvent_flushEvent horder (h e List.mem_cons_self)]
      dsimp only
      rw [ih (fun e' he' => h e' (List.mem_cons_of_mem _ he')) (by omega)]

end InOrder

def contained : ℕ → List LogEvent → List LogEvent
  | _, [] => []
  | n, e :: events =>
    if (flushEvent e).length ≤ n then e :: contained (n - (flushEvent e).length) events else []

/-- A page, whole or cut off: the events in it, and zeros or the beginning of the next event behind them. -/
theorem take_page (events : List LogEvent) (zeros n : ℕ) :
    ∃ tail, (flushEvents events ++ List.replicate zeros 0).take n = flushEvents (contained n events) ++ tail ∧
      (contained n events = events ∧ (∃ k, tail = List.replicate k 0) ∨
        contained n events ≠ events ∧ ∃ e ∈ events, ∃ back, back ≠ [] ∧ tail ++ back = flushEvent e) := by
  induction events generalizing n with
  | nil =>
    refine ⟨List.replicate (min n zeros) 0, ?_, Or.inl ⟨rfl, _, rfl⟩⟩
    rw [flushEvents, List.flatMap_nil, List.nil_append, List.take_replicate]
    rfl
  | cons e events ih =>
    rw [flushEvents_cons, List.append_assoc, List.take_append]
    unfold contained
    split_ifs with hle
    · obtain ⟨tail, heq, htail⟩ := ih (n - (flushEvent e).length)
      refine ⟨tail, ?_, ?_⟩
      · rw [heq, List.take_of_length_le hle, flushEvents, flushEvents, List.flatMap_cons, List.append_assoc]
      · rcases htail with ⟨hall, htail⟩ | ⟨hnot, e', he', htail⟩
        · exact Or.inl ⟨by rw [hall], htail⟩
        · exact Or.inr ⟨fun h => hnot (List.cons.inj h).2, e', List.mem_cons_of_mem _ he', htail⟩
    · -- the first event is cut off
      have hrest : n - (flushEvent e).length = 0 := by omega
      refine ⟨(flushEvent e).take n, ?_, Or.inr ⟨(List.cons_ne_nil _ _).symm, e, List.mem_cons_self,
        (flushEvent e).drop n, ?_, ?_⟩⟩
      · rw [hrest, List.take_zero, List.append_nil, flushEvents, List.flatMap_nil, List.nil_append]
      · intro hnil
        have hzero := congrArg List.length hnil
        rw [List.length_drop, List.length_nil] at hzero
        omega
      · exact List.take_append_drop _ _

/-- The bytes behind the last whole event of a page that is cut off at `n`. -/
def behind (events : List LogEvent) (zeros n : ℕ) : ℕ :=
  min n ((flushEvents events).length + zeros) - (flushEvents (contained n events)).length

/-- Nothing is behind the last whole event, or at least eight bytes of padding. -/
def EndsWell (events : List LogEvent) (zeros n : ℕ) : Prop :=
  behind events zeros n = 0 ∨ contained n events = events ∧ 8 ≤ behind events zeros n

instance (events : List LogEvent) (zeros n : ℕ) : Decidable (EndsWell events zeros n) :=
  inferInstanceAs (Decidable (_ ∨ _))

/-- The loop delivers the events in the page, and reads beyond its end exactly if the page does not end well. -/
theorem readEvents_page {order : EvaluationOrder} (horder : order.arguments = UpsertArgument.leftToRight)
    {events : List LogEvent} {zeros : ℕ} (hpage : (flushEvents events).length + zeros ≤ kWalPageSize) (n : ℕ)
    {page : Bytes} (hp : page = (flushEvents events ++ List.replicate zeros 0).take n) :
    (readEvents order page.length page).1 = contained n events ∧
      ((readEvents order page.length page).2 = some .overrun ↔ ¬EndsWell events zeros n) := by
  have hwhole : (flushEvents events ++ List.replicate zeros 0).length ≤ kWalPageSize := by
    rwa [List.length_append, List.length_replicate]
  have hsize := length_flushEvent_lt hwhole
  obtain ⟨tail, heq, htail⟩ := take_page events zeros n
  rw [heq] at hp
  have hbehind : behind events zeros n = tail.length := by
    have hlen := congrArg List.length heq
    rw [List.length_take, List.length_append, List.length_append, List.length_replicate] at hlen
    rw [behind, hlen]
    omega
  have hin : (flushEvents (contained n events) ++ tail).length ≤ kWalPageSize := by
    rw [← heq]
    exact (List.length_take_le' ..).trans hwhole
  have hloop {fault : Option ParseFault}
      (h : tail = [] ∧ fault = none ∨ ∃ f, tail ≠ [] ∧ readEvent order tail = .error f ∧ fault = some f) :
      readEvents order page.length page = (contained n events, fault) := by
    rw [hp]
    exact readEvents_flushEvents horder (length_flushEvent_lt hin) h le_rfl
  rw [EndsWell, hbehind]
  by_cases hnil : tail = []
  · rw [hloop (Or.inl ⟨hnil, rfl⟩), hnil]
    simp
  have hpos : tail.length ≠ 0 := fun h => hnil (List.length_eq_zero_iff.mp h)
  rcases htail with ⟨hall, k, hzeros⟩ | ⟨hnot, e, he, back, hback, hsplit⟩
  · have hk : tail.length = k := by rw [hzeros, List.length_replicate]
    by_cases hlong : 8 ≤ k
    · rw [hloop (Or.inr ⟨.outOfRange, hnil, by rw [hzeros]; exact readEvent_zeros hlong, rfl⟩), hk]
      simp [hall, hlong]
    · rw [hloop (Or.inr ⟨.overrun, hnil, readEvent_short (by omega), rfl⟩), hk]
      rw [hk] at hpos
      simp [hlong, hpos]
  · rw [hloop (Or.inr ⟨.overrun, hnil, readEvent_torn horder (hsize e he) hsplit hback, rfl⟩)]
    simp [hnot, hpos]

/-- What successive writers put on the disk are such pages. -/
theorem successiveWriters_page {sessions : List (List LogEvent)}
    (hfits : ∀ events ∈ sessions, ∀ e ∈ events, (flushEvent e).length ≤ kWalPageSize)
    (hfew : (successiveWriters Dir.empty sessions).files.length < 10000) {f : Bytes × Bytes}
    (hf : f ∈ (successiveWriters Dir.empty sessions).files) :
    ∃ events zeros, f.2 = flushEvents events ++ List.replicate zeros 0 ∧
      (flushEvents events).length + zeros ≤ kWalPageSize := by
  have hsize : ∀ events ∈ sessions, ∀ e ∈ events, (flushEvent e).length < 2 ^ 64 := by
    intro events hevents e he
    have hle := hfits events hevents e he
    rw [kWalPageSize] at hle
    omega
  rcases successiveWriters_cases hsize hfew with rfl | ⟨w, old, last, hdir, h, heq⟩
  · cases hf
  have hheld : ∀ e ∈ Writer.held old last, (flushEvent e).length ≤ kWalPageSize := by
    intro e he
    obtain ⟨events, hevents, he⟩ := List.mem_flatten.mp (heq ▸ he)
    exact hfits events hevents e he
  obtain ⟨events, zeros, hbytes, hle⟩ := h.page hheld (hdir ▸ hf)
  rw [hbytes, List.length_append, List.length_replicate] at hle
  exact ⟨events, zeros, hbytes, hle⟩

/-- On a page of events that fit, whole, padded or cut off, the three loops read nothing beyond the end and deliver the
events in the page exactly if behind its last whole event there is nothing or at least eight bytes of padding. -/
theorem parsing_in_bounds (order : EvaluationOrder) (horder : order.arguments = UpsertArgument.leftToRight)
    (events : List LogEvent) (zeros n : ℕ) (hpage : (flushEvents events).length + zeros ≤ kWalPageSize) (page : Bytes)
    (hp : page = (flushEvents events ++ List.replicate zeros 0).take n) :
    ((RecoveryStrategy.onPage order page).1 = contained n events ∧
          (RecoveryStrategy.onPage order page).2 ≠ some .overrun) ∧
        ((CleanerStrategy.onPage order page).1 = contained n events ∧
          (CleanerStrategy.onPage order page).2 ≠ some .overrun) ∧
        processPage order page = (contained n events, none) ↔
      EndsWell events zeros n := by
  obtain ⟨hevents, hover⟩ := readEvents_page horder hpage n hp
  constructor
  · rintro ⟨⟨-, hnot⟩, -⟩
    by_contra hend
    exact hnot (hover.mpr hend)
  · intro hend
    have hnot : (readEvents order page.length page).2 ≠ some .overrun := fun h => hover.mp h hend
    refine ⟨⟨hevents, hnot⟩, ⟨hevents, hnot⟩, ?_⟩
    rw [processPage, hevents, Prod.mk.injEq]
    refine ⟨rfl, ?_⟩
    cases hfault : (readEvents order page.length page).2 with
    | none => rfl
    | some fault =>
      cases fault with
      | overrun => exact absurd hfault hnot
      | outOfRange => rfl

/-- Two commits, of which the second one is cut off before its first byte, and one with padding behind it; and a commit
that is cut off. -/
theorem parsing_in_bounds_three_pages :
    let order : EvaluationOrder := .inSource
    processPage order ((flushEvents [.txStorageCommit 1, .txStorageCommit 2] ++ List.replicate 0 0).take 16) =
        ([.txStorageCommit 1], none) ∧
      processPage order ((flushEvents [.txStorageCommit 1] ++ List.replicate 4080 0).take 4096) =
        ([.txStorageCommit 1], none) ∧
      ¬EndsWell [.txStorageCommit 1] 0 12 :=
  ⟨((parsing_in_bounds _ rfl [.txStorageCommit 1, .txStorageCommit 2] 0 16 (by decide) _ rfl).mpr (by decide)).2.2,
    ((parsing_in_bounds _ rfl [.txStorageCommit 1] 4080 4096 (by decide) _ rfl).mpr (by decide)).2.2, by decide⟩

theorem contained_of_le {events : List LogEvent} {n : ℕ} (h : (flushEvents events).length ≤ n) :
    contained n events = events := by
  induction events generalizing n with
  | nil => rfl
  | cons e events ih =>
    rw [flushEvents, List.flatMap_cons, List.length_append] at h
    rw [contained, if_pos (by omega), ih (by unfold flushEvents; omega)]

/-- Less than eight bytes of padding are read beyond their end. -/
theorem short_padding_overruns {order : EvaluationOrder} (horder : order.arguments = UpsertArgument.leftToRight)
    {events : List LogEvent} {zeros : ℕ} (hpage : (flushEvents events).length + zeros = kWalPageSize) (hpos : 0 < zeros)
    (hshort : zeros < 8) :
    RecoveryStrategy.onPage order (flushEvents events ++ List.replicate zeros 0) = (events, some .overrun) := by
  have htake : flushEvents events ++ List.replicate zeros 0 =
      (flushEvents events ++ List.replicate zeros 0).take kWalPageSize := by
    rw [List.take_of_length_le]
    rw [List.length_append, List.length_replicate, hpage]
  have hall : contained kWalPageSize events = events := contained_of_le (by omega)
  obtain ⟨hevents, hover⟩ := readEvents_page horder hpage.le kWalPageSize htake
  refine Prod.ext (hevents.trans hall) (hover.mpr ?_)
  rw [EndsWell, behind, hall, hpage]
  omega

/-- A commit of which the last four bytes are not there yet, and a page that is padded by four bytes. With arguments
evaluated from right to left, an upsert alone on its page: its number is taken for the size of the key. -/
theorem parsing_overruns :
    (∀ order : EvaluationOrder, order.arguments = UpsertArgument.leftToRight →
      RecoveryStrategy.onPage order ((flushEvents [.txStorageCommit 1]).take 12) = ([], some .overrun) ∧
        RecoveryStrategy.onPage order
            (flushEvents [.lsmStorageUpsert [83] 1 [1] (List.replicate 4050 0)] ++ List.replicate 4 0) =
          ([.lsmStorageUpsert [83] 1 [1] (List.replicate 4050 0)], some .overrun)) ∧
      ∀ order : EvaluationOrder, order.arguments = [.value, .key, .seqNo, .storageId] →
        EndsWell [.lsmStorageUpsert [83] 100 [] []] 0 41 ∧
          RecoveryStrategy.onPage order (flushEvents [.lsmStorageUpsert [83] 100 [] []]) = ([], some .overrun) := by
  constructor
  · intro order horder
    have hcut : readEvent order ((flushEvents [.txStorageCommit 1]).take 12) = .error .overrun :=
      readEvent_torn horder (by decide) (by decide : _ ++ [0, 0, 0, 0] = flushEvent (.txStorageCommit 1)) (by decide)
    refine ⟨?_, short_padding_overruns horder ?_ (by decide) (by decide)⟩
    · exact @readEvents_flushEvents order horder [] nofun _ _ (Or.inr ⟨.overrun, by decide, hcut, rfl⟩) _ le_rfl
    · rw [flushEvents_singleton, flushEvent, LogEvent.flush]
      simp only [List.length_append, length_writeInt, length_writeString, List.length_replicate, List.length_singleton,
        kWalPageSize]
  · rintro ⟨arguments, hperm⟩ rfl
    exact ⟨by decide, rfl⟩

end StructureDb
