import StructureDb.Spec.LogReader

/-! What is written to the log is read back: the fields, the events, and the events of a page
with the padding or the beginning of another event behind them. -/

namespace StructureDb

open BufferWriter BufferReader

@[simp] theorem length_writeInt (value : BitVec 64) : (writeInt value).length = 8 := LittleEndian.length_encode ..

@[simp] theorem length_writeString (value : Bytes) : (writeString value).length = 8 + value.length := by
  rw [writeString, List.length_append, length_writeInt]

@[simp] theorem readInt_writeInt (value : BitVec 64) (rest : Bytes) :
    readInt (writeInt value ++ rest) = some (value, rest) := by
  have hlen : ¬(writeInt value ++ rest).length < 8 := by simp
  have hvalue : LittleEndian.decode (writeInt value) = value.toNat := by
    rw [writeInt, LittleEndian.decode_encode]
    exact Nat.mod_eq_of_lt value.isLt
  rw [readInt, if_neg hlen, List.take_left' (length_writeInt value), List.drop_left' (length_writeInt value), hvalue,
    BitVec.ofNat_toNat, BitVec.setWidth_eq]

theorem toNat_ofNat_of_lt {n : ℕ} (h : n < 2 ^ 64) : (BitVec.ofNat 64 n).toNat = n := by
  rw [BitVec.toNat_ofNat]
  exact Nat.mod_eq_of_lt h

theorem readString_writeString {value : Bytes} (h : value.length < 2 ^ 64) (rest : Bytes) :
    readString (writeString value ++ rest) = some (value, rest) := by
  rw [readString, writeString, List.append_assoc, readInt_writeInt]
  dsimp only
  rw [toNat_ofNat_of_lt h, if_neg (by simp), List.take_left, List.drop_left]

theorem length_flushEvent_pos (event : LogEvent) : 0 < (flushEvent event).length := by
  rw [flushEvent, List.length_append, length_writeInt]
  omega

theorem parseEvent_flushEvent {event : LogEvent} (h : (flushEvent event).length < 2 ^ 64) (rest : Bytes) :
    parseEvent (flushEvent event ++ rest) = some (event, rest) := by
  rw [parseEvent, flushEvent, List.append_assoc, readInt_writeInt]
  cases event with
  | lsmStorageUpsert storageId seqNo key value =>
    simp only [flushEvent, LogEvent.flush, List.length_append, length_writeInt, length_writeString] at h
    simp only [LogEvent.getType, LogEvent.flush, parseUpsert, List.append_assoc, if_true]
    rw [readString_writeString (by omega)]
    dsimp only
    rw [readInt_writeInt]
    dsimp only
    rw [readString_writeString (by omega)]
    dsimp only
    rw [readString_writeString (by omega)]
  | txStorageCommit txId => simp [LogEvent.getType, LogEvent.flush, parseCommit]

theorem parseEvent_zero (buf : Bytes) : parseEvent (0 :: buf) = none := by
  rw [parseEvent, readInt]
  split_ifs with hlen
  · rfl
  · have htype : ∀ n, n % 256 ≠ 0 → n < 2 ^ 64 →
        BitVec.ofNat 64 (LittleEndian.decode ((0 :: buf).take 8)) ≠ BitVec.ofNat 64 n := by
      intro n hn hlt heq
      have heq := congrArg BitVec.toNat heq
      rw [List.take_succ_cons, LittleEndian.decode, BitVec.toNat_ofNat, toNat_ofNat_of_lt hlt] at heq
      have hbyte : (0 : Byte).val = 0 := rfl
      omega
    exact (if_neg (htype 1 (by decide) (by decide))).trans (if_neg (htype 2 (by decide) (by decide)))

theorem parseEvent_zeros (n : ℕ) : parseEvent (List.replicate n 0) = none := by
  cases n with
  | zero => rfl
  | succ n => exact parseEvent_zero _

theorem readInt_append {buf rest : Bytes} {value : BitVec 64} (h : readInt buf = some (value, rest)) (more : Bytes) :
    readInt (buf ++ more) = some (value, rest ++ more) := by
  unfold readInt at h ⊢
  split_ifs at h with hlen
  cases h
  rw [List.length_append, if_neg (by omega), List.take_append_of_le_length (not_lt.mp hlen),
    List.drop_append_of_le_length (not_lt.mp hlen)]

theorem readString_append {buf value rest : Bytes} (h : readString buf = some (value, rest)) (more : Bytes) :
    readString (buf ++ more) = some (value, rest ++ more) := by
  unfold readString at h ⊢
  rcases hsize : readInt buf with _ | ⟨size, buf'⟩ <;> simp only [hsize] at h
  · cases h
  · rw [readInt_append hsize]
    dsimp only
    split_ifs at h with hlen
    cases h
    rw [List.length_append, if_neg (by omega), List.take_append_of_le_length (not_lt.mp hlen),
      List.drop_append_of_le_length (not_lt.mp hlen)]

/-- An event is parsed alike whatever comes behind it. -/
theorem parseEvent_append {buf rest : Bytes} {event : LogEvent} (h : parseEvent buf = some (event, rest))
    (more : Bytes) :
    parseEvent (buf ++ more) = some (event, rest ++ more) := by
  unfold parseEvent at h ⊢
  rcases htype : readInt buf with _ | ⟨type, buf'⟩ <;> simp only [htype] at h
  · cases h
  rw [readInt_append htype]
  dsimp only
  split_ifs at h ⊢ with h1 h2
  · unfold parseUpsert at h ⊢
    rcases hid : readString buf' with _ | ⟨storageId, b1⟩ <;> simp only [hid] at h
    · cases h
    rcases hseq : readInt b1 with _ | ⟨seqNo, b2⟩ <;> simp only [hseq] at h
    · cases h
    rcases hkey : readString b2 with _ | ⟨key, b3⟩ <;> simp only [hkey] at h
    · cases h
    rcases hvalue : readString b3 with _ | ⟨value, b4⟩ <;> simp only [hvalue] at h
    · cases h
    cases h
    simp only [readString_append hid, readInt_append hseq, readString_append hkey, readString_append hvalue]
  · unfold parseCommit at h ⊢
    rcases htx : readInt buf' with _ | ⟨txId, b1⟩ <;> simp only [htx] at h
    · cases h
    cases h
    simp only [readInt_append htx]

theorem parseEvent_torn {event : LogEvent} (h : (flushEvent event).length < 2 ^ 64) {front back : Bytes}
    (hsplit : front ++ back = flushEvent event) (hback : back ≠ []) : parseEvent front = none := by
  rcases hp : parseEvent front with _ | ⟨event', rest⟩
  · rfl
  · have hwhole := parseEvent_flushEvent h []
    rw [List.append_nil, ← hsplit, parseEvent_append hp back] at hwhole
    exact absurd (List.append_eq_nil_iff.mp (Prod.mk.inj (Option.some.inj hwhole)).2).2 hback

def flushEvents (events : List LogEvent) : Bytes := events.flatMap flushEvent

theorem flushEvents_singleton (e : LogEvent) : flushEvents [e] = flushEvent e := by simp [flushEvents]

theorem flushEvents_cons (e : LogEvent) (events : List LogEvent) :
    flushEvents (e :: events) = flushEvent e ++ flushEvents events := List.flatMap_cons

theorem flushEvents_append (es fs : List LogEvent) : flushEvents (es ++ fs) = flushEvents es ++ flushEvents fs :=
  List.flatMap_append

theorem length_flushEvent_le {events : List LogEvent} {e : LogEvent} (he : e ∈ events) :
    (flushEvent e).length ≤ (flushEvents events).length := by
  obtain ⟨pre, post, rfl⟩ := List.append_of_mem he
  simp only [flushEvents, List.flatMap_append, List.flatMap_cons, List.length_append]
  omega

theorem length_flushEvent_lt {events : List LogEvent} {tail : Bytes}
    (h : (flushEvents events ++ tail).length ≤ kWalPageSize) : ∀ e ∈ events, (flushEvent e).length < 2 ^ 64 := by
  intro e he
  have hle := length_flushEvent_le he
  rw [List.length_append, kWalPageSize] at h
  omega

theorem eq_nil_of_flushEvents {events : List LogEvent} (h : flushEvents events = []) : events = [] := by
  rw [List.eq_nil_iff_forall_not_mem]
  intro e he
  have hpos := length_flushEvent_pos e
  have hle := length_flushEvent_le he
  rw [h, List.length_nil] at hle
  omega

/-- A page gives back its events, up to what is no event. -/
theorem parseEvents_flushEvents {events : List LogEvent} (h : ∀ e ∈ events, (flushEvent e).length < 2 ^ 64)
    {tail : Bytes} (htail : parseEvent tail = none) {rounds : ℕ} (hr : (flushEvents events ++ tail).length ≤ rounds) :
    parseEvents rounds (flushEvents events ++ tail) = (events, decide (tail ≠ [])) := by
  induction events generalizing rounds with
  | nil =>
    cases rounds with
    | zero =>
      have hnil : tail = [] := by simpa [flushEvents] using hr
      simp [parseEvents, hnil]
    | succ rounds =>
      rw [flushEvents, List.flatMap_nil, List.nil_append, parseEvents, htail]
      by_cases hnil : tail = [] <;> simp [hnil]
  | cons e events ih =>
    have hpos := length_flushEvent_pos e
    rw [flushEvents_cons, List.append_assoc, List.length_append] at hr
    rw [flushEvents_cons, List.append_assoc]
    cases rounds with
    | zero => omega
    | succ rounds =>
      have hne : flushEvent e ++ (flushEvents events ++ tail) ≠ [] :=
        List.append_ne_nil_of_left_ne_nil (List.ne_nil_of_length_pos hpos) _
      rw [parseEvents, if_neg hne, parseEvent_flushEvent (h e List.mem_cons_self)]
      dsimp only
      rw [ih (fun e' he' => h e' (List.mem_cons_of_mem _ he')) (by omega)]

theorem pages_of_le {data : Bytes} (h : data.length ≤ kWalPageSize) :
    pages data = if data = [] then [] else [data] := by
  unfold pages
  cases data with
  | nil => rfl
  | cons b data =>
    have hdrop : (b :: data).drop kWalPageSize = [] := List.drop_eq_nil_of_le h
    rw [List.length_cons, readPages, List.take_of_length_le h, hdrop]
    cases data <;> simp [readPages]

theorem pages_append {front back : Bytes} (hfront : front.length = kWalPageSize) (hback : back.length ≤ kWalPageSize)
    (hne : back ≠ []) : pages (front ++ back) = [front, back] := by
  have hpos := List.length_pos_of_ne_nil hne
  have hpage : 0 < kWalPageSize := by decide
  obtain ⟨reads, hreads⟩ : ∃ reads, (front ++ back).length = reads + 2 :=
    ⟨(front ++ back).length - 2, by rw [List.length_append]; omega⟩
  have hfirst : front ++ back ≠ [] := List.append_ne_nil_of_right_ne_nil _ hne
  rw [pages, hreads, readPages, if_neg hfirst, List.take_left' hfront, List.drop_left' hfront, readPages, if_neg hne,
    List.take_of_length_le hback, List.drop_eq_nil_of_le hback]
  cases reads <;> simp [readPages]

/-- A segment of at most one page gives back its events. -/
theorem readSegment_flushEvents {events : List LogEvent} {n : ℕ}
    (h : (flushEvents events ++ List.replicate n 0).length ≤ kWalPageSize) :
    readSegment (pages (flushEvents events ++ List.replicate n 0)) = events := by
  have hpage : onPage (flushEvents events ++ List.replicate n 0) = (events,
    decide (List.replicate n (0 : Byte) ≠ [])) :=
    parseEvents_flushEvents (length_flushEvent_lt h) (parseEvent_zeros n) le_rfl
  rw [pages_of_le h]
  split_ifs with hnil
  · exact (eq_nil_of_flushEvents (List.append_eq_nil_iff.mp hnil).1).symm
  · simp [readSegment, hpage]

/-- An event that runs over the end of the page is cut off, and the events before it are delivered. -/
theorem readSegment_torn {events : List LogEvent} {e : LogEvent} (hevents : (flushEvents events).length < kWalPageSize)
    (he : (flushEvent e).length < 2 ^ 64)
    (hover : kWalPageSize < (flushEvents events).length + (flushEvent e).length) :
    readSegment (pages (flushEvents events ++ flushEvent e)) = events := by
  have htake : (flushEvents events ++ flushEvent e).take kWalPageSize =
      flushEvents events ++ (flushEvent e).take (kWalPageSize - (flushEvents events).length) := by
    rw [List.take_append, List.take_of_length_le hevents.le]
  have htorn : parseEvent ((flushEvent e).take (kWalPageSize - (flushEvents events).length)) = none := by
    refine parseEvent_torn he (List.take_append_drop _ _) ?_
    intro hnil
    have hzero := congrArg List.length hnil
    rw [List.length_drop, List.length_nil] at hzero
    omega
  have hne : (flushEvent e).take (kWalPageSize - (flushEvents events).length) ≠ [] := by
    intro hnil
    have hzero := congrArg List.length hnil
    rw [List.length_take, List.length_nil] at hzero
    omega
  have hsize : ∀ e' ∈ events, (flushEvent e').length < 2 ^ 64 := by
    intro e' he'
    have hle := length_flushEvent_le he'
    rw [kWalPageSize] at hevents
    omega
  have hpage : onPage ((flushEvents events ++ flushEvent e).take kWalPageSize) = (events, true) := by
    rw [htake, onPage, parseEvents_flushEvents hsize htorn le_rfl, decide_eq_true hne]
  obtain ⟨n, hn⟩ : ∃ n, (flushEvents events ++ flushEvent e).length = n + 1 :=
    Nat.exists_eq_succ_of_ne_zero (by rw [List.length_append]; omega)
  rw [pages, hn, readPages, if_neg (List.ne_nil_of_length_eq_add_one hn), readSegment, hpage]
  rfl

end StructureDb
