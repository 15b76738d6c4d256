import StructureDb.Proofs.LogRoundTrip
import StructureDb.Spec.LogMemory

/-! With arguments evaluated in source order, a page of whole events and padding is parsed alike
whatever lies behind it: the padding begins with a zero byte, and no type does. An upsert that is
cut off is delivered all the same, with what lies behind the page for the rest of its value. -/

namespace StructureDb

open BufferWriter BufferReader

/-- The order in which the arguments are written. -/
theorem parseEventIn_eq (buf : Bytes) : parseEventIn UpsertArgument.leftToRight buf = parseEvent buf := by
  unfold parseEventIn parseEvent
  rcases readInt buf with _ | ⟨type, buf⟩
  · rfl
  have hupsert : parseUpsertIn UpsertArgument.leftToRight buf = parseUpsert buf := by
    simp only [parseUpsertIn, UpsertArgument.leftToRight, UpsertArguments.evaluate, parseUpsert]
    rcases readString buf with _ | ⟨storageId, buf⟩
    · rfl
    dsimp only [Option.bind_some]
    rcases readInt buf with _ | ⟨seqNo, buf⟩
    · rfl
    dsimp only [Option.bind_some]
    rcases readString buf with _ | ⟨key, buf⟩
    · rfl
    dsimp only [Option.bind_some]
    rcases readString buf with _ | ⟨value, buf⟩ <;> rfl
  dsimp only
  rw [hupsert]

section Page

variable {beyond : Bytes} {events : List LogEvent} {rounds : ℕ}

theorem parseMemory_nil (arguments : List UpsertArgument) : parseMemory arguments beyond rounds [] = ([], false) := by
  cases rounds <;> simp [parseMemory]

/-- Where nothing lies behind the page, a read past its end is an exception. -/
theorem parseMemory_nothing (buf : Bytes) :
    parseMemory UpsertArgument.leftToRight [] rounds buf = parseEvents rounds buf := by
  induction rounds generalizing buf with
  | zero => rfl
  | succ rounds ih =>
    rw [parseMemory, parseEvents, parseEventIn_eq, List.append_nil]
    rcases parseEvent buf with _ | ⟨event, rest⟩
    · rfl
    · dsimp only
      rw [List.length_nil, Nat.sub_zero, List.take_length, ih]

theorem parseMemory_zeros {n : ℕ} (hr : n ≤ rounds) :
    parseMemory UpsertArgument.leftToRight beyond rounds (List.replicate n 0) = ([], decide (n ≠ 0)) := by
  cases n with
  | zero => exact parseMemory_nil _
  | succ n =>
    cases rounds with
    | zero => omega
    | succ rounds =>
      rw [parseMemory, if_neg (by simp), parseEventIn_eq, List.replicate_succ, List.cons_append, parseEvent_zero]
      rfl

/-- Whole events are delivered, and the parser goes on with what comes behind them on the page. -/
theorem parseMemory_append (h : ∀ e ∈ events, (flushEvent e).length < 2 ^ 64) {tail : Bytes}
    (hr : (flushEvents events ++ tail).length ≤ rounds) :
    ∃ rounds', tail.length ≤ rounds' ∧ parseMemory UpsertArgument.leftToRight beyond rounds (flushEvents events ++
      tail) =
      (events ++ (parseMemory UpsertArgument.leftToRight beyond rounds' tail).1,
        (parseMemory UpsertArgument.leftToRight beyond rounds' tail).2) := by
  induction events generalizing rounds with
  | nil => exact ⟨rounds, hr, rfl⟩
  | cons e events ih =>
    have hpos := length_flushEvent_pos e
    rw [flushEvents_cons, List.append_assoc, List.length_append] at hr
    cases rounds with
    | zero => omega
    | succ rounds =>
      have hlen : (flushEvents events ++ tail).length ≤ rounds := by omega
      obtain ⟨rounds', hr', hrest⟩ := ih (fun e' he' => h e' (List.mem_cons_of_mem _ he')) hlen
      have hne : flushEvent e ++ (flushEvents events ++ tail) ≠ [] :=
        List.append_ne_nil_of_left_ne_nil (List.ne_nil_of_length_pos hpos) _
      have hleft : (flushEvents events ++ tail ++ beyond).take
          ((flushEvents events ++ tail ++ beyond).length - beyond.length) = flushEvents events ++ tail := by
        rw [List.length_append, Nat.add_sub_cancel, List.take_left]
      refine ⟨rounds', hr', ?_⟩
      rw [flushEvents_cons, List.append_assoc, parseMemory, if_neg hne, parseEventIn_eq, List.append_assoc,
        parseEvent_flushEvent (h e List.mem_cons_self)]
      dsimp only
      rw [hleft, hrest, List.cons_append]

/-- A page of whole events with padding behind them. -/
theorem parseMemory_flushEvents (h : ∀ e ∈ events, (flushEvent e).length < 2 ^ 64) {n : ℕ}
    (hr : (flushEvents events ++ List.replicate n 0).length ≤ rounds) :
    parseMemory UpsertArgument.leftToRight beyond rounds (flushEvents events ++ List.replicate n 0) =
      (events, decide (n ≠ 0)) := by
  obtain ⟨rounds', hr', hparse⟩ := parseMemory_append h hr
  rw [List.length_replicate] at hr'
  rw [hparse, parseMemory_zeros hr', List.append_nil]

def upsertUpTo (storageId : Bytes) (seqNo : BitVec 64) (key front back : Bytes) : Bytes :=
  writeInt 1 ++ writeString storageId ++ writeInt seqNo ++ writeString key ++
    writeInt (BitVec.ofNat 64 (front ++ back).length) ++ front

theorem flushEvent_upTo (storageId : Bytes) (seqNo : BitVec 64) (key front back : Bytes) :
    flushEvent (.lsmStorageUpsert storageId seqNo key (front ++ back)) =
      upsertUpTo storageId seqNo key front back ++ back := by
  simp only [flushEvent, LogEvent.flush, LogEvent.getType, writeString, upsertUpTo, List.append_assoc]

theorem length_upsertUpTo (storageId : Bytes) (seqNo : BitVec 64) (key front back : Bytes) :
    (upsertUpTo storageId seqNo key front back).length =
      8 + (8 + storageId.length) + 8 + (8 + key.length) + 8 + front.length := by
  simp only [upsertUpTo, List.length_append, length_writeInt, length_writeString]

/-- An upsert that is cut off in its value is delivered with the bytes behind the page for the rest of it, and the
page has no more. -/
theorem parseMemory_upTo {storageId key front back : Bytes} {seqNo : BitVec 64}
    (h : (flushEvent (.lsmStorageUpsert storageId seqNo key (front ++ back))).length < 2 ^ 64)
    (hback : back.length ≤ beyond.length)
    (hr : (upsertUpTo storageId seqNo key front back).length ≤ rounds) :
    parseMemory UpsertArgument.leftToRight beyond rounds (upsertUpTo storageId seqNo key front back) =
      ([.lsmStorageUpsert storageId seqNo key (front ++ beyond.take back.length)], false) := by
  have hlen := length_upsertUpTo storageId seqNo key front back
  cases rounds with
  | zero => omega
  | succ rounds =>
    have htake : (beyond.take back.length).length = back.length := by rw [List.length_take, min_eq_left hback]
    -- the bytes up to the cut are those of the event that is delivered
    have hsame : upsertUpTo storageId seqNo key front back ++ beyond =
        flushEvent (.lsmStorageUpsert storageId seqNo key (front ++ beyond.take back.length)) ++
          beyond.drop back.length := by
      rw [flushEvent_upTo, List.append_assoc, List.take_append_drop]
      simp only [upsertUpTo, List.length_append, htake]
    have hsize : (flushEvent (.lsmStorageUpsert storageId seqNo key (front ++ beyond.take back.length))).length <
      2 ^ 64 := by
      rw [flushEvent_upTo, List.length_append, length_upsertUpTo] at h ⊢
      omega
    have hnothing : (beyond.drop back.length).take ((beyond.drop back.length).length - beyond.length) = [] := by
      rw [List.length_drop, Nat.sub_eq_zero_of_le (Nat.sub_le _ _), List.take_zero]
    rw [parseMemory, if_neg (List.ne_nil_of_length_pos (by omega)), parseEventIn_eq, hsame, parseEvent_flushEvent hsize]
    dsimp only
    rw [hnothing, parseMemory_nil]

end Page

namespace Platform

variable {p : Platform} {events : List LogEvent}

/-- A segment of at most one page gives back its events, whatever lies behind its page. -/
theorem readSegment_flushEvents (hp : p.order.arguments = UpsertArgument.leftToRight) {n : ℕ}
    (h : (flushEvents events ++ List.replicate n 0).length ≤ kWalPageSize) (segmentNo : ℤ) :
    p.readSegment segmentNo 0 (pages (flushEvents events ++ List.replicate n 0)) = events := by
  rw [pages_of_le h]
  split_ifs with hnil
  · exact (eq_nil_of_flushEvents (List.append_eq_nil_iff.mp hnil).1).symm
  · simp [readSegment, onPage, hp, parseMemory_flushEvents (length_flushEvent_lt h)]

/-- An upsert across the end of the page: it is delivered with a foreign tail, and its own one is parsed as a page. -/
theorem readSegment_upTo (hp : p.order.arguments = UpsertArgument.leftToRight) {storageId key front back : Bytes}
    {seqNo : BitVec 64} {segmentNo : ℤ} (hback : back.length ≤ kWalPageSize) (hne : back ≠ [])
    (hbeyond : back.length ≤ (p.beyond ⟨segmentNo, 0⟩).length)
    (hpage : (flushEvents events ++ upsertUpTo storageId seqNo key front back).length = kWalPageSize) :
    p.readSegment segmentNo 0
        (pages (flushEvents (events ++ [.lsmStorageUpsert storageId seqNo key (front ++ back)]))) =
      events ++ [.lsmStorageUpsert storageId seqNo key (front ++ (p.beyond ⟨segmentNo, 0⟩).take back.length)] ++
        (p.onPage ⟨segmentNo, 1⟩ back).1 := by
  have hbytes : flushEvents (events ++ [.lsmStorageUpsert storageId seqNo key (front ++ back)]) =
      (flushEvents events ++ upsertUpTo storageId seqNo key front back) ++ back := by
    rw [flushEvents_append, flushEvents_singleton, flushEvent_upTo, List.append_assoc]
  have hsmall : kWalPageSize < 2 ^ 32 := by decide
  have hcut : (flushEvent (.lsmStorageUpsert storageId seqNo key (front ++ back))).length < 2 ^ 64 := by
    rw [List.length_append] at hpage
    rw [flushEvent_upTo, List.length_append]
    omega
  have hfirst : p.onPage ⟨segmentNo, 0⟩ (flushEvents events ++ upsertUpTo storageId seqNo key front back) =
      (events ++ [.lsmStorageUpsert storageId seqNo key (front ++ (p.beyond ⟨segmentNo, 0⟩).take back.length)],
        false) := by
    obtain ⟨rounds, hr, hparse⟩ := parseMemory_append (length_flushEvent_lt hpage.le) (le_refl
      (flushEvents events ++ upsertUpTo storageId seqNo key front back).length)
    rw [onPage, hp, hparse, parseMemory_upTo hcut hbeyond hr]
  rw [hbytes, pages_append hpage hback hne]
  simp [readSegment, hfirst]

/-- The same with a value that ends in zeros: on the second page there is no event. -/
theorem readSegment_zeros (hp : p.order.arguments = UpsertArgument.leftToRight) {storageId key front : Bytes}
    {seqNo : BitVec 64} {segmentNo : ℤ} {n : ℕ} (hpos : 0 < n) (hn : n ≤ kWalPageSize)
    (hbeyond : n ≤ (p.beyond ⟨segmentNo, 0⟩).length)
    (hpage : (flushEvents events ++ upsertUpTo storageId seqNo key front (List.replicate n 0)).length = kWalPageSize) :
    p.readSegment segmentNo 0
        (pages (flushEvents (events ++ [.lsmStorageUpsert storageId seqNo key (front ++ List.replicate n 0)]))) =
      events ++ [.lsmStorageUpsert storageId seqNo key (front ++ (p.beyond ⟨segmentNo, 0⟩).take n)] := by
  have hlen : (List.replicate n (0 : Byte)).length = n := List.length_replicate
  have hne : List.replicate n (0 : Byte) ≠ [] := List.ne_nil_of_length_pos (by omega)
  have hrest : (p.onPage ⟨segmentNo, 1⟩ (List.replicate n 0)).1 = [] := by
    rw [onPage, hp, parseMemory_zeros hlen.ge]
  rw [readSegment_upTo hp (by omega) hne (by omega) hpage, hlen, hrest, List.append_nil]

/-- The reader delivers the same on every platform if all segments are pages of whole events. -/
theorem read_eq (hp : p.order.arguments = UpsertArgument.leftToRight) {dir : Dir Bytes Bytes}
    (h : ∀ file ∈ dir.files, ∃ events n, file.2 = flushEvents events ++ List.replicate n 0 ∧
      file.2.length ≤ kWalPageSize) :
    p.read dir = Reader.read dir := by
  refine List.flatMap_congr fun segment hsegment => ?_
  obtain ⟨file, hfile, rfl⟩ := List.mem_map.mp hsegment
  obtain ⟨events, n, hbytes, hle⟩ := h file (dir.mem_listing.mp hfile)
  rw [hbytes] at hle
  dsimp only
  rw [hbytes, readSegment_flushEvents hp hle, StructureDb.readSegment_flushEvents hle]

end Platform

end StructureDb
