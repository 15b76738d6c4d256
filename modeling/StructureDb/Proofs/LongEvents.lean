import StructureDb.Lib.Consecutive
import StructureDb.Proofs.LsmSteps
import StructureDb.Proofs.WalSessions
import StructureDb.Spec.Shipping

/-! Upserts of any size, one after another, and the recovery from the log that a crash leaves.
If all events fit in a page, every record is recovered. A larger event is written all the same,
and what is read back of it ends in the bytes that lie behind the page in memory. -/

namespace StructureDb

/-- The engines of a database none of whose storages was flushed, with their log and the upserts that returned. -/
structure Upserts where
  storages : Bytes → Lsm Bytes
  writer : Writer
  acked : List (Bytes × Record Bytes)

namespace Upserts

open Shipping (logged applyEvent)

def start : Upserts := ⟨fun _ => Lsm.init Dir.empty, Writer.init Dir.empty, []⟩

/-- `LsmEngine::Upsert`: no size is checked. -/
def upsert (o : Options) (s : Upserts) (storageId key value : Bytes) : Upserts :=
  let put := (s.storages storageId).put o key value
  let record : Record Bytes := ⟨key, put.2, value⟩
  { storages := Function.update s.storages storageId put.1
    writer := (s.writer.writeAlone (flushEvent (logged storageId record))).1
    acked := s.acked ++ [(storageId, record)] }

def run (o : Options) (upserts : List (Bytes × Bytes × Bytes)) : Upserts :=
  upserts.foldl (fun s u => s.upsert o u.1 u.2.1 u.2.2) start

def recover (o : Options) (p : Platform) (dir : Dir Bytes Bytes) : Bytes → Option (Lsm Bytes) :=
  (p.read dir).foldl (applyEvent o) fun _ => none

def recordsOf (acked : List (Bytes × Record Bytes)) (id : Bytes) : List (Record Bytes) :=
  acked.filterMap fun a => if a.1 = id then some a.2 else none

def eventSize (u : Bytes × Bytes × Bytes) : ℕ := 40 + u.1.length + u.2.1.length + u.2.2.length

theorem length_flushEvent_logged (id : Bytes) (r : Record Bytes) :
    (flushEvent (logged id r)).length = eventSize (id, r.key, r.value) := by
  simp only [logged, flushEvent, LogEvent.flush, List.length_append, length_writeInt, length_writeString, eventSize]
  omega

theorem recordsOf_append (as bs : List (Bytes × Record Bytes)) (id : Bytes) :
    recordsOf (as ++ bs) id = recordsOf as id ++ recordsOf bs id := List.filterMap_append

theorem mem_recordsOf {as : List (Bytes × Record Bytes)} {id : Bytes} {r : Record Bytes} :
    r ∈ recordsOf as id ↔ (id, r) ∈ as := by
  simp only [recordsOf, List.mem_filterMap]
  constructor
  · rintro ⟨⟨id', r'⟩, ha, he⟩
    split_ifs at he with hid
    cases he
    rwa [← hid]
  · intro ha
    exact ⟨(id, r), ha, if_pos rfl⟩

theorem length_recordsOf (as : List (Bytes × Record Bytes)) (id : Bytes) :
    (recordsOf as id).length = (as.map fun a => (a.1, a.2.key, a.2.value)).countP fun u => u.1 = id := by
  rw [recordsOf, List.length_filterMap_eq_countP, List.countP_map]
  congr 1
  funext a
  by_cases hid : a.1 = id <;> simp [hid]

section Writing

variable {o : Options} {s : Upserts}

/-- The log holds the events of the upserts, and the records of a storage are numbered from 1 on. -/
structure Inv (s : Upserts) : Prop where
  log : ∃ old last, s.writer.Holds old last ∧ Writer.held old last = s.acked.map fun a => logged a.1 a.2
  numbers : ∀ id, Consecutive.From Record.seqNo 1 (recordsOf s.acked id)
  next : ∀ id, (s.storages id).nextSeqNo = (recordsOf s.acked id).length + 1

theorem start_inv : start.Inv :=
  ⟨⟨[], [], Writer.Holds.start, rfl⟩, fun _ => trivial, fun _ => rfl⟩

theorem upsert_inv (h : s.Inv) {storageId key value : Bytes} (hsize : eventSize (storageId, key, value) < 2 ^ 64) :
    (s.upsert o storageId key value).Inv := by
  have hnew (id : Bytes) : recordsOf (s.upsert o storageId key value).acked id =
      recordsOf s.acked id ++ if storageId = id then [⟨key, (s.storages storageId).nextSeqNo, value⟩] else [] := by
    rw [upsert]
    dsimp only
    rw [recordsOf_append]
    congr 1
    simp only [recordsOf, List.filterMap_cons, List.filterMap_nil]
    split_ifs <;> rfl
  refine ⟨?_, ?_, ?_⟩
  · obtain ⟨old, last, hholds, hheld⟩ := h.log
    rw [← length_flushEvent_logged storageId ⟨key, (s.storages storageId).nextSeqNo, value⟩] at hsize
    obtain ⟨old', last', hholds', hheld'⟩ := hholds.write hsize
    refine ⟨old', last', hholds', ?_⟩
    rw [hheld', hheld, upsert, List.map_append]
    rfl
  · intro id
    rw [hnew, Consecutive.from_append]
    refine ⟨h.numbers id, ?_⟩
    split_ifs with hid
    · refine ⟨?_, trivial⟩
      change (s.storages storageId).nextSeqNo = _
      rw [hid, h.next, Nat.add_comm]
    · trivial
  · intro id
    rw [hnew, List.length_append, upsert]
    dsimp only
    by_cases hid : storageId = id
    · subst hid
      rw [Function.update_self, if_pos rfl, Lsm.put]
      dsimp only
      rw [Lsm.doPut_nextSeqNo]
      exact congrArg (· + 1) (h.next storageId)
    · rw [Function.update_of_ne (Ne.symm hid), if_neg hid]
      exact h.next id

theorem foldl_inv (h : s.Inv) {upserts : List (Bytes × Bytes × Bytes)} (hsize : ∀ u ∈ upserts, eventSize u < 2 ^ 64) :
    (upserts.foldl (fun s u => s.upsert o u.1 u.2.1 u.2.2) s).Inv := by
  induction upserts generalizing s with
  | nil => exact h
  | cons u upserts ih =>
    exact ih (upsert_inv h (hsize u List.mem_cons_self)) fun v hv => hsize v (List.mem_cons_of_mem _ hv)

theorem foldl_acked (o : Options) (s : Upserts) (upserts : List (Bytes × Bytes × Bytes)) :
    ∃ more, (upserts.foldl (fun s u => s.upsert o u.1 u.2.1 u.2.2) s).acked = s.acked ++ more ∧
      more.map (fun a => (a.1, a.2.key, a.2.value)) = upserts := by
  induction upserts generalizing s with
  | nil => exact ⟨[], by simp⟩
  | cons u upserts ih =>
    obtain ⟨more, hacked, hmore⟩ := ih (s.upsert o u.1 u.2.1 u.2.2)
    refine ⟨(u.1, ⟨u.2.1, (s.storages u.1).nextSeqNo, u.2.2⟩) :: more, ?_, ?_⟩
    · rw [List.foldl_cons, hacked, upsert, List.append_assoc]
      rfl
    · rw [List.map_cons, hmore]

end Writing

section Recovering

variable {o : Options} {l : Lsm Bytes}

theorem putSeq_records_subset (o : Options) (l : Lsm Bytes) (seqNo : ℕ) (key value : Bytes) :
    l.records ⊆ (l.putSeq o seqNo key value).1.records := by
  unfold Lsm.putSeq
  split_ifs
  · exact List.Subset.refl _
  · intro r hr
    exact (l.doPut_records_perm o seqNo key value).mem_iff.mpr (List.mem_cons_of_mem _ hr)

theorem replay_records_subset (o : Options) (l : Lsm Bytes) (log : List (Record Bytes)) :
    l.records ⊆ (l.replay o log).records := by
  induction log generalizing l with
  | nil => exact List.Subset.refl _
  | cons r log ih => exact List.Subset.trans (putSeq_records_subset o l r.seqNo r.key r.value) (ih _)

/-- Records that go on from the next number are taken. -/
theorem mem_replay_of_consecutive {log : List (Record Bytes)} (h : Consecutive.From Record.seqNo l.nextSeqNo log) :
    ∀ r ∈ log, r ∈ (l.replay o log).records := by
  induction log generalizing l with
  | nil => exact fun r hr => nomatch hr
  | cons r log ih =>
    obtain ⟨hnext, hlog⟩ := h
    have hput : (l.putSeq o r.seqNo r.key r.value).1 =
        { l.doPut o r.seqNo r.key r.value with nextSeqNo := (l.doPut o r.seqNo r.key r.value).nextSeqNo + 1 } := by
      rw [Lsm.putSeq, if_neg (not_not.mpr hnext)]
    have hseq : (l.putSeq o r.seqNo r.key r.value).1.nextSeqNo = l.nextSeqNo + 1 := by
      rw [hput]
      dsimp only
      rw [Lsm.doPut_nextSeqNo]
    intro r' hr'
    change r' ∈ (Lsm.replay o (l.putSeq o r.seqNo r.key r.value).1 log).records
    rcases List.mem_cons.mp hr' with rfl | hr'
    · refine replay_records_subset o _ _ ?_
      rw [hput]
      exact (l.doPut_records_perm o r'.seqNo r'.key r'.value).mem_iff.mpr List.mem_cons_self
    · rw [← hseq] at hlog
      exact ih hlog r' hr'

/-- Recovery replays to each storage its own records. -/
theorem foldl_applyEvent (o : Options) {acked : List (Bytes × Record Bytes)} (hsmall : ∀ a ∈ acked, a.2.seqNo < 2 ^ 64)
    (storages : Bytes → Option (Lsm Bytes)) (id : Bytes) :
    ((acked.map fun a => logged a.1 a.2).foldl (applyEvent o) storages) id =
      if recordsOf acked id = [] then storages id
      else some (((storages id).getD (Lsm.init Dir.empty)).replay o (recordsOf acked id)) := by
  induction acked generalizing storages with
  | nil => rfl
  | cons a acked ih =>
    have hseq : (BitVec.ofNat 64 a.2.seqNo).toNat = a.2.seqNo := by
      rw [BitVec.toNat_ofNat]
      exact Nat.mod_eq_of_lt (hsmall a List.mem_cons_self)
    rw [List.map_cons, List.foldl_cons, ih (fun b hb => hsmall b (List.mem_cons_of_mem _ hb))]
    simp only [logged, applyEvent, hseq]
    by_cases hid : a.1 = id
    · have hcons : recordsOf (a :: acked) id = a.2 :: recordsOf acked id := by
        rw [recordsOf, List.filterMap_cons, if_pos hid]
        rfl
      rw [hcons, if_neg (List.cons_ne_nil _ _), hid, Function.update_self]
      split_ifs with hnil
      · rw [hnil]
        rfl
      · rfl
    · have hskip : recordsOf (a :: acked) id = recordsOf acked id := by
        rw [recordsOf, List.filterMap_cons, if_neg hid]
        rfl
      rw [hskip, Function.update_of_ne (Ne.symm hid)]

end Recovering

/-- Every event takes some bytes, so a segment has no more of them than a page. -/
theorem length_held_le {w : Writer} {old : List (ℕ × LogSegment)} {last : List LogEvent} (h : w.Holds old last) :
    (Writer.held old last).length ≤ kWalPageSize * (w.currentSegmentNo + 1) := by
  have hevents (events : List LogEvent) : events.length ≤ (flushEvents events).length := by
    induction events with
    | nil => exact Nat.zero_le _
    | cons e events ih =>
      have hpos := length_flushEvent_pos e
      rw [flushEvents, List.flatMap_cons, List.length_append, List.length_cons]
      unfold flushEvents at ih
      omega
  have hwhole {seg : LogSegment} (hseg : seg.Whole) : seg.events.length ≤ kWalPageSize := by
    rcases hseg with hseg | ⟨e, rfl, -, -⟩
    · rw [seg.length_bytes] at hseg
      have hle := hevents seg.events
      omega
    · simp [kWalPageSize]
  have hold : (old.flatMap fun seg => seg.2.events).length ≤ kWalPageSize * old.length := by
    rw [List.length_flatMap, Nat.mul_comm, ← smul_eq_mul, ← List.length_map fun seg => seg.2.events.length]
    refine List.sum_le_card_nsmul _ _ fun n hn => ?_
    obtain ⟨seg, hseg, rfl⟩ := List.mem_map.mp hn
    exact hwhole (h.finished seg hseg)
  rw [h.numbers] at hold
  have hlast := hwhole h.opened
  rw [Writer.held, List.length_append, Nat.mul_add, Nat.mul_one]
  exact Nat.add_le_add hold hlast

theorem Inv.seqNo_lt {s : Upserts} (h : s.Inv) (hfew : s.writer.dir.files.length < 10000) :
    ∀ a ∈ s.acked, a.2.seqNo < 2 ^ 64 := by
  obtain ⟨old, last, hholds, hheld⟩ := h.log
  intro a ha
  have hno := hholds.length_files
  have hlen := length_held_le hholds
  rw [hheld, List.length_map, kWalPageSize] at hlen
  have hbound := ((h.numbers a.1).bounds a.2 (mem_recordsOf.mpr ha)).2
  have hle : (recordsOf s.acked a.1).length ≤ s.acked.length := List.length_filterMap_le ..
  omega

/-- Recovery replays the records of all storages. -/
theorem Inv.recover {s : Upserts} (h : s.Inv) {p : Platform} (hp : p.order.arguments = UpsertArgument.leftToRight)
    (hfits : ∀ a ∈ s.acked, eventSize (a.1, a.2.key, a.2.value) ≤ kWalPageSize)
    (hfew : s.writer.dir.files.length < 10000) (o : Options) (id : Bytes) :
    recover o p s.writer.dir id = if recordsOf s.acked id = [] then none
      else some ((Lsm.init Dir.empty).replay o (recordsOf s.acked id)) := by
  obtain ⟨old, last, hholds, hheld⟩ := h.log
  have hno := hholds.length_files
  have hall : ∀ e ∈ Writer.held old last, (flushEvent e).length ≤ kWalPageSize := by
    intro e he
    rw [hheld] at he
    obtain ⟨a, ha, rfl⟩ := List.mem_map.mp he
    rw [length_flushEvent_logged]
    exact hfits a ha
  rw [Upserts.recover, hholds.readMemory hp hall (by omega), hheld, foldl_applyEvent o (h.seqNo_lt hfew)]
  rfl

/-- After upserts whose events fit in a page and a crash, recovery has the record of every one of them. -/
theorem upsert_recovered (o : Options) (p : Platform) (hp : p.order.arguments = UpsertArgument.leftToRight)
    (before after : List (Bytes × Bytes × Bytes)) (id key value : Bytes)
    (hfits : ∀ u ∈ before ++ (id, key, value) :: after, eventSize u ≤ kWalPageSize)
    (hfew : (run o (before ++ (id, key, value) :: after)).writer.dir.files.length < 10000) :
    ∃ l, recover o p (run o (before ++ (id, key, value) :: after)).writer.dir id = some l ∧
      ⟨key, before.countP (fun u => u.1 = id) + 1, value⟩ ∈ l.records := by
  obtain ⟨s, hs⟩ : ∃ s, s = run o before := ⟨_, rfl⟩
  have hsize : ∀ u ∈ before ++ (id, key, value) :: after, eventSize u < 2 ^ 64 :=
    fun u hu => (hfits u hu).trans_lt (by decide)
  have hbefore : s.Inv := hs ▸ foldl_inv start_inv fun u hu => hsize u (List.mem_append_left _ hu)
  have hinv : (run o (before ++ (id, key, value) :: after)).Inv := foldl_inv start_inv hsize
  have hrun : run o (before ++ (id, key, value) :: after) =
      after.foldl (fun s u => s.upsert o u.1 u.2.1 u.2.2) (s.upsert o id key value) := by
    rw [hs, run, List.foldl_append, List.foldl_cons]
    rfl
  obtain ⟨earlier, hearlier, hupserts⟩ := foldl_acked o start before
  have hacked : s.acked = earlier := hs ▸ hearlier
  obtain ⟨later, hlater, -⟩ := foldl_acked o (s.upsert o id key value) after
  rw [← hrun] at hlater
  obtain ⟨all, hall, hupsertsAll⟩ := foldl_acked o start (before ++ (id, key, value) :: after)
  have hevents : ∀ a ∈ (run o (before ++ (id, key, value) :: after)).acked,
      eventSize (a.1, a.2.key, a.2.value) ≤ kWalPageSize := by
    intro a ha
    refine hfits _ ?_
    rw [run, hall] at ha
    rw [← hupsertsAll]
    exact List.mem_map_of_mem ha
  -- the records have no gap
  have hnumbers := hinv.numbers id
  have hmine : (⟨key, before.countP (fun u => u.1 = id) + 1, value⟩ : Record Bytes) ∈
      recordsOf (run o (before ++ (id, key, value) :: after)).acked id := by
    have hcount : (s.storages id).nextSeqNo = before.countP (fun u => u.1 = id) + 1 := by
      rw [hbefore.next, hacked, length_recordsOf, hupserts]
    rw [← hcount, mem_recordsOf, hlater]
    exact List.mem_append_left _ (List.mem_append_right _ (List.mem_singleton_self _))
  rw [hinv.recover hp hevents hfew, if_neg (List.ne_nil_of_mem hmine)]
  exact ⟨_, rfl, mem_replay_of_consecutive (l := Lsm.init Dir.empty) hnumbers _ hmine⟩

theorem length_files_run (o : Options) (upserts : List (Bytes × Bytes × Bytes)) :
    (run o upserts).writer.dir.files.length ≤ upserts.length + 1 := by
  induction upserts using List.reverseRecOn with
  | nil => exact le_rfl
  | append_singleton upserts u ih =>
    have hle := ((run o upserts).writer.length_files_writeAlone (flushEvent (logged u.1
      ⟨u.2.1, ((run o upserts).storages u.1).nextSeqNo, u.2.2⟩))).2
    rw [List.length_append, run, List.foldl_append]
    exact hle.trans (Nat.add_le_add_right ih 1)

/-- An upsert between one of another storage and one of the same storage; ones lie behind the pages. -/
theorem upsert_recovered_between :
    ∃ l, recover ⟨10⟩ ⟨.inSource, fun _ => List.replicate 16 1⟩
        (run ⟨10⟩ ([([84], [1], [6]), ([83], [2], [5])] ++ ([83], [1], [7]) :: [([83], [2], [8])])).writer.dir [83] =
          some l ∧ ⟨[1], 2, [7]⟩ ∈ l.records :=
  upsert_recovered ⟨10⟩ _ rfl [([84], [1], [6]), ([83], [2], [5])] [([83], [2], [8])] [83] [1] [7] (by decide)
    ((length_files_run ..).trans_lt (by simp))

/-- The log of three upserts, the second one of which is larger than a page. -/
theorem holds_long {long : Bytes} (hlarge : 4055 ≤ long.length) (hlong : long.length < 2 ^ 63) :
    (run ⟨10⟩ [([83], [1], [5]), ([83], [2], long), ([83], [3], [7])]).writer.Holds
      [(0, ⟨[logged [83] ⟨[1], 1, [5]⟩], 4053⟩), (1, ⟨[logged [83] ⟨[2], 2, long⟩], 0⟩)]
      [logged [83] ⟨[3], 3, [7]⟩] := by
  have hsize := length_flushEvent_logged [83] ⟨[2], 2, long⟩
  simp only [eventSize, List.length_cons, List.length_nil] at hsize
  have h₁ : (run ⟨10⟩ [([83], [1], [5])]).writer.Holds [] [logged [83] ⟨[1], 1, [5]⟩] :=
    Writer.Holds.start.write_room (by decide) (Or.inl rfl)
  have h₂ : (run ⟨10⟩ [([83], [1], [5]), ([83], [2], long)]).writer.Holds
      [(0, ⟨[logged [83] ⟨[1], 1, [5]⟩], 4053⟩)] [logged [83] ⟨[2], 2, long⟩] := by
    refine h₁.write_next (e := logged [83] ⟨[2], 2, long⟩) (by omega) ?_
    have hfull : (run ⟨10⟩ [([83], [1], [5])]).writer.currentPageSize = 43 := by decide
    have hpage : kWalPageSize = 4096 := rfl
    omega
  have h₃ := h₂.write_next (e := logged [83] ⟨[3], 3, [7]⟩) (by decide) (by
    rw [h₂.pageSize, flushEvents_singleton, hsize, kWalPageSize]
    omega)
  rw [flushEvents_singleton, hsize, Nat.sub_eq_zero_of_le (by rw [kWalPageSize]; omega), ← h₂.numbers] at h₃
  exact h₃

/-- What is read back of it: the event that is too large has the bytes behind its first page for its tail. -/
theorem read_long {p : Platform} (hp : p.order.arguments = UpsertArgument.leftToRight) {tail : ℕ} (hpos : 0 < tail)
    (htail : tail ≤ kWalPageSize) (hbeyond : tail ≤ (p.beyond ⟨1, 0⟩).length) :
    p.read (run ⟨10⟩ [([83], [1], [5]), ([83], [2], List.replicate (4054 + tail) 0), ([83], [3], [7])]).writer.dir =
      [logged [83] ⟨[1], 1, [5]⟩, logged [83] ⟨[2], 2, List.replicate 4054 0 ++ (p.beyond ⟨1, 0⟩).take tail⟩,
        logged [83] ⟨[3], 3, [7]⟩] := by
  have hpage : kWalPageSize = 4096 := rfl
  have h : (run ⟨10⟩ [([83], [1], [5]), ([83], [2], List.replicate (4054 + tail) 0), ([83], [3], [7])]).writer.Holds
      _ _ := holds_long (by rw [List.length_replicate]; omega) (by rw [List.length_replicate]; omega)
  have hno : (run ⟨10⟩ [([83], [1], [5]), ([83], [2], List.replicate (4054 + tail) 0),
      ([83], [3], [7])]).writer.currentSegmentNo = 2 := h.numbers.symm
  have hfirst : p.readSegment 0 0 (pages (flushEvents [logged [83] ⟨[1], 1, [5]⟩] ++ List.replicate 4053 0)) =
      [logged [83] ⟨[1], 1, [5]⟩] :=
    Platform.readSegment_flushEvents hp (by rw [List.length_append, List.length_replicate]; decide) 0
  have hcut : p.readSegment 1 0 (pages (flushEvents [logged [83] ⟨[2], 2, List.replicate (4054 + tail) 0⟩] ++
      List.replicate 0 0)) = [logged [83] ⟨[2], 2, List.replicate 4054 0 ++ (p.beyond ⟨1, 0⟩).take tail⟩] := by
    have hsplit : (flushEvents [] ++ upsertUpTo [83] 2 [2] (List.replicate 4054 0) (List.replicate tail 0)).length =
        kWalPageSize := by
      rw [List.length_append, length_upsertUpTo, List.length_replicate]
      rfl
    have hread := Platform.readSegment_zeros hp hpos htail hbeyond hsplit
    rw [List.replicate_append_replicate] at hread
    rw [List.replicate_zero, List.append_nil]
    exact hread
  have hlast : p.readSegment 2 0 (pages (flushEvents [logged [83] ⟨[3], 3, [7]⟩] ++ List.replicate 0 0)) =
      [logged [83] ⟨[3], 3, [7]⟩] := Platform.readSegment_flushEvents hp (by decide) 2
  rw [Platform.read, h.readerSegments (by omega), hno]
  simp only [List.map_cons, List.map_nil, List.cons_append, List.nil_append, List.flatMap_cons, List.flatMap_nil,
    List.append_nil, LogSegment.bytes]
  exact congrArg₂ _ hfirst (congrArg₂ _ hcut hlast)

/-- Recovery has the second number with the 42 bytes behind the page for the tail of its value. -/
theorem recover_long {p : Platform} (hp : p.order.arguments = UpsertArgument.leftToRight)
    (hbeyond : 42 ≤ (p.beyond ⟨1, 0⟩).length) :
    ∃ l, recover ⟨10⟩ p (run ⟨10⟩ [([83], [1], [5]), ([83], [2], List.replicate 4096 0),
        ([83], [3], [7])]).writer.dir [83] = some l ∧
      l.records = [⟨[1], 1, [5]⟩, ⟨[2], 2, List.replicate 4054 0 ++ (p.beyond ⟨1, 0⟩).take 42⟩,
        ⟨[3], 3, [7]⟩] := by
  rw [recover, read_long hp (by decide) (by decide) hbeyond]
  exact ⟨_, rfl, rfl⟩

/-- The second upsert is acknowledged and its event is larger than a page. With ones behind the page in memory the
record that was written is not recovered, and another one with its key and number is. -/
theorem long_event_foreign_tail :
    ∃ p : Platform, p.order.arguments = UpsertArgument.leftToRight ∧
      ∃ l, recover ⟨10⟩ p (run ⟨10⟩ [([83], [1], [5]), ([83], [2], List.replicate 4096 0),
          ([83], [3], [7])]).writer.dir [83] = some l ∧
        ⟨[2], 2, List.replicate 4096 0⟩ ∉ l.records ∧
        ⟨[2], 2, List.replicate 4054 0 ++ List.replicate 42 1⟩ ∈ l.records := by
  obtain ⟨l, hl, hrecords⟩ := recover_long (p := ⟨.inSource, fun _ => List.replicate 42 1⟩)
    rfl (by decide)
  refine ⟨_, rfl, l, hl, ?_, ?_⟩
  · rw [hrecords]
    decide +kernel
  · rw [hrecords]
    exact List.mem_cons_of_mem _ List.mem_cons_self

end Upserts

end StructureDb
