import StructureDb.Lib.Consecutive
import StructureDb.Proofs.LeaderLog
import StructureDb.Proofs.LogMemory
import StructureDb.Proofs.LsmSteps
import StructureDb.Spec.Shipping

/-! What the follower's storages hold. If every event fits in a page and no two writes overlap, a
page that is delivered, whole or cut off, gives events that the leader logged; since only the
next number is taken, a storage of the follower holds the first records of the leader's one.
Behind the first page of a larger event comes whatever its value holds. -/

namespace StructureDb

/-- A page of whole events that is cut off anywhere gives the first ones of them. -/
theorem parseEvents_take {events : List LogEvent} (h : ∀ e ∈ events, (flushEvent e).length < 2 ^ 64) (k n rounds : ℕ) :
    (parseEvents rounds ((flushEvents events ++ List.replicate k 0).take n)).1 <+: events := by
  induction events generalizing n rounds with
  | nil =>
    rw [flushEvents, List.flatMap_nil, List.nil_append, List.take_replicate]
    cases rounds with
    | zero => exact List.nil_prefix
    | succ rounds =>
      rw [parseEvents, parseEvent_zeros]
      split_ifs <;> exact List.nil_prefix
  | cons e events ih =>
    have hsplit : flushEvents (e :: events) ++ List.replicate k 0 =
        flushEvent e ++ (flushEvents events ++ List.replicate k 0) := by
      rw [flushEvents, List.flatMap_cons, List.append_assoc]
      rfl
    have he := h e List.mem_cons_self
    rw [hsplit, List.take_append]
    cases rounds with
    | zero => exact List.nil_prefix
    | succ rounds =>
      rw [parseEvents]
      split_ifs with hnil
      · exact List.nil_prefix
      by_cases hcut : n < (flushEvent e).length
      · -- the first event is cut off
        have hrest : n - (flushEvent e).length = 0 := by omega
        have htorn : parseEvent ((flushEvent e).take n) = none := by
          refine parseEvent_torn he (List.take_append_drop n _) ?_
          intro hd
          have hzero := congrArg List.length hd
          rw [List.length_drop, List.length_nil] at hzero
          omega
        rw [hrest, List.take_zero, List.append_nil, htorn]
        exact List.nil_prefix
      · rw [List.take_of_length_le (not_lt.mp hcut), parseEvent_flushEvent he]
        exact List.prefix_cons_inj e |>.mpr (ih (fun e' he' => h e' (List.mem_cons_of_mem _ he')) _ _)

section Log

variable {G G' : LogEvent → Prop} {w w' : Writer}

/-- Whole events with zeros behind them, no more than a page. -/
def Whole (G : LogEvent → Prop) (data : Bytes) : Prop :=
  ∃ events k, data = flushEvents events ++ List.replicate k 0 ∧ data.length ≤ kWalPageSize ∧ ∀ e ∈ events, G e

theorem Whole.mono (hG : ∀ e, G e → G' e) {data : Bytes} (h : Whole G data) : Whole G' data := by
  obtain ⟨events, k, hdata, hlen, hev⟩ := h
  exact ⟨events, k, hdata, hlen, fun e he => hG e (hev e he)⟩

theorem Whole.nil : Whole G [] := ⟨[], 0, rfl, Nat.zero_le _, fun _ he => nomatch he⟩

theorem Whole.onPage {data page : Bytes} (h : Whole G data) {i : ℕ} (hp : (pages data)[i]? = some page) (n : ℕ) :
    ∀ e ∈ (StructureDb.onPage (page.take n)).1, G e := by
  obtain ⟨events, k, hdata, hlen, hev⟩ := h
  obtain ⟨hi, hpage⟩ := getElem?_pages_eq_some.mp hp
  have hpos : 0 < kWalPageSize := by decide
  have hzero : i = 0 := by
    by_contra hne
    have := Nat.le_mul_of_pos_left kWalPageSize (Nat.pos_of_ne_zero hne)
    omega
  rw [hzero, Nat.zero_mul, List.drop_zero, List.take_of_length_le hlen] at hpage
  have hsize := length_flushEvent_lt (hdata ▸ hlen)
  intro e he
  rw [← hpage, hdata] at he
  exact hev e ((parseEvents_take hsize k n _).subset he)

def Logs (G : LogEvent → Prop) (data : Bytes) : Prop := ∃ e, G e ∧ data = flushEvent e ∧ data.length ≤ kWalPageSize

/-- The open segment holds whole events, of this many bytes. -/
structure Tail (G : LogEvent → Prop) (w : Writer) (size : ℕ) : Prop where
  opened : w.currentSegmentWriter = walName w.currentSegmentNo
  fits : size ≤ kWalPageSize
  whole : ∀ data, (walName w.currentSegmentNo, data) ∈ w.dir.files →
    data.length = size ∧ ∃ events, data = flushEvents events ∧ ∀ e ∈ events, G e

def Placed (G : LogEvent → Prop) (w : Writer) : WriteCall → Prop
  | .padding data => Logs G data
  | .opening path data =>
    path = walName w.currentSegmentNo ∧ w.currentPageSize = 0 ∧
      (∀ data, (walName w.currentSegmentNo, data) ∈ w.dir.files → data = []) ∧ Logs G data
  | .writing size => Tail G w (w.currentPageSize + size)
  | .returned => Tail G w w.currentPageSize

theorem Tail.mono (hG : ∀ e, G e → G' e) {size : ℕ} (h : Tail G w size) : Tail G' w size := by
  refine ⟨h.opened, h.fits, ?_⟩
  intro data hf
  obtain ⟨hlen, events, hdata, hev⟩ := h.whole data hf
  exact ⟨hlen, events, hdata, fun e he => hG e (hev e he)⟩

theorem Logs.mono (hG : ∀ e, G e → G' e) {data : Bytes} (h : Logs G data) : Logs G' data := by
  obtain ⟨e, he, hdata⟩ := h
  exact ⟨e, hG e he, hdata⟩

theorem Placed.mono (hG : ∀ e, G e → G' e) {call : WriteCall} (h : Placed G w call) : Placed G' w call := by
  cases call with
  | padding data => exact Logs.mono hG h
  | opening path data =>
    obtain ⟨hpath, hsize, hempty, hlogs⟩ := h
    exact ⟨hpath, hsize, hempty, hlogs.mono hG⟩
  | writing size => exact Tail.mono hG h
  | returned => exact Tail.mono hG h

/-- An event goes behind those of the open segment. -/
theorem Tail.append {size : ℕ} (h : Tail G w size) (hw : ∀ f ∈ w.dir.files, Whole G f.2) {data : Bytes}
    (hl : Logs G data) (hfits : size + data.length ≤ kWalPageSize) :
    (∀ f ∈ (w.append data).dir.files, Whole G f.2) ∧ Tail G (w.append data) (size + data.length) := by
  obtain ⟨e, he, rfl, -⟩ := hl
  have hgrown : ∀ bytes, (walName w.currentSegmentNo, bytes) ∈ w.dir.files →
      (bytes ++ flushEvent e).length = size + (flushEvent e).length ∧
        ∃ events, bytes ++ flushEvent e = flushEvents events ∧ ∀ e' ∈ events, G e' := by
    intro bytes hf
    obtain ⟨hlen, events, rfl, hev⟩ := h.whole bytes hf
    refine ⟨by rw [List.length_append, hlen], events ++ [e], by rw [flushEvents_append, flushEvents_singleton], ?_⟩
    intro e' he'
    rcases List.mem_append.mp he' with he' | he'
    · exact hev e' he'
    · rw [List.mem_singleton.mp he']
      exact he
  rw [Writer.append, h.opened]
  refine ⟨?_, rfl, hfits, ?_⟩
  · intro f hf
    rcases Dir.mem_modify.mp hf with ⟨hf, -⟩ | ⟨bytes, hbytes, rfl⟩
    · exact hw f hf
    · obtain ⟨hlen, events, hdata, hev⟩ := hgrown bytes hbytes
      refine ⟨events, 0, by simpa using hdata, ?_, hev⟩
      rw [hlen]
      exact hfits
  · intro data hf
    rcases Dir.mem_modify.mp hf with ⟨-, hne⟩ | ⟨bytes, hbytes, hd⟩
    · exact absurd rfl hne
    · rw [(Prod.mk.inj hd).2]
      exact hgrown bytes hbytes

theorem Tail.pad {size : ℕ} (h : Tail G w size) (hw : ∀ f ∈ w.dir.files, Whole G f.2) :
    ∀ f ∈ (w.append (List.replicate (kWalPageSize - size) 0)).dir.files, Whole G f.2 := by
  rw [Writer.append, h.opened]
  intro f hf
  rcases Dir.mem_modify.mp hf with ⟨hf, -⟩ | ⟨bytes, hbytes, rfl⟩
  · exact hw f hf
  · obtain ⟨hlen, events, rfl, hev⟩ := h.whole bytes hbytes
    have hfits := h.fits
    refine ⟨events, kWalPageSize - size, rfl, ?_, hev⟩
    rw [List.length_append, hlen, List.length_replicate]
    omega

theorem endPage_placed (hn : w.Named) (hw : ∀ f ∈ w.dir.files, Whole G f.2) {data : Bytes} (hl : Logs G data) :
    (∀ f ∈ (w.endPage data).1.dir.files, Whole G f.2) ∧ Placed G (w.endPage data).1 (w.endPage data).2 := by
  rw [Writer.endPage_eq]
  refine ⟨?_, rfl, rfl, ?_, hl⟩
  · intro f hf
    rcases Dir.mem_touch.mp hf with hf | ⟨-, rfl⟩
    · exact hw f hf
    · exact Whole.nil
  · intro bytes hf
    rcases Dir.mem_touch.mp hf with hf | ⟨-, he⟩
    · obtain ⟨n, hle, he⟩ := hn _ (Dir.mem_names.mpr ⟨bytes, hf⟩)
      have hno : w.currentSegmentNo + 1 = n := walName_injective he
      omega
    · exact (Prod.mk.inj he).2

theorem write_placed (hn : w.Named) (hw : ∀ f ∈ w.dir.files, Whole G f.2) (h : Placed G w .returned) {data : Bytes}
    (hl : Logs G data) :
    (∀ f ∈ (w.write data).1.dir.files, Whole G f.2) ∧ Placed G (w.write data).1 (w.write data).2 := by
  have htail : Tail G w w.currentPageSize := h
  obtain ⟨-, -, -, hfits⟩ := id hl
  unfold Writer.write Writer.flushPage
  split_ifs
  · omega
  · exact ⟨htail.pad hw, hl⟩
  · exact endPage_placed hn hw hl
  · exact htail.append hw hl (by omega)

theorem resume_placed (hn : w.Named) (hw : ∀ f ∈ w.dir.files, Whole G f.2) {call : WriteCall} (h : Placed G w call) :
    (∀ f ∈ (w.resume call).1.dir.files, Whole G f.2) ∧ Placed G (w.resume call).1 (w.resume call).2 := by
  cases call with
  | padding data => exact endPage_placed hn hw h
  | opening path data =>
    obtain ⟨rfl, hsize, hempty, hl⟩ := h
    obtain ⟨-, -, -, hfits⟩ := id hl
    have htail : Tail G { w with currentSegmentWriter := walName w.currentSegmentNo } 0 := by
      refine ⟨rfl, Nat.zero_le _, ?_⟩
      intro bytes hf
      rw [hempty bytes hf]
      exact ⟨rfl, [], rfl, fun _ he => nomatch he⟩
    obtain ⟨hwhole, hplaced⟩ := htail.append hw hl (by omega)
    refine ⟨hwhole, ?_⟩
    change Tail G _ (w.currentPageSize + data.length)
    rw [hsize]
    exact hplaced
  | writing size => exact ⟨hw, h.opened, h.fits, h.whole⟩
  | returned => exact ⟨hw, h⟩

/-- The log directory of a leader: whole events in every file, and one call under way at most. -/
structure Filed (G : LogEvent → Prop) (s : Writes) : Prop where
  named : s.writer.Named
  whole : ∀ f ∈ s.writer.dir.files, Whole G f.2
  single : s.Single (Placed G)

variable {s s' : Writes}

theorem Filed.mono (hG : ∀ e, G e → G' e) (h : Filed G s) : Filed G' s := by
  refine ⟨h.named, fun f hf => (h.whole f hf).mono hG, ?_⟩
  obtain ⟨hp, hreturned⟩ | ⟨front, event, call, hcalls, hreturned, hp⟩ := h.single
  · exact Or.inl ⟨Placed.mono hG hp, hreturned⟩
  · exact Or.inr ⟨front, event, call, hcalls, hreturned, hp.mono hG⟩

theorem Filed.write (h : Filed G s) (hreturned : ∀ c ∈ s.calls, c.2 = .returned) {event : LogEvent} (he : G event)
    (hfits : (flushEvent event).length ≤ kWalPageSize) (hs : s.step (.write event) = some s') : Filed G s' := by
  obtain ⟨hwhole, hplaced⟩ := write_placed h.named h.whole (h.single.returned hreturned) ⟨event, he, rfl, hfits⟩
  obtain ⟨hw, hsingle⟩ := Writes.Single.write hreturned hs hplaced
  exact ⟨Writes.step_named h.named hs, hw ▸ hwhole, hsingle⟩

theorem Filed.resume (h : Filed G s) {i : ℕ} (hs : s.step (.resume i) = some s') : Filed G s' := by
  obtain ⟨⟨call, hp, hw⟩, hsingle⟩ := h.single.resume hs fun call hp => (resume_placed h.named h.whole hp).2
  exact ⟨Writes.step_named h.named hs, hw ▸ (resume_placed h.named h.whole hp).1, hsingle⟩

theorem Placed.unlink {call : WriteCall} (h : Placed G w call) (name : Bytes) :
    Placed G { w with dir := w.dir.unlink name } call := by
  have htail : ∀ {size}, Tail G w size → Tail G { w with dir := w.dir.unlink name } size := fun h =>
    ⟨h.opened, h.fits, fun data hf => h.whole data (Dir.mem_unlink.mp hf).1⟩
  cases call with
  | padding data => exact h
  | opening path data =>
    obtain ⟨hpath, hsize, hempty, hlogs⟩ := h
    exact ⟨hpath, hsize, fun data hf => hempty data (Dir.mem_unlink.mp hf).1, hlogs⟩
  | writing size => exact htail h
  | returned => exact htail h

theorem Filed.unlink (h : Filed G s) (name : Bytes) :
    Filed G { s with writer := { s.writer with dir := s.writer.dir.unlink name } } := by
  refine ⟨h.named.unlink name, fun f hf => h.whole f (Dir.mem_unlink.mp hf).1, ?_⟩
  obtain ⟨hp, hreturned⟩ | ⟨front, event, call, hcalls, hreturned, hp⟩ := h.single
  · exact Or.inl ⟨hp.unlink name, hreturned⟩
  · exact Or.inr ⟨front, event, call, hcalls, hreturned, hp.unlink name⟩

theorem Filed.restart (h : Filed G s) (hfew : s.writer.currentSegmentNo < 10000) :
    Filed G ⟨Writer.init s.writer.dir, []⟩ := by
  refine ⟨h.named.init hfew, ?_, Or.inl ⟨⟨rfl, Nat.zero_le _, ?_⟩, fun _ hc => nomatch hc⟩⟩
  · intro f hf
    rcases Dir.mem_touch.mp hf with hf | ⟨-, rfl⟩
    · exact h.whole f hf
    · exact Whole.nil
  · intro data hf
    rcases Dir.mem_touch.mp hf with hf | ⟨-, he⟩
    · exact absurd (h.named.lt_initialSegmentNo hfew (Dir.mem_names.mpr ⟨data, hf⟩)) (lt_irrefl _)
    · rw [(Prod.mk.inj he).2]
      exact ⟨rfl, [], rfl, fun _ he => nomatch he⟩

end Log

namespace Shipping

variable {o : Options} {order : EvaluationOrder} {s s' : Shipping} {action : Action}

/-- Every event fits in a page, no two writes overlap, and there are numbers left: for the record in 64 bits, and for
the segments four digits at a restart. -/
def Fits (s : Shipping) : Action → Prop
  | .upsert storageId key value =>
    (∀ c ∈ s.writes.calls, c.2 = .returned) ∧
      (flushEvent (logged storageId (s.nextRecord storageId key value))).length ≤ kWalPageSize ∧
      (s.nextRecord storageId key value).seqNo < 2 ^ 64
  | .commit _ => ∀ c ∈ s.writes.calls, c.2 = .returned
  | .restart => s.writes.writer.currentSegmentNo < 10000
  | _ => True

instance (s : Shipping) : (action : Action) → Decidable (s.Fits action)
  | .upsert _ _ _ => inferInstanceAs (Decidable ((∀ c ∈ s.writes.calls, c.2 = .returned) ∧ _ ∧ _))
  | .commit _ => inferInstanceAs (Decidable (∀ c ∈ s.writes.calls, c.2 = .returned))
  | .restart => inferInstanceAs (Decidable (_ < _))
  | .resume _ | .remove _ | .send _ _ _ | .processPage _ | .apply | .flush _ => isTrue trivial

def Wrote (records : Bytes → List (Record Bytes)) : LogEvent → Prop
  | .lsmStorageUpsert storageId seqNo key value => ⟨key, seqNo.toNat, value⟩ ∈ records storageId
  | .txStorageCommit _ => True

def Begins (records : List (Record Bytes)) (l : Lsm Bytes) : Prop :=
  ∃ m ≤ records.length, l.nextSeqNo = m + 1 ∧ l.records.Perm (records.take m)

structure Shipped (s : Shipping) : Prop where
  log : Filed (Wrote s.records) s.writes
  numbers : ∀ id, Consecutive.From Record.seqNo 1 (s.records id)
  sent : ∀ page ∈ s.sent, ∀ e ∈ (onPage page).1, Wrote s.records e
  events : ∀ e ∈ s.events, Wrote s.records e
  storages : ∀ id l, s.storages id = some l → Begins (s.records id) l

theorem start_shipped : start.Shipped := by
  refine ⟨⟨?_, ?_, Or.inl ⟨⟨rfl, Nat.zero_le _, ?_⟩, (fun _ hc => nomatch hc)⟩⟩, (fun _ => trivial),
    (fun _ hp => nomatch hp), (fun _ he => nomatch he), (fun _ _ hl => nomatch hl)⟩
  · intro name hname
    refine ⟨0, le_rfl, ?_⟩
    rw [show start.writes.writer.dir.names = [walName 0] from rfl, List.mem_singleton] at hname
    exact hname
  · intro f hf
    rw [show start.writes.writer.dir.files = [(walName 0, [])] from rfl, List.mem_singleton] at hf
    rw [hf]
    exact Whole.nil
  · intro data hf
    rw [show start.writes.writer.dir.files = [(walName 0, [])] from rfl, List.mem_singleton] at hf
    rw [(Prod.mk.inj hf).2]
    exact ⟨rfl, [], rfl, fun _ he => nomatch he⟩

theorem Wrote.mono {records records' : Bytes → List (Record Bytes)} (h : ∀ id, records id <+: records' id)
    (e : LogEvent) (he : Wrote records e) : Wrote records' e := by
  cases e with
  | lsmStorageUpsert storageId seqNo key value => exact (h storageId).subset he
  | txStorageCommit tx => trivial

theorem Begins.mono {records records' : List (Record Bytes)} (h : records <+: records') {l : Lsm Bytes}
    (hl : Begins records l) : Begins records' l := by
  obtain ⟨m, hm, hnext, hperm⟩ := hl
  obtain ⟨more, rfl⟩ := h
  refine ⟨m, hm.trans (by rw [List.length_append]; omega), hnext, ?_⟩
  rw [List.take_append_of_le_length hm]
  exact hperm

/-- The follower takes the next record of the leader, and no other one. -/
theorem Begins.putSeq {records : List (Record Bytes)} (hn : Consecutive.From Record.seqNo 1 records) {l : Lsm Bytes}
    (hl : Begins records l) {seqNo : ℕ} {key value : Bytes} (hmem : ⟨key, seqNo, value⟩ ∈ records) :
    Begins records (l.putSeq o seqNo key value).1 := by
  obtain ⟨m, hm, hnext, hperm⟩ := hl
  unfold Lsm.putSeq
  split_ifs with hne
  · exact ⟨m, hm, hnext, hperm⟩
  · rw [not_not] at hne
    have hat := hn.getElem? hmem
    rw [show Record.seqNo ⟨key, seqNo, value⟩ - 1 = m by simp only; omega] at hat
    have hlt := (List.getElem?_eq_some_iff.mp hat).1
    refine ⟨m + 1, hlt, ?_, ?_⟩
    · change (l.doPut o seqNo key value).nextSeqNo + 1 = _
      rw [Lsm.doPut_nextSeqNo, hnext]
    · rw [List.take_add_one, hat]
      exact (l.doPut_records_perm o seqNo key value).trans ((hperm.cons _).trans (List.perm_append_singleton _ _).symm)

theorem Begins.init (records : List (Record Bytes)) : Begins records (Lsm.init Dir.empty) :=
  ⟨0, Nat.zero_le _, rfl, List.Perm.refl _⟩

theorem Begins.flushFront {records : List (Record Bytes)} {l : Lsm Bytes} (hl : Begins records l) :
    Begins records l.flushFront := by
  obtain ⟨m, hm, hnext, hperm⟩ := hl
  refine ⟨m, hm, (Lsm.flushFront_nextSeqNo l).trans hnext, ?_⟩
  rw [Lsm.records, Lsm.flushFront_levels]
  exact hperm

/-- A step of the leader that adds records at the end. -/
theorem Shipped.grow (h : s.Shipped) {records : Bytes → List (Record Bytes)} (hgrow : ∀ id, s.records id <+: records id)
    (hn : ∀ id, Consecutive.From Record.seqNo 1 (records id)) {writes : Writes} (hlog : Filed (Wrote records) writes) :
    Shipped { s with writes, records } :=
  ⟨hlog, hn, fun page hp e he => Wrote.mono hgrow e (h.sent page hp e he),
    fun e he => Wrote.mono hgrow e (h.events e he), fun id l hl => (h.storages id l hl).mono (hgrow id)⟩

theorem Shipped.upsert (h : s.Shipped) {storageId key value : Bytes} (hg : s.Fits (.upsert storageId key value))
    (hs : s.step o order (.upsert storageId key value) = some s') : s'.Shipped := by
  obtain ⟨hreturned, hfits, hnumber⟩ := hg
  rw [step, Option.map_eq_some_iff] at hs
  obtain ⟨writes, hw, rfl⟩ := hs
  have hgrow : ∀ id, s.records id <+:
      Function.update s.records storageId (s.records storageId ++ [s.nextRecord storageId key value]) id := by
    intro id
    rcases eq_or_ne id storageId with rfl | hid
    · rw [Function.update_self]
      exact List.prefix_append _ _
    · rw [Function.update_of_ne hid]
  refine h.grow hgrow ?_ ((h.log.mono (Wrote.mono hgrow)).write hreturned ?_ hfits hw)
  · intro id
    rcases eq_or_ne id storageId with rfl | hid
    · rw [Function.update_self, Consecutive.from_append]
      exact ⟨h.numbers id, Nat.add_comm _ _, trivial⟩
    · rw [Function.update_of_ne hid]
      exact h.numbers id
  · change Record.mk key (BitVec.ofNat 64 (s.nextRecord storageId key value).seqNo).toNat value ∈
      Function.update s.records storageId _ storageId
    rw [BitVec.toNat_ofNat, Nat.mod_eq_of_lt hnumber, Function.update_self]
    exact List.mem_append_right _ (List.mem_singleton_self _)

theorem Shipped.send (h : s.Shipped) {segmentNo pageNo size : ℕ}
    (hs : s.step o order (.send segmentNo pageNo size) = some s') :
    s'.Shipped := by
  rcases hf : s.dir.files.lookup (walName segmentNo) with _ | data <;> simp only [step, hf] at hs
  · cases hs
  rcases hp : (pages data)[pageNo]? with _ | page <;> simp only [hp] at hs <;> cases hs
  refine ⟨h.log, h.numbers, ?_, h.events, h.storages⟩
  intro page' hpage'
  rcases List.mem_append.mp hpage' with hpage' | hpage'
  · exact h.sent page' hpage'
  · rw [List.mem_singleton.mp hpage']
    exact (h.log.whole _ (Dir.mem_of_lookup hf)).onPage hp size

theorem Shipped.apply (h : s.Shipped) (hs : s.step o order .apply = some s') : s'.Shipped := by
  rcases he : s.events with _ | ⟨event, rest⟩ <;> simp only [step, he] at hs <;> cases hs
  have hevents := h.events
  rw [he] at hevents
  refine ⟨h.log, h.numbers, h.sent, fun e he => hevents e (List.mem_cons_of_mem _ he), ?_⟩
  intro id l hl
  cases event with
  | txStorageCommit tx => exact h.storages id l hl
  | lsmStorageUpsert storageId seqNo key value =>
    have hmem : ⟨key, seqNo.toNat, value⟩ ∈ s.records storageId := hevents _ List.mem_cons_self
    change Function.update s.storages storageId _ id = some l at hl
    rcases eq_or_ne id storageId with rfl | hid
    · rw [Function.update_self] at hl
      obtain rfl := Option.some.inj hl
      refine Begins.putSeq (h.numbers id) ?_ hmem
      rcases hst : s.storages id with _ | l
      · exact Begins.init _
      · exact h.storages id l hst
    · rw [Function.update_of_ne hid] at hl
      exact h.storages id l hl

theorem Shipped.flush (h : s.Shipped) {storageId : Bytes} (hs : s.step o order (.flush storageId) = some s') :
    s'.Shipped := by
  rcases hst : s.storages storageId with _ | l <;> simp only [step, hst] at hs <;> cases hs
  refine ⟨h.log, h.numbers, h.sent, h.events, ?_⟩
  intro id l' hl'
  change Function.update s.storages storageId _ id = some l' at hl'
  rcases eq_or_ne id storageId with rfl | hid
  · rw [Function.update_self] at hl'
    obtain rfl := Option.some.inj hl'
    exact (h.storages id l hst).flushFront
  · rw [Function.update_of_ne hid] at hl'
    exact h.storages id l' hl'

theorem Shipped.step (horder : order.arguments = UpsertArgument.leftToRight) (h : s.Shipped) (hg : s.Fits action)
    (hs : s.step o order action = some s') : s'.Shipped := by
  have hkeep : ∀ id, s.records id <+: s.records id := fun id => List.prefix_refl _
  cases action with
  | upsert storageId key value => exact h.upsert hg hs
  | commit tx =>
    rw [Shipping.step, Option.map_eq_some_iff] at hs
    obtain ⟨writes, hw, rfl⟩ := hs
    have hfits : (flushEvent (.txStorageCommit tx)).length ≤ kWalPageSize := by
      simp [flushEvent, LogEvent.flush, length_writeInt, kWalPageSize]
    exact h.grow hkeep h.numbers (h.log.write hg (show Wrote s.records (.txStorageCommit tx) from trivial) hfits hw)
  | resume call =>
    rw [Shipping.step, Option.map_eq_some_iff] at hs
    obtain ⟨writes, hw, rfl⟩ := hs
    exact h.grow hkeep h.numbers (h.log.resume hw)
  | remove segmentNo =>
    cases hs
    exact h.grow hkeep h.numbers (h.log.unlink _)
  | restart =>
    cases hs
    exact h.grow hkeep h.numbers (h.log.restart hg)
  | send segmentNo pageNo size => exact h.send hs
  | processPage i =>
    simp only [Shipping.step] at hs
    split at hs <;> cases hs
    rename_i page hev hpage
    refine ⟨h.log, h.numbers, h.sent, ?_, h.storages⟩
    dsimp only
    rw [horder, parseMemory_nothing]
    exact h.sent page (List.mem_of_getElem? hpage)
  | apply => exact h.apply hs
  | flush storageId => exact h.flush hs

theorem step_processPage {i : ℕ} {page : Bytes} (hev : s.events = []) (hpage : s.sent[i]? = some page) :
    s.step o .inSource (.processPage i) = some { s with events := (onPage page).1 } := by
  simp only [Shipping.step, hev, hpage, EvaluationOrder.inSource, parseMemory_nothing, onPage]

/-- An event of two pages: the first one gives no event, the second one whatever the value holds there. -/
theorem run_two_pages (o : Options) (storageId key front : Bytes) (event : LogEvent)
    (hfront : 8 + (8 + storageId.length) + 8 + (8 + key.length) + 8 + front.length = kWalPageSize)
    (hevent : (flushEvent event).length ≤ kWalPageSize) :
    ∃ s, Machine.run (Shipping.step o .inSource) start [.upsert storageId key (front ++ flushEvent event), .resume 0,
        .send 0 0 kWalPageSize, .send 0 1 kWalPageSize, .processPage 0, .processPage 1, .apply] = some s ∧
      s.records = Function.update (fun _ => []) storageId [⟨key, 1, front ++ flushEvent event⟩] ∧
      s.storages = applyEvent o (fun _ => none) event := by
  have hpage : kWalPageSize = 4096 := rfl
  have hpos := length_flushEvent_pos event
  have hlen := length_upsertUpTo storageId (BitVec.ofNat 64 1) key front (flushEvent event)
  rw [hfront] at hlen
  have hbytes := flushEvent_upTo storageId (BitVec.ofNat 64 1) key front (flushEvent event)
  generalize hu : upsertUpTo storageId (BitVec.ofNat 64 1) key front (flushEvent event) = u at hlen hbytes
  generalize hE : LogEvent.lsmStorageUpsert storageId (BitVec.ofNat 64 1) key (front ++ flushEvent event) = E at hbytes
  have hover : (flushEvent E).length = kWalPageSize + (flushEvent event).length := by
    rw [hbytes, List.length_append, hlen]
  -- the event is written as it is: the page was empty
  have hw : start.writes.writer.write (flushEvent E) = start.writes.writer.writeData (flushEvent E) := by
    have hempty : start.writes.writer.currentPageSize = 0 := rfl
    rw [Writer.write, if_pos (by omega), Writer.flushPage, if_pos hempty]
  let records : Bytes → List (Record Bytes) :=
    Function.update (fun _ => []) storageId [⟨key, 1, front ++ flushEvent event⟩]
  let w := start.writes.writer.append (flushEvent E)
  have hs₁ : start.step o .inSource (.upsert storageId key (front ++ flushEvent event)) =
      some { start with writes := ⟨w, [(E, .writing (flushEvent E).length)]⟩, records } := by
    have hevent : logged storageId (start.nextRecord storageId key (front ++ flushEvent event)) = E := hE
    simp only [step, hevent, Writes.step, hw]
    rfl
  let writes : Writes := ⟨{ w with currentPageSize := 0 + (flushEvent E).length }, [(E, .returned)]⟩
  have hs₂ : step o .inSource { start with writes := ⟨w, [(E, .writing (flushEvent E).length)]⟩, records }
    (.resume 0) =
      some { start with writes, records } := rfl
  have hlookup : writes.writer.dir.files.lookup (walName 0) = some (flushEvent E) := rfl
  have hp₀ : (pages (flushEvent E))[0]? = some u := by
    refine getElem?_pages_eq_some.mpr ⟨by omega, ?_⟩
    rw [Nat.zero_mul, List.drop_zero, hbytes, List.take_left' hlen]
  have hp₁ : (pages (flushEvent E))[1]? = some (flushEvent event) := by
    refine getElem?_pages_eq_some.mpr ⟨by omega, ?_⟩
    rw [Nat.one_mul, hbytes, List.drop_left' hlen, List.take_of_length_le hevent]
  have hs₃ : step o .inSource { start with writes, records } (.send 0 0 kWalPageSize) =
      some { start with writes, records, sent := [u] } := by
    simp only [step, dir, hlookup, hp₀, List.take_of_length_le hlen.le]
    rfl
  have hs₄ : step o .inSource { start with writes, records, sent := [u] } (.send 0 1 kWalPageSize) =
      some { start with writes, records, sent := [u, flushEvent event] } := by
    simp only [step, dir, hlookup, hp₁, List.take_of_length_le hevent]
    rfl
  have htorn : (onPage u).1 = [] := by
    have hnone : parseEvent u = none :=
      parseEvent_torn (by omega) hbytes.symm (List.ne_nil_of_length_pos hpos)
    rw [onPage, hlen, hpage, parseEvents, hnone]
    split_ifs <;> rfl
  have hwhole : (onPage (flushEvent event)).1 = [event] := by
    have hsize : ∀ e ∈ [event], (flushEvent e).length < 2 ^ 64 := by
      intro e he
      rw [List.mem_singleton.mp he]
      omega
    have hparse := parseEvents_flushEvents hsize (show parseEvent [] = none from rfl) (le_refl _)
    rw [List.append_nil, flushEvents_singleton] at hparse
    rw [onPage, hparse]
  have hs₅ : step o .inSource { start with writes, records, sent := [u, flushEvent event] } (.processPage 0) =
      some { start with writes, records, sent := [u, flushEvent event] } := by
    rw [step_processPage rfl rfl, htorn]
    rfl
  have hs₆ : step o .inSource { start with writes, records, sent := [u, flushEvent event] } (.processPage 1) =
      some { start with writes, records, sent := [u, flushEvent event], events := [event] } := by
    rw [step_processPage rfl rfl, hwhole]
  exact ⟨_, Machine.run_cons.mpr ⟨_, hs₁, Machine.run_cons.mpr ⟨_, hs₂, Machine.run_cons.mpr ⟨_, hs₃,
    Machine.run_cons.mpr ⟨_, hs₄, Machine.run_cons.mpr ⟨_, hs₅,
      Machine.run_cons.mpr ⟨_, hs₆, rfl⟩⟩⟩⟩⟩⟩, rfl, rfl⟩

end Shipping

end StructureDb
