import StructureDb.Proofs.Recovery
import StructureDb.Spec.SharedLsm

/-! The order of the records in memory. As long as no two calls of `Put` have their numbers at
once, records come into the mem table in the order of their numbers; a frozen mem table is
then older than everything behind it, and flushing it leaves nothing below the mark. -/

namespace StructureDb

variable {V : Type} [LinearOrder V]

namespace Lsm

variable {l : Lsm V}

def memLevels (l : Lsm V) : List (List (Record V)) := l.memTable.impl :: l.roMemTables.reverse.map MemTable.impl

theorem memRecords_eq (l : Lsm V) : l.memRecords = l.memLevels.flatten := rfl

theorem memLevels_doPut (o : Options) (seqNo : ℕ) (key : Bytes) (value : V) :
    (doPut o l seqNo key value).memLevels =
        l.memTable.impl.orderedInsert (· ≤ ·) ⟨key, seqNo, value⟩ :: l.roMemTables.reverse.map MemTable.impl ∨
      (doPut o l seqNo key value).memLevels =
        [] :: l.memTable.impl.orderedInsert (· ≤ ·) ⟨key, seqNo, value⟩ ::
          l.roMemTables.reverse.map MemTable.impl := by
  simp only [doPut]
  split_ifs
  · right
    simp [memLevels, MemTable.empty, MemTable.put]
  · left
    simp [memLevels, MemTable.put]

theorem mem_memRecords_doPut (o : Options) (r r' : Record V) :
    r' ∈ (doPut o l r.seqNo r.key r.value).memRecords ↔ r' = r ∨ r' ∈ l.memRecords := by
  rw [doPut_memRecords, memRecords]
  simp only [List.mem_append, List.mem_orderedInsert, or_assoc]

theorem newer_doPut (o : Options) {r : Record V} (h : l.memLevels.Pairwise Newer)
    (hnew : ∀ r' ∈ l.memRecords, r'.seqNo < r.seqNo) :
    (doPut o l r.seqNo r.key r.value).memLevels.Pairwise Newer := by
  have hold : ∀ b ∈ l.roMemTables.reverse.map MemTable.impl,
      Newer (l.memTable.impl.orderedInsert (· ≤ ·) r) b := by
    intro b hb a ha r' hr'
    rcases (List.mem_orderedInsert _).mp ha with rfl | ha
    · exact hnew r' (by rw [memRecords_eq]; exact List.mem_flatten.mpr ⟨b, List.mem_cons_of_mem _ hb, hr'⟩)
    · exact (List.pairwise_cons.mp h).1 b hb a ha r' hr'
  have hcons := List.pairwise_cons.mpr ⟨hold, (List.pairwise_cons.mp h).2⟩
  rcases memLevels_doPut (l := l) o r.seqNo r.key r.value with he | he
  · rw [he]
    exact hcons
  · rw [he]
    refine List.pairwise_cons.mpr ⟨?_, hcons⟩
    intro b _ a ha
    cases ha

theorem memLevels_publishFlush {m : MemTable V} {rest : List (MemTable V)} (hro : l.roMemTables = m :: rest)
    (t : SSTable V) : l.memLevels = (l.publishFlush t).memLevels ++ [m.impl] := by
  simp [memLevels, publishFlush, hro]

end Lsm

namespace SharedLsm

structure InOrder (base : ℕ) (s : SharedLsm V) : Prop where
  ascending : s.entered.Pairwise fun r r' => r.seqNo < r'.seqNo
  next : base < s.lsm.nextSeqNo
  below : s.putting = [] → ∀ r ∈ s.entered, r.seqNo < s.lsm.nextSeqNo
  waiting : ∀ x ∈ s.putting, x.2 ∈ s.entered ∨ base < x.2.seqNo ∧ ∀ r ∈ s.entered, r.seqNo < x.2.seqNo
  drawn : ∀ r ∈ s.drawn, r ∈ s.entered ∨ ∃ no, (no, r) ∈ s.putting
  kept : ∀ r ∈ s.entered, r ∈ s.lsm.memRecords ∨ r ∈ s.tabled
  memory : ∀ r ∈ s.lsm.memRecords, r ∈ s.entered ∧ s.lsm.maxPersistentSeqNo < r.seqNo
  newer : s.lsm.memLevels.Pairwise Newer
  mark : s.lsm.maxPersistentSeqNo ≤ base ∨ ∃ r ∈ s.entered, s.lsm.maxPersistentSeqNo ≤ r.seqNo

/-- The one `Put` under way: it waits to bring `r`, and adds `increment` at its end. -/
structure Waiting (base no : ℕ) (r : Record V) (increment : ℕ) (s : SharedLsm V) : Prop where
  putting : s.putting = [(no, r)]
  base : base < r.seqNo
  below : ∀ r' ∈ s.entered, r'.seqNo < r.seqNo
  next : s.lsm.nextSeqNo + increment = r.seqNo + 1

structure Brought (no : ℕ) (r : Record V) (increment : ℕ) (s : SharedLsm V) : Prop where
  putting : s.putting = [(no, r)]
  entered : r ∈ s.entered
  below : ∀ r' ∈ s.entered, r'.seqNo ≤ r.seqNo
  next : s.lsm.nextSeqNo + increment = r.seqNo + 1

namespace InOrder

variable {base no increment : ℕ} {s s' : SharedLsm V} {r : Record V}

/-- A record that has come into the mem table is above the mark or in a table. -/
theorem tabled (h : InOrder base s) (hr : r ∈ s.drawn) (hle : r.seqNo ≤ s.lsm.maxPersistentSeqNo) : r ∈ s.tabled := by
  have hentered : r ∈ s.entered → r ∈ s.tabled := fun he =>
    (h.kept r he).resolve_left fun hm => absurd (h.memory r hm).2 (not_lt.mpr hle)
  rcases h.drawn r hr with he | ⟨no, hp⟩
  · exact hentered he
  · rcases h.waiting _ hp with he | ⟨hbase, hbelow⟩
    · exact hentered he
    · -- a record that waits is above all that the mark is made of
      rcases h.mark with hm | ⟨r', hr', hm⟩
      · exact absurd (hle.trans hm) (not_le.mpr hbase)
      · exact absurd (hle.trans hm) (not_le.mpr (hbelow r' hr'))

theorem init (dir : Dir Bytes (List (Record V))) (faults : List Bool) :
    InOrder (Lsm.init dir).maxPersistentSeqNo (start dir faults).shared where
  ascending := List.Pairwise.nil
  next := Nat.lt_succ_self _
  below := by simp [start]
  waiting := by simp [start]
  drawn := by simp [start]
  kept := by simp [start]
  memory := by simp [start, Lsm.memRecords, Lsm.init, MemTable.empty]
  newer := List.pairwise_singleton _ _
  mark := Or.inl le_rfl

/-- A record gets its number while no other `Put` is under way. -/
theorem draw (h : InOrder base s) (no : ℕ) (hidle : s.putting = []) (hbase : base < r.seqNo)
    (hbelow : ∀ r' ∈ s.entered, r'.seqNo < r.seqNo) {next : ℕ} (hnext : next + increment = r.seqNo + 1)
    (hmono : s.lsm.nextSeqNo ≤ next) :
    InOrder base { s.draw no r with lsm := { s.lsm with nextSeqNo := next } } ∧
      Waiting base no r increment { s.draw no r with lsm := { s.lsm with nextSeqNo := next } } := by
  have hputting : (s.draw no r).putting = [(no, r)] := by simp [SharedLsm.draw, hidle]
  refine ⟨⟨h.ascending, h.next.trans_le hmono, ?_, ?_, ?_, h.kept, h.memory, h.newer, h.mark⟩,
    ⟨hputting, hbase, hbelow, hnext⟩⟩
  · intro hnil
    exact absurd (hputting.symm.trans hnil) (List.cons_ne_nil _ _)
  · intro x hx
    change x ∈ (s.draw no r).putting at hx
    rw [hputting, List.mem_singleton] at hx
    rw [hx]
    exact Or.inr ⟨hbase, hbelow⟩
  · intro r' hr'
    change r' ∈ s.drawn ++ [r] at hr'
    rcases List.mem_append.mp hr' with hr' | hr'
    · left
      rcases h.drawn r' hr' with he | ⟨no', hp⟩
      · exact he
      · rw [hidle] at hp
        cases hp
    · right
      obtain rfl := List.mem_singleton.mp hr'
      exact ⟨no, by change _ ∈ (s.draw no r').putting; rw [hputting]; simp⟩

theorem enter (h : InOrder base s) (hw : Waiting base no r increment s) (o : Options) :
    InOrder base { s with lsm := s.lsm.doPut o r.seqNo r.key r.value, entered := s.entered ++ [r] } ∧
      Brought no r increment { s with lsm := s.lsm.doPut o r.seqNo r.key r.value, entered := s.entered ++ [r] } := by
  have hmem (r' : Record V) : r' ∈ (s.lsm.doPut o r.seqNo r.key r.value).memRecords ↔ r' = r ∨
    r' ∈ s.lsm.memRecords :=
    Lsm.mem_memRecords_doPut o r r'
  have hmark : s.lsm.maxPersistentSeqNo < r.seqNo := by
    rcases h.mark with hm | ⟨r', hr', hm⟩
    · exact hm.trans_lt hw.base
    · exact hm.trans_lt (hw.below r' hr')
  refine ⟨⟨?_, ?_, ?_, ?_, ?_, ?_, ?_, ?_, ?_⟩, hw.putting, by simp, ?_, ?_⟩
  · refine List.pairwise_append.mpr ⟨h.ascending, List.pairwise_singleton _ _, ?_⟩
    intro r' hr' x hx
    rw [List.mem_singleton.mp hx]
    exact hw.below r' hr'
  · rw [Lsm.doPut_nextSeqNo]
    exact h.next
  · intro hnil
    exact absurd (hw.putting.symm.trans hnil) (List.cons_ne_nil _ _)
  · intro x hx
    change x ∈ s.putting at hx
    rw [hw.putting, List.mem_singleton] at hx
    rw [hx]
    exact Or.inl (by simp)
  · intro r' hr'
    rcases h.drawn r' hr' with he | hp
    · exact Or.inl (List.mem_append_left _ he)
    · exact Or.inr hp
  · intro r' hr'
    rcases List.mem_append.mp hr' with hr' | hr'
    · exact (h.kept r' hr').imp_left fun hm => (hmem r').mpr (Or.inr hm)
    · exact Or.inl ((hmem r').mpr (Or.inl (List.mem_singleton.mp hr')))
  · intro r' hr'
    rw [Lsm.doPut_maxPersistentSeqNo]
    rcases (hmem r').mp hr' with rfl | hr'
    · exact ⟨by simp, hmark⟩
    · exact ⟨List.mem_append_left _ (h.memory r' hr').1, (h.memory r' hr').2⟩
  · exact Lsm.newer_doPut o h.newer fun r' hr' => hw.below r' (h.memory r' hr').1
  · rw [Lsm.doPut_maxPersistentSeqNo]
    exact h.mark.imp_right fun ⟨r', hr', hm⟩ => ⟨r', List.mem_append_left _ hr', hm⟩
  · intro r' hr'
    rcases List.mem_append.mp hr' with hr' | hr'
    · exact (hw.below r' hr').le
    · rw [List.mem_singleton.mp hr']
  · change (s.lsm.doPut o r.seqNo r.key r.value).nextSeqNo + increment = r.seqNo + 1
    rw [Lsm.doPut_nextSeqNo]
    exact hw.next

theorem settle (h : InOrder base s) (hb : Brought no r increment s) :
    InOrder base { s with
      lsm := { s.lsm with nextSeqNo := s.lsm.nextSeqNo + increment }
      putting := s.putting.filter fun x => x.1 ≠ no } := by
  have hputting : s.putting.filter (fun x => x.1 ≠ no) = [] := by simp [hb.putting]
  refine ⟨h.ascending, ?_, ?_, ?_, ?_, h.kept, h.memory, h.newer, h.mark⟩
  · exact Nat.lt_add_right _ h.next
  · intro _ r' hr'
    change r'.seqNo < s.lsm.nextSeqNo + increment
    rw [hb.next]
    exact Nat.lt_succ_of_le (hb.below r' hr')
  · intro x hx
    change x ∈ s.putting.filter _ at hx
    rw [hputting] at hx
    cases hx
  · intro r' hr'
    left
    rcases h.drawn r' hr' with he | ⟨no', hp⟩
    · exact he
    · rw [hb.putting] at hp
      cases List.mem_singleton.mp hp
      exact hb.entered

/-- The oldest frozen mem table becomes a table. -/
theorem publishFlush (h : InOrder base s) {m : MemTable V} {rest : List (MemTable V)} {t : SSTable V}
    (hro : s.lsm.roMemTables = m :: rest) (ht : t.records = m.impl) :
    InOrder base (s.publish (s.lsm.publishFlush t) t) := by
  have hlevels := Lsm.memLevels_publishFlush hro t
  have hmem (r : Record V) : r ∈ s.lsm.memRecords ↔ r ∈ (s.lsm.publishFlush t).memRecords ∨ r ∈ t.records := by
    rw [Lsm.memRecords_eq, hlevels, Lsm.memRecords_eq, ht]
    simp
  have hnewer := List.pairwise_append.mp (hlevels ▸ h.newer)
  refine ⟨h.ascending, h.next, h.below, h.waiting, h.drawn, ?_, ?_, hnewer.1, ?_⟩
  · intro r hr
    change _ ∨ r ∈ s.tabled ++ t.records
    rcases h.kept r hr with hr | hr
    · exact ((hmem r).mp hr).imp_right (List.mem_append_right _)
    · exact Or.inr (List.mem_append_left _ hr)
  · intro r hr
    have hold := h.memory r ((hmem r).mpr (Or.inl hr))
    refine ⟨hold.1, max_lt hold.2 ?_⟩
    -- everything that is left is newer than the table
    have hle : t.getMaxSeqNo ≤ r.seqNo - 1 := by
      rw [SSTable.getMaxSeqNo_le]
      intro r' hr'
      obtain ⟨a, ha, hra⟩ := List.mem_flatten.mp (show r ∈ (s.lsm.publishFlush t).memLevels.flatten from hr)
      have hlt := hnewer.2.2 a ha m.impl (List.mem_singleton_self _) r hra r' (ht ▸ hr')
      omega
    have hpos := hold.2
    omega
  · change max s.lsm.maxPersistentSeqNo t.getMaxSeqNo ≤ base ∨
      ∃ r ∈ s.entered, max s.lsm.maxPersistentSeqNo t.getMaxSeqNo ≤ r.seqNo
    rcases max_choice s.lsm.maxPersistentSeqNo t.getMaxSeqNo with he | he
    · rw [he]
      exact h.mark
    · rw [he]
      by_cases hnil : t.records = []
      · left
        exact SSTable.getMaxSeqNo_le.mpr (by simp [hnil])
      · right
        obtain ⟨r, hr, hmax⟩ := SSTable.exists_maxSeqNo hnil
        exact ⟨r, (h.memory r ((hmem r).mpr (Or.inr hr))).1, hmax.ge⟩

theorem publishCompact (h : InOrder base s) (t : SSTable V) : InOrder base (s.publish (s.lsm.publishCompact t) t) :=
  ⟨h.ascending, h.next, h.below, h.waiting, h.drawn, fun r hr => (h.kept r hr).imp_right (List.mem_append_left _),
    h.memory, h.newer, h.mark⟩

end InOrder

end SharedLsm

end StructureDb
