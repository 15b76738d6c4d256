import StructureDb.Proofs.Recovery
import StructureDb.Proofs.TableReads

/-! Crashes between the effects of `Lsm::Flush` and `Lsm::Compact` on the directory. A file that is
being built reads as empty as soon as it has a header, so `Init` finds the tables from before or
those from after, and the log has the rest. -/

namespace StructureDb

namespace Lsm

variable {V : Type} [LinearOrder V] {l : Lsm V} {log : List (Record V)}

/-- The tables hold the records up to the mark and the mem tables those above it; `log` are all of them. -/
structure Sound (l : Lsm V) (log : List (Record V)) : Prop where
  recoverable : ∃ dir, ({ l with dir } : Lsm V).Recoverable log
  numbers : Consecutive.From Record.seqNo 1 log
  next : l.nextSeqNo = log.length + 1
  tables : ∀ r, r ∈ l.ssRecords ↔ r ∈ log ∧ r.seqNo ≤ l.maxPersistentSeqNo

namespace Sound

theorem mark (h : l.Sound log) : l.maxPersistentSeqNo ≤ log.length := by
  obtain ⟨dir, hrec⟩ := h.recoverable
  have hnext : l.nextSeqNo = l.maxPersistentSeqNo + 1 + (l.pending log).length := hrec.next
  have := h.next
  omega

theorem mem_memRecords (h : l.Sound log) {r : Record V} :
    r ∈ l.memRecords ↔ r ∈ log ∧ l.maxPersistentSeqNo < r.seqNo := by
  obtain ⟨dir, hrec⟩ := h.recoverable
  have hperm : l.memRecords.Perm (l.pending log) := hrec.inMemory
  rw [hperm.mem_iff, pending, List.mem_filter, decide_eq_true_eq]

theorem mem_records (h : l.Sound log) {r : Record V} : r ∈ l.records ↔ r ∈ log := by
  rw [records_eq, List.mem_append, h.mem_memRecords, h.tables]
  have := lt_or_ge l.maxPersistentSeqNo r.seqNo
  tauto

theorem start : (init (Dir.empty : Dir Bytes (List (Record V)))).Sound [] :=
  ⟨⟨_, Recoverable.empty⟩, trivial, rfl, by simp [mem_ssRecords, init, Dir.empty, Dir.listing]⟩

theorem put (h : l.Sound log) (o : Options) (key : Bytes) (value : V) :
    (l.put o key value).1.Sound (log ++ [⟨key, l.nextSeqNo, value⟩]) := by
  obtain ⟨dir, hrec⟩ := h.recoverable
  have hput : (({ l with dir } : Lsm V).put o key value).1 = { (l.put o key value).1 with dir } := by
    simp only [Lsm.put, doPut]
    split_ifs <;> rfl
  have hss : (l.put o key value).1.ssRecords = l.ssRecords := by
    rw [ssRecords, ssRecords]
    congr 3
    exact doPut_ssTables ..
  have hmax : (l.put o key value).1.maxPersistentSeqNo = l.maxPersistentSeqNo := doPut_maxPersistentSeqNo ..
  refine ⟨⟨dir, hput ▸ hrec.put o key value⟩, ?_, ?_, ?_⟩
  · rw [Consecutive.from_append]
    exact ⟨h.numbers, by rw [h.next, Nat.add_comm], trivial⟩
  · rw [List.length_append, List.length_singleton, ← h.next]
    exact doPut_nextSeqNo ..
  · intro r
    rw [hss, h.tables, hmax, List.mem_append, List.mem_singleton]
    refine ⟨fun hr => ⟨Or.inl hr.1, hr.2⟩, ?_⟩
    rintro ⟨hr | rfl, hle⟩
    · exact ⟨hr, hle⟩
    · have hmark := h.mark
      have hnext := h.next
      change l.nextSeqNo ≤ _ at hle
      omega

/-- The oldest frozen mem table becomes a table. -/
theorem publishFlush (h : l.Sound log) {m : MemTable V} {rest : List (MemTable V)} (hro : l.roMemTables = m :: rest) :
    (l.publishFlush (l.flushTable m)).Sound log := by
  obtain ⟨dir, hrec⟩ := h.recoverable
  have hflush : (({ l with dir } : Lsm V).flushFront).Recoverable log := hrec.flushFront
  rw [flushFront_cons (show ({ l with dir } : Lsm V).roMemTables = m :: rest from hro)] at hflush
  have hperm : (l.publishFlush (l.flushTable m)).memRecords.Perm ((l.publishFlush (l.flushTable m)).pending log) :=
    hflush.inMemory
  refine ⟨⟨_, hflush⟩, h.numbers, h.next, ?_⟩
  intro r
  -- all records are those from before, and those in memory are above the new mark
  have hrecords : r ∈ (l.publishFlush (l.flushTable m)).records ↔ r ∈ log := by
    rw [records, publishFlush_levels hro rfl, ← records]
    exact h.mem_records
  rw [records_eq, List.mem_append, hperm.mem_iff, pending, List.mem_filter, decide_eq_true_eq] at hrecords
  refine ⟨fun hr => ⟨hrecords.mp (Or.inr hr), hflush.tables r hr⟩, ?_⟩
  rintro ⟨hr, hle⟩
  exact (hrecords.mpr hr).resolve_left fun hmem => absurd hmem.2 (not_lt.mpr hle)

theorem publishCompact (h : l.Sound log) {t : SSTable V} (ht : ∀ r, r ∈ t.records ↔ r ∈ l.ssRecords) :
    (l.publishCompact t).Sound log := by
  have hss (r : Record V) : r ∈ (l.publishCompact t).ssRecords ↔ r ∈ l.ssRecords := by
    rw [mem_ssRecords, ← ht r]
    simp [Lsm.publishCompact]
  obtain ⟨dir, hrec⟩ := h.recoverable
  refine ⟨⟨dir, ⟨hrec.ascending, hrec.frozen, hrec.inMemory, hrec.consecutive, hrec.next, ?_, hrec.files,
    hrec.newest⟩⟩, h.numbers, h.next, fun r => (hss r).trans (h.tables r)⟩
  exact fun r hr => hrec.tables r ((hss r).mp hr)

/-- `Init` on files that hold the records up to some number, and recovery from the whole log. -/
theorem recovered (o : Options) {dir : Dir Bytes (List (Record V))} {k : ℕ} (hlog : Consecutive.From Record.seqNo 1 log)
    (hdir : ∀ r, (∃ f ∈ dir.files, r ∈ f.2) ↔ r ∈ log ∧ r.seqNo ≤ k) (hk : k ≤ log.length) :
    ((init dir).replay o log).Sound log := by
  have hmax : (init dir).maxPersistentSeqNo = k := by
    refine le_antisymm (init_maxPersistentSeqNo_le.mpr fun f hf r hr => ((hdir r).mp ⟨f, hf, hr⟩).2) ?_
    rcases Nat.eq_zero_or_pos k with rfl | hpos
    · exact Nat.zero_le _
    · obtain ⟨r, hr, hseq⟩ := hlog.exists (m := k) hpos (by omega)
      obtain ⟨f, hf, hr⟩ := (hdir r).mpr ⟨hr, hseq.le⟩
      rw [← hseq]
      exact init_maxPersistentSeqNo_le.mp le_rfl f hf r hr
  obtain ⟨hfilter, hlen⟩ := hlog.filter (m := k + 1) (by omega) (by omega)
  have hpending : (init dir).pending log = log.filter fun r => k + 1 ≤ r.seqNo := by rw [pending, hmax]; rfl
  obtain ⟨hrec, hkeep, -⟩ := @Recoverable.replay _ _ _ _ (Recoverable.init_recoverable dir) o log
    (by rw [List.nil_append, hpending, hmax]; exact hfilter)
  rw [List.nil_append] at hrec
  rw [hmax] at hkeep
  obtain ⟨hss, -⟩ := replay_files o log (init dir)
  refine ⟨⟨_, hrec⟩, hlog, ?_, ?_⟩
  · rw [hrec.next, pending, hkeep]
    change k + 1 + (log.filter fun r => k + 1 ≤ r.seqNo).length = log.length + 1
    omega
  · intro r
    rw [hkeep, ← hdir r, mem_ssRecords, hss]
    constructor
    · rintro ⟨t, ht, hr⟩
      obtain ⟨f, hf, rfl⟩ := List.mem_map.mp ht
      exact ⟨f, Dir.mem_listing.mp hf, hr⟩
    · rintro ⟨f, hf, hr⟩
      exact ⟨⟨f.1, f.2⟩, List.mem_map.mpr ⟨f, Dir.mem_listing.mpr hf, rfl⟩, hr⟩

end Sound

end Lsm

namespace TreeFiles

open Disk

variable {crc : Bytes → BitVec 32} {o : Options} {pageSize capacity : ℕ} {s s' : TreeFiles}
  {tables : List (SSTable Bytes)} {files : Dir Bytes Bytes} {t : SSTable Bytes} {log records : List (Record Bytes)}
  {rest : List FileEffect} {but : Bytes → Prop}

def Keeps (crc : Bytes → BitVec 32) (capacity : ℕ) (file : Bytes) (records : List (Record Bytes)) : Prop :=
  Reads crc capacity file records ∧ records.Pairwise (· ≤ ·)

structure Backed (crc : Bytes → BitVec 32) (capacity : ℕ) (tables : List (SSTable Bytes)) (files : Dir Bytes Bytes)
    (but : Bytes → Prop) : Prop where
  linked : ∀ t ∈ tables, ∃ file, (t.path, file) ∈ files.files ∧ Keeps crc capacity file t.records
  only : ∀ f ∈ files.files, ¬ but f.1 → ∃ t ∈ tables, t.path = f.1 ∧ Keeps crc capacity f.2 t.records

def writeEffect (path : Bytes) (w : ℕ × Bytes) : FileEffect := .write path w.1 w.2

/-- A table with the effects that are left to build it: nothing has been done, or the file has some of the writes. -/
def InProgress (crc : Bytes → BitVec 32) (pageSize capacity : ℕ) (tables : List (SSTable Bytes))
    (files : Dir Bytes Bytes) (t : SSTable Bytes) (rest : List FileEffect) : Prop :=
  ∃ chunks, Table pageSize t.records chunks ∧
    (rest = .create t.path :: (tableWrites crc pageSize chunks).map (writeEffect t.path) ∧
        Backed crc capacity tables files (fun _ => False) ∨
      ∃ done todo, tableWrites crc pageSize chunks = done ++ todo ∧ rest = todo.map (writeEffect t.path) ∧
        (t.path, contents done) ∈ files.files ∧ (∀ u ∈ tables, u.path ≠ t.path) ∧
        Backed crc capacity tables files (· = t.path))

theorem Backed.create (h : Backed crc capacity tables files fun _ => False) {path : Bytes} (hnew : path ∉ files.names) :
    (∀ u ∈ tables, u.path ≠ path) ∧ Backed crc capacity tables (files.create path []) (· = path) := by
  have hne : ∀ u ∈ tables, u.path ≠ path := by
    rintro u hu rfl
    obtain ⟨file, hfile, -⟩ := h.linked u hu
    exact hnew (Dir.mem_names.mpr ⟨file, hfile⟩)
  refine ⟨hne, ?_, ?_⟩
  · intro u hu
    obtain ⟨file, hfile, hkeeps⟩ := h.linked u hu
    exact ⟨file, Dir.mem_create.mpr (Or.inr ⟨hfile, hne u hu⟩), hkeeps⟩
  · intro f hf hbut
    rcases Dir.mem_create.mp hf with rfl | ⟨hf, -⟩
    · exact absurd rfl hbut
    · exact h.only f hf not_false

theorem Backed.modify {path : Bytes} (h : Backed crc capacity tables files (· = path))
    (hne : ∀ u ∈ tables, u.path ≠ path) (g : Bytes → Bytes) :
    Backed crc capacity tables (files.modify path g) (· = path) := by
  refine ⟨?_, ?_⟩
  · intro u hu
    obtain ⟨file, hfile, hkeeps⟩ := h.linked u hu
    exact ⟨file, Dir.mem_modify.mpr (Or.inl ⟨hfile, hne u hu⟩), hkeeps⟩
  · intro f hf hbut
    rcases Dir.mem_modify.mp hf with ⟨hf, -⟩ | ⟨file, -, rfl⟩
    · exact h.only f hf hbut
    · exact absurd rfl hbut

theorem InProgress.effect {effect : FileEffect} (h : InProgress crc pageSize capacity tables files t (effect :: rest))
    (hnew : ∀ name, effect = .create name → name ∉ files.names) :
    InProgress crc pageSize capacity tables (effect.apply files) t rest := by
  obtain ⟨chunks, htable, ⟨heffects, hbacked⟩ | ⟨done, todo, hwrites, heffects, hfile, hne, hbacked⟩⟩ := h
  · obtain ⟨rfl, rfl⟩ := List.cons_eq_cons.mp heffects
    obtain ⟨hne, hback⟩ := hbacked.create (hnew _ rfl)
    exact ⟨chunks, htable, Or.inr ⟨[], _, rfl, rfl, Dir.mem_create.mpr (Or.inl rfl), hne, hback⟩⟩
  · cases todo with
    | nil => cases heffects
    | cons w todo =>
      obtain ⟨rfl, rfl⟩ := List.cons_eq_cons.mp heffects
      refine ⟨chunks, htable, Or.inr ⟨done ++ [w], todo, by rw [hwrites, List.append_cons], rfl, ?_, hne, ?_⟩⟩
      · rw [contents_append]
        exact Dir.mem_modify.mpr (Or.inr ⟨_, hfile, rfl⟩)
      · exact hbacked.modify hne fun file => writeAt file w.1 w.2

theorem InProgress.finished (h : InProgress crc pageSize capacity tables files t []) :
    (∃ file, (t.path, file) ∈ files.files ∧ Keeps crc capacity file t.records) ∧
      (∀ u ∈ tables, u.path ≠ t.path) ∧
      Backed crc capacity tables files (· = t.path) := by
  obtain ⟨chunks, htable, ⟨heffects, -⟩ | ⟨done, todo, hwrites, heffects, hfile, hne, hbacked⟩⟩ := h
  · cases heffects
  · obtain rfl : todo = [] := List.map_eq_nil_iff.mp heffects.symm
    rw [List.append_nil] at hwrites
    exact ⟨⟨_, hfile, hwrites ▸ htable.reads crc capacity, htable.sorted⟩, hne, hbacked⟩

def WorkOk (crc : Bytes → BitVec 32) (pageSize capacity : ℕ) (l : Lsm Bytes) (files : Dir Bytes Bytes) : Work → Prop
  | .idle => Backed crc capacity l.ssTables files fun _ => False
  | .flush _ => Backed crc capacity l.ssTables files fun _ => False
  | .flushing rest t _ =>
    (∃ m tail, l.roMemTables = m :: tail ∧ t = l.flushTable m) ∧
      InProgress crc pageSize capacity l.ssTables files t rest
  | .compacting rest t paths =>
    (∀ r, r ∈ t.records ↔ r ∈ l.ssRecords) ∧ paths = l.filesToDelete ∧
      InProgress crc pageSize capacity l.ssTables files t rest
  | .removing paths =>
    Backed crc capacity l.ssTables files (· ∈ paths) ∧ (∀ u ∈ l.ssTables, u.path ∉ paths) ∧
      ∀ f ∈ files.files, f.1 ∈ paths → ∃ records, Keeps crc capacity f.2 records ∧
        ∀ r ∈ records, r ∈ l.ssRecords

structure Inv (crc : Bytes → BitVec 32) (pageSize capacity : ℕ) (s : TreeFiles) : Prop where
  sound : s.lsm.Sound s.log
  fits : ∀ r ∈ s.log, 16 + 24 + r.key.length + r.value.length ≤ pageSize
  length : s.log.length < 2 ^ 63
  work : WorkOk crc pageSize capacity s.lsm s.files s.work

section Recovery

/-- The files open, and hold the records of the log up to some number. -/
def Recovers (crc : Bytes → BitVec 32) (capacity : ℕ) (files : Dir Bytes Bytes) (log : List (Record Bytes)) : Prop :=
  (∀ f ∈ files.files, ∃ records, Keeps crc capacity f.2 records) ∧
    ∃ k ≤ log.length, ∀ r, (∃ f ∈ files.files, r ∈ recordsOf crc capacity f.2) ↔ r ∈ log ∧ r.seqNo ≤ k

/-- The files of some tables, and others that have no other records than the tree `l`. -/
theorem Backed.recovers {l : Lsm Bytes} (h : Backed crc capacity tables files but) (hl : l.Sound log)
    (htables : ∀ t ∈ tables, ∀ r ∈ t.records, r ∈ l.ssRecords)
    (hbut : ∀ f ∈ files.files, but f.1 → ∃ records, Keeps crc capacity f.2 records ∧
      ∀ r ∈ records, r ∈ l.ssRecords)
    (hall : ∀ r ∈ l.ssRecords, (∃ t ∈ tables, r ∈ t.records) ∨
      ∃ f ∈ files.files, r ∈ recordsOf crc capacity f.2) :
    Recovers crc capacity files log := by
  have hfile : ∀ f ∈ files.files, ∃ records, Keeps crc capacity f.2 records ∧
      ∀ r ∈ records, r ∈ l.ssRecords := by
    intro f hf
    by_cases hb : but f.1
    · exact hbut f hf hb
    · obtain ⟨t, ht, -, hkeeps⟩ := h.only f hf hb
      exact ⟨_, hkeeps, htables t ht⟩
  refine ⟨fun f hf => (hfile f hf).imp fun _ h => h.1, l.maxPersistentSeqNo, hl.mark, fun r => ?_⟩
  rw [← hl.tables r]
  constructor
  · rintro ⟨f, hf, hr⟩
    obtain ⟨records, hkeeps, hmem⟩ := hfile f hf
    rw [hkeeps.1.recordsOf] at hr
    exact hmem r hr
  · intro hr
    rcases hall r hr with ⟨t, ht, hr⟩ | hr
    · obtain ⟨file, hfile, hkeeps⟩ := h.linked t ht
      exact ⟨_, hfile, by rw [hkeeps.1.recordsOf]; exact hr⟩
    · exact hr

/-- A table in progress whose file has a header: the tables are those from before, or the new one is complete. -/
theorem InProgress.recovers {l l' : Lsm Bytes} (h : InProgress crc pageSize capacity l.ssTables files t rest)
    (hne : ∀ f ∈ files.files, f.2 ≠ []) (hl : l.Sound log) (hl' : l'.Sound log)
    (hrecords : ∀ r, r ∈ l'.ssRecords ↔ r ∈ l.ssRecords ∨ r ∈ t.records) : Recovers crc capacity files log := by
  have htables : ∀ u ∈ l.ssTables, ∀ r ∈ u.records, r ∈ l.ssRecords :=
    fun u hu r hr => Lsm.mem_ssRecords.mpr ⟨u, hu, hr⟩
  obtain ⟨chunks, htable, ⟨-, hbacked⟩ | ⟨done, todo, hwrites, -, hfile, -, hbacked⟩⟩ := h
  · exact hbacked.recovers hl htables (fun _ _ hf => hf.elim) fun r hr => Or.inl (Lsm.mem_ssRecords.mp hr)
  · have hdone : done ≠ [] := by
      rintro rfl
      exact hne _ hfile rfl
    have hreads := htable.reads_prefix crc capacity hwrites hdone
    have hthis : ∀ f ∈ files.files, f.1 = t.path → f.2 = contents done := by
      intro f hf hpath
      refine Dir.unique (n := t.path) (d := files) ?_ hfile
      rw [← hpath]
      exact hf
    by_cases htodo : todo = []
    · rw [if_pos htodo] at hreads
      refine hbacked.recovers hl' (fun u hu r hr => (hrecords r).mpr (Or.inl (htables u hu r hr))) ?_ ?_
      · intro f hf hpath
        rw [hthis f hf hpath]
        exact ⟨_, ⟨hreads, htable.sorted⟩, fun r hr => (hrecords r).mpr (Or.inr hr)⟩
      · intro r hr
        refine ((hrecords r).mp hr).imp (fun hr => Lsm.mem_ssRecords.mp hr) fun hr => ⟨_, hfile, ?_⟩
        rw [hreads.recordsOf]
        exact hr
    · rw [if_neg htodo] at hreads
      refine hbacked.recovers hl htables ?_ fun r hr => Or.inl (Lsm.mem_ssRecords.mp hr)
      intro f hf hpath
      rw [hthis f hf hpath]
      exact ⟨[], ⟨hreads, List.Pairwise.nil⟩, fun r hr => absurd hr List.not_mem_nil⟩

theorem Inv.recovers (h : Inv crc pageSize capacity s) (hne : ∀ f ∈ s.files.files, f.2 ≠ []) :
    Recovers crc capacity s.files s.log := by
  have hwork := h.work
  have hidle : Backed crc capacity s.lsm.ssTables s.files (fun _ => False) → Recovers crc capacity s.files s.log :=
    fun hbacked => hbacked.recovers h.sound (fun u hu r hr => Lsm.mem_ssRecords.mpr ⟨u, hu, hr⟩)
      (fun _ _ hf => hf.elim) fun r hr => Or.inl (Lsm.mem_ssRecords.mp hr)
  cases hs : s.work <;> rw [hs] at hwork
  · exact hidle hwork
  · exact hidle hwork
  · obtain ⟨⟨m, tail, hro, rfl⟩, hprogress⟩ := hwork
    refine hprogress.recovers hne h.sound (h.sound.publishFlush hro) fun r => ?_
    simp [Lsm.mem_ssRecords, Lsm.publishFlush, or_and_right, exists_or]
  · obtain ⟨hrecords, -, hprogress⟩ := hwork
    exact hprogress.recovers hne h.sound h.sound fun r => by rw [hrecords, or_self]
  · obtain ⟨hbacked, -, hold⟩ := hwork
    exact hbacked.recovers h.sound (fun u hu r hr => Lsm.mem_ssRecords.mpr ⟨u, hu, hr⟩) hold
      fun r hr => Or.inl (Lsm.mem_ssRecords.mp hr)

theorem Recovers.restart (h : Recovers crc capacity files log) (hlog : Consecutive.From Record.seqNo 1 log)
    (o : Options) :
    ∃ l, Disk.init crc capacity files = some l ∧ (l.replay o log).Sound log ∧
      Backed crc capacity (l.replay o log).ssTables files fun _ => False := by
  obtain ⟨hopen, k, hk, hrecords⟩ := h
  refine ⟨_, init_eq fun f hf => (hopen f hf).imp fun _ h => h.1, .recovered o hlog (k := k) ?_ hk, ?_⟩
  · intro r
    rw [← hrecords r]
    simp [Dir.map]
  · rw [(Lsm.replay_files o log _).1]
    have hmem (u : SSTable Bytes) : u ∈ (Lsm.init (files.map (recordsOf crc capacity))).ssTables ↔
        ∃ f ∈ files.files, u = ⟨f.1, recordsOf crc capacity f.2⟩ := by
      simp [Lsm.init, Dir.map, eq_comm]
    have hkeeps : ∀ f ∈ files.files, Keeps crc capacity f.2 (recordsOf crc capacity f.2) := by
      intro f hf
      obtain ⟨records, hkeeps⟩ := hopen f hf
      rw [hkeeps.1.recordsOf]
      exact hkeeps
    refine ⟨?_, ?_⟩
    · intro u hu
      obtain ⟨f, hf, rfl⟩ := (hmem u).mp hu
      exact ⟨f.2, hf, hkeeps f hf⟩
    · intro f hf _
      exact ⟨_, (hmem _).mpr ⟨f, hf, rfl⟩, rfl, hkeeps f hf⟩

end Recovery

section Steps

def creates : Work → Option Bytes
  | .flushing (.create name :: _) _ _ => some name
  | .compacting (.create name :: _) _ _ => some name
  | _ => none

/-- No put that no page has room for, no table under a name that is taken, and fewer records than a page count holds. -/
def Safe (pageSize : ℕ) (s : TreeFiles) : Action Bytes → Prop
  | .put key value => 16 + 24 + key.length + value.length ≤ pageSize ∧ s.log.length + 1 < 2 ^ 63
  | .beginFlush => True
  | .beginCompact => s.lsm.mergedRecords.length < 2 ^ 63
  | .advance => ∀ name ∈ creates s.work, name ∉ s.files.names
  | .restart => True

instance (pageSize : ℕ) (s : TreeFiles) (a : Action Bytes) : Decidable (Safe pageSize s a) := by
  cases a <;> unfold Safe <;> infer_instance

theorem Inv.init (crc : Bytes → BitVec 32) (pageSize capacity : ℕ) : Inv crc pageSize capacity start :=
  ⟨.start, fun _ hr => absurd hr List.not_mem_nil, Nat.two_pow_pos 63, fun _ ht => absurd ht List.not_mem_nil,
    fun _ hf => absurd hf List.not_mem_nil⟩

theorem Inv.seqNos (h : Inv crc pageSize capacity s) {r : Record Bytes} (hr : r ∈ s.log) : r.seqNo < 2 ^ 63 := by
  obtain ⟨-, hlt⟩ := h.sound.numbers.bounds r hr
  have hlen := h.length
  omega

theorem Inv.plan (h : Inv crc pageSize capacity s) (hsmall : pageSize < 2 ^ 31) (hmem : ∀ r ∈ t.records, r ∈ s.log)
    (hsorted : t.records.Pairwise (· ≤ ·)) (hlen : t.records.length < 2 ^ 63)
    (hbacked : Backed crc capacity s.lsm.ssTables s.files fun _ => False) :
    ∃ effects, buildEffects crc pageSize t = some effects ∧
      InProgress crc pageSize capacity s.lsm.ssTables s.files t effects := by
  obtain ⟨chunks, htable, hbuild⟩ := Table.build crc hsmall (fun r hr => h.fits r (hmem r hr))
    (fun r hr => h.seqNos (hmem r hr)) hsorted hlen
  refine ⟨_, by rw [buildEffects, hbuild]; rfl, chunks, htable, Or.inl ⟨rfl, hbacked⟩⟩

/-- A put changes neither the tables nor the oldest frozen mem table. -/
theorem WorkOk.put {l l' : Lsm Bytes} {work : Work} (h : WorkOk crc pageSize capacity l files work)
    (hss : l'.ssTables = l.ssTables) (hro : l.roMemTables <+: l'.roMemTables) :
    WorkOk crc pageSize capacity l' files work := by
  have hrecords : l'.ssRecords = l.ssRecords := by rw [Lsm.ssRecords, hss, ← Lsm.ssRecords]
  cases work with
  | idle =>
    rw [WorkOk, hss]
    exact h
  | flush pending =>
    rw [WorkOk, hss]
    exact h
  | flushing rest t pending =>
    obtain ⟨⟨m, tail, hfront, rfl⟩, hprogress⟩ := h
    obtain ⟨newer, hnewer⟩ := hro
    have hnew : l'.flushTable m = l.flushTable m := by rw [Lsm.flushTable, hss, ← Lsm.flushTable]
    refine ⟨⟨m, tail ++ newer, by rw [← hnewer, hfront, List.cons_append], hnew.symm⟩, ?_⟩
    rw [hss]
    exact hprogress
  | compacting rest t paths =>
    rw [WorkOk, hrecords, Lsm.filesToDelete, hss]
    exact h
  | removing paths =>
    rw [WorkOk, hrecords, hss]
    exact h

/-- The new table comes behind those from before. -/
theorem Backed.publishFlush (h : Backed crc capacity tables files (· = t.path))
    (hfile : ∃ file, (t.path, file) ∈ files.files ∧ Keeps crc capacity file t.records) :
    Backed crc capacity (tables ++ [t]) files fun _ => False := by
  obtain ⟨file, hfile, hkeeps⟩ := hfile
  refine ⟨?_, ?_⟩
  · intro u hu
    rcases List.mem_append.mp hu with hu | hu
    · exact h.linked u hu
    · obtain rfl := List.mem_singleton.mp hu
      exact ⟨file, hfile, hkeeps⟩
  · rintro ⟨name, file'⟩ hf -
    by_cases hname : name = t.path
    · subst hname
      obtain rfl := Dir.unique hf hfile
      exact ⟨t, by simp, rfl, hkeeps⟩
    · obtain ⟨u, hu, hpath, hkeeps⟩ := h.only _ hf hname
      exact ⟨u, List.mem_append_left _ hu, hpath, hkeeps⟩

/-- The new table replaces those from before, and their files are left to remove. -/
theorem Backed.publishCompact (h : Backed crc capacity tables files (· = t.path))
    (hfile : ∃ file, (t.path, file) ∈ files.files ∧ Keeps crc capacity file t.records)
    (hne : ∀ u ∈ tables, u.path ≠ t.path) :
    Backed crc capacity [t] files (· ∈ tables.map SSTable.path) ∧ t.path ∉ tables.map SSTable.path ∧
      ∀ f ∈ files.files, f.1 ∈ tables.map SSTable.path → ∃ u ∈ tables, Keeps crc capacity f.2 u.records := by
  obtain ⟨file, hfile, hkeeps⟩ := hfile
  have hnot : t.path ∉ tables.map SSTable.path := by
    intro hpath
    obtain ⟨u, hu, hpath⟩ := List.mem_map.mp hpath
    exact hne u hu hpath
  refine ⟨⟨?_, ?_⟩, hnot, ?_⟩
  · intro u hu
    obtain rfl := List.mem_singleton.mp hu
    exact ⟨file, hfile, hkeeps⟩
  · rintro ⟨name, file'⟩ hf hold
    by_cases hname : name = t.path
    · subst hname
      obtain rfl := Dir.unique hf hfile
      exact ⟨t, List.mem_singleton.mpr rfl, rfl, hkeeps⟩
    · obtain ⟨u, hu, hpath, -⟩ := h.only _ hf hname
      exact absurd (List.mem_map.mpr ⟨u, hu, hpath⟩) hold
  · rintro ⟨name, file'⟩ hf hold
    obtain ⟨u, hu, hkeeps⟩ := h.only _ hf fun hname => hnot (hname ▸ hold)
    exact ⟨u, hu, hkeeps.2⟩

theorem Backed.unlink {path : Bytes} {paths : List Bytes} (h : Backed crc capacity tables files (· ∈ path :: paths))
    (hne : ∀ u ∈ tables, u.path ∉ path :: paths) : Backed crc capacity tables (files.unlink path) (· ∈ paths) := by
  refine ⟨?_, ?_⟩
  · intro u hu
    obtain ⟨file, hfile, hkeeps⟩ := h.linked u hu
    exact ⟨file, Dir.mem_unlink.mpr ⟨hfile, fun hpath => hne u hu (hpath ▸ List.mem_cons_self)⟩, hkeeps⟩
  · intro f hf hbut
    obtain ⟨hf, hname⟩ := Dir.mem_unlink.mp hf
    exact h.only f hf fun hpath => (List.mem_cons.mp hpath).elim hname hbut

theorem WorkOk.publishFlush {l : Lsm Bytes} {pending : ℕ}
    (h : WorkOk crc pageSize capacity l files (.flushing [] t pending)) :
    WorkOk crc pageSize capacity (l.publishFlush t) files (.flush pending) := by
  obtain ⟨-, hprogress⟩ := h
  obtain ⟨hfile, -, hbacked⟩ := hprogress.finished
  exact hbacked.publishFlush hfile

theorem WorkOk.publishCompact {l : Lsm Bytes} {paths : List Bytes}
    (h : WorkOk crc pageSize capacity l files (.compacting [] t paths)) :
    WorkOk crc pageSize capacity (l.publishCompact t) files (.removing paths) := by
  obtain ⟨hrecords, rfl, hprogress⟩ := h
  obtain ⟨hfile, hne, hbacked⟩ := hprogress.finished
  obtain ⟨hnew, hnot, hold⟩ := hbacked.publishCompact hfile hne
  refine ⟨hnew, ?_, ?_⟩
  · intro u hu
    obtain rfl := List.mem_singleton.mp hu
    exact hnot
  · intro f hf hpath
    obtain ⟨u, hu, hkeeps⟩ := hold f hf hpath
    refine ⟨u.records, hkeeps, fun r hr => ?_⟩
    refine Lsm.mem_ssRecords.mpr ⟨t, List.mem_singleton.mpr rfl, ?_⟩
    exact (hrecords r).mpr (Lsm.mem_ssRecords.mpr ⟨u, hu, hr⟩)

theorem WorkOk.remove {l : Lsm Bytes} {path : Bytes} {paths : List Bytes}
    (h : WorkOk crc pageSize capacity l files (.removing (path :: paths))) :
    WorkOk crc pageSize capacity l (files.unlink path) (.removing paths) := by
  obtain ⟨hbacked, hne, hold⟩ := h
  refine ⟨hbacked.unlink hne, fun u hu hpath => hne u hu (List.mem_cons_of_mem _ hpath), ?_⟩
  intro f hf hpath
  exact hold f (Dir.mem_unlink.mp hf).1 (List.mem_cons_of_mem _ hpath)

/-- A frozen mem table has no more records than the log. -/
theorem Inv.length_le (h : Inv crc pageSize capacity s) {m : MemTable Bytes} {tail : List (MemTable Bytes)}
    (hro : s.lsm.roMemTables = m :: tail) : m.impl.length ≤ s.log.length := by
  obtain ⟨dir, hrec⟩ := h.sound.recoverable
  have hperm : s.lsm.memRecords.Perm (s.lsm.pending s.log) := hrec.inMemory
  have hpending : (s.lsm.pending s.log).length ≤ s.log.length := List.length_filter_le ..
  have hmem : s.lsm.memRecords.length ≥ m.impl.length := by
    rw [Lsm.memRecords, hro]
    simp only [List.length_append, List.reverse_cons, List.map_append, List.flatten_append, List.map_cons, List.map_nil,
      List.flatten_cons, List.flatten_nil, List.append_nil]
    omega
  rw [hperm.length_eq] at hmem
  omega

theorem Inv.advance (h : Inv crc pageSize capacity s) (hsmall : pageSize < 2 ^ 31) (hsafe : Safe pageSize s .advance)
    (hstep : s.advance crc pageSize = some s') : Inv crc pageSize capacity s' := by
  obtain ⟨lsm, files, log, work⟩ := s
  have hwork : WorkOk crc pageSize capacity lsm files work := h.work
  cases work with
  | idle => cases hstep
  | flush pending =>
    cases pending with
    | zero =>
      cases hstep
      exact ⟨h.sound, h.fits, h.length, hwork⟩
    | succ pending =>
      cases hro : lsm.roMemTables with
      | nil =>
        simp only [TreeFiles.advance, hro] at hstep
        cases hstep
      | cons m tail =>
        have hmem : ∀ r ∈ m.impl, r ∈ log := by
          intro r hr
          refine (h.sound.mem_memRecords.mp (Lsm.mem_memRecords.mpr (Or.inr ⟨m, ?_, hr⟩))).1
          change m ∈ lsm.roMemTables
          rw [hro]
          exact List.mem_cons_self
        obtain ⟨effects, hbuild, hprogress⟩ := h.plan (t := lsm.flushTable m) hsmall hmem m.sorted
          ((h.length_le hro).trans_lt h.length) hwork
        simp only [TreeFiles.advance, hro, hbuild, Option.map_some] at hstep
        cases hstep
        exact ⟨h.sound, h.fits, h.length, ⟨m, tail, hro, rfl⟩, hprogress⟩
  | flushing rest t pending =>
    cases rest with
    | nil =>
      cases hstep
      obtain ⟨⟨m, tail, hro, rfl⟩, -⟩ := id hwork
      exact ⟨h.sound.publishFlush hro, h.fits, h.length, hwork.publishFlush⟩
    | cons effect rest =>
      cases hstep
      refine ⟨h.sound, h.fits, h.length, hwork.1, hwork.2.effect ?_⟩
      rintro name rfl
      exact hsafe name rfl
  | compacting rest t paths =>
    cases rest with
    | nil =>
      cases hstep
      exact ⟨h.sound.publishCompact hwork.1, h.fits, h.length, hwork.publishCompact⟩
    | cons effect rest =>
      cases hstep
      refine ⟨h.sound, h.fits, h.length, hwork.1, hwork.2.1, hwork.2.2.effect ?_⟩
      rintro name rfl
      exact hsafe name rfl
  | removing paths =>
    cases paths with
    | nil =>
      cases hstep
      obtain ⟨hlinked, hne, -⟩ := hwork
      exact ⟨h.sound, h.fits, h.length, hlinked.linked, fun f hf _ => hlinked.only f hf List.not_mem_nil⟩
    | cons path paths =>
      cases hstep
      exact ⟨h.sound, h.fits, h.length, hwork.remove⟩

theorem Inv.step (h : Inv crc pageSize capacity s) (hsmall : pageSize < 2 ^ 31) {a : Action Bytes}
    (hsafe : Safe pageSize s a) (hstep : TreeFiles.step crc o pageSize capacity s a = some s') :
    Inv crc pageSize capacity s' := by
  cases a with
  | put key value =>
    cases hstep
    have hro : s.lsm.roMemTables <+: (s.lsm.put o key value).1.roMemTables :=
      Lsm.doPut_roMemTables o { s.lsm with nextSeqNo := s.lsm.nextSeqNo + 1 } ..
    refine ⟨h.sound.put o key value, ?_, ?_, h.work.put (Lsm.doPut_ssTables ..) hro⟩
    · intro r hr
      rcases List.mem_append.mp hr with hr | hr
      · exact h.fits r hr
      · obtain rfl := List.mem_singleton.mp hr
        exact hsafe.1
    · rw [List.length_append]
      exact hsafe.2
  | beginFlush =>
    obtain ⟨lsm, files, log, work⟩ := s
    cases work with
    | idle =>
      cases hstep
      exact ⟨h.sound, h.fits, h.length, h.work⟩
    | _ => cases hstep
  | beginCompact =>
    obtain ⟨lsm, files, log, work⟩ := s
    cases work with
    | idle =>
      have hperm := lsm.mergedRecords_perm
      have hsorted : lsm.mergedRecords.Pairwise (· ≤ ·) := by
        refine Lsm.mergedRecords_sorted fun u hu => ?_
        obtain ⟨file, -, hkeeps⟩ := h.work.linked u hu
        exact hkeeps.2
      obtain ⟨effects, hbuild, hprogress⟩ := h.plan (t := lsm.compactTable Served.copyRows) hsmall
        (fun r hr => (h.sound.tables r).mp (hperm.mem_iff.mp hr) |>.1) hsorted hsafe h.work
      simp only [TreeFiles.step, hbuild, Option.map_some] at hstep
      cases hstep
      exact ⟨h.sound, h.fits, h.length, fun r => hperm.mem_iff, rfl, hprogress⟩
    | _ => cases hstep
  | advance => exact h.advance hsmall hsafe hstep
  | restart =>
    obtain ⟨l, hinit, rfl⟩ := Option.map_eq_some_iff.mp hstep
    have hne : ∀ f ∈ s.files.files, f.2 ≠ [] := by
      obtain ⟨tables, htables, -⟩ := Option.map_eq_some_iff.mp hinit
      intro f hf hempty
      refine create_of_openTables htables f (Dir.mem_listing.mpr hf) ?_
      rw [hempty]
      exact create_nil capacity
    obtain ⟨l', hinit', hsound, hbacked⟩ := (h.recovers hne).restart h.sound.numbers o
    obtain rfl := Option.some.inj (hinit.symm.trans hinit')
    exact ⟨hsound, h.fits, h.length, hbacked⟩

end Steps

/-- After any puts, flushes, compactions and crashes, in the middle of whatever is under way: if no file is empty,
`Init` succeeds, and with the whole log the records are those that have been put. -/
theorem crash_atomic (crc : Bytes → BitVec 32) (o : Options) (pageSize capacity : ℕ) (acts : List (Action Bytes))
    (s : TreeFiles) (hsmall : pageSize < 2 ^ 31)
    (hg : Machine.Guarded (step crc o pageSize capacity) (Safe pageSize) start acts)
    (hr : Machine.run (step crc o pageSize capacity) start acts = some s) (hheader : ∀ f ∈ s.files.files, f.2 ≠ []) :
    (∀ r, r ∈ s.lsm.records ↔ r ∈ s.log) ∧ ∃ l, Disk.init crc capacity s.files = some l ∧
      ∀ r, r ∈ (l.replay o s.log).records ↔ r ∈ s.log := by
  have hinv : Inv crc pageSize capacity s := Machine.run_inv (P := fun _ s => Inv crc pageSize capacity s)
    (.init crc pageSize capacity) (fun _ _ _ _ h hsafe hstep => h.step hsmall hsafe hstep) hg hr
  obtain ⟨l, hinit, hsound, -⟩ := (hinv.recovers hheader).restart hinv.sound.numbers o
  exact ⟨fun r => hinv.sound.mem_records, l, hinit, fun r => hsound.mem_records⟩

/-- Two tables are compacted into a third one, and the crash comes after the first of them is removed. -/
theorem crash_atomic_removing :
    ∃ s l, Machine.run (step (fun _ => 0) ⟨0⟩ 64 1) start ([Action.put [1] [7], .put [2] [], .beginFlush] ++
        List.replicate 13 Action.advance ++ Action.beginCompact :: List.replicate 7 .advance) = some s ∧
      s.files.names = [sstName 2, sstName 1] ∧ Disk.init (fun _ => 0) 1 s.files = some l ∧
      ⟨[1], 1, [7]⟩ ∈ (l.replay ⟨0⟩ s.log).records := by
  have hrun : ∃ s, Machine.run (step (fun _ => 0) ⟨0⟩ 64 1) start ([Action.put [1] [7], .put [2] [], .beginFlush] ++
        List.replicate 13 Action.advance ++ Action.beginCompact :: List.replicate 7 .advance) = some s ∧
      (∀ f ∈ s.files.files, f.2 ≠ []) ∧ s.files.names = [sstName 2, sstName 1] ∧ ⟨[1], 1, [7]⟩ ∈ s.log :=
    Machine.exists_run (by decide +kernel)
  obtain ⟨s, hr, hheader, hnames, hlog⟩ := hrun
  obtain ⟨-, l, hinit, hrecords⟩ := crash_atomic (fun _ => 0) ⟨0⟩ 64 1 _ s (by decide) (by decide +kernel) hr hheader
  exact ⟨s, l, hr, hnames, hinit, (hrecords _).mpr hlog⟩

/-- A crash between the creation of a file and the first write: the record is in the log, but `Init` throws. And a flush
takes the name of the table a compaction has made: the first write leaves a file without its records, whose numbers the
recovery skips. -/
theorem crash_in_flush :
    (∃ s ∈ Machine.run (step (fun _ => 0) ⟨0⟩ 64 1) start [.put [1] [7], .beginFlush, .advance, .advance],
      s.lsm.records = [⟨[1], 1, [7]⟩] ∧ s.files.files = [(sstName 0, [])] ∧
        Disk.init (fun _ => 0) 1 s.files = none) ∧
    ∃ s ∈ Machine.run (step (fun _ => 0) ⟨0⟩ 64 1) start ([Action.put [1] [7], .put [2] [], .beginFlush] ++
        List.replicate 13 Action.advance ++ Action.beginCompact :: List.replicate 9 .advance ++
        [Action.put [3] [], .put [4] [], .beginFlush] ++ List.replicate 9 Action.advance),
      ⟨[1], 1, [7]⟩ ∈ s.lsm.records ∧ ∃ l ∈ Disk.init (fun _ => 0) 1 s.files,
        ⟨[1], 1, [7]⟩ ∉ (l.replay ⟨0⟩ s.log).records := by
  decide +kernel

end TreeFiles

end StructureDb
