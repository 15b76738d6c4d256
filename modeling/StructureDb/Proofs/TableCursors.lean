import Mathlib.Data.List.TakeWhile
import StructureDb.Proofs.Contents
import StructureDb.Spec.OpenIterators

/-! Iterators over one table of a tree in memory. `Rest` says what such an iterator has still to
deliver; a call of `Next` delivers the first of it, and it stays as it is while its table does. -/

namespace StructureDb

theorem getElem?_mono {α : Type*} {l l' : List α} (h : l <+: l') {i : ℕ} {a : α} (ha : l[i]? = some a) :
    l'[i]? = some a := by
  obtain ⟨tail, rfl⟩ := h
  rw [List.getElem?_append_left (List.getElem?_eq_some_iff.mp ha).1]
  exact ha

variable {V : Type}

namespace OpenScan

def reaches (range : ScanRange) (r : Record V) : Bool := range.upperBound.all fun hi => decide (r.key ≤ hi)

def above (range : ScanRange) (records : List (Record V)) : List (Record V) :=
  match range.lowerBound with
  | some lo => records.dropWhile fun r => r.key < lo
  | none => records

theorem scanRecords_eq_takeWhile (range : ScanRange) (records : List (Record V)) :
    scanRecords range records = (above range records).takeWhile (reaches range) := by
  unfold scanRecords above reaches
  cases range.upperBound with
  | none => exact (List.takeWhile_eq_self_iff.mpr fun _ _ => rfl).symm
  | some hi => rfl

theorem above_suffix (range : ScanRange) (records : List (Record V)) : above range records <:+ records := by
  unfold above
  split
  · exact List.dropWhile_suffix _
  · exact List.suffix_rfl

theorem isEmpty_takeWhile_cons (p : Record V → Bool) (r : Record V) (l : List (Record V)) :
    ((r :: l).takeWhile p).isEmpty = !p r := by
  rw [List.takeWhile_cons]
  cases p r <;> rfl

end OpenScan

variable [LinearOrder V]

/-- In a strictly sorted list the elements from a member on. -/
theorem dropWhile_lt {l a b : List (Record V)} {r : Record V} (hl : l.Pairwise (· < ·)) (h : l = a ++ r :: b) :
    (l.dropWhile fun s => s < r) = r :: b ∧ (l.dropWhile fun s => s ≤ r) = b := by
  subst h
  obtain ⟨-, htail, hlt⟩ := List.pairwise_append.mp hl
  have hbefore : ∀ s ∈ a, s < r := fun s hs => hlt s hs r List.mem_cons_self
  have hafter : ∀ s ∈ b, r < s := (List.pairwise_cons.mp htail).1
  refine ⟨?_, ?_⟩
  · rw [List.dropWhile_append_of_pos fun s hs => decide_eq_true (hbefore s hs)]
    exact List.dropWhile_cons_of_neg (by simp)
  · rw [List.dropWhile_append_of_pos fun s hs => decide_eq_true (hbefore s hs).le,
      List.dropWhile_cons_of_pos (by simp)]
    cases b with
    | nil => rfl
    | cons s b => exact List.dropWhile_cons_of_neg (by simpa using hafter s List.mem_cons_self)

/-- Where a new element comes into a sorted list. -/
theorem orderedInsert_before {x r : Record V} (a b : List (Record V)) (hx : x ≤ r) :
    (a ++ r :: b).orderedInsert (· ≤ ·) x = a.orderedInsert (· ≤ ·) x ++ r :: b := by
  induction a with
  | nil => simp [hx]
  | cons c a ih =>
    simp only [List.cons_append, List.orderedInsert_cons]
    split_ifs
    · rfl
    · rw [ih, List.cons_append]

theorem orderedInsert_behind {x r : Record V} {a b : List (Record V)} (h : (a ++ r :: b).Pairwise (· ≤ ·))
    (hx : r < x) :
    (a ++ r :: b).orderedInsert (· ≤ ·) x = a ++ r :: b.orderedInsert (· ≤ ·) x := by
  induction a with
  | nil => simp [not_le.mpr hx]
  | cons c a ih =>
    obtain ⟨hc, h⟩ := List.pairwise_cons.mp h
    have hle : c ≤ r := hc r (by simp)
    rw [List.cons_append, List.orderedInsert_cons, if_neg (not_le.mpr (hle.trans_lt hx)), ih h, List.cons_append]

namespace OpenScan

/-- A key below one the range reaches is reached. -/
theorem reaches_of_le {range : ScanRange} {r s : Record V} (hle : r ≤ s) (hs : reaches range s = true) :
    reaches range r = true := by
  unfold reaches at hs ⊢
  cases hu : range.upperBound with
  | none => rfl
  | some hi =>
    simp only [hu, Option.all_some, decide_eq_true_eq] at hs ⊢
    exact (Record.key_le_of_le hle).trans hs

theorem takeWhile_reaches {range : ScanRange} {l : List (Record V)} (h : l.Pairwise (· ≤ ·)) :
    l.takeWhile (reaches range) = l.filter (reaches range) :=
  KMerge.takeWhile_eq_filter (h.imp fun hle hs => reaches_of_le hle hs)

variable {m m' : Memory V} {ahead rest : List (Record V)}

section MemTables

theorem memTable_eq_some {ref : MemTableRef} {t : MemTable V} (h : m.memTable ref = some t) :
    m.contents (m.numberOf ref) = some t ∧ m.holder (m.numberOf ref) = ref := by
  cases ref with
  | active =>
    rw [Memory.memTable, Option.some.injEq] at h
    simp [Memory.contents, Memory.holder, Memory.numberOf, h]
  | frozen no =>
    have hno : no ≠ m.activeNo := by
      rw [Memory.memTable, Memory.roMemTable] at h
      split_ifs at h
      obtain ⟨hlt, -⟩ := List.getElem?_eq_some_iff.mp h
      rw [Memory.activeNo]
      omega
    rw [Memory.numberOf, Memory.contents, Memory.holder, if_neg hno, if_neg hno]
    exact ⟨h, rfl⟩

namespace MemTableIterator

/-- The iterator stands before the records `ahead` of its table. -/
def At (m : Memory V) (it : MemTableIterator V) (ahead : List (Record V)) : Prop :=
  ∃ t, m.memTable it.memTable = some t ∧ t.impl.Pairwise (· < ·) ∧ ahead <:+ t.impl ∧
    it.it = position (m.numberOf it.memTable) it.memTable ahead

variable {it : MemTableIterator V}

theorem At.hasMore (h : At m it ahead) : it.hasMore m = some (!(ahead.takeWhile (reaches it.range)).isEmpty) := by
  obtain ⟨t, ht, -, -, hit⟩ := h
  obtain ⟨hcontents, -⟩ := memTable_eq_some ht
  rw [MemTableIterator.hasMore, ht, hit]
  cases ahead with
  | nil => simp [position]
  | cons r ahead =>
    rw [isEmpty_takeWhile_cons, Bool.not_not]
    simp only [position, Option.bind_some, reduceCtorEq, if_false, reaches]
    cases hu : it.range.upperBound with
    | none => rfl
    | some hi =>
      simp only [hcontents, Option.map_some]
      rfl

theorem At.next {r : Record V} (h : At m it (r :: ahead)) :
    ∃ it', it.next m = some (r, it') ∧ it'.memTable = it.memTable ∧ it'.range = it.range ∧ At m it' ahead := by
  obtain ⟨t, ht, hlt, ⟨before, hsplit⟩, hit⟩ := h
  obtain ⟨hcontents, hholder⟩ := memTable_eq_some ht
  obtain ⟨-, hdrop⟩ := dropWhile_lt hlt hsplit.symm
  refine ⟨{ it with it := position (m.numberOf it.memTable) it.memTable ahead }, ?_, rfl, rfl, t, ht, hlt, ?_, rfl⟩
  · simp only [MemTableIterator.next, hit, position, hcontents, Option.map_some, hholder, hdrop]
  · exact ⟨before ++ [r], by rw [List.append_assoc]; exact hsplit⟩

theorem At.create {ref : MemTableRef} {t : MemTable V} (ht : m.memTable ref = some t) (hlt : t.impl.Pairwise (· < ·))
    (range : ScanRange) : ∃ it, create m ref range = some it ∧ it.memTable = ref ∧ it.range = range ∧
      At m it (above range t.impl) :=
  ⟨_, by rw [MemTableIterator.create, ht]; rfl, rfl, rfl, t, ht, hlt, above_suffix range t.impl, rfl⟩

theorem At.survives (h : At m it ahead) (hm : ∀ t, m.memTable it.memTable = some t →
    m'.memTable it.memTable = some t ∧ m'.numberOf it.memTable = m.numberOf it.memTable) : At m' it ahead := by
  obtain ⟨t, ht, hlt, hsuffix, hit⟩ := h
  obtain ⟨ht', hno⟩ := hm t ht
  exact ⟨t, ht', hlt, hsuffix, by rw [hno]; exact hit⟩

/-- A record comes into the table: the iterator meets it if it stands before a smaller one. -/
theorem At.put {x : Record V} {t t' : MemTable V} (h : At m it ahead) (ht : m.memTable it.memTable = some t)
    (ht' : m'.memTable it.memTable = some t') (himpl : t'.impl = t.impl.orderedInsert (· ≤ ·) x)
    (hno : m'.numberOf it.memTable = m.numberOf it.memTable) (hlt' : t'.impl.Pairwise (· < ·)) :
    At m' it ahead ∨ ∃ r b, ahead = r :: b ∧ r < x ∧ At m' it (r :: b.orderedInsert (· ≤ ·) x) := by
  obtain ⟨t₀, ht₀, -, ⟨before, hsplit⟩, hit⟩ := h
  obtain rfl : t₀ = t := Option.some.inj (ht₀.symm.trans ht)
  rw [← hno] at hit
  cases ahead with
  | nil => exact Or.inl ⟨t', ht', hlt', List.nil_suffix, hit⟩
  | cons r b =>
    rcases le_or_gt x r with hx | hx
    · rw [← hsplit, orderedInsert_before before b hx] at himpl
      exact Or.inl ⟨t', ht', hlt', ⟨_, himpl.symm⟩, hit⟩
    · rw [← hsplit, orderedInsert_behind (hsplit ▸ t₀.sorted) hx] at himpl
      exact Or.inr ⟨r, b, rfl, hx, t', ht', hlt', ⟨_, himpl.symm⟩, hit⟩

end MemTableIterator

end MemTables

namespace SSTableIterator

/-- The iterator stands before the records `ahead` of its table, of which it has read the first. -/
def At (m : Memory V) (it : SSTableIterator V) (ahead : List (Record V)) : Prop :=
  ∃ t, m.ssTable it.storage it.idx = some t ∧ t.records.Pairwise (· ≤ ·) ∧ ahead <:+ t.records ∧
    it.next = ahead.head? ∧ t.records.drop it.pos = ahead.tail

variable {it : SSTableIterator V}

theorem At.hasMore (h : At m it ahead) : it.hasMore = !(ahead.takeWhile (reaches it.range)).isEmpty := by
  obtain ⟨t, -, -, -, hnext, -⟩ := h
  rw [SSTableIterator.hasMore, hnext]
  cases ahead with
  | nil => rfl
  | cons r ahead =>
    rw [isEmpty_takeWhile_cons, Bool.not_not]
    rfl

/-- After `NextImpl` the iterator stands where it was to read. -/
theorem At.advance {t : SSTable V} (ht : m.ssTable it.storage it.idx = some t) (hsorted : t.records.Pairwise (· ≤ ·))
    (hsuffix : ahead <:+ t.records) (hdrop : t.records.drop it.pos = ahead) :
    ∃ it', it.advance m = some it' ∧ it'.range = it.range ∧ At m it' ahead := by
  cases ahead with
  | nil =>
    have hnone : t.records[it.pos]? = none := List.getElem?_eq_none (List.drop_eq_nil_iff.mp hdrop)
    refine ⟨{ it with next := none }, ?_, rfl, t, ht, hsorted, hsuffix, rfl, hdrop⟩
    simp only [SSTableIterator.advance, ht, Option.map_some, hnone]
  | cons r ahead =>
    have hsome : t.records[it.pos]? = some r := by rw [← List.head?_drop, hdrop]; rfl
    refine ⟨{ it with pos := it.pos + 1, next := some r }, ?_, rfl, t, ht, hsorted, hsuffix, rfl, ?_⟩
    · simp only [SSTableIterator.advance, ht, Option.map_some, hsome]
    · rw [← List.tail_drop, hdrop]

theorem At.next {r : Record V} (h : At m it (r :: ahead)) :
    ∃ it', it.getNext m = some (r, it') ∧ it'.range = it.range ∧ At m it' ahead := by
  obtain ⟨t, ht, hsorted, hsuffix, hnext, hdrop⟩ := h
  obtain ⟨it', hadvance, hrange, hat⟩ := At.advance ht hsorted ((List.suffix_cons r ahead).trans hsuffix) hdrop
  refine ⟨it', ?_, hrange, hat⟩
  rw [SSTableIterator.getNext, hnext]
  simp only [List.head?_cons, hadvance, Option.map_some]

theorem At.create {idx : ℕ} {t : SSTable V} (ht : m.lsm.ssTables[idx]? = some t) (hsorted : t.records.Pairwise (· ≤ ·))
    (range : ScanRange) : ∃ it, create m idx range = some it ∧ it.range = range ∧ At m it (above range t.records) := by
  have hpos : t.records.drop (match range.lowerBound with
      | some lo => (t.records.takeWhile fun r => r.key < lo).length
      | none => 0) = above range t.records := by
    unfold above
    cases range.lowerBound with
    | none => rfl
    | some lo =>
      have hsplit := List.takeWhile_append_dropWhile (p := fun r => decide (r.key < lo)) (l := t.records)
      exact (congrArg (List.drop _) hsplit.symm).trans List.drop_left
  rw [SSTableIterator.create, ht, Option.bind_some]
  refine At.advance ?_ hsorted (above_suffix range t.records) hpos
  rw [Memory.ssTable, if_pos rfl]
  exact ht

theorem At.survives (h : At m it ahead)
    (hm : ∀ t, m.ssTable it.storage it.idx = some t → m'.ssTable it.storage it.idx = some t) : At m' it ahead := by
  obtain ⟨t, ht, hrest⟩ := h
  exact ⟨t, hm t ht, hrest⟩

end SSTableIterator

inductive Source
  | active
  | frozen
  | stored
deriving DecidableEq

namespace TableIterator

def source : TableIterator V → Source
  | .memTable it =>
    match it.memTable with
    | .active => .active
    | .frozen _ => .frozen
  | .ssTable _ => .stored

def range : TableIterator V → ScanRange
  | .memTable it => it.range
  | .ssTable it => it.range

def At (m : Memory V) : TableIterator V → List (Record V) → Prop
  | .memTable it => it.At m
  | .ssTable it => it.At m

def Rest (m : Memory V) (c : TableIterator V) (rest : List (Record V)) : Prop :=
  ∃ ahead, c.At m ahead ∧ rest = ahead.takeWhile (reaches c.range)

def Refers (m : Memory V) : TableIterator V → Prop
  | .memTable it => ∃ t, m.memTable it.memTable = some t
  | .ssTable it => ∃ t, m.ssTable it.storage it.idx = some t

def Survives (m m' : Memory V) : TableIterator V → Prop
  | .memTable it => ∀ t, m.memTable it.memTable = some t →
    m'.memTable it.memTable = some t ∧ m'.numberOf it.memTable = m.numberOf it.memTable
  | .ssTable it => ∀ t, m.ssTable it.storage it.idx = some t → m'.ssTable it.storage it.idx = some t

variable {c : TableIterator V}

theorem At.sorted (h : c.At m ahead) : ahead.Pairwise (· ≤ ·) := by
  cases c with
  | memTable it =>
    obtain ⟨t, -, -, hsuffix, -⟩ := h
    exact t.sorted.sublist hsuffix.sublist
  | ssTable it =>
    obtain ⟨t, -, hsorted, hsuffix, -⟩ := h
    exact hsorted.sublist hsuffix.sublist

theorem Rest.sorted (h : c.Rest m rest) : rest.Pairwise (· ≤ ·) := by
  obtain ⟨ahead, hat, rfl⟩ := h
  exact hat.sorted.sublist (List.takeWhile_sublist _)

theorem Rest.refers (h : c.Rest m rest) : c.Refers m := by
  obtain ⟨ahead, hat, -⟩ := h
  cases c with
  | memTable it =>
    obtain ⟨t, ht, -⟩ := hat
    exact ⟨t, ht⟩
  | ssTable it =>
    obtain ⟨t, ht, -⟩ := hat
    exact ⟨t, ht⟩

theorem Rest.hasMore (h : c.Rest m rest) : c.hasMore m = some (!rest.isEmpty) := by
  obtain ⟨ahead, hat, rfl⟩ := h
  cases c with
  | memTable it => exact MemTableIterator.At.hasMore hat
  | ssTable it => exact congrArg some (SSTableIterator.At.hasMore hat)

theorem Rest.next {r : Record V} (h : c.Rest m (r :: rest)) :
    ∃ c', c.next m = some (r, c') ∧ c'.source = c.source ∧ c'.range = c.range ∧ c'.Rest m rest := by
  obtain ⟨ahead, hat, hrest⟩ := h
  cases ahead with
  | nil => cases hrest
  | cons s ahead =>
    rw [List.takeWhile_cons] at hrest
    split_ifs at hrest
    obtain ⟨rfl, htail⟩ := List.cons_eq_cons.mp hrest
    cases c with
    | memTable it =>
      obtain ⟨it', hnext, htable, hrange, hat'⟩ := MemTableIterator.At.next hat
      have hrange' : (TableIterator.memTable it').range = (TableIterator.memTable it).range := hrange
      refine ⟨.memTable it', ?_, ?_, hrange', ahead, hat', by rw [hrange', htail]⟩
      · rw [TableIterator.next, hnext]
        rfl
      · simp only [source, htable]
    | ssTable it =>
      obtain ⟨it', hnext, hrange, hat'⟩ := SSTableIterator.At.next hat
      have hrange' : (TableIterator.ssTable it').range = (TableIterator.ssTable it).range := hrange
      refine ⟨.ssTable it', ?_, rfl, hrange', ahead, hat', by rw [hrange', htail]⟩
      rw [TableIterator.next, hnext]
      rfl

theorem Rest.survives (h : c.Rest m rest) (hs : c.Survives m m') : c.Rest m' rest := by
  obtain ⟨ahead, hat, hrest⟩ := h
  refine ⟨ahead, ?_, hrest⟩
  cases c with
  | memTable it => exact MemTableIterator.At.survives hat hs
  | ssTable it => exact SSTableIterator.At.survives hat hs

/-- What an iterator relies on, by where its table is. -/
theorem survives_of (hactive : c.source = .active → m'.lsm.memTable = m.lsm.memTable ∧ m'.activeNo = m.activeNo)
    (hfrozen : c.source = .frozen → m'.popped = m.popped ∧ m.lsm.roMemTables <+: m'.lsm.roMemTables)
    (hstored : c.source = .stored → m'.storage = m.storage ∧ m.lsm.ssTables <+: m'.lsm.ssTables) :
    c.Survives m m' := by
  cases c with
  | memTable it =>
    intro t ht
    cases href : it.memTable with
    | active =>
      obtain ⟨hmem, hno⟩ := hactive (by simp only [source, href])
      rw [href] at ht
      exact ⟨(congrArg some hmem).trans ht, hno⟩
    | frozen no =>
      obtain ⟨hpopped, hro⟩ := hfrozen (by simp only [source, href])
      rw [href, Memory.memTable, Memory.roMemTable] at ht
      rw [Memory.memTable, Memory.roMemTable, hpopped]
      split_ifs at ht ⊢
      exact ⟨getElem?_mono hro ht, rfl⟩
  | ssTable it =>
    intro t ht
    obtain ⟨hstorage, hss⟩ := hstored rfl
    rw [Memory.ssTable] at ht ⊢
    rw [hstorage]
    split_ifs at ht ⊢
    exact getElem?_mono hss ht

structure PutInto (x : Record V) (m m' : Memory V) : Prop where
  memTable : m'.lsm.memTable = m.lsm.memTable.put x
  roMemTables : m'.lsm.roMemTables = m.lsm.roMemTables
  ssTables : m'.lsm.ssTables = m.lsm.ssTables
  popped : m'.popped = m.popped
  storage : m'.storage = m.storage
  strict : m'.lsm.memTable.impl.Pairwise (· < ·)

theorem PutInto.survives {x : Record V} (h : PutInto x m m') (hc : c.source ≠ .active) : c.Survives m m' :=
  survives_of (fun hactive => absurd hactive hc) (fun _ => ⟨h.popped, by rw [h.roMemTables]⟩)
    fun _ => ⟨h.storage, by rw [h.ssTables]⟩

theorem Rest.put {x : Record V} (h : c.Rest m rest) (hput : PutInto x m m') :
    c.Rest m' rest ∨
      c.source = .active ∧ ∃ rest' r, c.Rest m' rest' ∧ rest'.Perm (x :: rest) ∧ r ∈ rest ∧ r < x := by
  by_cases hc : c.source = .active
  · obtain ⟨ahead, hat, hrest⟩ := h
    obtain ⟨it, rfl, href⟩ : ∃ it, c = .memTable it ∧ it.memTable = .active := by
      cases c with
      | ssTable it => cases hc
      | memTable it =>
        refine ⟨it, rfl, ?_⟩
        cases href : it.memTable with
        | active => rfl
        | frozen no => simp [source, href] at hc
    have hno : m'.numberOf it.memTable = m.numberOf it.memTable := by
      rw [href, Memory.numberOf, Memory.numberOf, Memory.activeNo, Memory.activeNo, hput.popped, hput.roMemTables]
    have ht : m.memTable it.memTable = some m.lsm.memTable := by rw [href, Memory.memTable]
    have ht' : m'.memTable it.memTable = some m'.lsm.memTable := by rw [href, Memory.memTable]
    have himpl : m'.lsm.memTable.impl = m.lsm.memTable.impl.orderedInsert (· ≤ ·) x := by rw [hput.memTable]; rfl
    rcases MemTableIterator.At.put hat ht ht' himpl hno hput.strict with hat' | ⟨r, b, rfl, hr, hat'⟩
    · exact Or.inl ⟨ahead, hat', hrest⟩
    · have hsorted' := At.sorted (c := .memTable it) hat'
      have hperm : (r :: b.orderedInsert (· ≤ ·) x).Perm (x :: r :: b) :=
        ((List.perm_orderedInsert (· ≤ ·) x b).cons r).trans (List.Perm.swap ..)
      have hfilter := hperm.filter (reaches (TableIterator.memTable it).range)
      rw [takeWhile_reaches (At.sorted (c := .memTable it) hat)] at hrest
      by_cases hx : reaches (TableIterator.memTable it).range x = true
      · -- the record is in the range, and so is the one before it
        rw [List.filter_cons_of_pos hx] at hfilter
        refine Or.inr ⟨hc, _, r, ⟨_, hat', rfl⟩, ?_, ?_, hr⟩
        · rw [takeWhile_reaches hsorted', hrest]
          exact hfilter
        · rw [hrest]
          exact List.mem_filter.mpr ⟨List.mem_cons_self, reaches_of_le hr.le hx⟩
      · rw [List.filter_cons_of_neg hx, ← hrest] at hfilter
        refine Or.inl ⟨_, hat', ?_⟩
        rw [takeWhile_reaches hsorted']
        refine (hfilter.eq_of_pairwise (fun _ _ _ _ => le_antisymm) (hsorted'.sublist List.filter_sublist) ?_).symm
        rw [hrest]
        exact (At.sorted (c := .memTable it) hat).sublist List.filter_sublist
  · exact Or.inl (h.survives (hput.survives hc))

theorem Rest.memTable {ref : MemTableRef} {t : MemTable V} (ht : m.memTable ref = some t)
    (hlt : t.impl.Pairwise (· < ·)) (range : ScanRange) :
    ∃ it, MemTableIterator.create m ref range = some it ∧ it.memTable = ref ∧ it.range = range ∧
      (TableIterator.memTable it).Rest m (scanRecords range t.impl) := by
  obtain ⟨it, hcreate, htable, hrange, hat⟩ := MemTableIterator.At.create ht hlt range
  refine ⟨it, hcreate, htable, hrange, _, hat, ?_⟩
  rw [scanRecords_eq_takeWhile]
  exact congrArg (fun range' => (above range t.impl).takeWhile (reaches range')) hrange.symm

theorem Rest.ssTable {idx : ℕ} {t : SSTable V} (ht : m.lsm.ssTables[idx]? = some t)
    (hsorted : t.records.Pairwise (· ≤ ·)) (range : ScanRange) :
    ∃ it, SSTableIterator.create m idx range = some it ∧ it.range = range ∧
      (TableIterator.ssTable it).Rest m (scanRecords range t.records) := by
  obtain ⟨it, hcreate, hrange, hat⟩ := SSTableIterator.At.create ht hsorted range
  refine ⟨it, hcreate, hrange, _, hat, ?_⟩
  rw [scanRecords_eq_takeWhile]
  exact congrArg (fun range' => (above range t.records).takeWhile (reaches range')) hrange.symm

end TableIterator

end OpenScan

end StructureDb
