import StructureDb.Proofs.Readable
import StructureDb.Proofs.TableCursors

/-! The two iterators of a tree. `Rest` says what such an iterator has still to deliver: a call of `Next`
delivers the first of it, a put into the mem table in use may add to it, and it stays as it is as long
as the tables the iterator stands on, and those it has still to come to, stay where they are. -/

namespace StructureDb

variable {V : Type} [LinearOrder V]

namespace OpenScan

variable {m m' : Memory V} {rest : List (Record V)}

section Keys

namespace LsmKeyIterator

variable {it : LsmKeyIterator V}

structure InRange (m : Memory V) (it : LsmKeyIterator V) : Prop where
  roMemTables : -1 ≤ it.roMemTableIdx ∧ it.roMemTableIdx < m.lsm.roMemTables.length
  ssTables : -1 ≤ it.ssTableIdx ∧ it.ssTableIdx < m.lsm.ssTables.length

def later (m : Memory V) (it : LsmKeyIterator V) : List (Record V) :=
  ((m.lsm.roMemTables.take (it.roMemTableIdx + 1).toNat).reverse.flatMap fun t => scanRecords it.range t.impl) ++
    (m.lsm.ssTables.take (it.ssTableIdx + 1).toNat).reverse.flatMap fun t => scanRecords it.range t.records

def Rest (m : Memory V) (it : LsmKeyIterator V) (rest : List (Record V)) : Prop :=
  it.InRange m ∧
    match it.currentIterator with
    | none => rest = []
    | some c => ∃ current, c.Rest m current ∧ current ≠ [] ∧ rest = current ++ it.later m

/-- The last of the tables that are left comes first. -/
theorem take_succ_reverse {α β : Type} {l : List α} {i : ℤ} {a : α} (hi : 0 ≤ i) (ha : l[i.toNat]? = some a)
    (f : α → List β) :
    (l.take (i + 1).toNat).reverse.flatMap f = f a ++ (l.take (i - 1 + 1).toNat).reverse.flatMap f := by
  have hnext : (i + 1).toNat = i.toNat + 1 := by omega
  have hprev : (i - 1 + 1).toNat = i.toNat := by omega
  rw [hnext, hprev, List.take_add_one, ha, Option.toList_some, List.reverse_append, List.flatMap_append]
  simp

/-- `Advance` goes on to the first table that has something. -/
theorem advance_rest (hm : m.lsm.Readable) (it : LsmKeyIterator V) {n : ℕ} {c : TableIterator V}
    {current : List (Record V)} (hc : it.currentIterator = some c) (hrest : c.Rest m current) (hin : it.InRange m)
    (hn : it.turns ≤ n) :
    ∃ it', advance m n it = some it' ∧ it'.Rest m (current ++ it.later m) := by
  induction n generalizing it c current with
  | zero =>
    unfold turns at hn
    omega
  | succ n ih =>
    have ⟨⟨hro, hro'⟩, hss, hss'⟩ := hin
    rw [advance, hc]
    dsimp only
    rw [hrest.hasMore, Option.bind_some]
    cases current with
    | cons r current =>
      refine ⟨it, rfl, hin, ?_⟩
      rw [hc]
      exact ⟨_, hrest, List.cons_ne_nil _ _, rfl⟩
    | nil =>
      simp only [List.isEmpty_nil, Bool.not_true, Bool.false_eq_true, if_false, getNextIterator]
      unfold turns at hn
      split_ifs with hi hj
      · -- the next frozen mem table
        obtain ⟨t, ht⟩ : ∃ t, m.lsm.roMemTables[it.roMemTableIdx.toNat]? = some t :=
          ⟨_, List.getElem?_eq_getElem (by omega)⟩
        have href : m.memTable (.frozen (m.popped + it.roMemTableIdx.toNat)) = some t := by
          rw [Memory.memTable, Memory.roMemTable, if_neg (by omega), Nat.add_sub_cancel_left]
          exact ht
        obtain ⟨c', hcreate, -, -, hrest'⟩ :=
          TableIterator.Rest.memTable href (hm.frozen t (List.mem_of_getElem? ht)) it.range
        rw [hcreate, Option.map_some, Option.bind_some]
        obtain ⟨it', hadvance, hit'⟩ := ih { it with
          roMemTableIdx := it.roMemTableIdx - 1, currentIterator := some (.memTable c') } rfl hrest'
          ⟨⟨by dsimp only; omega, by dsimp only; omega⟩, hss, hss'⟩ (by simp only [turns]; omega)
        refine ⟨it', hadvance, ?_⟩
        rw [List.nil_append, later, take_succ_reverse hi ht, List.append_assoc]
        exact hit'
      · -- the next table
        obtain ⟨t, ht⟩ : ∃ t, m.lsm.ssTables[it.ssTableIdx.toNat]? = some t :=
          ⟨_, List.getElem?_eq_getElem (by omega)⟩
        obtain ⟨c', hcreate, -, hrest'⟩ :=
          TableIterator.Rest.ssTable ht (hm.tables t (List.mem_of_getElem? ht)) it.range
        rw [hcreate, Option.map_some, Option.bind_some]
        obtain ⟨it', hadvance, hit'⟩ := ih { it with
          ssTableIdx := it.ssTableIdx - 1, currentIterator := some (.ssTable c') } rfl hrest'
          ⟨⟨hro, hro'⟩, by dsimp only; omega, by dsimp only; omega⟩ (by simp only [turns]; omega)
        refine ⟨it', hadvance, ?_⟩
        have hnone : (it.roMemTableIdx + 1).toNat = 0 := by omega
        rw [later] at hit' ⊢
        rw [hnone] at hit' ⊢
        rw [take_succ_reverse hj ht]
        exact hit'
      · -- none is left
        obtain ⟨k, rfl⟩ : ∃ k, n = k + 1 := ⟨n - 1, by omega⟩
        refine ⟨{ it with currentIterator := none }, rfl, ⟨hin.roMemTables, hin.ssTables⟩, ?_⟩
        have hro0 : (it.roMemTableIdx + 1).toNat = 0 := by omega
        have hss0 : (it.ssTableIdx + 1).toNat = 0 := by omega
        simp [later, hro0, hss0]

theorem Rest.hasMore (h : it.Rest m rest) : it.hasMore m = some (!rest.isEmpty) := by
  obtain ⟨-, h⟩ := h
  rw [LsmKeyIterator.hasMore]
  cases hc : it.currentIterator with
  | none =>
    rw [hc] at h
    rw [h]
    rfl
  | some c =>
    rw [hc] at h
    obtain ⟨current, hrest, hne, rfl⟩ := h
    dsimp only
    rw [hrest.hasMore]
    cases current with
    | nil => exact absurd rfl hne
    | cons r current => rfl

theorem Rest.next (hm : m.lsm.Readable) {r : Record V} (h : it.Rest m (r :: rest)) :
    ∃ it', it.next m = some (r, it') ∧ it'.Rest m rest := by
  obtain ⟨hin, h⟩ := h
  cases hc : it.currentIterator with
  | none =>
    rw [hc] at h
    cases h
  | some c =>
    rw [hc] at h
    obtain ⟨current, hrest, hne, hcurrent⟩ := h
    cases current with
    | nil => exact absurd rfl hne
    | cons s current =>
      obtain ⟨rfl, hlater⟩ := List.cons_eq_cons.mp hcurrent
      obtain ⟨c', hnext, -, -, hrest'⟩ := hrest.next
      obtain ⟨it', hadvance, hit'⟩ := advance_rest hm { it with currentIterator := some c' } rfl hrest'
        ⟨hin.roMemTables, hin.ssTables⟩ le_rfl
      refine ⟨it', ?_, ?_⟩
      · simp only [LsmKeyIterator.next, hc, hnext, Option.bind_some, hadvance, Option.map_some]
      · rw [hlater]
        exact hit'

theorem Rest.create (hm : m.lsm.Readable) (key : Bytes) :
    ∃ it, create m key = some it ∧ it.Rest m (m.lsm.scanKey key) := by
  have hactive : m.memTable .active = some m.lsm.memTable := rfl
  obtain ⟨c, hcreate, -, -, hrest⟩ := TableIterator.Rest.memTable hactive hm.active (.only key)
  obtain ⟨it', hadvance, hit'⟩ := advance_rest hm ⟨.only key, (m.lsm.roMemTables.length : ℤ) - 1,
    (m.lsm.ssTables.length : ℤ) - 1, some (.memTable c)⟩ rfl hrest
    ⟨by dsimp only; omega, by dsimp only; omega⟩ le_rfl
  refine ⟨it', ?_, ?_⟩
  · simp only [LsmKeyIterator.create, hcreate, Option.bind_some]
    exact hadvance
  · have hall : m.lsm.scanKey key = scanRecords (.only key) m.lsm.memTable.impl ++
        ((m.lsm.roMemTables.reverse.flatMap fun t => scanRecords (.only key) t.impl) ++
          m.lsm.ssTables.reverse.flatMap fun t => scanRecords (.only key) t.records) := by
      rw [Lsm.scanKey_eq, Lsm.levels, List.map_cons, List.flatten_cons, List.map_append, List.flatten_append,
        List.map_map, List.map_map]
      rfl
    rw [hall]
    simpa [later] using hit'

end LsmKeyIterator

end Keys

section Ranges

def Matches (m : Memory V) : List (Record V × TableIterator V) → KMerge.Heap (Record V) → Prop :=
  List.Forall₂ fun i j => i.1 = j.1 ∧ i.2.Rest m j.2

theorem Matches.add {heap : List (Record V × TableIterator V)} {h : KMerge.Heap (Record V)} {c : TableIterator V}
    (hh : Matches m heap h) (hc : c.Rest m rest) :
    ∃ heap', LsmRangeIterator.add m heap c = some heap' ∧ Matches m heap' (KMerge.add h rest) ∧
      (heap' = heap ∨ ∃ i, i.2.source = c.source ∧ heap' = i :: heap) := by
  rw [LsmRangeIterator.add, hc.hasMore, Option.bind_some]
  cases rest with
  | nil => exact ⟨heap, rfl, hh, Or.inl rfl⟩
  | cons r rest =>
    obtain ⟨c', hnext, hsource, -, hrest⟩ := hc.next
    rw [hnext]
    exact ⟨(r, c') :: heap, rfl, .cons ⟨rfl, hrest⟩ hh, Or.inr ⟨(r, c'), hsource, rfl⟩⟩

theorem Matches.exists_rest {heap : List (Record V × TableIterator V)} {h : KMerge.Heap (Record V)}
    (hh : Matches m heap h) : ∀ i ∈ heap, ∃ rest, i.2.Rest m rest := by
  induction hh with
  | nil => exact fun i hi => absurd hi List.not_mem_nil
  | cons hij _ ih => exact List.forall_mem_cons.mpr ⟨⟨_, hij.2⟩, ih⟩

theorem Matches.survives {heap : List (Record V × TableIterator V)} {h : KMerge.Heap (Record V)}
    (hh : Matches m heap h) (hs : ∀ i ∈ heap, i.2.Survives m m') : Matches m' heap h := by
  induction hh with
  | nil => exact .nil
  | cons hij _ ih =>
    obtain ⟨hi, hs⟩ := List.forall_mem_cons.mp hs
    exact .cons ⟨hij.1, hij.2.survives hi⟩ (ih hs)

def activeCount (heap : List (Record V × TableIterator V)) : ℕ := heap.countP fun i => i.2.source = .active

omit [LinearOrder V] in
theorem activeCount_add {heap heap' : List (Record V × TableIterator V)} {c : TableIterator V}
    (h : heap' = heap ∨ ∃ i : Record V × TableIterator V, i.2.source = c.source ∧ heap' = i :: heap) :
    activeCount heap' ≤ activeCount heap + if c.source = .active then 1 else 0 := by
  rcases h with rfl | ⟨i, hi, rfl⟩
  · exact Nat.le_add_right _ _
  · rw [activeCount, List.countP_cons, hi]
    simp [activeCount]

theorem Matches.addAll {cs : List (TableIterator V)} {rests : List (List (Record V))}
    {heap : List (Record V × TableIterator V)} {h : KMerge.Heap (Record V)} (hh : Matches m heap h)
    (hcs : List.Forall₂ (fun c rest => c.Rest m rest) cs rests) :
    ∃ heap', LsmRangeIterator.addAll m heap cs = some heap' ∧ Matches m heap' (rests.foldl KMerge.add h) ∧
      activeCount heap' ≤ activeCount heap + cs.countP fun c => c.source = .active := by
  induction hcs generalizing heap h with
  | nil => exact ⟨heap, rfl, hh, Nat.le_add_right _ _⟩
  | @cons c rest cs rests hc hcs ih =>
    obtain ⟨heap', hadd, hh', hcases⟩ := hh.add hc
    obtain ⟨heap'', hall, hh'', hcount⟩ := ih hh'
    refine ⟨heap'', by rw [LsmRangeIterator.addAll, hadd]; exact hall, hh'', hcount.trans ?_⟩
    have hone := activeCount_add hcases
    rw [List.countP_cons]
    simp only [decide_eq_true_eq]
    omega

/-- A put into the mem table in use: the one iterator on it may meet the record. -/
theorem Matches.put {heap : List (Record V × TableIterator V)} {h : KMerge.Heap (Record V)} {x : Record V}
    (hh : Matches m heap h) (hput : TableIterator.PutInto x m m') (hg : KMerge.Sorted h)
    (hcount : activeCount heap ≤ 1) :
    Matches m' heap h ∨ ∃ h' r, Matches m' heap h' ∧ KMerge.Sorted h' ∧
      (KMerge.contents h').Perm (x :: KMerge.contents h) ∧ r ∈ KMerge.contents h ∧ r < x := by
  induction hh with
  | nil => exact Or.inl .nil
  | @cons i j heap h hij hh ih =>
    obtain ⟨hj, hg⟩ := List.forall_mem_cons.mp hg
    rw [activeCount, List.countP_cons, ← activeCount] at hcount
    rcases hij.2.put hput with hrest | ⟨hactive, rest', r, hrest, hperm, hr, hlt⟩
    · rcases ih hg (by omega) with hh' | ⟨h', r, hh', hg', hperm, hr, hlt⟩
      · exact Or.inl (.cons ⟨hij.1, hrest⟩ hh')
      · refine Or.inr ⟨j :: h', r, .cons ⟨hij.1, hrest⟩ hh', List.forall_mem_cons.mpr ⟨hj, hg'⟩, ?_, ?_, hlt⟩
        · rw [KMerge.contents_cons, KMerge.contents_cons]
          exact (hperm.append_left _).trans List.perm_middle
        · rw [KMerge.contents_cons]
          exact List.mem_append_right _ hr
    · have hnone : ∀ k ∈ heap, k.2.source ≠ .active := by
        have hzero : heap.countP (fun k => k.2.source = .active) = 0 := by
          simp only [hactive, decide_true, if_true, activeCount] at hcount
          omega
        intro k hk
        simpa using List.countP_eq_zero.mp hzero k hk
      obtain ⟨hle, -⟩ := List.pairwise_cons.mp hj
      refine Or.inr ⟨(j.1, rest') :: h, r, .cons ⟨hij.1, hrest⟩ (Matches.survives hh fun k hk => hput.survives
        (hnone k hk)), List.forall_mem_cons.mpr ⟨List.pairwise_cons.mpr ⟨?_, hrest.sorted⟩, hg⟩, ?_, ?_, hlt⟩
      · intro y hy
        rcases List.mem_cons.mp (hperm.mem_iff.mp hy) with rfl | hy
        · exact (hle r hr).trans hlt.le
        · exact hle y hy
      · rw [KMerge.contents_cons, KMerge.contents_cons]
        exact (((hperm.append_right _).cons j.1).trans (List.Perm.swap ..))
      · rw [KMerge.contents_cons]
        exact List.mem_append_left _ (List.mem_cons_of_mem _ hr)

/-- An iterator is opened for every element of a container. -/
theorem mapM_range {α β : Type} {f : ℕ → Option β} {P : β → α → Prop} {l : List α}
    (h : ∀ i a, l[i]? = some a → ∃ b, f i = some b ∧ P b a) :
    ∃ bs, (List.range l.length).mapM f = some bs ∧ List.Forall₂ P bs l := by
  induction l using List.reverseRecOn with
  | nil => exact ⟨[], rfl, .nil⟩
  | append_singleton l a ih =>
    obtain ⟨bs, hbs, hall⟩ := ih fun i a' ha' => h i a' (getElem?_mono (List.prefix_append l [a]) ha')
    obtain ⟨b, hb, hba⟩ := h l.length a (by simp)
    refine ⟨bs ++ [b], ?_, List.rel_append hall (.cons hba .nil)⟩
    rw [List.length_append, List.length_singleton, List.range_succ, List.mapM_append, hbs, List.mapM_cons, hb]
    rfl

namespace LsmRangeIterator

variable {it : LsmRangeIterator V}

def Rest (m : Memory V) (it : LsmRangeIterator V) (rest : List (Record V)) : Prop :=
  rest.Pairwise (· ≤ ·) ∧ activeCount it.heap ≤ 1 ∧
    ∃ h, Matches m it.heap h ∧ KMerge.Sorted h ∧ rest.Perm (KMerge.contents h)

theorem Rest.hasMore (h : it.Rest m rest) : it.hasMore = !rest.isEmpty := by
  obtain ⟨heap⟩ := it
  obtain ⟨-, -, g, hmatch, -, hperm⟩ := h
  rw [LsmRangeIterator.hasMore]
  cases hmatch with
  | nil =>
    rw [hperm.eq_nil]
    rfl
  | cons hij hmatch =>
    cases rest with
    | nil => exact absurd hperm.symm.eq_nil (by simp [KMerge.contents_cons])
    | cons r rest => rfl

theorem Rest.next {r : Record V} (h : it.Rest m (r :: rest)) : ∃ it', it.next m = some (r, it') ∧ it'.Rest m rest := by
  obtain ⟨hsorted, hcount, g, hmatch, hg, hperm⟩ := h
  obtain ⟨hle, hrest⟩ := List.pairwise_cons.mp hsorted
  rw [LsmRangeIterator.next]
  cases hpop : KMerge.pop it.heap with
  | none =>
    rw [KMerge.pop_eq_none.mp hpop] at hmatch
    rw [List.forall₂_nil_left_iff.mp hmatch] at hperm
    cases hperm.eq_nil
  | some x =>
    obtain ⟨y, g', hpop', ⟨hfst, hxy⟩, hmatch'⟩ := KMerge.pop_forall₂ (fun i j hij => hij.1) hmatch hpop
    have hgperm := KMerge.pop_perm hpop'
    have hy : (y.1 :: y.2).Pairwise (· ≤ ·) := hg y (hgperm.symm.subset List.mem_cons_self)
    have hg' : KMerge.Sorted g' := fun i hi => hg i (hgperm.symm.subset (List.mem_cons_of_mem _ hi))
    have hall : (r :: rest).Perm (y.1 :: (y.2 ++ KMerge.contents g')) :=
      hperm.trans ((KMerge.contents_perm hgperm).trans (by rw [KMerge.contents_cons, List.cons_append]))
    -- both are least
    obtain rfl : y.1 = r := by
      refine le_antisymm (KMerge.le_contents hg (KMerge.pop_le hpop') r (hperm.subset List.mem_cons_self)) ?_
      rcases List.mem_cons.mp (hall.symm.subset List.mem_cons_self) with heq | hmem
      · exact heq.ge
      · exact hle y.1 hmem
    obtain ⟨heap', hadd, hmatch'', hcases⟩ := Matches.add hmatch' hxy
    refine ⟨⟨heap'⟩, ?_, hrest, ?_, _, hmatch'', KMerge.sorted_add hg' (List.pairwise_cons.mp hy).2, ?_⟩
    · rw [Option.bind_some, hadd, hfst]
      rfl
    · have hone := activeCount_add hcases
      have htotal : activeCount it.heap = activeCount x.2 + if x.1.2.source = .active then 1 else 0 := by
        rw [activeCount, (KMerge.pop_perm hpop).countP_eq, List.countP_cons]
        simp [activeCount]
      exact (hone.trans htotal.ge).trans hcount
    · exact (List.perm_cons y.1).mp hall |>.trans (KMerge.contents_add g' y.2).symm

theorem Rest.create (hm : m.lsm.Readable) (range : ScanRange) :
    ∃ it, create m range = some it ∧ it.Rest m (m.lsm.scanRange range) := by
  have hactive : m.memTable .active = some m.lsm.memTable := rfl
  obtain ⟨c, hc, -, -, hrest⟩ := TableIterator.Rest.memTable hactive hm.active range
  obtain ⟨roMemTables, hro, hros⟩ := mapM_range (l := m.lsm.roMemTables)
    (f := fun i => MemTableIterator.create m (.frozen (m.popped + i)) range)
    (P := fun it t => (TableIterator.memTable it).source = .frozen ∧
      (TableIterator.memTable it).Rest m (scanRecords range t.impl)) (by
    intro i t ht
    have href : m.memTable (.frozen (m.popped + i)) = some t := by
      rw [Memory.memTable, Memory.roMemTable, if_neg (by omega), Nat.add_sub_cancel_left]
      exact ht
    obtain ⟨it, hcreate, htable, -, hrest⟩ :=
      TableIterator.Rest.memTable href (hm.frozen t (List.mem_of_getElem? ht)) range
    exact ⟨it, hcreate, by simp only [TableIterator.source, htable], hrest⟩)
  obtain ⟨ssTables, hss, hsss⟩ := mapM_range (l := m.lsm.ssTables) (f := fun i => SSTableIterator.create m i range)
    (P := fun it t => (TableIterator.ssTable it).Rest m (scanRecords range t.records)) (by
    intro i t ht
    obtain ⟨it, hcreate, -, hrest⟩ := TableIterator.Rest.ssTable ht (hm.tables t (List.mem_of_getElem? ht)) range
    exact ⟨it, hcreate, hrest⟩)
  obtain ⟨hfrozen, hros⟩ := (List.forall₂_and_left ..).mp hros
  -- one after another they go into the heap
  have hinputs : List.Forall₂ (fun c rest => TableIterator.Rest m c rest)
      (.memTable c :: roMemTables.map .memTable ++ ssTables.map .ssTable) (m.lsm.inputs range) := by
    refine .cons hrest (List.rel_append ?_ ?_)
    · exact List.forall₂_map_left_iff.mpr (List.forall₂_map_right_iff.mpr hros)
    · exact List.forall₂_map_left_iff.mpr (List.forall₂_map_right_iff.mpr hsss)
  obtain ⟨heap, hadd, hmatch, hcount⟩ := Matches.addAll (m := m) .nil hinputs
  refine ⟨⟨heap⟩, ?_, ?_⟩
  · simp only [LsmRangeIterator.create, hc, hro, hss, Option.bind_some, hadd, Option.map_some]
  · have hfrozen' : (roMemTables.map TableIterator.memTable).countP (fun c => decide (c.source = .active)) = 0 := by
      refine List.countP_eq_zero.mpr fun c hc => ?_
      obtain ⟨it, hit, rfl⟩ := List.mem_map.mp hc
      simp [hfrozen it hit]
    have hstored : (ssTables.map TableIterator.ssTable).countP (fun c => decide (c.source = .active)) = 0 := by
      refine List.countP_eq_zero.mpr fun c hc => ?_
      obtain ⟨it, hit, rfl⟩ := List.mem_map.mp hc
      simp [TableIterator.source]
    have hfew : activeCount heap ≤ 1 := by
      refine hcount.trans ?_
      rw [List.cons_append, List.countP_cons, List.countP_append, hfrozen', hstored]
      simp only [activeCount, List.countP_nil]
      split_ifs <;> omega
    have hcontents : (KMerge.contents ((m.lsm.inputs range).foldl KMerge.add [])).Perm
      (m.lsm.inputs range).flatten := by
      simpa [KMerge.contents] using KMerge.contents_foldl_add (m.lsm.inputs range) []
    refine ⟨Lsm.scanRange_sorted hm.levels range, hfew, _, hmatch, ?_, ?_⟩
    · exact KMerge.sorted_foldl_add _ _ (fun i hi => absurd hi List.not_mem_nil) (Lsm.inputs_sorted hm.levels range)
    · exact (KMerge.merge_perm _).trans hcontents.symm

end LsmRangeIterator

end Ranges

section Changes

/-- A new record may have come among what is still to be delivered, behind a smaller one. -/
def Extended (x : Record V) (rest rest' : List (Record V)) : Prop :=
  rest' = rest ∨ ∃ u v r, rest = u ++ v ∧ rest' = u ++ x :: v ∧ r ∈ rest ∧ r < x

variable {x : Record V} {rest' : List (Record V)}

theorem Extended.of_perm {r : Record V} (hs : rest.Pairwise (· ≤ ·)) (hs' : rest'.Pairwise (· ≤ ·))
    (hperm : rest'.Perm (x :: rest)) (hr : r ∈ rest) (hlt : r < x) : Extended x rest rest' := by
  have hinsert : rest' = rest.orderedInsert (· ≤ ·) x :=
    (hperm.trans (List.perm_orderedInsert (· ≤ ·) x rest).symm).eq_of_pairwise (fun _ _ _ _ => le_antisymm) hs'
      (hs.orderedInsert x rest)
  rw [List.orderedInsert_eq_take_drop] at hinsert
  exact Or.inr ⟨_, _, r, (List.takeWhile_append_dropWhile ..).symm, hinsert, hr, hlt⟩

theorem Extended.append_right (h : Extended x rest rest') (later : List (Record V)) :
    Extended x (rest ++ later) (rest' ++ later) := by
  rcases h with rfl | ⟨u, v, r, rfl, rfl, hr, hlt⟩
  · exact Or.inl rfl
  · exact Or.inr ⟨u, v ++ later, r, List.append_assoc .., List.append_assoc .., List.mem_append_left _ hr, hlt⟩

namespace Iterator

variable {it : Iterator V}

def tableIterators : Iterator V → List (TableIterator V)
  | .key it => it.currentIterator.toList
  | .range it => it.heap.map Prod.snd

def frozenLeft : Iterator V → Prop
  | .key it => 0 ≤ it.roMemTableIdx
  | .range _ => False

def storedLeft : Iterator V → Prop
  | .key it => 0 ≤ it.ssTableIdx
  | .range _ => False

def Valid (m : Memory V) (it : Iterator V) : Prop :=
  (∀ c ∈ it.tableIterators, c.Refers m) ∧
    match it with
    | .key it => it.roMemTableIdx < m.lsm.roMemTables.length ∧ it.ssTableIdx < m.lsm.ssTables.length
    | .range _ => True

def Rest (m : Memory V) : Iterator V → List (Record V) → Prop
  | .key it => it.Rest m
  | .range it => it.Rest m

structure Survives (m m' : Memory V) (it : Iterator V) : Prop where
  tables : ∀ c ∈ it.tableIterators, c.Survives m m'
  frozen : it.frozenLeft → m.lsm.roMemTables <+: m'.lsm.roMemTables
  stored : it.storedLeft → m.lsm.ssTables <+: m'.lsm.ssTables

theorem Rest.valid (h : it.Rest m rest) : it.Valid m := by
  cases it with
  | key it =>
    obtain ⟨hin, h⟩ := h
    refine ⟨?_, hin.roMemTables.2, hin.ssTables.2⟩
    intro c hc
    rw [tableIterators, Option.mem_toList] at hc
    rw [hc] at h
    obtain ⟨current, hrest, -⟩ := h
    exact hrest.refers
  | range it =>
    obtain ⟨-, -, g, hmatch, -⟩ := h
    refine ⟨?_, trivial⟩
    intro c hc
    obtain ⟨i, hi, rfl⟩ := List.mem_map.mp hc
    obtain ⟨rest, hrest⟩ := hmatch.exists_rest i hi
    exact hrest.refers

theorem Rest.hasMore (h : it.Rest m rest) : it.hasMore m = some (!rest.isEmpty) := by
  cases it with
  | key it => exact LsmKeyIterator.Rest.hasMore h
  | range it => exact congrArg some (LsmRangeIterator.Rest.hasMore h)

theorem Rest.next (hm : m.lsm.Readable) {r : Record V} (h : it.Rest m (r :: rest)) :
    ∃ it', it.next m = some (r, it') ∧ it'.Rest m rest := by
  cases it with
  | key it =>
    obtain ⟨it', hnext, hrest⟩ := LsmKeyIterator.Rest.next hm h
    exact ⟨.key it', by rw [Iterator.next, hnext]; rfl, hrest⟩
  | range it =>
    obtain ⟨it', hnext, hrest⟩ := LsmRangeIterator.Rest.next h
    exact ⟨.range it', by rw [Iterator.next, hnext]; rfl, hrest⟩

/-- What a call of `Lsm::Scan` delivers if nothing happens meanwhile. -/
def scanned (l : Lsm V) : Query → List (Record V)
  | .key k => l.scanKey k
  | .range r => l.scanRange r

def asked : Query → Bytes → Bool
  | .key k, k' => decide (k' = k)
  | .range r, k' => r.contains k'

theorem scanned_perm {l : Lsm V} (h : l.Tidy) (query : Query) :
    (scanned l query).Perm (l.records.filter fun r => asked query r.key) := by
  cases query with
  | key k =>
    rw [scanned, Lsm.scanKey_eq_filter h.levels]
    exact List.Perm.refl _
  | range r => exact Lsm.scanRange_perm h.levels r

theorem Rest.create (hm : m.lsm.Readable) (query : Query) :
    ∃ it, create m query = some it ∧ it.Rest m (scanned m.lsm query) := by
  cases query with
  | key k =>
    obtain ⟨it, hcreate, hrest⟩ := LsmKeyIterator.Rest.create hm k
    exact ⟨.key it, by rw [Iterator.create, hcreate]; rfl, hrest⟩
  | range r =>
    obtain ⟨it, hcreate, hrest⟩ := LsmRangeIterator.Rest.create hm r
    exact ⟨.range it, by rw [Iterator.create, hcreate]; rfl, hrest⟩

/-- The tables up to an index are the same in a longer container. -/
theorem take_of_prefix {α : Type} {l l' : List α} {i : ℤ} (hi : i < l.length) (h : 0 ≤ i → l <+: l') :
    l'.take (i + 1).toNat = l.take (i + 1).toNat := by
  rcases lt_or_ge i 0 with hneg | hpos
  · have hzero : (i + 1).toNat = 0 := by omega
    rw [hzero, List.take_zero, List.take_zero]
  · obtain ⟨tail, rfl⟩ := h hpos
    exact List.take_append_of_le_length (by omega)

theorem later_eq {it : LsmKeyIterator V} (hin : it.InRange m)
    (hro : 0 ≤ it.roMemTableIdx → m.lsm.roMemTables <+: m'.lsm.roMemTables)
    (hss : 0 ≤ it.ssTableIdx → m.lsm.ssTables <+: m'.lsm.ssTables) : it.InRange m' ∧ it.later m' = it.later m := by
  obtain ⟨⟨hlow, hro'⟩, hlow', hss'⟩ := hin
  refine ⟨⟨⟨hlow, ?_⟩, hlow', ?_⟩, ?_⟩
  · rcases lt_or_ge it.roMemTableIdx 0 with hneg | hpos
    · omega
    · have := (hro hpos).length_le
      omega
  · rcases lt_or_ge it.ssTableIdx 0 with hneg | hpos
    · omega
    · have := (hss hpos).length_le
      omega
  · rw [LsmKeyIterator.later, take_of_prefix hro' hro, take_of_prefix hss' hss, ← LsmKeyIterator.later]

theorem Rest.survives (h : it.Rest m rest) (hs : it.Survives m m') : it.Rest m' rest := by
  cases it with
  | key it =>
    obtain ⟨hin, h⟩ := h
    obtain ⟨hin', hlater⟩ := later_eq hin hs.frozen hs.stored
    refine ⟨hin', ?_⟩
    cases hc : it.currentIterator with
    | none =>
      rw [hc] at h
      exact h
    | some c =>
      rw [hc] at h
      obtain ⟨current, hrest, hne, rfl⟩ := h
      refine ⟨current, hrest.survives (hs.tables c ?_), hne, by rw [hlater]⟩
      rw [tableIterators, hc]
      exact List.mem_singleton.mpr rfl
  | range it =>
    obtain ⟨hsorted, hcount, g, hmatch, hg⟩ := h
    refine ⟨hsorted, hcount, g, hmatch.survives fun i hi => ?_, hg⟩
    exact hs.tables i.2 (List.mem_map.mpr ⟨i, hi, rfl⟩)

theorem Rest.put (h : it.Rest m rest) (hput : TableIterator.PutInto x m m') :
    ∃ rest', it.Rest m' rest' ∧ Extended x rest rest' := by
  cases it with
  | key it =>
    obtain ⟨hin, h⟩ := h
    obtain ⟨hin', hlater⟩ := later_eq hin (fun _ => by rw [hput.roMemTables]) fun _ => by rw [hput.ssTables]
    cases hc : it.currentIterator with
    | none =>
      rw [hc] at h
      refine ⟨rest, ⟨hin', ?_⟩, Or.inl rfl⟩
      rw [hc]
      exact h
    | some c =>
      rw [hc] at h
      obtain ⟨current, hrest, hne, rfl⟩ := h
      obtain ⟨current', hrest', hext⟩ : ∃ current', c.Rest m' current' ∧ Extended x current current' := by
        rcases hrest.put hput with hrest' | ⟨-, current', r, hrest', hperm, hr, hlt⟩
        · exact ⟨current, hrest', Or.inl rfl⟩
        · exact ⟨current', hrest', .of_perm hrest.sorted hrest'.sorted hperm hr hlt⟩
      have hne' : current' ≠ [] := by
        rcases hext with rfl | ⟨u, v, r, rfl, rfl, -⟩
        · exact hne
        · simp
      refine ⟨current' ++ it.later m, ⟨hin', ?_⟩, hext.append_right _⟩
      rw [hc]
      exact ⟨current', hrest', hne', by rw [hlater]⟩
  | range it =>
    obtain ⟨hsorted, hcount, g, hmatch, hg, hperm⟩ := h
    rcases hmatch.put hput hg hcount with hmatch' | ⟨g', r, hmatch', hg', hperm', hr, hlt⟩
    · exact ⟨rest, ⟨hsorted, hcount, g, hmatch', hg, hperm⟩, Or.inl rfl⟩
    · have hinsert := List.perm_orderedInsert (· ≤ ·) x rest
      have hsorted' := hsorted.orderedInsert x rest
      refine ⟨rest.orderedInsert (· ≤ ·) x, ⟨hsorted', hcount, g', hmatch', hg', ?_⟩, ?_⟩
      · exact (hinsert.trans (hperm.cons x)).trans hperm'.symm
      · exact .of_perm hsorted hsorted' hinsert (hperm.mem_iff.mpr hr) hlt

/-- A call of `Next` does not change the kind of the iterator. -/
theorem next_range {r : Record V} {it : LsmRangeIterator V} {it' : Iterator V}
    (h : (Iterator.range it).next m = some (r, it')) :
    ∃ it'', it' = .range it'' := by
  obtain ⟨x, -, hx⟩ := Option.map_eq_some_iff.mp h
  cases hx
  exact ⟨x.2, rfl⟩

end Iterator

end Changes

end OpenScan

end StructureDb
