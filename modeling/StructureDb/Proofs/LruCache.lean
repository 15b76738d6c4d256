import StructureDb.Spec.LruCache

/-! The linked list and the map of `cache::LruCache` stay in step, so it is a list of entries in the
order of their last use, and holds what was used last. -/

namespace StructureDb

variable {κ α : Type}

namespace Cache

/-- The iterators in `index_` are those of the nodes of `entries_`, under their keys. -/
structure LruCache.Linked (c : LruCache κ α) : Prop where
  keys : (c.entries.map Node.key).Nodup
  addresses : (c.entries.map Node.address).Nodup
  index : c.index.Perm (c.entries.map fun n => (n.key, n.address))
  fresh : ∀ n ∈ c.entries, n.address < c.fresh

namespace LruCache.Linked

variable {c : LruCache κ α} {n : Node κ α}

theorem of_nil (hentries : c.entries = []) (hindex : c.index = []) : c.Linked := by
  refine ⟨?_, ?_, ?_, ?_⟩ <;> simp [hentries, hindex]

theorem indexKeys (h : c.Linked) : (c.index.map Prod.fst).Perm (c.entries.map Node.key) := by
  have hmap := h.index.map Prod.fst
  rwa [List.map_map] at hmap

/-- Nodes with the same address, or the same key, are the same. -/
theorem address_eq_iff (h : c.Linked) (hn : n ∈ c.entries) {m : Node κ α} (hm : m ∈ c.entries) :
    m.address = n.address ↔ m.key = n.key :=
  ⟨fun he => congrArg Node.key (List.inj_on_of_nodup_map h.addresses hm hn he),
    fun he => congrArg Node.address (List.inj_on_of_nodup_map h.keys hm hn he)⟩

theorem deref_of_node (h : c.Linked) (hn : n ∈ c.entries) : c.deref n.address = some n := by
  cases hfind : c.deref n.address with
  | none => exact absurd (decide_eq_true rfl) (List.find?_eq_none.mp hfind n hn)
  | some m =>
    have haddress : m.address = n.address := by simpa using List.find?_some hfind
    rw [List.inj_on_of_nodup_map h.addresses (List.mem_of_find?_eq_some hfind) hn haddress]

theorem filter_address (h : c.Linked) (hn : n ∈ c.entries) :
    (c.entries.filter fun m => m.address = n.address) = [n] := by
  have hnodup := (List.Nodup.of_map _ h.addresses).filter fun m => decide (m.address = n.address)
  refine List.perm_singleton.mp ((List.perm_ext_iff_of_nodup hnodup (List.nodup_singleton n)).mpr fun m => ?_)
  rw [List.mem_filter, List.mem_singleton, decide_eq_true_eq]
  constructor
  · rintro ⟨hm, he⟩
    exact List.inj_on_of_nodup_map h.addresses hm hn he
  · rintro rfl
    exact ⟨hn, rfl⟩

theorem splice (h : c.Linked) (it : ℕ) : (c.splice it).Linked := by
  have hperm : (c.splice it).entries.Perm c.entries := by
    have hparts := List.filter_append_perm (fun n : Node κ α => decide (n.address = it)) c.entries
    have hne : (fun n : Node κ α => decide (n.address ≠ it)) = fun n => !decide (n.address = it) := by
      funext n
      simp
    rw [LruCache.splice, hne]
    exact hparts
  refine ⟨?_, ?_, ?_, ?_⟩
  · exact (hperm.map _).nodup_iff.mpr h.keys
  · exact (hperm.map _).nodup_iff.mpr h.addresses
  · exact h.index.trans (hperm.map _).symm
  · exact fun n hn => h.fresh n (hperm.subset hn)

theorem assign (h : c.Linked) (it : ℕ) (value : α) : (c.assign it value).Linked := by
  have hsame {β : Type} (f : Node κ α → β) (hf : ∀ n v, f { n with value := v } = f n) :
      (c.assign it value).entries.map f = c.entries.map f := by
    rw [LruCache.assign, List.map_map]
    refine List.map_congr_left fun n _ => ?_
    rw [Function.comp_apply]
    split_ifs
    · exact hf n value
    · rfl
  refine ⟨?_, ?_, ?_, ?_⟩
  · rw [hsame Node.key fun _ _ => rfl]
    exact h.keys
  · rw [hsame Node.address fun _ _ => rfl]
    exact h.addresses
  · rw [hsame (fun n => (n.key, n.address)) fun _ _ => rfl]
    exact h.index
  · intro n hn
    have hmem : n.address ∈ (c.assign it value).entries.map Node.address := List.mem_map_of_mem hn
    rw [hsame Node.address fun _ _ => rfl] at hmem
    obtain ⟨m, hm, he⟩ := List.mem_map.mp hmem
    rw [← he]
    exact h.fresh m hm

variable [DecidableEq κ]

theorem lookup_of_node (h : c.Linked) (hn : n ∈ c.entries) : c.index.lookup n.key = some n.address := by
  refine Recency.lookup_of_mem (h.indexKeys.nodup_iff.mpr h.keys) (h.index.mem_iff.mpr ?_)
  exact List.mem_map.mpr ⟨n, hn, rfl⟩

theorem lookup_of_not_mem (h : c.Linked) {key : κ} (hkey : key ∉ c.entries.map Node.key) :
    c.index.lookup key = none := by
  rw [List.lookup_eq_none_iff]
  intro e he
  rw [bne_iff_ne]
  rintro rfl
  exact hkey (h.indexKeys.subset (List.mem_map_of_mem he))

theorem splice_entries (h : c.Linked) (hn : n ∈ c.entries) :
    (c.splice n.address).entries = n :: c.entries.filter fun m => m.key ≠ n.key := by
  have hrest : (c.entries.filter fun m => m.address ≠ n.address) = c.entries.filter fun m => m.key ≠ n.key := by
    refine List.filter_congr fun m hm => ?_
    rw [decide_eq_decide]
    exact not_congr (h.address_eq_iff hn hm)
  rw [LruCache.splice, h.filter_address hn, hrest]
  rfl

/-- A node that is assigned to stays where it is. -/
theorem assign_entries (h : c.Linked) (hn : n ∈ c.entries) (value : α) :
    { n with value } ∈ (c.assign n.address value).entries ∧
      ((c.assign n.address value).entries.filter fun m => m.key ≠ n.key) = c.entries.filter fun m => m.key ≠ n.key := by
  refine ⟨List.mem_map.mpr ⟨n, hn, if_pos rfl⟩, ?_⟩
  have hmap : ∀ entries : List (Node κ α), (∀ m ∈ entries, m.address = n.address ↔ m.key = n.key) →
      ((entries.map fun m => if m.address = n.address then { m with value } else m).filter fun m => m.key ≠ n.key) =
        entries.filter fun m => m.key ≠ n.key := by
    intro entries hentries
    induction entries with
    | nil => rfl
    | cons m entries ih =>
      have ih := ih fun m' hm' => hentries m' (List.mem_cons_of_mem _ hm')
      have hm := hentries m List.mem_cons_self
      rw [List.map_cons]
      by_cases hkey : m.key = n.key
      · rw [if_pos (hm.mpr hkey), List.filter_cons_of_neg (by simp [hkey]), List.filter_cons_of_neg (by simp [hkey]),
          ih]
      · rw [if_neg (mt hm.mp hkey), List.filter_cons_of_pos (by simpa using hkey),
          List.filter_cons_of_pos (by simpa using hkey), ih]
  exact hmap c.entries fun m hm => h.address_eq_iff hn hm

theorem emplaceFront (h : c.Linked) {key : κ} (hkey : key ∉ c.entries.map Node.key) (value : α) :
    (c.emplaceFront key value).Linked := by
  refine ⟨List.nodup_cons.mpr ⟨hkey, h.keys⟩, List.nodup_cons.mpr ⟨?_, h.addresses⟩, ?_, ?_⟩
  · intro hmem
    obtain ⟨n, hn, he⟩ := List.mem_map.mp hmem
    exact absurd he (h.fresh n hn).ne
  · have hfilter : (c.index.filter fun e => e.1 ≠ key) = c.index := by
      refine List.filter_eq_self.mpr fun e he => ?_
      rw [decide_eq_true_eq]
      rintro rfl
      exact hkey (h.indexKeys.subset (List.mem_map_of_mem he))
    rw [LruCache.emplaceFront, hfilter]
    exact h.index.cons _
  · intro n hn
    rcases List.mem_cons.mp hn with rfl | hn
    · exact Nat.lt_succ_self _
    · exact (h.fresh n hn).trans (Nat.lt_succ_self _)

theorem evict (h : c.Linked) (hne : c.entries ≠ []) :
    ∃ c', c.evict = some c' ∧ c'.Linked ∧ c'.capacity = c.capacity ∧ c'.entries = c.entries.dropLast := by
  obtain ⟨nodes, n, hsplit⟩ := (List.eq_nil_or_concat' c.entries).resolve_left hne
  have hkeys := h.keys
  have haddresses := h.addresses
  have hindex := h.index
  rw [hsplit, List.map_append] at hkeys haddresses hindex
  have hnot : ∀ m ∈ nodes, m.key ≠ n.key := fun m hm =>
    (List.nodup_append.mp hkeys).2.2 _ (List.mem_map_of_mem hm) _ (by simp)
  have hevict : c.evict = some { c with entries := nodes, index := c.index.filter fun e => e.1 ≠ n.key } := by
    simp [LruCache.evict, hsplit]
  refine ⟨_, hevict, ⟨?_, ?_, ?_, ?_⟩, rfl, by simp [hsplit]⟩
  · exact (List.nodup_append.mp hkeys).1
  · exact (List.nodup_append.mp haddresses).1
  · refine (hindex.filter _).trans (List.Perm.of_eq ?_)
    rw [List.filter_append, List.filter_eq_self.mpr, List.filter_eq_nil_iff.mpr, List.append_nil]
    · simp
    · intro e he
      obtain ⟨m, hm, rfl⟩ := List.mem_map.mp he
      simpa using hnot m hm
  · exact fun m hm => h.fresh m (by rw [hsplit]; exact List.mem_append_left _ hm)

end LruCache.Linked

end Cache

/-! ### The order of use -/

/-- The nodes are the entries of a cache in the order of their last use. -/
structure CacheRefines (c : Cache.LruCache κ α) (a : LruCache κ α) : Prop where
  linked : c.Linked
  capacity : c.capacity = a.capacity
  entries : (c.entries.map fun n => (n.key, n.value)) = a.entries

namespace CacheRefines

variable {c : Cache.LruCache κ α} {a : LruCache κ α} {history : List (Recency.Call κ α)}

theorem create (capacity : ℕ) : CacheRefines (Cache.LruCache.create capacity : Cache.LruCache κ α) (.empty capacity) :=
  ⟨.of_nil rfl rfl, rfl, rfl⟩

theorem keys (h : CacheRefines c a) : a.entries.map Prod.fst = c.entries.map Cache.Node.key := by
  rw [← h.entries, List.map_map]
  rfl

theorem clear (h : CacheRefines c a) : CacheRefines c.clear (.empty a.capacity) :=
  ⟨.of_nil rfl rfl, h.capacity, rfl⟩

variable [DecidableEq κ]

/-- `index_.find` finds the node of the key, if there is one. -/
theorem find (h : CacheRefines c a) (key : κ) :
    (key ∉ c.entries.map Cache.Node.key ∧ c.index.lookup key = none ∧ a.entries.lookup key = none) ∨
      ∃ n ∈ c.entries, n.key = key ∧ c.index.lookup key = some n.address ∧ a.entries.lookup key = some n.value := by
  by_cases hkey : key ∈ c.entries.map Cache.Node.key
  · obtain ⟨n, hn, rfl⟩ := List.mem_map.mp hkey
    refine Or.inr ⟨n, hn, rfl, h.linked.lookup_of_node hn, Recency.lookup_of_mem a.nodup ?_⟩
    rw [← h.entries]
    exact List.mem_map.mpr ⟨n, hn, rfl⟩
  · refine Or.inl ⟨hkey, h.linked.lookup_of_not_mem hkey, List.lookup_eq_none_iff.mpr fun e he => ?_⟩
    rw [bne_iff_ne]
    rintro rfl
    rw [← h.keys] at hkey
    exact hkey (List.mem_map_of_mem he)

theorem filter_keys (h : CacheRefines c a) (key : κ) :
    ((c.entries.filter fun n => n.key ≠ key).map fun n => (n.key, n.value)) = a.entries.filter fun e => e.1 ≠ key := by
  rw [← h.entries, List.filter_map]
  rfl

/-- The node of a key comes first: nothing is evicted. -/
theorem front (h : CacheRefines c a) {n : Cache.Node κ α} (hn : n ∈ c.entries) {c' : Cache.LruCache κ α}
    (hlinked : c'.Linked) (hcapacity : c'.capacity = c.capacity) {value : α}
    (hentries : c'.entries.map (fun n => (n.key, n.value)) =
      (n.key, value) :: a.entries.filter fun e => e.1 ≠ n.key) : CacheRefines c' (a.put n.key value) := by
  refine ⟨hlinked, hcapacity.trans h.capacity, hentries.trans (List.take_of_length_le ?_).symm⟩
  have hmem : (n.key, n.value) ∈ a.entries := by
    rw [← h.entries]
    exact List.mem_map.mpr ⟨n, hn, rfl⟩
  have hlt : (a.entries.filter fun e => e.1 ≠ n.key).length < a.entries.length :=
    List.length_filter_lt_length_iff_exists.mpr ⟨_, hmem, by simp⟩
  exact hlt.trans_le a.bounded

theorem get (h : CacheRefines c a) (hrecent : a.Recent history) (key : κ) :
    ∃ c' a', c.get key = some (a.entries.lookup key, c') ∧ CacheRefines c' a' ∧
      a'.Recent (.get key (a.entries.lookup key) :: history) ∧ a'.capacity = a.capacity := by
  rcases h.find key with ⟨-, hindex, hl⟩ | ⟨n, hn, rfl, hindex, hl⟩
  · refine ⟨c, a, by rw [Cache.LruCache.get, hindex, hl], h, ?_, rfl⟩
    rw [hl]
    exact ⟨hrecent.keys, hrecent.values⟩
  · refine ⟨c.splice n.address, a.put n.key n.value, ?_, ?_, ?_, rfl⟩
    · rw [Cache.LruCache.get, hindex, hl]
      simp only [h.linked.deref_of_node hn, Option.map_some]
    · refine h.front hn (h.linked.splice _) rfl ?_
      rw [h.linked.splice_entries hn, List.map_cons, h.filter_keys]
    · rw [hl]
      exact hrecent.hit hl

theorem put_found (h : CacheRefines c a) {n : Cache.Node κ α} (hn : n ∈ c.entries) (value : α) :
    CacheRefines ((c.assign n.address value).splice n.address) (a.put n.key value) := by
  have hlinked := h.linked.assign n.address value
  obtain ⟨hmem, hfilter⟩ := h.linked.assign_entries hn value
  refine h.front hn (hlinked.splice _) rfl ?_
  have hsplice := hlinked.splice_entries hmem
  dsimp only at hsplice
  rw [hsplice, hfilter, List.map_cons, h.filter_keys]

/-- A new key: if that is one too many, the last node goes. -/
theorem put_new (h : CacheRefines c a) {key : κ} (hkey : key ∉ c.entries.map Cache.Node.key) (value : α) :
    ∃ c', (if c.capacity < (c.emplaceFront key value).size then (c.emplaceFront key value).evict
        else some (c.emplaceFront key value)) = some c' ∧ CacheRefines c' (a.put key value) := by
  have hlinked := h.linked.emplaceFront hkey value
  have hsize : (c.emplaceFront key value).size = c.entries.length + 1 := by
    rw [Cache.LruCache.size, hlinked.index.length_eq, List.length_map]
    rfl
  have hentries : ((c.emplaceFront key value).entries.map fun n => (n.key, n.value)) = (key, value) :: a.entries := by
    rw [← h.entries]
    rfl
  have hput : (a.put key value).entries = ((key, value) :: a.entries).take c.capacity := by
    have hfilter : (a.entries.filter fun e => e.1 ≠ key) = a.entries := by
      refine List.filter_eq_self.mpr fun e he => ?_
      rw [decide_eq_true_eq]
      rintro rfl
      rw [← h.keys] at hkey
      exact hkey (List.mem_map_of_mem he)
    change ((key, value) :: a.entries.filter fun e => e.1 ≠ key).take a.capacity = _
    rw [hfilter, h.capacity]
  have hlen : a.entries.length = c.entries.length := by rw [← h.entries, List.length_map]
  have hbounded := a.bounded
  have hcapacity := h.capacity
  rw [hsize]
  split_ifs with hfull
  · obtain ⟨c', hevict, hlinked', hcapacity', hentries'⟩ := hlinked.evict (List.cons_ne_nil _ _)
    refine ⟨c', hevict, hlinked', hcapacity'.trans hcapacity, ?_⟩
    rw [hput, hentries', List.map_dropLast, hentries, List.dropLast_eq_take, List.length_cons]
    congr 1
    omega
  · refine ⟨_, rfl, hlinked, hcapacity, ?_⟩
    rw [hentries, hput, List.take_of_length_le (by rw [List.length_cons]; omega)]

theorem put (h : CacheRefines c a) (key : κ) (value : α) :
    ∃ c', c.put key value = some c' ∧ CacheRefines c' (a.put key value) := by
  rw [Cache.LruCache.put]
  by_cases hzero : c.capacity = 0
  · -- nothing is kept
    refine ⟨c, if_pos hzero, h.linked, h.capacity, ?_⟩
    have hbounded := a.bounded
    rw [← h.capacity, hzero, Nat.le_zero] at hbounded
    rw [h.entries, List.eq_nil_of_length_eq_zero hbounded]
    change [] = List.take a.capacity _
    rw [← h.capacity, hzero, List.take_zero]
  · rw [if_neg hzero]
    rcases h.find key with ⟨hkey, hindex, -⟩ | ⟨n, hn, rfl, hindex, -⟩
    · rw [hindex]
      exact h.put_new hkey value
    · rw [hindex]
      refine ⟨_, ?_, h.put_found hn value⟩
      simp only [h.linked.deref_of_node hn, Option.map_some]

theorem call (h : CacheRefines c a) (hrecent : a.Recent history) (r : Cache.LruCache.Request κ α) :
    ∃ c' result a', c.call r = some (c', result) ∧ CacheRefines c' a' ∧ a'.Recent (result :: history) ∧
      a'.capacity = a.capacity := by
  cases r with
  | put key value =>
    obtain ⟨c', hput, hc'⟩ := h.put key value
    exact ⟨c', _, _, by rw [Cache.LruCache.call, hput]; rfl, hc', hrecent.put key value, rfl⟩
  | get key =>
    obtain ⟨c', a', hget, hc', hrecent', hcapacity⟩ := h.get hrecent key
    exact ⟨c', _, a', by rw [Cache.LruCache.call, hget]; rfl, hc', hrecent', hcapacity⟩
  | contains key => exact ⟨c, _, a, rfl, h, ⟨hrecent.keys, hrecent.values⟩, rfl⟩
  | clear => exact ⟨_, _, _, rfl, h.clear, .clear history a.capacity, rfl⟩

theorem run (capacity : ℕ) (requests : List (Cache.LruCache.Request κ α)) :
    ∃ c history a, Cache.LruCache.run capacity requests = some (c, history) ∧ CacheRefines c a ∧ a.Recent history ∧
      a.capacity = capacity := by
  induction requests using List.reverseRecOn with
  | nil => exact ⟨_, _, _, rfl, create capacity, .empty capacity, rfl⟩
  | append_singleton requests r ih =>
    obtain ⟨c, history, a, hrun, hc, hrecent, hcapacity⟩ := ih
    obtain ⟨c', result, a', hcall, hc', hrecent', hcapacity'⟩ := hc.call hrecent r
    refine ⟨c', result :: history, a', ?_, hc', hrecent', hcapacity'.trans hcapacity⟩
    rw [Cache.LruCache.run] at hrun ⊢
    rw [List.foldlM_append, hrun]
    simp [hcall]

end CacheRefines

variable [DecidableEq κ]

/-- After any calls: no iterator dangles, the list and the map have the same distinct keys, and `Get` of any key returns
what was put last for it, exactly if it is among the keys that were used last. -/
theorem lru_exact (capacity : ℕ) (requests : List (Cache.LruCache.Request κ α)) :
    ∃ c history, Cache.LruCache.run capacity requests = some (c, history) ∧
      ((c.index.map Prod.fst).Nodup ∧ (c.entries.map Cache.Node.key).Nodup ∧
        (∀ key, key ∈ c.index.map Prod.fst ↔ key ∈ c.entries.map Cache.Node.key) ∧
        c.index.length ≤ capacity ∧ c.entries.length ≤ capacity) ∧
      ∀ key, ∃ result c', c.get key = some (result, c') ∧
        (result.isSome ↔ key ∈ (Recency.touched history).take capacity) ∧
        ∀ value, result = some value → Recency.lastPut key history = some value := by
  obtain ⟨c, history, a, hrun, h, hrecent, hcapacity⟩ := CacheRefines.run capacity requests
  have hbounded : c.entries.length ≤ capacity := by
    have hlen := congrArg List.length h.entries
    rw [List.length_map] at hlen
    rw [← hcapacity, hlen]
    exact a.bounded
  have hindex : c.index.length ≤ capacity := by
    rw [h.linked.index.length_eq, List.length_map]
    exact hbounded
  refine ⟨c, history, hrun, ⟨h.linked.indexKeys.nodup_iff.mpr h.linked.keys, h.linked.keys,
    fun key => h.linked.indexKeys.mem_iff, hindex, hbounded⟩, ?_⟩
  intro key
  obtain ⟨c', a', hget, -⟩ := h.get hrecent key
  have hkeys := hrecent.keys
  rw [hcapacity] at hkeys
  refine ⟨_, c', hget, ?_, ?_⟩
  · rw [← hkeys, h.keys]
    rcases h.find key with ⟨hkey, -, hl⟩ | ⟨n, hn, rfl, -, hl⟩
    · simp [hl, hkey]
    · simp only [hl, Option.isSome_some, true_iff]
      exact List.mem_map_of_mem hn
  · intro value hvalue
    obtain ⟨l₁, l₂, hentries, -⟩ := List.lookup_eq_some_iff.mp hvalue
    exact hrecent.values (key, value) (by rw [hentries]; simp)

end StructureDb
