import StructureDb.Lib.Splits
import StructureDb.Spec.PageReads

/-! What concurrent calls of `GetPage` return. If a call that misses the cache is made only while
no other call waits, every call returns its page, and every page is cached under its own
number. Otherwise the offset that one call has set is used by the read of another one. -/

namespace StructureDb

namespace Disk

namespace PageReads

variable {crc : Bytes → BitVec 32} {t : SSTable} {s s' : PageReads} {action : Action}

/-- A call that misses the cache finds no other call waiting. -/
def Alone (s : PageReads) : Action → Prop
  | .getPage pageNum => (s.table.pageCache.get pageNum).isSome = true ∨ ∀ c ∈ s.calls, c.done = true
  | _ => True

instance (s : PageReads) : (action : Action) → Decidable (s.Alone action)
  | .getPage _ => inferInstanceAs (Decidable (_ ∨ _))
  | .seek _ | .read _ | .resume _ => isTrue trivial

/-- A call that waits has the offset for itself, and one that is through has its page. -/
def CallOk (crc : Bytes → BitVec 32) (t : SSTable) (offset : ℕ) : PageCall → Prop
  | .seeking _ => True
  | .reading pageNum => offset = SSTable.pageOffset t.header pageNum
  | .loading pageNum buffer => readAt t.file (SSTable.pageOffset t.header pageNum) t.header.pageSize = some buffer
  | .returned pageNum page => page = t.decodedPage crc pageNum

structure Inv (crc : Bytes → BitVec 32) (t : SSTable) (s : PageReads) : Prop where
  file : s.table.file = t.file
  header : s.table.header = t.header
  cache : s.table.pageCache.Holds fun k page => t.decodedPage crc k = some page
  calls : ∀ c ∈ s.calls, CallOk crc t s.offset c
  single : s.calls.Pairwise fun c d => c.done = true ∨ d.done = true

theorem CallOk.of_done {offset offset' : ℕ} {c : PageCall} (h : CallOk crc t offset c) (hd : c.done = true) :
    CallOk crc t offset' c := by
  cases c with
  | returned pageNum page => exact h
  | _ => cases hd

namespace Inv

theorem start (hcache : t.pageCache.Holds fun k page => t.decodedPage crc k = some page) (offset : ℕ) :
    Inv crc t (PageReads.start t offset) :=
  ⟨rfl, rfl, hcache, (fun _ hc => nomatch hc), List.Pairwise.nil⟩

theorem append (h : Inv crc t s) {table : SSTable} {c : PageCall} (hfile : table.file = s.table.file)
    (hheader : table.header = s.table.header)
    (hcache : table.pageCache.Holds fun k page => t.decodedPage crc k = some page) (hc : CallOk crc t s.offset c)
    (hsingle : c.done = true ∨ ∀ d ∈ s.calls, d.done = true) :
    Inv crc t { s with table, calls := s.calls ++ [c] } := by
  refine ⟨hfile.trans h.file, hheader.trans h.header, hcache, ?_, ?_⟩
  · intro d hd
    rcases List.mem_append.mp hd with hd | hd
    · exact h.calls d hd
    · rw [List.mem_singleton.mp hd]
      exact hc
  · rw [List.pairwise_append]
    refine ⟨h.single, List.pairwise_singleton .., ?_⟩
    intro d hd e he
    rw [List.mem_singleton.mp he]
    exact hsingle.symm.imp (fun hall => hall d hd) id

/-- The call that waits goes on; the others are through. -/
theorem set (h : Inv crc t s) {i : ℕ} {c c' : PageCall} (hi : s.calls[i]? = some c) (hwait : c.done = false)
    {table : SSTable} {offset : ℕ} (hfile : table.file = s.table.file) (hheader : table.header = s.table.header)
    (hcache : table.pageCache.Holds fun k page => t.decodedPage crc k = some page) (hc : CallOk crc t offset c') :
    Inv crc t (setCall ⟨table, offset, s.calls⟩ i c') := by
  obtain ⟨pre, post, hsplit, hset⟩ := Splits.of_getElem? hi
  have hsingle := h.single
  have hcalls := h.calls
  rw [hsplit, List.pairwise_append, List.pairwise_cons] at hsingle
  obtain ⟨hpre, ⟨hcpost, hpost⟩, hcross⟩ := hsingle
  have hothers : ∀ d, d ∈ pre ∨ d ∈ post → d.done = true := by
    rintro d (hd | hd)
    · exact (hcross d hd c List.mem_cons_self).resolve_right (by simp [hwait])
    · exact (hcpost d hd).resolve_left (by simp [hwait])
  refine ⟨hfile.trans h.file, hheader.trans h.header, hcache, ?_, ?_⟩
  · intro d hd
    rw [setCall, hset] at hd
    rcases List.mem_append.mp hd with hd | hd
    · exact (hcalls d (by rw [hsplit]; exact List.mem_append_left _ hd)).of_done (hothers d (Or.inl hd))
    · rcases List.mem_cons.mp hd with rfl | hd
      · exact hc
      · refine (hcalls d ?_).of_done (hothers d (Or.inr hd))
        rw [hsplit]
        exact List.mem_append_right _ (List.mem_cons_of_mem _ hd)
  · rw [setCall, hset, List.pairwise_append, List.pairwise_cons]
    refine ⟨hpre, ⟨fun d hd => Or.inr (hothers d (Or.inr hd)), hpost⟩, ?_⟩
    intro d hd e _
    exact Or.inl (hothers d (Or.inl hd))

theorem step (h : Inv crc t s) (hg : s.Alone action) (hs : s.step crc action = some s') : Inv crc t s' := by
  cases action with
  | getPage pageNum =>
    rw [PageReads.step] at hs
    split_ifs at hs with hcount
    cases hget : s.table.pageCache.get pageNum with
    | some r =>
      rw [hget] at hs
      obtain ⟨hpage, hcache⟩ := h.cache.get hget
      cases hs
      exact h.append rfl rfl hcache hpage.symm (Or.inl rfl)
    | none =>
      rw [hget] at hs
      cases hs
      have hall : ∀ d ∈ s.calls, d.done = true := by
        refine hg.resolve_left ?_
        rw [hget]
        exact Bool.false_ne_true
      exact h.append rfl rfl h.cache trivial (Or.inr hall)
  | seek i =>
    rw [PageReads.step] at hs
    split at hs
    next pageNum hi =>
      cases hs
      refine h.set hi rfl rfl rfl h.cache ?_
      rw [CallOk, h.header]
    next => cases hs
  | read i =>
    rw [PageReads.step] at hs
    split at hs
    next pageNum hi =>
      -- the offset is that of the page
      have hoffset : s.offset = SSTable.pageOffset t.header pageNum := h.calls _ (List.mem_of_getElem? hi)
      split at hs
      next hread =>
        cases hs
        refine h.set hi rfl rfl rfl h.cache ?_
        rw [CallOk, SSTable.decodedPage, ← h.file, ← hoffset, ← h.header, hread]
        rfl
      next buffer hread =>
        cases hs
        refine h.set hi rfl rfl rfl h.cache ?_
        rw [CallOk, ← h.file, ← hoffset, ← h.header, hread]
    next => cases hs
  | resume i =>
    rw [PageReads.step] at hs
    split at hs
    next pageNum buffer hi =>
      have hbuffer : readAt t.file (SSTable.pageOffset t.header pageNum) t.header.pageSize = some buffer :=
        h.calls _ (List.mem_of_getElem? hi)
      have hpage : t.decodedPage crc pageNum = Page.load crc buffer := by
        rw [SSTable.decodedPage, hbuffer]
        rfl
      split at hs
      next hload =>
        cases hs
        refine h.set hi rfl rfl rfl h.cache ?_
        rw [CallOk, hpage, hload]
      next page hload =>
        cases hs
        rw [hload] at hpage
        exact h.set hi rfl rfl rfl (h.cache.put hpage) hpage.symm
    next => cases hs

end Inv

/-- In every run in which a call that misses the cache is made while no other call waits, each call that is through has
returned its page of the file, and each entry of the cache is the page of its number. -/
theorem page_reads_alone (crc : Bytes → BitVec 32) (file : Bytes) (capacity offset : ℕ) (t : SSTable)
    (hcreate : SSTable.create file capacity = some t) (actions : List Action)
    (hg : Machine.Guarded (step crc) Alone (start t offset) actions) (s : PageReads)
    (hr : Machine.run (step crc) (start t offset) actions = some s) :
    (∀ pageNum page, .returned pageNum page ∈ s.calls → page = t.decodedPage crc pageNum) ∧
      s.table.pageCache.Holds fun k page => t.decodedPage crc k = some page := by
  have hcache : t.pageCache.Holds fun k page => t.decodedPage crc k = some page := by
    rw [SSTable.create] at hcreate
    split at hcreate
    · cases hcreate
    · obtain ⟨header, -, rfl⟩ := Option.map_eq_some_iff.mp hcreate
      exact LruCache.Holds.empty _ capacity
  have h : Inv crc t s := by
    refine Machine.run_inv (P := fun _ s => Inv crc t s) (Inv.start hcache offset) ?_ hg hr
    intro _ s action s' hs hg hstep
    exact hs.step hg hstep
  exact ⟨fun pageNum page hc => h.calls _ hc, h.cache⟩

def twoPages : Option SSTable :=
  (buildWrites (fun _ => 0) 41 [⟨[1], 1, []⟩, ⟨[2], 2, []⟩]).bind fun writes => SSTable.create (contents writes) 3

/-- Two calls one after the other, and a third one that hits the cache while the second one waits. -/
theorem page_reads_alone_hit :
    ∃ t ∈ twoPages, ∃ s ∈ Machine.run (step fun _ => 0) (start t 24)
        [.getPage 0, .seek 0, .read 0, .resume 0, .getPage 1, .getPage 0, .seek 1, .read 1, .resume 1],
      s.calls.length = 3 ∧ (∀ c ∈ s.calls, c.done = true) ∧
        ∀ pageNum page, .returned pageNum page ∈ s.calls → page = t.decodedPage (fun _ => 0) pageNum := by
  obtain ⟨t, ht, hg, s, hs, hlen, hdone⟩ : ∃ t ∈ twoPages, Machine.Guarded (step fun _ => 0) Alone (start t 24)
        [.getPage 0, .seek 0, .read 0, .resume 0, .getPage 1, .getPage 0, .seek 1, .read 1, .resume 1] ∧
      ∃ s ∈ Machine.run (step fun _ => 0) (start t 24)
        [.getPage 0, .seek 0, .read 0, .resume 0, .getPage 1, .getPage 0, .seek 1, .read 1, .resume 1],
      s.calls.length = 3 ∧ ∀ c ∈ s.calls, c.done = true := by decide +kernel
  obtain ⟨writes, -, hcreate⟩ := Option.bind_eq_some_iff.mp ht
  exact ⟨t, ht, s, hs, hlen, hdone, (page_reads_alone (fun _ => 0) (contents writes) 3 24 t hcreate _ hg s hs).1⟩

/-- Two calls for different pages, whose seeks are both made before the first read. The first call gets the second page
and caches it under the number of the first one. -/
theorem overlapping_reads_mix_pages :
    ∃ t ∈ twoPages, t.decodedPage (fun _ => 0) 0 = some ⟨[⟨[1], 1, []⟩]⟩ ∧
      ∃ s ∈ Machine.run (step fun _ => 0) (start t 24)
        [.getPage 0, .getPage 1, .seek 0, .seek 1, .read 0, .resume 0],
      .returned 0 (some ⟨[⟨[2], 2, []⟩]⟩) ∈ s.calls ∧
        (0, ⟨[⟨[2], 2, []⟩]⟩) ∈ s.table.pageCache.entries := by
  decide +kernel

end PageReads

end Disk

end StructureDb
