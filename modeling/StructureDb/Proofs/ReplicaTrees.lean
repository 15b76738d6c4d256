import StructureDb.Proofs.Complete
import StructureDb.Proofs.Reopened

/-! A tree that is behind a log of consecutive numbers: it has the first records of the log, at least
a certain number of them. Applying the record with the next number brings it one further, and a record that is
there already changes nothing; a crash takes it back to what is in its files. -/

namespace StructureDb.Lsm

section Numbers

variable {V : Type} {log : List (Record V)}

abbrev FromOne (log : List (Record V)) : Prop := Consecutive.From Record.seqNo 1 log

theorem FromOne.seqNo_eq (h : FromOne log) {i : ℕ} {r : Record V} (hr : log[i]? = some r) : r.seqNo = i + 1 := by
  have hlt := (List.getElem?_eq_some_iff.mp hr).1
  have hseq : (log.map Record.seqNo)[i]? = some r.seqNo := by
    rw [List.getElem?_map, hr]
    rfl
  rw [h.map_eq, List.getElem?_range' hlt] at hseq
  have := Option.some.inj hseq
  omega

theorem FromOne.take (h : FromOne log) (k : ℕ) : FromOne (log.take k) := by
  rw [← List.take_append_drop k log] at h
  exact (Consecutive.from_append.mp h).1

end Numbers

variable {V : Type} [LinearOrder V] {l : Lsm V} {log log' : List (Record V)} {n : ℕ}

theorem FromOne.pending (h : FromOne log) (l : Lsm V) : l.pending log = log.drop l.maxPersistentSeqNo := by
  rw [← h.filter_lt (n := 0), Lsm.pending]
  simp only [Nat.zero_add]

/-- The versions of a key from the newest to the oldest. -/
theorem Complete.records_of_key (h : l.Complete log) (ho : l.Ordered) (hlog : FromOne log) (key : Bytes) :
    l.records.filter (fun r => r.key = key) = (log.filter fun r => r.key = key).reverse := by
  have hsorted := ho.scanKey_sorted key
  rw [scanKey_eq_filter ho.sorted] at hsorted
  refine List.Perm.eq_of_pairwise (fun a b _ _ => (le_antisymm : a ≤ b → b ≤ a → a = b)) hsorted ?_
    ((h.records.filter _).trans (List.reverse_perm _).symm)
  rw [List.pairwise_reverse]
  have hascending : log.Pairwise fun a b => a.seqNo < b.seqNo := by
    rw [← List.pairwise_map, hlog.map_eq]
    exact List.pairwise_lt_range' ..
  refine (hascending.filter _).imp_of_mem ?_
  intro a b ha hb hlt
  have hkey : b.key = a.key :=
    (of_decide_eq_true (List.mem_filter.mp hb).2).trans (of_decide_eq_true (List.mem_filter.mp ha).2).symm
  exact ((Record.lt_iff b a).mpr (Or.inr ⟨hkey, Or.inl hlt⟩)).le

theorem Complete.mark (h : l.Complete log) : l.maxPersistentSeqNo ≤ log.length := by
  have hnext := h.recoverable.next
  have := h.next
  omega

/-- `Init` finds the records up to the greatest number in the files. -/
theorem Complete.reopen (h : l.Complete log) (hlog : FromOne log) :
    (init l.dir).Complete (log.take l.maxPersistentSeqNo) := by
  have hmax := h.recoverable.init_maxPersistentSeqNo
  have htables := h.reopened_tables
  have hlen : (log.take l.maxPersistentSeqNo).length = l.maxPersistentSeqNo := by
    rw [List.length_take, Nat.min_eq_left h.mark]
  refine ⟨(Recoverable.init_recoverable l.dir).congr ?_, ?_, ?_, ?_, ?_⟩
  · rw [(hlog.take _).pending, hmax, List.drop_of_length_le hlen.le]
    rfl
  · have hss : (init l.dir).records.Perm l.ssRecords := by
      rw [records_eq, ssRecords, ssRecords]
      exact (((List.reverse_perm _).trans htables).trans (List.reverse_perm _).symm).map _ |>.flatten
    refine hss.trans ((List.perm_append_left_iff l.memRecords).mp ?_)
    rw [← records_eq]
    refine h.records.trans ?_
    -- those in memory are the others
    have hmem := h.recoverable.inMemory
    rw [hlog.pending] at hmem
    have hsplit : log.Perm (log.drop l.maxPersistentSeqNo ++ log.take l.maxPersistentSeqNo) := by
      nth_rewrite 1 [← List.take_append_drop l.maxPersistentSeqNo log]
      exact List.perm_append_comm
    exact hsplit.trans (hmem.symm.append_right _)
  · rw [hlen, ← hmax]
    rfl
  · rw [htables.length_eq]
    exact (htables.map _).trans h.paths
  · intro f
    exact (h.files f).trans (htables.map _).mem_iff.symm

/-- At least the first `n` records of the log and no others than those of the log. -/
structure Has (l : Lsm V) (log : List (Record V)) (n : ℕ) : Prop where
  first : ∃ k, n ≤ k ∧ k ≤ log.length ∧ l.Complete (log.take k)
  ordered : l.Ordered
  numbered : l.Numbered

namespace Has

theorem empty (log : List (Record V)) : (init (Dir.empty : Dir Bytes (List (Record V)))).Has log 0 :=
  ⟨⟨0, le_rfl, Nat.zero_le _, Complete.empty⟩, (LevelsOk.nil _).empty_cons, numbered_empty⟩

theorem grows (h : l.Has log n) (hp : log <+: log') : l.Has log' n := by
  obtain ⟨k, hn, hk, hc⟩ := h.first
  refine ⟨⟨k, hn, hk.trans hp.length_le, ?_⟩, h.ordered, h.numbered⟩
  obtain ⟨more, rfl⟩ := hp
  rwa [List.take_append_of_le_length hk]

theorem le (h : l.Has log n) {m : ℕ} (hm : m ≤ n) : l.Has log m := by
  obtain ⟨k, hn, hk, hc⟩ := h.first
  exact ⟨⟨k, hm.trans hn, hk, hc⟩, h.ordered, h.numbered⟩

theorem flush (h : l.Has log n) (hs : l.FlushSafe) : l.flush.Has log n := by
  obtain ⟨k, hn, hk, hc⟩ := h.first
  exact ⟨⟨k, hn, hk, hc.flush⟩, flush_ordered h.ordered, h.numbered.flush hs⟩

/-- A record that follows the first ones, or is one of them. -/
theorem putSeq (h : l.Has log n) (hlog : FromOne log) (o : Options) {i : ℕ} {r : Record V} (hr : log[i]? = some r)
    (hi : i ≤ n) : (l.putSeq o r.seqNo r.key r.value).1.Has log (max n (i + 1)) := by
  obtain ⟨k, hn, hk, hc⟩ := h.first
  have hnumber := hlog.seqNo_eq hr
  have hlt := (List.getElem?_eq_some_iff.mp hr).1
  have hnext : l.nextSeqNo = k + 1 := by rw [hc.next, List.length_take, Nat.min_eq_left hk]
  by_cases hik : i = k
  · subst hik
    obtain rfl : n = i := le_antisymm hn hi
    have hput : l.putSeq o r.seqNo r.key r.value = ((l.put o r.key r.value).1, true) := by
      rw [hnumber, ← hnext, putSeq_next]
    have hrecord : (⟨r.key, l.nextSeqNo, r.value⟩ : Record V) = r := by rw [hnext, ← hnumber]
    have hcomplete := hc.put o r.key r.value
    rw [hrecord] at hcomplete
    rw [hput]
    refine ⟨⟨n + 1, by omega, hlt, ?_⟩, put_ordered o h.ordered _ _, h.numbered.put o _ _⟩
    rw [List.take_add_one, hr]
    exact hcomplete
  · have hne : r.seqNo ≠ l.nextSeqNo := by omega
    have hput : (l.putSeq o r.seqNo r.key r.value).1 = l := by rw [Lsm.putSeq, if_pos hne]
    rw [hput]
    exact ⟨⟨k, by omega, hk, hc⟩, h.ordered, h.numbered⟩

theorem reopen (h : l.Has log n) (hlog : FromOne log) : (init l.dir).Has log 0 := by
  obtain ⟨k, -, hk, hc⟩ := h.first
  have hmark := hc.mark
  rw [List.length_take, Nat.min_eq_left hk] at hmark
  have hreopen := hc.reopen (hlog.take k)
  rw [List.take_take, Nat.min_eq_left hmark] at hreopen
  refine ⟨⟨_, Nat.zero_le _, hmark.trans hk, hreopen⟩, h.numbered.reopen_ordered h.ordered, ?_⟩
  have hss : (init l.dir).ssTables = l.ssTables := h.numbered.backed.reload
  exact ⟨hss ▸ h.numbered.numbers, fun f => hss ▸ h.numbered.files f⟩

theorem replay (h : l.Has log 0) (hlog : FromOne log) (o : Options) (hp : log' <+: log) :
    (l.replay o log').Has log log'.length := by
  induction log' using List.reverseRecOn with
  | nil => exact h
  | append_singleton log' r ih =>
    have hget : log[log'.length]? = some r := by
      obtain ⟨rest, rfl⟩ := hp
      simp
    have hput := (ih ((List.prefix_append _ _).trans hp)).putSeq hlog o hget le_rfl
    rw [Nat.max_eq_right (Nat.le_succ _)] at hput
    rw [Lsm.replay, List.foldl_append, List.length_append]
    exact hput

end Has

end StructureDb.Lsm
