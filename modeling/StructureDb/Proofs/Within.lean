import StructureDb.Proofs.Restart

/-! Properties of all the records that a tree holds, in memory, in open tables or in
files: what is put in is all there ever is. -/

namespace StructureDb.Lsm

variable {V : Type} [LinearOrder V]

structure Within (S : Record V → Prop) (l : Lsm V) : Prop where
  records : ∀ r ∈ l.records, S r
  files : ∀ f ∈ l.dir.files, ∀ r ∈ f.2, S r

variable {S S' : Record V → Prop} {l : Lsm V}

theorem Within.mono (h : l.Within S) (hS : ∀ r, S r → S' r) : l.Within S' :=
  ⟨fun r hr => hS r (h.records r hr), fun f hf r hr => hS r (h.files f hf r hr)⟩

theorem within_reopen (h : ∀ f ∈ l.dir.files, ∀ r ∈ f.2, S r) : (init l.dir).Within S := by
  refine ⟨?_, h⟩
  intro r hr
  rw [records, init_levels] at hr
  obtain ⟨a, ha, hr⟩ := List.mem_flatten.mp hr
  rcases List.mem_cons.mp ha with rfl | ha
  · cases hr
  · obtain ⟨f, hf, rfl⟩ := List.mem_map.mp ha
    exact h f (Dir.mem_listing.mp (List.mem_reverse.mp hf)) r hr

theorem within_empty : (init (Dir.empty : Dir Bytes (List (Record V)))).Within S := by
  refine within_reopen (l := init Dir.empty) ?_
  intro f hf
  cases hf

theorem Within.doPut (h : l.Within S) (o : Options) (seqNo : ℕ) (key : Bytes) (value : V)
    (hr : S ⟨key, seqNo, value⟩) : (doPut o l seqNo key value).Within S := by
  refine ⟨?_, ?_⟩
  · intro r hm
    rcases List.mem_cons.mp ((doPut_records_perm o l seqNo key value).mem_iff.mp hm) with rfl | hm
    · exact hr
    · exact h.records r hm
  · rw [doPut_dir]
    exact h.files

theorem Within.put (h : l.Within S) (o : Options) (key : Bytes) (value : V) (hr : S ⟨key, l.nextSeqNo, value⟩) :
    (put o l key value).1.Within S :=
  Within.doPut (l := { l with nextSeqNo := l.nextSeqNo + 1 }) ⟨h.records, h.files⟩ o _ _ _ hr

theorem Within.putSeq (h : l.Within S) (o : Options) (seqNo : ℕ) (key : Bytes) (value : V)
    (hr : S ⟨key, seqNo, value⟩) : (putSeq o l seqNo key value).1.Within S := by
  unfold Lsm.putSeq
  split_ifs
  · exact h
  · have hput := h.doPut o seqNo key value hr
    exact ⟨hput.records, hput.files⟩

theorem Within.replay (h : l.Within S) (o : Options) {log : List (Record V)} (hlog : ∀ r ∈ log, S r) :
    (l.replay o log).Within S := by
  induction log generalizing l with
  | nil => exact h
  | cons r log ih =>
    obtain ⟨hr, hlog⟩ := List.forall_mem_cons.mp hlog
    exact ih (h.putSeq o r.seqNo r.key r.value hr) hlog

theorem Within.flushFront (h : l.Within S) : l.flushFront.Within S := by
  refine ⟨?_, ?_⟩
  · rw [Lsm.records, flushFront_levels]
    exact h.records
  · unfold Lsm.flushFront
    split
    · exact h.files
    · rename_i m rest hro
      intro f hf
      rcases Dir.mem_create.mp hf with rfl | ⟨hf, -⟩
      · intro r hr
        refine h.records r (List.mem_flatten.mpr ⟨m.impl, mem_levels.mpr (Or.inr (Or.inl ⟨m, ?_, rfl⟩)), hr⟩)
        rw [hro]
        exact List.mem_cons_self
      · exact h.files f hf

theorem Within.flush (h : l.Within S) : l.flush.Within S :=
  flush_of_flushFront (fun _ hm => hm.flushFront) h

theorem Within.compact (h : l.Within S) {strategy : List (Record V) → List (Record V)}
    (hs : ∀ rows, (∀ r ∈ rows, S r) → ∀ r ∈ strategy rows, S r) : (l.compact strategy).Within S := by
  have hout : ∀ r ∈ strategy l.mergedRecords, S r := by
    refine hs _ fun r hr => h.records r ?_
    rw [records_eq]
    exact List.mem_append_right _ (l.mergedRecords_perm.mem_iff.mp hr)
  refine ⟨?_, ?_⟩
  · intro r hr
    rw [compact_records] at hr
    rcases List.mem_append.mp hr with hr | hr
    · refine h.records r ?_
      rw [records_eq]
      exact List.mem_append_left _ hr
    · exact hout r hr
  · intro f hf
    rcases Dir.mem_create.mp (Dir.mem_unlinkAll.mp hf).1 with rfl | ⟨hf, -⟩
    · exact hout
    · exact h.files f hf

end StructureDb.Lsm
