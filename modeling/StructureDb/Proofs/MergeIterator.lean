import StructureDb.Spec.MergeIterator

/-! `MergeIterator` yields what its inputs yield, sorted. Every item of the heap stands for what its
input has left, behind its lookahead record. -/

namespace StructureDb

namespace MergeIterator

variable {V σ Q : Type} [LinearOrder V]

def Sorted (records : List (Record V)) : Prop := records.Pairwise fun r s => ¬ s.operatorLt r

theorem sorted_iff {records : List (Record V)} : Sorted records ↔ records.Pairwise (· ≤ ·) := by
  unfold Sorted
  simp only [← Record.lt_iff_operatorLt, not_lt]

def Rest (I : Cursor σ (Record V)) (i : Item V σ) (records : List (Record V)) : Prop :=
  Sorted records ∧ ∃ rest, records = i.record :: rest ∧ I.Yields i.iterator rest

variable {I : Cursor σ (Record V)} {H : MinHeap Q V σ} {heap heap' : Q} {inputs : List (List (Record V))}

theorem rest_of_perm {items items' : List (Item V σ)} {rests : List (List (Record V))} (hp : items.Perm items')
    (h : List.Forall₂ (Rest I) items' rests) : ∃ rests', List.Forall₂ (Rest I) items rests' ∧ rests'.Perm rests :=
  List.perm_comp_forall₂ hp h

theorem add_holds {rests : List (List (Record V))} {iter : σ} {input : List (Record V)}
    (h : List.Forall₂ (Rest I) (H.items heap) rests) (hyields : I.Yields iter input) (hsorted : Sorted input) :
    ∃ heap' rests', add I H heap iter = some heap' ∧ List.Forall₂ (Rest I) (H.items heap') rests' ∧
      rests'.flatten.Perm (input ++ rests.flatten) := by
  cases input with
  | nil =>
    have hmore : I.hasMore iter = false := hyields
    exact ⟨heap, rests, by rw [add, hmore]; rfl, h, List.Perm.refl _⟩
  | cons record rest =>
    obtain ⟨hmore, s', hnext, hrest⟩ := hyields
    have hitem : Rest I ⟨record, s'⟩ (record :: rest) := ⟨hsorted, rest, rfl, hrest⟩
    obtain ⟨rests', hrests', hperm⟩ := rest_of_perm (H.items_push heap ⟨record, s'⟩) (.cons hitem h)
    refine ⟨H.push heap ⟨record, s'⟩, rests', by rw [add, hmore, hnext]; rfl, hrests', ?_⟩
    exact hperm.flatten

theorem create_holds {iterators : List σ} (hyields : List.Forall₂ I.Yields iterators inputs)
    (hsorted : ∀ input ∈ inputs, Sorted input) :
    ∃ heap rests, create I H iterators = some heap ∧ List.Forall₂ (Rest I) (H.items heap) rests ∧
      rests.flatten.Perm inputs.flatten := by
  -- behind some of the iterators the heap has their inputs
  have hfold : ∀ (heap : Q) (rests : List (List (Record V))), List.Forall₂ (Rest I) (H.items heap) rests →
      ∃ heap' rests', iterators.foldlM (add I H) heap = some heap' ∧ List.Forall₂ (Rest I) (H.items heap') rests' ∧
        rests'.flatten.Perm (inputs.flatten ++ rests.flatten) := by
    induction hyields with
    | nil =>
      intro heap rests h
      exact ⟨heap, rests, rfl, h, List.Perm.refl _⟩
    | @cons iter input iterators inputs hiter _ ih =>
      intro heap rests h
      obtain ⟨heap₁, rests₁, hadd, hrests₁, hperm₁⟩ := add_holds h hiter (hsorted input List.mem_cons_self)
      obtain ⟨heap₂, rests₂, hfold, hrests₂, hperm₂⟩ :=
        ih (fun input hinput => hsorted input (List.mem_cons_of_mem _ hinput)) heap₁ rests₁ hrests₁
      refine ⟨heap₂, rests₂, by rw [List.foldlM_cons, hadd]; exact hfold, hrests₂, ?_⟩
      rw [List.flatten_cons, List.append_assoc]
      exact (hperm₂.trans (hperm₁.append_left _)).trans (List.perm_append_comm_assoc _ _ _)
  obtain ⟨heap, rests, hcreate, hrests, hperm⟩ := hfold H.empty [] (by rw [H.items_empty]; exact .nil)
  exact ⟨heap, rests, hcreate, hrests, by simpa using hperm⟩

/-- The record of the top item is at or below all that the heap will still deliver. -/
theorem top_le {top : Item V σ} {items : List (Item V σ)} {rests : List (List (Record V))}
    (h : List.Forall₂ (Rest I) items rests) (htop : ∀ i ∈ items, ¬ top.operatorLt i) :
    ∀ r ∈ rests.flatten, top.record ≤ r := by
  induction h with
  | nil => simp
  | @cons i records items rests hi _ ih =>
    obtain ⟨hsorted, rest, rfl, -⟩ := hi
    have hle : top.record ≤ i.record := by
      have hnot := htop i List.mem_cons_self
      rw [Item.operatorLt, ← Record.lt_iff_operatorLt] at hnot
      exact not_lt.mp hnot
    intro r hr
    rw [List.flatten_cons, List.mem_append] at hr
    rcases hr with hr | hr
    · rcases List.mem_cons.mp hr with rfl | hr
      · exact hle
      · exact hle.trans ((List.pairwise_cons.mp (sorted_iff.mp hsorted)).1 r hr)
    · exact ih (fun j hj => htop j (List.mem_cons_of_mem _ hj)) r hr

/-- One `Next`: the least record comes out, and the heap keeps the others. -/
theorem next_holds {rests : List (List (Record V))} (h : List.Forall₂ (Rest I) (H.items heap) rests)
    (hmore : H.items heap ≠ []) :
    ∃ r heap' rests', (iterator I H).next heap = some (r, heap') ∧ List.Forall₂ (Rest I) (H.items heap') rests' ∧
      rests.flatten.Perm (r :: rests'.flatten) ∧ ∀ s ∈ rests.flatten, r ≤ s := by
  obtain ⟨top, popped, hpop⟩ := H.pop_isSome hmore
  obtain ⟨hperm, htop⟩ := H.pop_some heap top popped hpop
  obtain ⟨rests₁, hrests₁, hperm₁⟩ := rest_of_perm hperm.symm h
  cases hrests₁ with
  | @cons _ records _ others hitem hothers =>
    obtain ⟨hsorted, rest, rfl, hyields⟩ := hitem
    obtain ⟨heap', rests', hadd, hrests', hperm'⟩ := add_holds hothers hyields hsorted.of_cons
    refine ⟨top.record, heap', rests', ?_, hrests', ?_, top_le h htop⟩
    · simp only [iterator, hpop, Option.bind_some, hadd, Option.map_some]
    · exact hperm₁.symm.flatten.trans (hperm'.symm.cons top.record)

theorem items_eq_nil {items : List (Item V σ)} {rests : List (List (Record V))}
    (h : List.Forall₂ (Rest I) items rests) (hnil : rests.flatten = []) : items = [] := by
  cases h with
  | nil => rfl
  | cons hi _ =>
    obtain ⟨-, rest, rfl, -⟩ := hi
    cases hnil

theorem iterator_yields {rests : List (List (Record V))} (h : List.Forall₂ (Rest I) (H.items heap) rests) :
    ∃ output, (iterator I H).Yields heap output ∧ Sorted output ∧ output.Perm rests.flatten := by
  induction hn : rests.flatten.length generalizing heap rests with
  | zero =>
    have hflat : rests.flatten = [] := List.eq_nil_of_length_eq_zero hn
    exact ⟨[], by simp [Cursor.Yields, iterator, items_eq_nil h hflat], List.Pairwise.nil, by rw [hflat]⟩
  | succ n ih =>
    have hmore : H.items heap ≠ [] := by
      intro hnil
      rw [hnil] at h
      cases h
      simp at hn
    obtain ⟨r, heap', rests', hnext, hrests', hperm, hle⟩ := next_holds h hmore
    have hlen : rests'.flatten.length = n := by
      have := hperm.length_eq
      rw [List.length_cons] at this
      omega
    obtain ⟨output, hyields, hsorted, hout⟩ := ih hrests' hlen
    refine ⟨r :: output, ⟨by simp [iterator, hmore], heap', hnext, hyields⟩, ?_, (hout.cons r).trans hperm.symm⟩
    rw [sorted_iff, List.pairwise_cons]
    exact ⟨fun s hs => hle s (hperm.symm.subset (List.mem_cons_of_mem _ (hout.subset hs))), sorted_iff.mp hsorted⟩

/-- On sorted sequences it is the merge by which scans and compactions are modelled. -/
theorem yields_mergeIterator (H : MinHeap Q V (List (Record V))) (hsorted : ∀ input ∈ inputs, Sorted input) :
    ∃ heap, create Cursor.ofList H inputs = some heap ∧
      (iterator Cursor.ofList H).Yields heap (mergeIterator inputs) := by
  have hyields : List.Forall₂ Cursor.ofList.Yields inputs inputs := by
    rw [List.forall₂_same]
    exact fun input _ => Cursor.ofList_yields input
  obtain ⟨heap, rests, hcreate, hrests, hperm⟩ := create_holds (H := H) hyields hsorted
  obtain ⟨output, hout, hsort, hperm'⟩ := iterator_yields hrests
  refine ⟨heap, hcreate, ?_⟩
  rwa [mergeIterator, KMerge.merge_eq (fun input hinput => sorted_iff.mp (hsorted input hinput))
    (sorted_iff.mp hsort) (hperm'.trans hperm)]

/-- Whatever the iterators are and whichever of equal records the heap takes first. -/
theorem merge_complete (I : Cursor σ (Record V)) (H : MinHeap Q V σ) (iterators : List σ)
    (inputs : List (List (Record V))) (hyields : List.Forall₂ I.Yields iterators inputs)
    (hsorted : ∀ input ∈ inputs, Sorted input) :
    ∃ heap output, create I H iterators = some heap ∧ (iterator I H).Yields heap output ∧ Sorted output ∧
      output.Perm inputs.flatten := by
  obtain ⟨heap, rests, hcreate, hrests, hperm⟩ := create_holds (H := H) hyields hsorted
  obtain ⟨output, hout, hsort, hperm'⟩ := iterator_yields hrests
  exact ⟨heap, output, hcreate, hout, hsort, hperm'.trans hperm⟩

def listHeap : MinHeap (List (Item V σ)) V σ :=
  PriorityQueue.ofKey Item.record fun i j => (Record.lt_iff_operatorLt j.record i.record).symm

/-- Three inputs, of which one is empty and two have an equal record. -/
theorem merge_complete_equal :
    ∃ heap output, create Cursor.ofList (listHeap (V := ℕ))
        [[⟨[1], 2, 5⟩, ⟨[1], 1, 4⟩], [], [⟨[1], 2, 5⟩, ⟨[2], 3, 0⟩]] = some heap ∧
      (iterator Cursor.ofList listHeap).Yields heap output ∧ Sorted output ∧
      output.Perm [⟨[1], 2, 5⟩, ⟨[1], 1, 4⟩, ⟨[1], 2, 5⟩, ⟨[2], 3, 0⟩] :=
  merge_complete Cursor.ofList listHeap [[⟨[1], 2, 5⟩, ⟨[1], 1, 4⟩], [], [⟨[1], 2, 5⟩, ⟨[2], 3, 0⟩]]
    [[⟨[1], 2, 5⟩, ⟨[1], 1, 4⟩], [], [⟨[1], 2, 5⟩, ⟨[2], 3, 0⟩]]
    (.cons (Cursor.ofList_yields _) (.cons (Cursor.ofList_yields _) (.cons (Cursor.ofList_yields _) .nil)))
    (by simp only [sorted_iff]; decide)

end MergeIterator

end StructureDb
