import Mathlib.Data.List.Sort
import Mathlib.Data.List.Nodup
import Mathlib.Tactic

/-! A flat directory: named files with contents, no name twice. `listing` is what
one gets by listing the names, sorting them and opening the files in that order. -/

structure Dir (ν α : Type) where
  files : List (ν × α)
  nodup : (files.map Prod.fst).Nodup

namespace Dir

variable {ν α : Type}

@[ext] theorem ext {d e : Dir ν α} (h : d.files = e.files) : d = e := by
  cases d; cases e; simpa using h

def empty : Dir ν α := ⟨[], List.nodup_nil⟩

def names (d : Dir ν α) : List ν := d.files.map Prod.fst

theorem mem_names {d : Dir ν α} {n : ν} : n ∈ d.names ↔ ∃ a, (n, a) ∈ d.files := by simp [names]

/-- No name is bound twice. -/
theorem unique {d : Dir ν α} {n : ν} {a b : α} (ha : (n, a) ∈ d.files) (hb : (n, b) ∈ d.files) : a = b := by
  have := List.inj_on_of_nodup_map d.nodup ha hb rfl
  exact (Prod.mk.inj this).2

/-- A list of the same files without repetition is the directory up to order. -/
theorem files_perm {d : Dir ν α} {l : List (ν × α)} (hl : l.Nodup) (h : ∀ f, f ∈ d.files ↔ f ∈ l) :
    l.Perm d.files :=
  (List.perm_ext_iff_of_nodup hl d.nodup.of_map).mpr fun f => (h f).symm

variable [DecidableEq ν]

def unlink (d : Dir ν α) (n : ν) : Dir ν α :=
  ⟨d.files.filter fun f => f.1 ≠ n, d.nodup.sublist (List.filter_sublist.map _)⟩

/-- Unlink the name, then create the file with its whole contents. -/
def create (d : Dir ν α) (n : ν) (a : α) : Dir ν α :=
  ⟨(n, a) :: (d.unlink n).files, by
    rw [List.map_cons, List.nodup_cons]
    refine ⟨?_, (d.unlink n).nodup⟩
    simp [unlink]⟩

/-- Open for appending: an existing file is kept, a missing one starts as `a`. -/
def touch (d : Dir ν α) (n : ν) (a : α) : Dir ν α :=
  if n ∈ d.names then d else d.create n a

/-- Change the contents behind a name; nothing happens to a name that is not linked. -/
def modify (d : Dir ν α) (n : ν) (f : α → α) : Dir ν α :=
  ⟨d.files.map fun x => if x.1 = n then (x.1, f x.2) else x, by
    have h : (d.files.map fun x => if x.1 = n then (x.1, f x.2) else x).map Prod.fst = d.files.map Prod.fst := by
      rw [List.map_map]
      refine List.map_congr_left fun x _ => ?_
      simp only [Function.comp_apply]
      split_ifs <;> rfl
    rw [h]
    exact d.nodup⟩

def unlinkAll (d : Dir ν α) (ns : List ν) : Dir ν α := ns.foldl unlink d

@[simp] theorem mem_unlink {d : Dir ν α} {n : ν} {f : ν × α} :
    f ∈ (d.unlink n).files ↔ f ∈ d.files ∧ f.1 ≠ n := by
  simp [unlink]

@[simp] theorem mem_create {d : Dir ν α} {n : ν} {a : α} {f : ν × α} :
    f ∈ (d.create n a).files ↔ f = (n, a) ∨ f ∈ d.files ∧ f.1 ≠ n := by
  simp [create]

@[simp] theorem mem_unlinkAll {d : Dir ν α} {ns : List ν} {f : ν × α} :
    f ∈ (d.unlinkAll ns).files ↔ f ∈ d.files ∧ f.1 ∉ ns := by
  induction ns generalizing d with
  | nil => simp [unlinkAll]
  | cons n ns ih =>
    rw [unlinkAll, List.foldl_cons, ← unlinkAll, ih, mem_unlink, List.mem_cons, not_or, and_assoc]

theorem mem_touch {d : Dir ν α} {n : ν} {a : α} {f : ν × α} :
    f ∈ (d.touch n a).files ↔ f ∈ d.files ∨ n ∉ d.names ∧ f = (n, a) := by
  unfold touch
  split_ifs with h
  · simp [h]
  · rw [mem_create, or_comm, and_iff_right h]
    refine or_congr_left ⟨And.left, fun hf => ⟨hf, ?_⟩⟩
    rintro rfl
    exact h (mem_names.mpr ⟨f.2, hf⟩)

theorem mem_names_touch (d : Dir ν α) (n : ν) (a : α) : n ∈ (d.touch n a).names := by
  by_cases h : n ∈ d.names
  · rwa [touch, if_pos h]
  · exact mem_names.mpr ⟨a, mem_touch.mpr (Or.inr ⟨h, rfl⟩)⟩

omit [DecidableEq ν] in
theorem mem_of_lookup [BEq ν] [LawfulBEq ν] {d : Dir ν α} {n : ν} {a : α} (h : d.files.lookup n = some a) :
    (n, a) ∈ d.files := by
  obtain ⟨l₁, l₂, hl, -⟩ := List.lookup_eq_some_iff.mp h
  rw [hl]
  simp

omit [DecidableEq ν] in
theorem not_mem_of_lookup [BEq ν] [LawfulBEq ν] {d : Dir ν α} {n : ν} (h : d.files.lookup n = none) (a : α) :
    (n, a) ∉ d.files := by
  intro hf
  have := List.lookup_eq_none_iff.mp h (n, a) hf
  simp at this

theorem names_touch (d : Dir ν α) (n : ν) (a : α) {m : ν} (h : m ∈ d.names) : m ∈ (d.touch n a).names := by
  obtain ⟨b, hb⟩ := mem_names.mp h
  exact mem_names.mpr ⟨b, mem_touch.mpr (Or.inl hb)⟩

theorem names_modify (d : Dir ν α) (n : ν) (f : α → α) : (d.modify n f).names = d.names := by
  rw [names, modify, List.map_map]
  refine List.map_congr_left fun x _ => ?_
  simp only [Function.comp_apply]
  split_ifs <;> rfl

theorem length_modify (d : Dir ν α) (n : ν) (f : α → α) : (d.modify n f).files.length = d.files.length := by
  rw [modify, List.length_map]

theorem length_touch (d : Dir ν α) (n : ν) (a : α) :
    (d.touch n a).files.length = if n ∈ d.names then d.files.length else d.files.length + 1 := by
  unfold touch
  split_ifs with h
  · rfl
  · have hunlink : (d.unlink n).files = d.files := by
      refine List.filter_eq_self.mpr fun f hf => decide_eq_true ?_
      rintro rfl
      exact h (mem_names.mpr ⟨f.2, hf⟩)
    rw [create, List.length_cons, hunlink]

theorem length_le_touch (d : Dir ν α) (n : ν) (a : α) : d.files.length ≤ (d.touch n a).files.length := by
  rw [length_touch]
  split_ifs <;> omega

theorem length_touch_le (d : Dir ν α) (n : ν) (a : α) : (d.touch n a).files.length ≤ d.files.length + 1 := by
  rw [length_touch]
  split_ifs <;> omega

theorem modify_id (d : Dir ν α) (n : ν) : d.modify n id = d := by
  refine ext ?_
  simp [modify]

theorem mem_modify {d : Dir ν α} {n : ν} {g : α → α} {f : ν × α} :
    f ∈ (d.modify n g).files ↔ f ∈ d.files ∧ f.1 ≠ n ∨ ∃ a, (n, a) ∈ d.files ∧ f = (n, g a) := by
  simp only [modify, List.mem_map]
  constructor
  · rintro ⟨x, hx, rfl⟩
    by_cases hn : x.1 = n
    · subst hn
      exact Or.inr ⟨x.2, hx, by simp⟩
    · exact Or.inl (by simpa [hn] using hx)
  · rintro (⟨hf, hn⟩ | ⟨a, ha, rfl⟩)
    · exact ⟨f, hf, by simp [hn]⟩
    · exact ⟨(n, a), ha, by simp⟩

section Map

/-! Two directories that keep the same files in two representations are images of a third one. -/

variable {β : Type}

def map (f : α → β) (d : Dir ν α) : Dir ν β :=
  ⟨d.files.map fun x => (x.1, f x.2), by
    rw [List.map_map]
    exact d.nodup⟩

omit [DecidableEq ν] in
@[simp] theorem names_map (f : α → β) (d : Dir ν α) : (d.map f).names = d.names := by
  simp [names, map, Function.comp_def]

theorem map_unlink (f : α → β) (d : Dir ν α) (n : ν) : (d.unlink n).map f = (d.map f).unlink n := by
  refine ext ?_
  simp only [map, unlink, List.filter_map]
  rfl

theorem map_unlinkAll (f : α → β) (d : Dir ν α) (ns : List ν) : (d.unlinkAll ns).map f = (d.map f).unlinkAll ns := by
  induction ns generalizing d with
  | nil => rfl
  | cons n ns ih => rw [unlinkAll, unlinkAll, List.foldl_cons, List.foldl_cons, ← unlinkAll, ih, map_unlink, unlinkAll]

theorem map_touch (f : α → β) (d : Dir ν α) (n : ν) (a : α) : (d.touch n a).map f = (d.map f).touch n (f a) := by
  unfold touch
  rw [names_map]
  split_ifs with h
  · rfl
  · refine ext ?_
    change (n, f a) :: ((d.unlink n).map f).files = (n, f a) :: ((d.map f).unlink n).files
    rw [map_unlink]

theorem map_modify {f : α → β} {d : Dir ν α} {n : ν} {g : α → α} {g' : β → β}
    (h : ∀ a, (n, a) ∈ d.files → f (g a) = g' (f a)) : (d.modify n g).map f = (d.map f).modify n g' := by
  refine ext ?_
  simp only [map, modify, List.map_map]
  refine List.map_congr_left ?_
  intro x hx
  by_cases hn : x.1 = n
  · subst hn
    simp [h x.2 hx]
  · simp [hn]

end Map

variable [LinearOrder ν]

omit [DecidableEq ν]

/-- The files in name order. -/
def listing (d : Dir ν α) : List (ν × α) := d.files.insertionSort fun a b => a.1 ≤ b.1

theorem listing_perm (d : Dir ν α) : d.listing.Perm d.files := List.perm_insertionSort _ _

@[simp] theorem mem_listing {d : Dir ν α} {f : ν × α} : f ∈ d.listing ↔ f ∈ d.files := d.listing_perm.mem_iff

theorem listing_sorted (d : Dir ν α) : d.listing.Pairwise fun a b => a.1 < b.1 := by
  have hle : d.listing.Pairwise fun a b => a.1 ≤ b.1 := by
    have : Std.Total fun a b : ν × α => a.1 ≤ b.1 := ⟨fun a b => le_total _ _⟩
    have : IsTrans (ν × α) fun a b => a.1 ≤ b.1 := ⟨fun _ _ _ => le_trans⟩
    exact List.pairwise_insertionSort _ _
  have hne : d.listing.Pairwise fun a b => a.1 ≠ b.1 :=
    List.pairwise_map.mp ((d.listing_perm.map Prod.fst).nodup_iff.mpr d.nodup)
  exact (hle.and hne).imp fun h => lt_of_le_of_ne h.1 h.2

/-- Two files are related the way they stand in the listing. -/
theorem related_of_listing {d : Dir ν α} {R : ν × α → ν × α → Prop} (h : d.listing.Pairwise R) {f g : ν × α}
    (hf : f ∈ d.files) (hg : g ∈ d.files) (hne : f ≠ g) : R f g ∨ R g f := by
  have hsymm : Std.Symm fun a b => R a b ∨ R b a := ⟨fun _ _ hab => hab.symm⟩
  have hboth : d.listing.Pairwise fun a b => R a b ∨ R b a := h.imp Or.inl
  exact hboth.forall (mem_listing.mpr hf) (mem_listing.mpr hg) hne

/-- A list of the same files in ascending name order is the listing. -/
theorem listing_eq {d : Dir ν α} {l : List (ν × α)} (hp : l.Perm d.files)
    (hl : l.Pairwise fun a b => a.1 < b.1) : d.listing = l :=
  (d.listing_perm.trans hp.symm).eq_of_pairwise (fun _ _ _ _ h h' => absurd h (lt_asymm h'))
    d.listing_sorted hl

theorem listing_map {β : Type} (f : α → β) (d : Dir ν α) :
    (d.map f).listing = d.listing.map fun x => (x.1, f x.2) := by
  refine listing_eq (d.listing_perm.map _) ?_
  rw [List.pairwise_map]
  exact d.listing_sorted

end Dir
