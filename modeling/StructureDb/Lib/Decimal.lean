import Mathlib.Data.Nat.Digits.Lemmas
import Mathlib.Data.List.Lex
import Mathlib.Tactic

/-! Zero-padded decimal text, most significant digit first, and how it compares
lexicographically. Two numbers that both fit in the padded width compare as
text exactly as they compare as numbers; a number that outgrows the width
starts with a nonzero digit, and sorts behind a shorter one only if its leading
digits are not below it. -/

namespace Decimal

/-- Text of one length keeps its order under any two suffixes. -/
theorem append_lt_append {α : Type*} [LT α] {l m x y : List α} (hlen : l.length = m.length) (h : l < m) :
    l ++ x < m ++ y := by
  induction l generalizing m with
  | nil =>
    obtain rfl := List.eq_nil_of_length_eq_zero hlen.symm
    exact absurd h (List.not_lt_nil _)
  | cons a l ih =>
    obtain ⟨b, m, rfl⟩ := List.exists_cons_of_length_eq_add_one hlen.symm
    rw [List.cons_append, List.cons_append, List.cons_lt_cons_iff]
    rcases List.cons_lt_cons_iff.mp h with hab | ⟨hab, ht⟩
    · exact Or.inl hab
    · exact Or.inr ⟨hab, ih (by simpa using hlen) ht⟩

/-- The digits `"{:0wd}"` prints for `n` when `0 < w`. -/
def pad (w n : ℕ) : List ℕ :=
  List.replicate (w - (Nat.digits 10 n).length) 0 ++ (Nat.digits 10 n).reverse

/-- The number a digit string spells. -/
def val (l : List ℕ) : ℕ := l.foldl (fun acc d => 10 * acc + d) 0

theorem val_acc (l : List ℕ) (acc : ℕ) :
    l.foldl (fun acc d => 10 * acc + d) acc = acc * 10 ^ l.length + val l := by
  induction l generalizing acc with
  | nil => simp [val]
  | cons d l ih =>
    simp only [List.foldl_cons, List.length_cons, val]
    rw [ih (10 * acc + d), ih (10 * 0 + d), pow_succ]
    ring

theorem val_cons (d : ℕ) (l : List ℕ) : val (d :: l) = d * 10 ^ l.length + val l := by
  have h := val_acc l (10 * 0 + d)
  simp only [Nat.mul_zero, Nat.zero_add] at h
  simpa [val] using h

theorem val_append_singleton (l : List ℕ) (d : ℕ) : val (l ++ [d]) = 10 * val l + d := by
  simp [val, List.foldl_append]

theorem val_reverse (l : List ℕ) : val l.reverse = Nat.ofDigits 10 l := by
  induction l with
  | nil => rfl
  | cons d l ih =>
    rw [List.reverse_cons, val_append_singleton, ih, Nat.ofDigits_cons, Nat.add_comm]

theorem val_replicate_zero_append (k : ℕ) (l : List ℕ) : val (List.replicate k 0 ++ l) = val l := by
  induction k with
  | zero => rfl
  | succ k ih => rw [List.replicate_succ, List.cons_append, val_cons, Nat.zero_mul, Nat.zero_add, ih]

theorem val_pad (w n : ℕ) : val (pad w n) = n := by
  rw [pad, val_replicate_zero_append, val_reverse, Nat.ofDigits_digits]

theorem pad_injective (w : ℕ) : Function.Injective (pad w) := by
  intro a b h
  rw [← val_pad w a, h, val_pad]

theorem pad_digit_lt {w n d : ℕ} (h : d ∈ pad w n) : d < 10 := by
  rcases List.mem_append.mp h with h | h
  · rw [List.eq_of_mem_replicate h]; decide
  · exact Nat.digits_lt_base (by decide) (List.mem_reverse.mp h)

theorem pad_length {w n : ℕ} (h : n < 10 ^ w) : (pad w n).length = w := by
  have hl : (Nat.digits 10 n).length ≤ w := (Nat.digits_length_le_iff (by decide) n).mpr h
  simp only [pad, List.length_append, List.length_replicate, List.length_reverse]
  omega

theorem val_lt {l : List ℕ} (h : ∀ d ∈ l, d < 10) : val l < 10 ^ l.length := by
  induction l with
  | nil => simp [val]
  | cons d l ih =>
    have hd := h d (by simp)
    have hl := ih (fun e he => h e (by simp [he]))
    rw [val_cons, List.length_cons, pow_succ]
    nlinarith

/-- Digit strings of one length compare as the numbers they spell. -/
theorem lt_iff_val_lt {l m : List ℕ} (hlen : l.length = m.length)
    (hl : ∀ d ∈ l, d < 10) (hm : ∀ d ∈ m, d < 10) : l < m ↔ val l < val m := by
  induction l generalizing m with
  | nil =>
    obtain rfl := List.eq_nil_of_length_eq_zero hlen.symm
    simp
  | cons d l ih =>
    obtain ⟨e, m, rfl⟩ := List.exists_cons_of_length_eq_add_one hlen.symm
    simp only [List.length_cons, Nat.add_right_cancel_iff] at hlen
    have hl' : ∀ x ∈ l, x < 10 := fun x hx => hl x (by simp [hx])
    have hm' : ∀ x ∈ m, x < 10 := fun x hx => hm x (by simp [hx])
    have hvl := val_lt hl'
    have hvm := val_lt hm'
    rw [List.cons_lt_cons_iff, ih hlen hl' hm', val_cons, val_cons, hlen]
    rw [hlen] at hvl
    constructor
    · rintro (h | ⟨rfl, h⟩)
      · have := Nat.mul_le_mul_right (10 ^ m.length) (show d + 1 ≤ e from h)
        rw [Nat.add_mul] at this
        omega
      · omega
    · intro h
      rcases lt_trichotomy d e with hde | hde | hde
      · exact Or.inl hde
      · subst hde
        exact Or.inr ⟨rfl, by omega⟩
      · have := Nat.mul_le_mul_right (10 ^ m.length) (show e + 1 ≤ d from hde)
        rw [Nat.add_mul] at this
        omega

theorem pad_lt_pad {w a b : ℕ} (ha : a < 10 ^ w) (hb : b < 10 ^ w) : pad w a < pad w b ↔ a < b := by
  rw [lt_iff_val_lt (by rw [pad_length ha, pad_length hb]) (fun _ => pad_digit_lt)
    (fun _ => pad_digit_lt), val_pad, val_pad]

/-- An encoding of the digits that keeps their order keeps the order of digit strings. -/
theorem map_lt_map {α : Type*} [LT α] {f : ℕ → α} (hf : ∀ d < 10, ∀ e < 10, d < e → f d < f e)
    {l m : List ℕ} (hl : ∀ d ∈ l, d < 10) (hm : ∀ d ∈ m, d < 10) (h : l < m) : l.map f < m.map f := by
  induction l generalizing m with
  | nil =>
    cases m with
    | nil => exact absurd h (List.not_lt_nil _)
    | cons e m => exact List.nil_lt_cons _ _
  | cons d l ih =>
    cases m with
    | nil => exact absurd h (List.not_lt_nil _)
    | cons e m =>
      rw [List.map_cons, List.map_cons, List.cons_lt_cons_iff]
      rcases List.cons_lt_cons_iff.mp h with hde | ⟨rfl, ht⟩
      · exact Or.inl (hf d (hl d (by simp)) e (hm e (by simp)) hde)
      · exact Or.inr ⟨rfl, ih (fun x hx => hl x (by simp [hx])) (fun x hx => hm x (by simp [hx])) ht⟩

/-- A number too large for the width is printed without padding. -/
theorem pad_of_le {w n : ℕ} (h : 10 ^ w ≤ n) : pad w n = (Nat.digits 10 n).reverse := by
  have hl : w < (Nat.digits 10 n).length := by
    by_contra hc
    have := (Nat.digits_length_le_iff (by decide) n).mp (not_lt.mp hc)
    omega
  rw [pad, Nat.sub_eq_zero_of_le hl.le, List.replicate_zero, List.nil_append]

theorem pad_head_pos {w n : ℕ} (h : 10 ^ w ≤ n) : ∃ d l, pad w n = d :: l ∧ 0 < d := by
  have hn : n ≠ 0 := by
    have := Nat.pos_of_ne_zero (pow_ne_zero w (by decide : (10 : ℕ) ≠ 0))
    omega
  have hne : Nat.digits 10 n ≠ [] := Nat.digits_ne_nil_iff_ne_zero.mpr hn
  have hlast := Nat.getLast_digit_ne_zero 10 hn
  refine ⟨(Nat.digits 10 n).getLast hne, (Nat.digits 10 n).dropLast.reverse, ?_,
    Nat.pos_of_ne_zero hlast⟩
  rw [pad_of_le h]
  conv_lhs => rw [← List.dropLast_append_getLast hne]
  rw [List.reverse_append]
  rfl

/-- How many digits `pad w n` has. -/
def width (w n : ℕ) : ℕ := max w (Nat.digits 10 n).length

theorem length_pad (w n : ℕ) : (pad w n).length = width w n := by
  simp only [pad, width, List.length_append, List.length_replicate, List.length_reverse]
  omega

theorem width_mono (w : ℕ) {a b : ℕ} (h : a ≤ b) : width w a ≤ width w b :=
  max_le_max le_rfl (Nat.le_length_digits_le 10 a b h)

theorem val_append (l m : List ℕ) : val (l ++ m) = val l * 10 ^ m.length + val m := by
  rw [val, List.foldl_append, val_acc]
  rfl

/-- The leading digits spell the quotient. -/
theorem val_eq_div {l m : List ℕ} (hm : ∀ d ∈ m, d < 10) : val l = val (l ++ m) / 10 ^ m.length := by
  rw [val_append, Nat.add_comm, Nat.add_mul_div_right _ _ (by positivity), Nat.div_eq_of_lt (val_lt hm), Nat.zero_add]

section Text

variable {α : Type*} [LinearOrder α] {f : ℕ → α} {c : α}

/-- Digit strings of different lengths, each ended by a character below all digits: the shorter one comes first
exactly when it is not above the beginning of the longer one. -/
theorem text_lt_text (hf : ∀ d < 10, ∀ e < 10, d < e → f d < f e) (hc : ∀ d < 10, c < f d) {l m n : List ℕ}
    (hlen : l.length = m.length) (hl : ∀ d ∈ l, d < 10) (hm : ∀ d ∈ m ++ n, d < 10) (s t : List α)
    (hne : n = [] → val l ≠ val m) :
    l.map f ++ c :: s < (m ++ n).map f ++ c :: t ↔ val l ≤ val m := by
  have hm' : ∀ d ∈ m, d < 10 := fun d hd => hm d (List.mem_append_left _ hd)
  rw [List.map_append, List.append_assoc]
  rcases lt_trichotomy (val l) (val m) with h | h | h
  · have hlt := map_lt_map hf hl hm' ((lt_iff_val_lt hlen hl hm').mpr h)
    exact iff_of_true (append_lt_append (by simpa using hlen) hlt) h.le
  · have he : l = m := by
      rcases lt_trichotomy l m with h' | h' | h'
      · exact absurd ((lt_iff_val_lt hlen hl hm').mp h') h.not_lt
      · exact h'
      · exact absurd ((lt_iff_val_lt hlen.symm hm' hl).mp h') h.not_gt
    subst he
    refine iff_of_true ?_ h.le
    cases n with
    | nil => exact absurd h (hne rfl)
    | cons d n =>
      have hd : d < 10 := hm d (by simp)
      exact List.append_left_lt (List.cons_lt_cons_iff.mpr (Or.inl (hc d hd)))
  · have hlt := map_lt_map hf hm' hl ((lt_iff_val_lt hlen.symm hm' hl).mpr h)
    exact iff_of_false (lt_asymm (append_lt_append (by simpa using hlen.symm) hlt)) h.not_ge

/-- Of two numbers printed with a minimal width, the smaller one sorts first exactly when it is not above the leading
digits of the greater one. -/
theorem pad_text_lt (hf : ∀ d < 10, ∀ e < 10, d < e → f d < f e) (hc : ∀ d < 10, c < f d) (w : ℕ) {a b : ℕ}
    (hab : a < b) (s t : List α) :
    (pad w a).map f ++ c :: s < (pad w b).map f ++ c :: t ↔ a * 10 ^ (width w b - width w a) ≤ b := by
  have hw := width_mono w hab.le
  have hsplit := List.take_append_drop (width w a) (pad w b)
  have hdrop : ((pad w b).drop (width w a)).length = width w b - width w a := by
    rw [List.length_drop, length_pad]
  have hval : val ((pad w b).take (width w a)) = b / 10 ^ (width w b - width w a) := by
    rw [val_eq_div (m := (pad w b).drop (width w a)) fun d hd => pad_digit_lt (List.mem_of_mem_drop hd), hsplit,
      val_pad, hdrop]
  have key := text_lt_text hf hc (l := pad w a) (m := (pad w b).take (width w a)) (n := (pad w b).drop (width w a))
    (by rw [length_pad, List.length_take, length_pad, min_eq_left hw]) (fun _ => pad_digit_lt)
    (by rw [hsplit]; exact fun _ => pad_digit_lt) s t (by
      intro hnil
      rw [hnil, List.length_nil] at hdrop
      rw [val_pad, hval, ← hdrop, pow_zero, Nat.div_one]
      exact hab.ne)
  rw [hsplit, val_pad, hval, Nat.le_div_iff_mul_le (by positivity)] at key
  exact key

end Text

end Decimal
