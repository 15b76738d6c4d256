import StructureDb.Spec.Lsm

/-! The file names: formatting is injective, parsing undoes it, and below 10000
the names sort as the numbers do. From 10000 on they do not. -/

namespace StructureDb

theorem digitByte_val {d : ℕ} (h : d < 10) : (digitByte d).val = 48 + d := by
  simp only [digitByte, Fin.ofNat]
  omega

theorem fmt04_undo (n : ℕ) : (fmt04 n).map (fun c => c.val - 48) = Decimal.pad 4 n := by
  rw [fmt04, List.map_map]
  conv_rhs => rw [← List.map_id (Decimal.pad 4 n)]
  apply List.map_congr_left
  intro d hd
  simp only [Function.comp_apply, digitByte_val (Decimal.pad_digit_lt hd), id]
  omega

theorem fmt04_injective : Function.Injective fmt04 := by
  intro a b h
  apply Decimal.pad_injective 4
  rw [← fmt04_undo, h, fmt04_undo]

theorem fmt04_length {n : ℕ} (h : n < 10000) : (fmt04 n).length = 4 := by
  rw [fmt04, List.length_map, Decimal.pad_length (by simpa using h)]

theorem fmt04_lt {a b : ℕ} (hab : a < b) (hb : b < 10000) : fmt04 a < fmt04 b := by
  refine Decimal.map_lt_map ?_ (fun _ => Decimal.pad_digit_lt) (fun _ => Decimal.pad_digit_lt)
    ((Decimal.pad_lt_pad (by omega) (by omega)).mpr hab)
  intro d hd e he hde
  rw [Fin.lt_def, digitByte_val hd, digitByte_val he]
  omega

theorem sstName_injective : Function.Injective sstName := by
  intro a b h
  exact fmt04_injective (List.append_left_injective _ h)

theorem walName_injective : Function.Injective walName := by
  intro a b h
  exact fmt04_injective (List.append_left_injective _ h)

theorem sstName_lt {a b : ℕ} (hab : a < b) (hb : b < 10000) : sstName a < sstName b :=
  Decimal.append_lt_append (by rw [fmt04_length (by omega), fmt04_length hb]) (fmt04_lt hab hb)

theorem walName_lt {a b : ℕ} (hab : a < b) (hb : b < 10000) : walName a < walName b :=
  Decimal.append_lt_append (by rw [fmt04_length (by omega), fmt04_length hb]) (fmt04_lt hab hb)

/-- The four digits run out: the next name sorts before the last one. -/
theorem sstName_10000_lt : sstName 10000 < sstName 9999 := by decide

theorem sstName_one_le {n : ℕ} (h : 1 ≤ n) : sstName 1 ≤ sstName n := by
  rcases Nat.lt_or_ge n 10000 with hn | hn
  · rcases Nat.eq_or_lt_of_le h with rfl | h
    · exact le_rfl
    · exact (sstName_lt h hn).le
  · -- five digits or more: the first one is not 0
    obtain ⟨d, l, hp, hd⟩ := Decimal.pad_head_pos (w := 4) (n := n) (by simpa using hn)
    have hlt : d < 10 := Decimal.pad_digit_lt (w := 4) (n := n) (by simp [hp])
    rw [sstName, sstName, fmt04, fmt04, hp]
    apply le_of_lt
    change (48 : Byte) :: _ < digitByte d :: _
    rw [List.cons_lt_cons_iff]
    left
    rw [Fin.lt_def, digitByte_val hlt]
    change 48 < 48 + d
    omega

theorem stoll_fmt04 (n : ℕ) {c : Byte} {s : Bytes} (hc : ¬(48 ≤ c ∧ c ≤ 57)) :
    stoll (fmt04 n ++ c :: s) = some n := by
  have htake : (fmt04 n ++ c :: s).takeWhile (fun c => 48 ≤ c ∧ c ≤ 57) = fmt04 n := by
    rw [List.takeWhile_append_of_pos, List.takeWhile_cons_of_neg (by simpa using hc), List.append_nil]
    intro b hb
    obtain ⟨d, hd, rfl⟩ := List.mem_map.mp hb
    have hlt := Decimal.pad_digit_lt hd
    simp only [decide_eq_true_eq, Fin.le_def, digitByte_val hlt]
    change 48 ≤ 48 + d ∧ 48 + d ≤ 57
    omega
  have hval : Decimal.val ((fmt04 n).map fun c => c.val - 48) = n := by rw [fmt04_undo, Decimal.val_pad]
  have hne : fmt04 n ≠ [] := by
    intro he
    have hlen := congrArg List.length (fmt04_undo n)
    simp only [he, List.map_nil, List.length_nil, Decimal.pad, List.length_append,
      List.length_replicate, List.length_reverse] at hlen
    omega
  unfold stoll
  rw [htake]
  split
  · contradiction
  · rw [hval]

@[simp] theorem getSSTableNo_sstName (n : ℕ) : getSSTableNo (sstName n) = n := by
  rw [getSSTableNo, sstName, sstSuffix, stoll_fmt04 n (by decide)]

end StructureDb
