import Mathlib.Data.Nat.ModEq
import Mathlib.Data.List.Basic
import Mathlib.Tactic

/-! Numbers as a fixed number of bytes, least significant byte first. -/

namespace LittleEndian

/-- The `width` low bytes of `n`. -/
def encode : ℕ → ℕ → List (Fin 256)
  | 0, _ => []
  | width + 1, n => Fin.ofNat 256 n :: encode width (n / 256)

/-- The number that the bytes spell. -/
def decode : List (Fin 256) → ℕ
  | [] => 0
  | byte :: bytes => byte.val + 256 * decode bytes

@[simp] theorem length_encode (width n : ℕ) : (encode width n).length = width := by
  induction width generalizing n with
  | zero => rfl
  | succ width ih => rw [encode, List.length_cons, ih]

theorem decode_encode (width n : ℕ) : decode (encode width n) = n % 256 ^ width := by
  induction width generalizing n with
  | zero => simp [encode, decode, Nat.mod_one]
  | succ width ih =>
    rw [encode, decode, ih, pow_succ', Nat.mod_mul]
    rfl

theorem decode_lt (bytes : List (Fin 256)) : decode bytes < 256 ^ bytes.length := by
  induction bytes with
  | nil => simp [decode]
  | cons byte bytes ih =>
    rw [decode, List.length_cons, pow_succ]
    have := byte.isLt
    omega

theorem encode_decode (bytes : List (Fin 256)) : encode bytes.length (decode bytes) = bytes := by
  induction bytes with
  | nil => rfl
  | cons byte bytes ih =>
    have hbyte : Fin.ofNat 256 (byte.val + 256 * decode bytes) = byte := by
      apply Fin.ext
      rw [Fin.val_ofNat, Nat.add_mul_mod_self_left]
      exact Nat.mod_eq_of_lt byte.isLt
    have hrest : (byte.val + 256 * decode bytes) / 256 = decode bytes := by
      have := byte.isLt
      omega
    rw [decode, List.length_cons, encode, hbyte, hrest, ih]

theorem decode_replicate_zero (width : ℕ) : decode (List.replicate width 0) = 0 := by
  induction width with
  | zero => rfl
  | succ width ih => simp [List.replicate_succ, decode, ih]

end LittleEndian
