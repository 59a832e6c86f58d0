import Mathlib.Data.List.Induction
import Mathlib.Tactic.Linarith

namespace Arcux.Codec

abbrev Bytes := List UInt8

def toBE : Nat → Nat → Bytes
  | 0, _ => []
  | width + 1, n => toBE width (n / 256) ++ [UInt8.ofNat n]

def fromBE (bytes : Bytes) : Nat := bytes.foldl (fun acc b => acc * 256 + b.toNat) 0

@[simp] theorem toBE_length (width n : Nat) : (toBE width n).length = width := by
  induction width generalizing n with
  | zero => rfl
  | succ width ih => simp [toBE, ih]

theorem fromBE_concat (bytes : Bytes) (b : UInt8) : fromBE (bytes ++ [b]) = fromBE bytes * 256 + b.toNat := by
  simp [fromBE]

theorem fromBE_lt (bytes : Bytes) : fromBE bytes < 256 ^ bytes.length := by
  induction bytes using List.reverseRecOn with
  | nil => exact Nat.one_pos
  | append_singleton front last ih =>
    rw [fromBE_concat, List.length_append, List.length_singleton, Nat.pow_succ]
    have := last.toNat_lt
    omega

theorem fromBE_toBE (width n : Nat) : fromBE (toBE width n) = n % 256 ^ width := by
  induction width generalizing n with
  | zero => simp [toBE, fromBE, Nat.mod_one]
  | succ width ih =>
    rw [toBE, fromBE_concat, ih, Nat.pow_succ, Nat.mul_comm (256 ^ width) 256, Nat.mod_mul]
    simp only [UInt8.toNat_ofNat', Nat.reducePow]
    omega

theorem fromBE_toBE_of_lt {width n : Nat} (small : n < 256 ^ width) : fromBE (toBE width n) = n := by
  rw [fromBE_toBE, Nat.mod_eq_of_lt small]

theorem toBE_inj {width m n : Nat} (small : m < 256 ^ width) (small' : n < 256 ^ width)
    (same : toBE width m = toBE width n) : m = n := by
  rw [← fromBE_toBE_of_lt small, same, fromBE_toBE_of_lt small']

end Arcux.Codec
