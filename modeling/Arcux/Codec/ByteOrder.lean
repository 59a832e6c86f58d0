import Arcux.Codec.BigEndian
import Mathlib.Data.List.Lex

namespace Arcux.Codec

open List

section

variable {α : Type} [LinearOrder α]

theorem append_lt_append_iff (common x y : List α) : common ++ x < common ++ y ↔ x < y := by
  induction common with
  | nil => rfl
  | cons head rest ih => simp [ih]

theorem le_append (l x : List α) : l ≤ l ++ x := by
  refine le_of_not_gt fun less => not_lt_nil x ?_
  rwa [← append_lt_append_iff l, append_nil]

variable {a b : List α}

theorem append_lt_append_of_apart (left : ¬ a <+: b) (right : ¬ b <+: a) (x y : List α) :
    a ++ x < b ++ y ↔ a < b := by
  induction a generalizing b with
  | nil => exact absurd ( nil_prefix ..) left
  | cons head rest ih =>
    cases b with
    | nil => exact absurd ( nil_prefix ..) right
    | cons head' rest' =>
      rcases eq_or_ne head head' with rfl | differ
      · have tails := ih (b := rest') (by simpa [cons_prefix_cons] using left)
          (by simpa [cons_prefix_cons] using right)
        simp [tails]
      · simp [cons_lt_cons_iff, differ]

theorem append_lt_append_of_length (same : a.length = b.length) (x y : List α) :
    a ++ x < b ++ y ↔ a < b ∨ a = b ∧ x < y := by
  rcases eq_or_ne a b with rfl | differ
  · simp [append_lt_append_iff]
  · have apart : ∀ {c d : List α}, c.length = d.length → c ≠ d → ¬ c <+: d :=
      fun lengths distinct start => distinct (start.eq_of_length lengths)
    simp [append_lt_append_of_apart (apart same differ) (apart same.symm differ.symm), differ]

theorem concat_le_iff {least : α} (bottom : ∀ a, least ≤ a) (l x : List α) : l ++ [least] ≤ x ↔ l < x := by
  rw [← not_lt, ← not_iff_not, not_not]
  induction l generalizing x with
  | nil =>
    cases x with
    | nil => simp
    | cons head rest => simp [cons_lt_cons_iff, (bottom head).not_gt]
  | cons first rest ih =>
    cases x with
    | nil => simp
    | cons head tail =>
      simp only [cons_append, cons_lt_cons_iff, ih]
      grind

end

namespace ByteOrder

scoped instance instLinearOrderUInt8 : LinearOrder UInt8 where
  le_refl _ := UInt8.le_refl _
  le_trans _ _ _ := UInt8.le_trans
  lt_iff_le_not_ge _ _ := by grind
  le_antisymm _ _ := UInt8.le_antisymm
  le_total := UInt8.le_total
  toDecidableLE := inferInstance
  toDecidableEq := inferInstance
  toDecidableLT := inferInstance

scoped instance : OrderBot Bytes where
  bot := []
  bot_le := le_append []

variable {width m n : Nat}

theorem toBE_lt_toBE (small : m < 256 ^ width) (small' : n < 256 ^ width) : toBE width m < toBE width n ↔ m < n := by
  induction width generalizing m n with
  | zero => simp at small small'; simp [toBE, small, small']
  | succ width ih =>
    have high : m / 256 < 256 ^ width := Nat.div_lt_of_lt_mul (by rwa [Nat.pow_succ, Nat.mul_comm] at small)
    have high' : n / 256 < 256 ^ width := Nat.div_lt_of_lt_mul (by rwa [Nat.pow_succ, Nat.mul_comm] at small')
    have equal : toBE width (m / 256) = toBE width (n / 256) ↔ m / 256 = n / 256 :=
      ⟨toBE_inj high high', congrArg _⟩
    rw [toBE, toBE, append_lt_append_of_length (by simp), ih high high', equal]
    simp [cons_lt_cons_iff, UInt8.lt_iff_toNat_lt]
    omega

theorem toBE_append_lt_iff (small : m < 256 ^ width) (small' : n < 256 ^ width) (x : Bytes) :
    toBE width m ++ x < toBE width n ↔ m < n := by
  have split := append_lt_append_of_length ((toBE_length width m).trans (toBE_length width n).symm) x []
  rw [append_nil] at split
  rw [split, toBE_lt_toBE small small']
  exact or_iff_left fun same => not_lt_nil x same.2

end ByteOrder

end Arcux.Codec
