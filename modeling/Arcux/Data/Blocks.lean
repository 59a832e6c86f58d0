import Mathlib.Data.List.Forall2
import Mathlib.Order.Lattice

namespace Arcux.Data

open List

/-! An ascending list of entries cut into blocks, with an index of the first key of each block. -/

namespace Blocks

variable {κ ν : Type} [LinearOrder κ]

def Indexed (firsts : List κ) (blocks : List (List (κ × ν))) : Prop :=
  List.Forall₂ (fun first block => ∃ v rest, block = (first, v) :: rest) firsts blocks

def partitionPoint (firsts : List κ) (k : κ) : Nat := (firsts.takeWhile (· ≤ k)).length

def Ascending (entries : List (κ × ν)) : Prop := entries.Pairwise (fun a b => a.1 < b.1)

theorem partitionPoint_cons (first : κ) (firsts : List κ) (k : κ) :
    partitionPoint (first :: firsts) k = if first ≤ k then partitionPoint firsts k + 1 else 0 := by
  rw [partitionPoint, takeWhile_cons]
  split <;> simp_all [partitionPoint]

variable {blocks : List (List (κ × ν))} {firsts : List κ}

theorem above_partitionPoint (indexed : Indexed firsts blocks) (ascending : Ascending blocks.flatten) (k : κ) :
    ∀ e ∈ (blocks.drop (partitionPoint firsts k)).flatten, k < e.1 := by
  induction indexed with
  | nil => simp
  | @cons first block firsts blocks starts rest ih =>
    obtain ⟨v, tail, rfl⟩ := starts
    rw [flatten_cons] at ascending
    rw [partitionPoint_cons]
    split
    · exact ih (pairwise_append.mp ascending).2.1
    · rename_i above
      intro e member
      have first_le : first ≤ e.1 := by
        rw [drop_zero, flatten_cons, cons_append, mem_cons] at member
        rcases member with rfl | later
        · exact le_refl _
        · exact ((pairwise_cons.mp ascending).1 e later).le
      exact (not_le.mp above).trans_le first_le

theorem below_partitionPoint (indexed : Indexed firsts blocks) (ascending : Ascending blocks.flatten) (k : κ) :
    ∀ e ∈ (blocks.take (partitionPoint firsts k - 1)).flatten, e.1 < k := by
  induction indexed with
  | nil => simp
  | @cons first block firsts blocks starts rest ih =>
    rw [flatten_cons] at ascending
    obtain ⟨-, later, across⟩ := pairwise_append.mp ascending
    rw [partitionPoint_cons]
    split
    · cases rest with
      | nil => simp [partitionPoint]
      | @cons next following firsts blocks starts' rest =>
        obtain ⟨v, tail, rfl⟩ := starts'
        rw [partitionPoint_cons] at ih ⊢
        split at ih
        · rename_i reached
          rw [if_pos reached]
          intro e member
          rw [Nat.add_sub_cancel, take_succ_cons, flatten_cons, mem_append] at member
          rcases member with here | there
          · exact (across e here (next, v) (by simp)).trans_le reached
          · exact ih later e there
        · rename_i stopped
          rw [if_neg stopped]
          simp
    · simp

variable {p : κ × ν → Bool} {k : κ}

theorem find?_eq (indexed : Indexed firsts blocks)
    (ascending : Ascending blocks.flatten) (only : ∀ e, p e → e.1 = k) :
    blocks.flatten.find? p =
      if partitionPoint firsts k = 0 then none else (blocks[partitionPoint firsts k - 1]?.getD []).find? p := by
  have above := above_partitionPoint indexed ascending k
  have below := below_partitionPoint indexed ascending k
  have missing {entries : List (κ × ν)} (apart : ∀ e ∈ entries, e.1 ≠ k) : entries.find? p = none :=
    find?_eq_none.mpr fun e member found => apart e member (only e found)
  split
  · rename_i first
    rw [first] at above
    exact missing fun e member => (above e member).ne'
  · have cut : blocks = blocks.take (partitionPoint firsts k - 1) ++
        (blocks[partitionPoint firsts k - 1]?.toList ++ blocks.drop (partitionPoint firsts k)) := by
      have step : blocks.drop (partitionPoint firsts k - 1) =
          blocks[partitionPoint firsts k - 1]?.toList ++ blocks.drop (partitionPoint firsts k - 1 + 1) := by
        rw [drop_eq_getElem?_toList_append]
      rw [Nat.sub_add_cancel (by omega)] at step
      rw [← step, take_append_drop]
    have flat : blocks.flatten = (blocks.take (partitionPoint firsts k - 1)).flatten ++
        (blocks[partitionPoint firsts k - 1]?.getD [] ++ (blocks.drop (partitionPoint firsts k)).flatten) := by
      conv_lhs => rw [cut, flatten_append, flatten_append]
      cases blocks[partitionPoint firsts k - 1]? <;> simp
    rw [flat, find?_append, find?_append, missing fun e member => (below e member).ne,
      missing fun e member => (above e member).ne', Option.none_or, Option.or_none]

theorem seek_eq (indexed : Indexed firsts blocks) (ascending : Ascending blocks.flatten) (only : ∀ e, p e → k ≤ e.1) :
    blocks.flatten.find? p = (blocks.drop (partitionPoint firsts k - 1)).flatten.find? p := by
  have below := below_partitionPoint indexed ascending k
  have skipped : (blocks.take (partitionPoint firsts k - 1)).flatten.find? p = none :=
    find?_eq_none.mpr fun e member reached => (below e member).not_ge (only e reached)
  conv_lhs => rw [← take_append_drop (partitionPoint firsts k - 1) blocks]
  rw [flatten_append, find?_append, skipped, Option.none_or]

end Blocks

end Arcux.Data
