import Mathlib.Data.List.Basic

namespace Arcux.Data

open List

/-! The standard library's `partition_point`: how many elements come before the first that does not meet a predicate. -/

variable {α : Type}

def halve (below : Nat → Bool) : Nat → Nat → Nat → Nat
  | 0, base, _ => base
  | fuel + 1, base, size =>
    if 1 < size then
      let half := size / 2
      let mid := base + half
      halve below fuel (if below mid then mid else base) (size - half)
    else base

def partitionPoint (p : α → Bool) (l : List α) : Nat :=
  let base := halve (fun i => l[i]?.any p) l.length 0 l.length
  if l[base]?.any p then base + 1 else base

theorem halve_spec {below : Nat → Bool} {n : Nat} (cut : ∀ i, below i = true ↔ i < n) {fuel base size : Nat}
    (enough : size ≤ fuel) (low : base = 0 ∨ base < n) (high : n ≤ base + size) :
    (halve below fuel base size = 0 ∨ halve below fuel base size < n) ∧ n ≤ halve below fuel base size + 1 := by
  induction fuel generalizing base size with
  | zero => exact ⟨low, by simp only [halve]; omega⟩
  | succ fuel ih =>
    rw [halve]
    split
    · dsimp only
      split
      · rename_i under
        rw [cut] at under
        exact ih (by omega) (Or.inr under) (by omega)
      · rename_i past
        rw [cut] at past
        exact ih (by omega) low (by omega)
    · exact ⟨low, by omega⟩

theorem partitionPoint_append {p : α → Bool} {front back : List α} (under : ∀ a ∈ front, p a)
    (past : ∀ a ∈ back, ¬ p a) : partitionPoint p (front ++ back) = front.length := by
  have cut (i : Nat) : (front ++ back)[i]?.any p = true ↔ i < front.length := by
    rw [Option.any_eq_true]
    constructor
    · rintro ⟨a, found, meets⟩
      by_contra beyond
      rw [getElem?_append_right (by omega)] at found
      exact past a (mem_of_getElem? found) meets
    · intro inside
      refine ⟨front[i], ?_, under _ (getElem_mem inside)⟩
      rw [getElem?_append_left inside, getElem?_eq_getElem inside]
  have bound := halve_spec cut (Nat.le_refl _) (Or.inl rfl) (show front.length ≤ 0 + (front ++ back).length by simp)
  rw [partitionPoint]
  split
  · rename_i inside
    rw [cut] at inside
    omega
  · rename_i outside
    rw [cut] at outside
    omega

theorem partitionPoint_cut {p : α → Bool} {l : List α} (ordered : l.Pairwise fun a b => p b → p a) :
    ∃ front back, l = front ++ back ∧ (∀ a ∈ front, p a) ∧ (∀ a ∈ back, ¬ p a) ∧ partitionPoint p l = front.length := by
  suffices ∃ front back, l = front ++ back ∧ (∀ a ∈ front, p a) ∧ ∀ a ∈ back, ¬ p a by
    obtain ⟨front, back, rfl, under, past⟩ := this
    exact ⟨front, back, rfl, under, past, partitionPoint_append under past⟩
  induction l with
  | nil => exact ⟨[], [], by simp⟩
  | cons a rest ih =>
    obtain ⟨first, later⟩ := pairwise_cons.mp ordered
    by_cases meets : p a
    · obtain ⟨front, back, rfl, under, past⟩ := ih later
      exact ⟨a :: front, back, rfl, by simpa [meets] using under, past⟩
    · refine ⟨[], a :: rest, rfl, by simp, ?_⟩
      simpa [meets] using fun b member => mt (first b member) meets

end Arcux.Data
