import Mathlib.Data.Finset.Card
import Mathlib.Tactic.Linarith

namespace Arcux.Consensus

variable {N : Type}

def Majority (config quorum : Finset N) : Prop :=
  quorum ⊆ config ∧ config.card < 2 * quorum.card

def Overlap (left right : Finset N) : Prop :=
  ∀ q r, Majority left q → Majority right r → ∃ node, node ∈ q ∧ node ∈ r

variable {left right : Finset N}

theorem Overlap.symm (overlap : Overlap left right) : Overlap right left := by
  intro q r majorityQ majorityR
  obtain ⟨node, inR, inQ⟩ := overlap r q majorityR majorityQ
  exact ⟨node, inQ, inR⟩

variable [DecidableEq N]

def Near (left right : Finset N) : Prop :=
  (left \ right).card + (right \ left).card ≤ 1

theorem Near.refl (config : Finset N) : Near config config := by
  simp [Near]

theorem Near.overlap (near : Near left right) : Overlap left right := by
  intro q r majorityQ majorityR
  have split : (left ∪ right).card + (left ∩ right).card = left.card + right.card :=
    Finset.card_union_add_card_inter left right
  have leftSplit : (left \ right).card + (left ∩ right).card = left.card :=
    Finset.card_sdiff_add_card_inter left right
  have rightSplit : (right \ left).card + (right ∩ left).card = right.card :=
    Finset.card_sdiff_add_card_inter right left
  rw [Finset.inter_comm right left] at rightSplit
  have crowded : (left ∪ right).card < q.card + r.card := by
    have boundQ := majorityQ.2
    have boundR := majorityR.2
    unfold Near at near
    omega
  obtain ⟨node, member⟩ := Finset.inter_nonempty_of_card_lt_card_add_card
    (majorityQ.1.trans Finset.subset_union_left) (majorityR.1.trans Finset.subset_union_right) crowded
  exact ⟨node, (Finset.mem_inter.mp member).1, (Finset.mem_inter.mp member).2⟩

theorem Overlap.refl (config : Finset N) : Overlap config config :=
  (Near.refl config).overlap

end Arcux.Consensus
