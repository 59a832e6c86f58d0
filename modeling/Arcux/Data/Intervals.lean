import Mathlib.Data.List.Pairwise
import Mathlib.Order.BoundedOrder.Basic
import Mathlib.Order.Lattice

namespace Arcux.Data

open List

/-! Pieces of an ordered set with a least element: half-open intervals, where the least element as an end is no bound. -/

variable {α β : Type} {start stop : β → α}

def Joined (start stop : β → α) : α → List β → α → Prop
  | low, [], high => low = high
  | low, piece :: rest, high => start piece = low ∧ Joined start stop (stop piece) rest high

theorem joined_append {low high : α} {front back : List β} :
    Joined start stop low (front ++ back) high ↔
      ∃ mid, Joined start stop low front mid ∧ Joined start stop mid back high := by
  induction front generalizing low with
  | nil => simp [Joined]
  | cons piece rest ih => simp [Joined, ih, and_assoc]

variable [LinearOrder α] [OrderBot α]

def Within (start stop : β → α) (key : α) (piece : β) : Prop :=
  start piece ≤ key ∧ (stop piece = ⊥ ∨ key < stop piece)

def Before (start stop : β → α) (a b : β) : Prop := stop a ≠ ⊥ ∧ stop a ≤ start b

def Proper (start stop : β → α) (piece : β) : Prop := stop piece = ⊥ ∨ start piece < stop piece

theorem Before.not_within {a b : β} {key : α} (before : Before start stop a b) (inside : Within start stop key a) :
    ¬ Within start stop key b := fun within =>
  absurd (before.2.trans within.1) (inside.2.resolve_left before.1).not_ge

theorem Before.start_lt {a b : β} (before : Before start stop a b) (proper : Proper start stop a) : start a < start b :=
  (proper.resolve_left before.1).trans_le before.2

theorem before_of_apart {a b : β} (proper : Proper start stop b) (ascending : start a ≤ start b)
    (apart : ¬ ∃ key, Within start stop key a ∧ Within start stop key b) : Before start stop a b := by
  by_contra reaches
  refine apart ⟨start b, ⟨ascending, ?_⟩, le_refl _, proper⟩
  rwa [Before, not_and_or, not_not, not_le] at reaches

theorem before_or_before_iff {a b : β} (proper : Proper start stop a) (proper' : Proper start stop b) :
    Before start stop a b ∨ Before start stop b a ↔ ¬ ∃ key, Within start stop key a ∧ Within start stop key b := by
  constructor
  · rintro (before | before) ⟨key, inA, inB⟩
    · exact before.not_within inA inB
    · exact before.not_within inB inA
  · intro apart
    rcases le_total (start a) (start b) with ascending | descending
    · exact Or.inl (before_of_apart proper' ascending apart)
    · refine Or.inr (before_of_apart proper descending ?_)
      rintro ⟨key, inB, inA⟩
      exact apart ⟨key, inA, inB⟩

structure Tiling (start stop : β → α) (pieces : List β) : Prop where
  nonempty : pieces ≠ []
  joined : Joined start stop ⊥ pieces ⊥
  sorted : pieces.Pairwise fun a b => start a < start b

namespace Tiling

variable {pieces front back : List β} {a b piece left right : β} {key low : α}

theorem single (first : start piece = ⊥) (last : stop piece = ⊥) : Tiling start stop [piece] :=
  ⟨cons_ne_nil piece [], ⟨first, last⟩, pairwise_singleton ..⟩

theorem before (joined : Joined start stop low pieces ⊥) (sorted : pieces.Pairwise fun a b => start a < start b) :
    pieces.Pairwise (Before start stop) := by
  induction pieces generalizing low with
  | nil => exact .nil
  | cons piece rest ih =>
    obtain ⟨-, later⟩ := joined
    obtain ⟨above, tail⟩ := pairwise_cons.mp sorted
    refine pairwise_cons.mpr ⟨fun other member => ?_, ih later tail⟩
    cases rest with
    | nil => cases member
    | cons next others =>
      have touches : start next = stop piece := later.1
      have next_gt := above next (mem_cons_self ..)
      have bounded : stop piece ≠ ⊥ := by
        rw [← touches]
        exact (bot_le.trans_lt next_gt).ne'
      refine ⟨bounded, touches ▸ ?_⟩
      rcases mem_cons.mp member with rfl | later'
      · exact le_refl _
      · exact ((pairwise_cons.mp tail).1 other later').le

theorem exists_within (tiling : Tiling start stop pieces) (key : α) :
    ∃ piece ∈ pieces, Within start stop key piece := by
  have found (low : α) (pieces : List β) (nonempty : pieces ≠ []) (joined : Joined start stop low pieces ⊥)
      (reached : low ≤ key) : ∃ piece ∈ pieces, Within start stop key piece := by
    induction pieces generalizing low with
    | nil => exact absurd rfl nonempty
    | cons piece rest ih =>
      obtain ⟨rfl, later⟩ := joined
      by_cases ends : stop piece = ⊥ ∨ key < stop piece
      · exact ⟨piece, mem_cons_self .., reached, ends⟩
      · rw [not_or, not_lt] at ends
        have more : rest ≠ [] := fun none => ends.1 (by rwa [none] at later)
        obtain ⟨other, member, within⟩ := ih _ more later ends.2
        exact ⟨other, mem_cons_of_mem _ member, within⟩
  exact found ⊥ pieces tiling.nonempty tiling.joined bot_le

theorem within_unique (tiling : Tiling start stop pieces) (left : a ∈ pieces) (right : b ∈ pieces)
    (inLeft : Within start stop key a) (inRight : Within start stop key b) : a = b := by
  have agree : pieces.Pairwise fun a b => Within start stop key a → Within start stop key b → a = b := by
    refine (before tiling.joined tiling.sorted).imp fun ends inside within => ?_
    exact absurd within (ends.not_within inside)
  have : Std.Symm fun a b => Within start stop key a → Within start stop key b → a = b :=
    ⟨fun _ _ same inB inA => (same inA inB).symm⟩
  exact agree.forall_of_forall (fun _ _ _ _ => rfl) left right inLeft inRight

theorem split (tiling : Tiling start stop (front ++ piece :: back)) (inside : start piece < key)
    (ends : stop piece = ⊥ ∨ key < stop piece) (first : start left = start piece) (cut : stop left = key)
    (cut' : start right = key) (last : stop right = stop piece) :
    Tiling start stop (front ++ left :: right :: back) := by
  obtain ⟨mid, upper, begins, rest⟩ := joined_append.mp tiling.joined
  obtain ⟨sortedFront, sortedBack, across⟩ := pairwise_append.mp tiling.sorted
  obtain ⟨above, tail⟩ := pairwise_cons.mp sortedBack
  have beyond : ∀ other ∈ back, key < start other := by
    intro other member
    have later := pairwise_append.mp (before tiling.joined tiling.sorted)
    obtain ⟨bounded, reaches⟩ := (pairwise_cons.mp later.2.1).1 other member
    exact (ends.resolve_left bounded).trans_le reaches
  refine ⟨by simp, joined_append.mpr ⟨mid, upper, first.trans begins, cut'.trans cut.symm, last ▸ rest⟩, ?_⟩
  refine pairwise_append.mpr ⟨sortedFront, ?_, fun x member other member' => ?_⟩
  · refine pairwise_cons.mpr ⟨fun other member => ?_, pairwise_cons.mpr ⟨fun other member => ?_, tail⟩⟩
    · rw [first]
      rcases mem_cons.mp member with rfl | later
      · rwa [cut']
      · exact above other later
    · rw [cut']
      exact beyond other member
  · have here := across x member piece (mem_cons_self ..)
    rcases mem_cons.mp member' with rfl | later
    · rwa [first]
    · rcases mem_cons.mp later with rfl | last'
      · rw [cut']
        exact here.trans inside
      · exact across x member other (mem_cons_of_mem _ last')

theorem merge (tiling : Tiling start stop (front ++ left :: right :: back)) (first : start piece = start left)
    (last : stop piece = stop right) : Tiling start stop (front ++ piece :: back) := by
  obtain ⟨mid, upper, begins, -, rest⟩ := joined_append.mp tiling.joined
  refine ⟨by simp, joined_append.mpr ⟨mid, upper, first.trans begins, last ▸ rest⟩, ?_⟩
  have without : (front ++ left :: back).Sublist (front ++ left :: right :: back) :=
    ((sublist_cons_self right back).cons_cons left).append_left front
  have sorted := pairwise_map.mpr (tiling.sorted.sublist without)
  rw [← pairwise_map (f := start)]
  rwa [map_append, map_cons, first, ← map_cons, ← map_append]

end Tiling

end Arcux.Data
