import Mathlib.Algebra.Group.Nat.Defs

namespace Arcux.Pd

structure Tso where
  next : Nat := 1
  upper : Nat := 0
  deriving Repr, DecidableEq

namespace Tso

def window : Nat := 1 <<< 16

def logicalBits : Nat := 18

/-- The clock in the bits above the logical ones; the shift drops what passes the 64th. -/
def physicalFloor (clock : Nat) : Nat := clock * 2 ^ logicalBits % 2 ^ 64

/-- Allocate `count` contiguous timestamps at the wall clock `clock`, in milliseconds. The first one, or `none` if a
watermark that had to be raised could not be persisted. -/
def alloc (tso : Tso) (clock count : Nat) (persists : Bool) : Tso × Option Nat :=
  let count := max count 1
  let next := max tso.next (physicalFloor clock)
  if tso.upper < next + count then
    if persists then (⟨next + count, next + count + window⟩, some next) else (⟨next, tso.upper⟩, none)
  else (⟨next + count, tso.upper⟩, some next)

theorem alloc_cases (tso : Tso) (clock count : Nat) (persists : Bool) :
    (∃ first, (tso.alloc clock count persists).2 = some first ∧ tso.next ≤ first ∧
      (tso.alloc clock count persists).1.next = first + max count 1) ∨
    ((tso.alloc clock count persists).2 = none ∧ tso.next ≤ (tso.alloc clock count persists).1.next) := by
  unfold alloc
  dsimp only
  split
  · cases persists with
    | true => exact .inl ⟨_, rfl, Nat.le_max_left .., rfl⟩
    | false => exact .inr ⟨rfl, Nat.le_max_left ..⟩
  · exact .inl ⟨_, rfl, Nat.le_max_left .., rfl⟩

end Tso

end Arcux.Pd
