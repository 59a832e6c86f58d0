import Mathlib.Data.List.Basic

namespace Arcux.Concurrency

open List

/-! Runs of a system that takes one event after another. -/

variable {σ ε : Type} {exec : σ → ε → σ} {admits : σ → ε → Prop} {fact holds : σ → Prop}

def Admitted (exec : σ → ε → σ) (admits : σ → ε → Prop) : σ → List ε → Prop
  | _, [] => True
  | s, event :: rest => admits s event ∧ Admitted exec admits (exec s event) rest

instance Admitted.decidable [∀ s event, Decidable (admits s event)] : ∀ s events, Decidable (Admitted exec admits s events)
  | _, [] => .isTrue trivial
  | s, event :: rest =>
    have := Admitted.decidable (exec s event) rest
    inferInstanceAs (Decidable (_ ∧ _))

variable {s : σ}

theorem admitted_append {front back : List ε} :
    Admitted exec admits s (front ++ back) ↔ Admitted exec admits s front ∧ Admitted exec admits (front.foldl exec s) back := by
  induction front generalizing s with
  | nil => simp [Admitted]
  | cons event rest ih => simp only [cons_append, Admitted, foldl_cons, ih, and_assoc]

def Throughout (exec : σ → ε → σ) (fact : σ → Prop) : σ → List ε → Prop
  | s, [] => fact s
  | s, event :: rest => fact s ∧ Throughout exec fact (exec s event) rest

instance Throughout.decidable [DecidablePred fact] : ∀ s events, Decidable (Throughout exec fact s events)
  | s, [] => inferInstanceAs (Decidable (fact s))
  | s, event :: rest =>
    have := Throughout.decidable (exec s event) rest
    inferInstanceAs (Decidable (_ ∧ _))

variable {events : List ε}

theorem throughout_iff :
    Throughout exec fact s events ↔ ∀ before, before <+: events → fact (before.foldl exec s) := by
  induction events generalizing s with
  | nil => simp [Throughout, prefix_nil]
  | cons event rest ih =>
    rw [Throughout, ih]
    constructor
    · rintro ⟨here, later⟩ before part
      cases before with
      | nil => exact here
      | cons first others =>
        obtain ⟨rfl, tail⟩ := cons_prefix_cons.mp part
        exact later others tail
    · intro every
      exact ⟨every [] nil_prefix, fun before part => every (event :: before) (cons_prefix_cons.mpr ⟨rfl, part⟩)⟩

theorem Admitted.keeps (step : ∀ s event, admits s event → fact s → holds s → holds (exec s event))
    (admitted : Admitted exec admits s events) (throughout : Throughout exec fact s events) (start : holds s) :
    holds (events.foldl exec s) := by
  induction events generalizing s with
  | nil => exact start
  | cons event rest ih => exact ih admitted.2 throughout.2 (step s event admitted.1 throughout.1 start)

end Arcux.Concurrency
