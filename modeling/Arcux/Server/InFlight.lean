import Arcux.Engine.Scan

namespace Arcux.Server

open Codec Data Engine List
open scoped Codec.ByteOrder

/-- The keys a leader has proposed a write for and not yet resolved, each with the commit timestamps in flight for it. -/
structure InFlight where
  keys : OrdMap Bytes (List Ts) := .empty

namespace InFlight

def register (f : InFlight) (key : Bytes) (commitTs : Ts) : InFlight :=
  ⟨f.keys.insert key ((f.keys.find? key).getD [] ++ [commitTs])⟩

def blocksRead (f : InFlight) (start stop : Bytes) (readTs : Ts) : Bool :=
  ((f.keys.entries.filter fun e => start ≤ e.1).takeWhile fun e => BelowEnd stop e.1).any fun e =>
    e.2.any fun ts => ts ≤ readTs

def unregister (f : InFlight) (key : Bytes) (commitTs : Ts) : InFlight :=
  match f.keys.find? key with
  | none => f
  | some tss =>
    let tss := tss.erase commitTs
    if tss.isEmpty then ⟨f.keys.erase key⟩ else ⟨f.keys.insert key tss⟩

def Holds (f : InFlight) (key : Bytes) (commitTs : Ts) : Prop := ∃ tss ∈ f.keys.find? key, commitTs ∈ tss
  deriving Decidable

variable {f : InFlight} {key k : Bytes} {commitTs c readTs : Ts} {start stop : Bytes}

theorem holds_register : (f.register key commitTs).Holds k c ↔ f.Holds k c ∨ k = key ∧ c = commitTs := by
  unfold Holds register
  simp only [OrdMap.find?_insert]
  split
  case isTrue same =>
    subst same
    cases f.keys.find? k <;> simp
  case isFalse other => simp [other]

theorem Holds.of_unregister (holds : (f.unregister key commitTs).Holds k c) : f.Holds k c := by
  unfold unregister at holds
  split at holds
  case h_1 => exact holds
  case h_2 tss found =>
    obtain ⟨left, there, member⟩ := holds
    dsimp only at there
    split at there
    · rw [OrdMap.find?_erase] at there
      split at there
      · cases there
      · exact ⟨left, there, member⟩
    · rw [OrdMap.find?_insert] at there
      split at there
      case isTrue same =>
        cases there
        subst same
        exact ⟨tss, found, mem_of_mem_erase member⟩
      case isFalse => exact ⟨left, there, member⟩

theorem mem_takeWhile_belowEnd {l : List (Bytes × List Ts)} (sorted : l.Pairwise fun a b => a.1 < b.1)
    {e : Bytes × List Ts} : e ∈ l.takeWhile (fun e => BelowEnd stop e.1) ↔ e ∈ l ∧ BelowEnd stop e.1 := by
  induction l with
  | nil => simp
  | cons head rest ih =>
    obtain ⟨first, sorted⟩ := pairwise_cons.mp sorted
    rw [takeWhile_cons]
    split
    case isTrue below => grind
    case isFalse above =>
      simp only [not_mem_nil, mem_cons, false_iff, not_and]
      rintro (rfl | member) below
      · simp [below] at above
      · have order := first e member
        simp only [BelowEnd] at above below
        grind

theorem blocksRead_iff : f.blocksRead start stop readTs = true ↔
    ∃ k c, start ≤ k ∧ BelowEnd stop k ∧ f.Holds k c ∧ c ≤ readTs := by
  simp only [blocksRead, any_eq_true, decide_eq_true_eq, mem_takeWhile_belowEnd (f.keys.sorted.filter _),
    mem_filter]
  constructor
  · rintro ⟨⟨k, tss⟩, ⟨⟨member, low⟩, below⟩, c, listed, early⟩
    exact ⟨k, c, low, below, ⟨tss, OrdMap.find?_eq_some.mpr member, listed⟩, early⟩
  · rintro ⟨k, c, low, below, ⟨tss, found, listed⟩, early⟩
    exact ⟨(k, tss), ⟨⟨OrdMap.find?_eq_some.mp found, low⟩, below⟩, c, listed, early⟩

theorem mem_single_range : key ≤ k ∧ BelowEnd (key ++ [0]) k ↔ k = key := by
  have bottom : ∀ b : UInt8, 0 ≤ b := fun b => UInt8.le_iff_toNat_le.mpr (Nat.zero_le _)
  have above := concat_le_iff bottom key k
  rw [BelowEnd]
  constructor
  · rintro ⟨low, bad | high⟩
    · simp at bad
    · exact le_antisymm (not_lt.mp (mt above.mpr (not_le.mpr high))) low
  · rintro rfl
    exact ⟨le_refl _, .inr (not_le.mp (mt above.mp (lt_irrefl _)))⟩

end InFlight

end Arcux.Server
