import Arcux.Raft.Storage
import Mathlib.Data.List.Basic

namespace Arcux.Raft

open List

def Indexed (log : List Entry) : Prop := ∀ k e, log[k]? = some e → e.index = k + 1

def termAt (log : List Entry) (k : Nat) : Option Nat :=
  if k = 0 then some 0 else log[k - 1]?.map Entry.term

@[simp] theorem termAt_zero (log : List Entry) : termAt log 0 = some 0 := rfl

theorem termAt_succ (log : List Entry) (k : Nat) : termAt log (k + 1) = log[k]?.map Entry.term := rfl

theorem termAt_take (log : List Entry) {k m : Nat} (bound : k ≤ m) : termAt (log.take m) k = termAt log k := by
  cases k with
  | zero => rfl
  | succ k => rw [termAt_succ, termAt_succ, getElem?_take_of_lt (by omega)]

theorem termAt_of_part {log log' : List Entry} {k : Nat} (inside : log <+: log') (bound : k ≤ log.length) :
    termAt log' k = termAt log k := by
  rw [prefix_iff_eq_take.mp inside, termAt_take _ bound]

theorem Indexed.nil : Indexed [] := by
  intro k e found
  simp at found

theorem Indexed.of_part {log log' : List Entry} (indexed : Indexed log') (inside : log <+: log') : Indexed log := by
  intro k e found
  obtain ⟨rest, rfl⟩ := inside
  refine indexed k e ?_
  rw [List.getElem?_append_left (List.getElem?_eq_some_iff.mp found).1, found]

theorem Indexed.concat {log : List Entry} {e : Entry} (indexed : Indexed log) (next : e.index = log.length + 1) :
    Indexed (log ++ [e]) := by
  intro k x found
  rw [getElem?_append] at found
  split at found
  · exact indexed k x found
  · rename_i past
    obtain ⟨bound, value⟩ := List.getElem?_eq_some_iff.mp found
    simp only [List.length_singleton] at bound
    simp only [getElem_singleton] at value
    rw [← value, next]
    omega

structure Holds (storage : MemStorage) (log : List Entry) : Prop where
  indexed : Indexed log
  base_le : storage.base ≤ log.length
  tail : storage.log = log.drop storage.base
  boundary : ∀ snap, storage.snap = some snap →
    0 < snap.lastIncludedIndex ∧ termAt log snap.lastIncludedIndex = some snap.lastIncludedTerm

namespace Holds

variable {storage : MemStorage} {log : List Entry}

theorem empty (hard : HardState) : Holds { hard := hard } [] :=
  ⟨Indexed.nil, Nat.le_refl _, rfl, fun _ found => by cases found⟩

section

variable (holds : Holds storage log)

include holds

theorem lastIndex : storage.lastIndex = log.length := by
  have bound := holds.base_le
  rw [MemStorage.lastIndex, holds.tail, getLast?_drop]
  split
  · simp only [Option.map_none, Option.getD_none]
    omega
  · rename_i inside
    cases last : log.getLast? with
    | none =>
      rw [getLast?_eq_none_iff.mp last] at inside
      simp at inside
    | some e =>
      rw [getLast?_eq_getElem?] at last
      have := holds.indexed _ e last
      simp only [Option.map_some, Option.getD_some]
      omega

theorem term {k : Nat} (above : storage.base ≤ k) : storage.term k = termAt log k := by
  rw [MemStorage.term, termAt]
  split
  · rfl
  split
  · rename_i positive here
    cases snap : storage.snap with
    | none => simp [MemStorage.base, snap] at here; omega
    | some s =>
      have same : storage.base = s.lastIncludedIndex := by simp [MemStorage.base, snap]
      have boundary := (holds.boundary s snap).2
      rw [← same, ← here, termAt, if_neg positive] at boundary
      rw [boundary, Option.map_some]
  split
  · omega
  · rw [holds.tail, getElem?_drop]
    congr 2
    omega

theorem entries (low high : Nat) :
    storage.entries low high = (log.take high).drop (max low (storage.base + 1) - 1) := by
  have bound := holds.base_le
  simp only [MemStorage.entries, holds.tail]
  split
  · symm
    apply drop_eq_nil_of_le
    simp only [length_take]
    omega
  split
  · symm
    apply drop_eq_nil_of_le
    simp only [length_take, length_drop] at *
    omega
  · rename_i ordered _
    simp only [length_drop]
    rw [take_drop, drop_drop]
    have upper : storage.base + min (high - storage.base) (log.length - storage.base) = min high log.length := by
      omega
    have lower : storage.base + (max low (storage.base + 1) - storage.base - 1) =
        max low (storage.base + 1) - 1 := by omega
    rw [upper, lower, ← take_eq_take_min]

theorem saveHardState (hard : HardState) : Holds (storage.saveHardState hard) log :=
  { holds with }

theorem append {entries : List Entry} (indexed : Indexed (log ++ entries)) :
    Holds (storage.append entries) (log ++ entries) := by
  have bound := holds.base_le
  refine ⟨indexed, ?_, ?_, ?_⟩
  · change storage.base ≤ (log ++ entries).length
    simp only [length_append]
    omega
  · change storage.log ++ entries = (log ++ entries).drop storage.base
    rw [drop_append_of_le_length bound, holds.tail]
  · intro snap found
    obtain ⟨positive, boundary⟩ := holds.boundary snap found
    have same : storage.base = snap.lastIncludedIndex := by
      simp [MemStorage.base, show storage.snap = some snap from found]
    refine ⟨positive, ?_⟩
    rw [← boundary]
    exact termAt_of_part (prefix_append _ _) (by omega)

theorem truncateSuffix {cut : Nat} (above : storage.base < cut) :
    Holds (storage.truncateSuffix cut) (log.take (cut - 1)) := by
  have bound := holds.base_le
  have base : (storage.truncateSuffix cut).base = storage.base := by
    unfold MemStorage.truncateSuffix
    split <;> rfl
  have snaps : (storage.truncateSuffix cut).snap = storage.snap := by
    unfold MemStorage.truncateSuffix
    split <;> rfl
  refine ⟨holds.indexed.of_part ( take_prefix _ _), ?_, ?_, ?_⟩
  · rw [base, length_take]
    omega
  · rw [base, MemStorage.truncateSuffix]
    split
    · symm
      apply drop_eq_nil_of_le
      simp only [length_take]
      omega
    · simp only [holds.tail]
      rw [take_drop]
      congr 2
      omega
  · intro snap found
    rw [snaps] at found
    obtain ⟨positive, boundary⟩ := holds.boundary snap found
    have same : storage.base = snap.lastIncludedIndex := by simp [MemStorage.base, found]
    exact ⟨positive, by rw [termAt_take _ (by omega), boundary]⟩

theorem compact {index term : Nat} {confState learners : List NodeId}
    {data : Codec.Bytes} (above : storage.base < index) (inside : index ≤ log.length)
    (known : termAt log index = some term) : Holds (storage.compact index term confState learners data) log := by
  have bound := holds.base_le
  rw [MemStorage.compact_of_lt above]
  refine ⟨holds.indexed, inside, ?_, ?_⟩
  · change storage.log.drop (min (index - storage.base) storage.log.length) = log.drop index
    rw [holds.tail, length_drop, Nat.min_eq_left (by omega), drop_drop]
    congr 1
    omega
  · intro snap found
    cases found
    exact ⟨by simp only; omega, known⟩

end

theorem applySnapshot (indexed : Indexed log) {snap : Snapshot} (positive : 0 < snap.lastIncludedIndex)
    (whole : log.length = snap.lastIncludedIndex)
    (known : termAt log snap.lastIncludedIndex = some snap.lastIncludedTerm) :
    Holds (storage.applySnapshot snap) log := by
  refine ⟨indexed, whole.ge, ?_, ?_⟩
  · exact (drop_eq_nil_of_le whole.le).symm
  · intro snap' found
    cases found
    exact ⟨positive, known⟩

end Holds

end Arcux.Raft
