import Arcux.Concurrency.Runs
import Arcux.Pd.Persist
import Arcux.Pd.Tso

namespace Arcux.Pd

open Codec Concurrency List

structure TsoDir where
  tso : Tso
  file : Option Bytes

namespace TsoDir

def openDir (file : Option Bytes) : TsoDir :=
  match file with
  | some bytes =>
    if 8 ≤ bytes.length then ⟨⟨fromBE (bytes.take 8), fromBE (bytes.take 8)⟩, file⟩ else ⟨{}, file⟩
  | none => ⟨{}, file⟩

def alloc (dir : TsoDir) (clock count : Nat) (write : AtomicWrite) : TsoDir × Option Nat :=
  let allocated := dir.tso.alloc clock count (write = .done)
  let last := max dir.tso.next (Tso.physicalFloor clock) + max count 1
  let file := if dir.tso.upper < last then write.file dir.file (toBE 8 (last + Tso.window)) else dir.file
  (⟨allocated.1, file⟩, allocated.2)

def onDisk (file : Option Bytes) : Nat :=
  match file with
  | some bytes => if 8 ≤ bytes.length then fromBE (bytes.take 8) else 0
  | none => 0

inductive Event where
  | alloc (clock count : Nat) (write : AtomicWrite)
  | crash
  deriving DecidableEq

structure Grant where
  first : Nat
  count : Nat
  watermark : Nat

def exec (dir : TsoDir) : Event → TsoDir
  | .alloc clock count write => (dir.alloc clock count write).1
  | .crash => openDir dir.file

def granted (dir : TsoDir) : Event → Option Grant
  | .alloc clock count write =>
    (dir.alloc clock count write).2.map fun first =>
      ⟨first, max count 1, onDisk (dir.alloc clock count write).1.file⟩
  | .crash => none

def grants : TsoDir → List Event → List Grant
  | _, [] => []
  | dir, event :: rest => (dir.granted event).toList ++ grants (dir.exec event) rest

def Room (dir : TsoDir) : Event → Prop
  | .alloc clock count _ =>
    let last := max dir.tso.next (Tso.physicalFloor clock) + max count 1
    dir.tso.upper < last → last + Tso.window < 2 ^ 64
  | .crash => True

instance (dir : TsoDir) : (event : Event) → Decidable (dir.Room event)
  | .alloc .. => inferInstanceAs (Decidable (_ → _))
  | .crash => .isTrue trivial

theorem onDisk_toBE {upper : Nat} (room : upper < 2 ^ 64) : onDisk (some (toBE 8 upper)) = upper := by
  simp only [onDisk, toBE_length, le_refl, if_true]
  rw [take_of_length_le (toBE_length 8 upper).le]
  exact fromBE_toBE_of_lt room

theorem alloc_cases (dir : TsoDir) (clock count : Nat) (write : AtomicWrite) :
    let next := max dir.tso.next (Tso.physicalFloor clock)
    let last := next + max count 1
    (last ≤ dir.tso.upper ∧ dir.alloc clock count write = (⟨⟨last, dir.tso.upper⟩, dir.file⟩, some next)) ∨
    (dir.tso.upper < last ∧ dir.alloc clock count write =
      (⟨⟨last, last + Tso.window⟩, some (toBE 8 (last + Tso.window))⟩, some next)) ∨
    (dir.tso.upper < last ∧ ∃ file ∈ [dir.file, some (toBE 8 (last + Tso.window))],
      dir.alloc clock count write = (⟨⟨next, dir.tso.upper⟩, file⟩, none)) := by
  intro next last
  by_cases renewed : dir.tso.upper < last
  · cases write with
    | done =>
      refine .inr (.inl ⟨renewed, ?_⟩)
      simp [alloc, Tso.alloc, AtomicWrite.file, AtomicWrite.replaces, renewed, last, next]
    | failed replaced =>
      refine .inr (.inr ⟨renewed, AtomicWrite.file (.failed replaced) dir.file (toBE 8 (last + Tso.window)), ?_, ?_⟩)
      · cases replaced <;> simp [AtomicWrite.file, AtomicWrite.replaces]
      · simp [alloc, Tso.alloc, renewed, last, next]
  · exact .inl ⟨not_lt.mp renewed, by simp [alloc, Tso.alloc, renewed, last, next]⟩

structure Reserved (floor : Nat) (dir : TsoDir) : Prop where
  upper : dir.tso.upper ≤ onDisk dir.file
  next : floor ≤ dir.tso.next
  disk : floor ≤ onDisk dir.file

variable {floor : Nat} {dir : TsoDir}

theorem reserved_openDir {file : Option Bytes} (reserved : floor ≤ onDisk file) : Reserved floor (openDir file) := by
  cases file with
  | none =>
    exact ⟨le_refl _, reserved.trans (Nat.zero_le _), reserved⟩
  | some bytes =>
    unfold openDir
    dsimp only
    split
    case isTrue long =>
      have watermark : onDisk (some bytes) = fromBE (bytes.take 8) := if_pos long
      exact ⟨watermark.ge, watermark ▸ reserved, reserved⟩
    case isFalse short =>
      have watermark : onDisk (some bytes) = 0 := if_neg short
      exact ⟨watermark.ge, (watermark ▸ reserved).trans (Nat.zero_le _), reserved⟩

theorem Reserved.exec (reserved : Reserved floor dir) {event : Event} (room : dir.Room event) :
    Reserved floor (dir.exec event) := by
  obtain ⟨upper, next, disk⟩ := reserved
  cases event with
  | crash => exact reserved_openDir disk
  | alloc clock count write =>
    rcases dir.alloc_cases clock count write with ⟨-, same⟩ | ⟨window, same⟩ | ⟨window, file, written, same⟩
    · rw [TsoDir.exec, same]
      exact ⟨upper, by dsimp only; omega, disk⟩
    · have renewed := onDisk_toBE (room window)
      rw [TsoDir.exec, same]
      exact ⟨renewed.ge, by dsimp only; omega, by dsimp only; omega⟩
    · have renewed := onDisk_toBE (room window)
      rw [TsoDir.exec, same]
      simp only [mem_cons, not_mem_nil, or_false] at written
      rcases written with rfl | rfl
      · exact ⟨upper, by dsimp only; omega, disk⟩
      · exact ⟨by dsimp only; omega, by dsimp only; omega, by dsimp only; omega⟩

theorem Reserved.granted (reserved : Reserved floor dir) {event : Event} (room : dir.Room event) {grant : Grant}
    (given : dir.granted event = some grant) :
    floor ≤ grant.first ∧ 0 < grant.count ∧ grant.first + grant.count ≤ grant.watermark ∧
      Reserved (grant.first + grant.count) (dir.exec event) := by
  obtain ⟨upper, next, disk⟩ := reserved
  cases event with
  | crash => cases given
  | alloc clock count write =>
    have positive : 0 < max count 1 := by omega
    rcases dir.alloc_cases clock count write with ⟨window, same⟩ | ⟨window, same⟩ | ⟨window, file, written, same⟩
    · rw [TsoDir.granted, same] at given
      obtain rfl := Option.some.inj given
      rw [TsoDir.exec, same]
      exact ⟨by dsimp only; omega, positive, window.trans upper, upper, le_refl _, window.trans upper⟩
    · have renewed := onDisk_toBE (room window)
      rw [TsoDir.granted, same] at given
      obtain rfl := Option.some.inj given
      rw [TsoDir.exec, same]
      exact ⟨by dsimp only; omega, positive, by dsimp only; omega, renewed.ge, le_refl _, by dsimp only; omega⟩
    · rw [TsoDir.granted, same] at given
      cases given

theorem Reserved.grants (reserved : Reserved floor dir) {events : List Event}
    (room : Admitted TsoDir.exec Room dir events) :
    (∀ g ∈ dir.grants events, floor ≤ g.first ∧ 0 < g.count ∧ g.first + g.count ≤ g.watermark) ∧
      (dir.grants events).Pairwise fun a b => a.first + a.count ≤ b.first := by
  induction events generalizing dir floor with
  | nil => exact ⟨forall_mem_nil _, .nil⟩
  | cons event rest ih =>
    obtain ⟨here, later⟩ := room
    rw [TsoDir.grants]
    cases given : dir.granted event with
    | none => exact ih (reserved.exec here) later
    | some grant =>
      obtain ⟨above, positive, covered, raised⟩ := reserved.granted here given
      obtain ⟨follow, ascend⟩ := ih raised later
      refine ⟨forall_mem_cons.mpr ⟨⟨above, positive, covered⟩, fun g member => ?_⟩,
        pairwise_cons.mpr ⟨fun g member => (follow g member).1, ascend⟩⟩
      exact ⟨above.trans ((Nat.le_add_right _ _).trans (follow g member).1), (follow g member).2⟩

/-- Ranges ascend through failed writes and crashes, and each is below the watermark on disk when it is handed out. -/
theorem ranges_ascend (file : Option Bytes) (events : List Event)
    (room : Admitted TsoDir.exec Room (openDir file) events) :
    ((openDir file).grants events).Pairwise (fun a b => a.first + a.count ≤ b.first) ∧
      ∀ g ∈ (openDir file).grants events, 0 < g.count ∧ g.first + g.count ≤ g.watermark := by
  have ⟨each, ascend⟩ := (reserved_openDir (Nat.zero_le (onDisk file))).grants room
  exact ⟨ascend, fun g member => (each g member).2⟩

def troubled : List Event :=
  [.alloc 5 3 .done, .alloc 4 0 .done, .alloc 9 2 (.failed true), .crash, .alloc 1 (2 ^ 17) .done]

theorem ranges_ascend_troubled :
    ((openDir none).grants troubled).Pairwise (fun a b => a.first + a.count ≤ b.first) ∧
      ∀ g ∈ (openDir none).grants troubled, 0 < g.count ∧ g.first + g.count ≤ g.watermark :=
  ranges_ascend none troubled (by decide +kernel)

end TsoDir

end Arcux.Pd
