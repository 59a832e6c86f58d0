import Arcux.Engine.Reopen

namespace Arcux.Engine

open Codec Concurrency Data
open scoped Codec.ByteOrder

structure TornLife extends Life where
  tears : List (Option Nat)

def TornLife.start (life : TornLife) (w : World) : World := { w with faults := life.faults, tears := life.tears }

section

variable [Wal.Crc]

def World.liveTorn (w : World) (life : TornLife) : World := World.live { w with tears := life.tears } life.toLife

def TornLife.Guarded (guard : Call → World → Prop) : World → List TornLife → Prop
  | _, [] => True
  | w, life :: rest =>
    life.program.GuardedFor Call.exec guard life.steps (life.start w) ∧ Guarded guard (w.liveTorn life) rest

instance TornLife.decideGuarded (guard : Call → World → Prop) [∀ call w, Decidable (guard call w)] :
    (w : World) → (lives : List TornLife) → Decidable (Guarded guard w lives)
  | _, [] => .isTrue trivial
  | w, life :: rest =>
    have := decideGuarded guard (w.liveTorn life) rest
    inferInstanceAs (Decidable (_ ∧ _))

theorem World.AtRest.livesTorn {w : World} {m : Manifest} {tables : List Table} {log : Journal}
    (atRest : w.AtRest m tables log) {lives : List TornLife} (syncs : ∀ life ∈ lives, life.opts.fsyncMode ≠ .none)
    (reliable : ∀ life ∈ lives, life.faults = [])
    (guarded : TornLife.Guarded (fun call w => call.Fits ∧ call.Intact w) w lives) :
    ∃ m' tables' log', (lives.foldl World.liveTorn w).AtRest m' tables' log' := by
  induction lives generalizing w m tables log with
  | nil => exact ⟨m, tables, log, atRest⟩
  | cons life rest ih =>
    obtain ⟨here, later⟩ := List.forall_mem_cons.mp syncs
    obtain ⟨flushes, laterFlushes⟩ := List.forall_mem_cons.mp reliable
    have begun : World.AtRest { w with tears := life.tears } m tables log := { atRest with }
    have met : life.program.GuardedFor Call.exec (Call.Guard True False) life.steps (life.start w) :=
      guarded.1.mono fun call w meets => ⟨meets.1, .inl trivial, .inr meets.2⟩
    have sane := begun.runLife here (fun _ => flushes) False.elim met
    obtain ⟨m', tables', log', next⟩ := sane.recoverable life.cut
    exact ih next later laterFlushes guarded.2

/-- Whatever appends fail, and however much of their frames they write: as long as nothing is appended behind such
bytes, recovery finds every acknowledged request. -/
theorem failed_appends_harmless (lives : List TornLife) (opts : Options)
    (syncs : ∀ life ∈ lives, life.opts.fsyncMode ≠ .none) (reliable : ∀ life ∈ lives, life.faults = [])
    (guarded : TornLife.Guarded (fun call w => call.Fits ∧ call.Intact w) {} lives) :
    (lives.foldl World.liveTorn {}).RecoversExactly opts := by
  obtain ⟨m, tables, log, atRest⟩ := World.atRest_fresh.livesTorn syncs reliable guarded
  exact atRest.recoversExactly opts

end

open scoped Wal.Castagnoli

def nothingWritten : TornLife where
  opts := {}
  groups := [[.write ⟨[.put .default [1] [7]]⟩], [.write ⟨[.put .default [2] [8]]⟩], [.write ⟨[.put .default [3] [9]]⟩]]
  steps := 100
  tears := [none, some 0]

theorem failed_appends_harmless_nothingWritten : (World.liveTorn {} nothingWritten).RecoversExactly {} :=
  failed_appends_harmless [nothingWritten] {} (by decide) (by decide) (by decide +kernel)

def oneByteWritten : TornLife := { nothingWritten with tears := [none, some 1] }

/-- The third write is acknowledged, and gone after recovery. -/
theorem acknowledged_behind_torn_frame :
    (World.liveTorn {} oneByteWritten).acked = [(3, ⟨[.put .default [3] [9]]⟩), (1, ⟨[.put .default [1] [7]]⟩)] ∧
      ((openEngine {}).run.eval Call.exec (World.liveTorn {} oneByteWritten)).2.map
        (fun opened => opened.toOption.map fun core => (core.seq, core.reads.getCf .default [3])) =
          some (some (1, none)) := by
  decide +kernel

end Arcux.Engine
