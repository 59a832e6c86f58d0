import Arcux.Engine.Layered

namespace Arcux.Engine

open Codec Data List
open scoped Codec.ByteOrder

def Memtable.Filled (m : Memtable) : Prop := m.size = 0 → m.cfs = fun _ => .empty

namespace Memtable

theorem filled_new : Filled {} := fun _ => rfl

theorem Filled.apply {m : Memtable} (filled : m.Filled) (seq : Nat) (batch : WriteBatch) :
    (m.apply seq batch).Filled := by
  intro empty
  have size : (batch.ops.foldl applyOp m).size = 0 := empty
  obtain ⟨grown, same⟩ := foldl_applyOp_size batch.ops m
  have before : m.size = 0 := by omega
  have unchanged : batch.ops.foldl applyOp m = m := same (by omega)
  have cfs : (m.apply seq batch).cfs = (batch.ops.foldl applyOp m).cfs := rfl
  rw [cfs, unchanged, filled before]

end Memtable

namespace Core

def fresh (opts : Options) : Core where
  opts := opts
  active := {}
  immutable := []
  sstables := []
  wal := 1
  seq := 0
  lastFlushedSeq := 0
  nextSeg := 2
  nextSst := 1

def applyBatch (core : Core) (batch : WriteBatch) : Core :=
  { core with seq := core.seq + 1, active := core.active.apply (core.seq + 1) batch }

def freeze (core : Core) : Core :=
  { core with
    active := {}
    immutable := core.immutable ++ [core.active]
    wal := core.nextSeg
    nextSeg := core.nextSeg + 1 }

def install (core : Core) (frozen : Memtable) : Core :=
  if frozen.size = 0 then core
  else { core with sstables := core.sstables ++ [⟨core.nextSst, frozen.cfs⟩], nextSst := core.nextSst + 1 }

def forget (core : Core) (frozen : Memtable) (pos : Nat) : Core :=
  { core with
    lastFlushedSeq := max core.lastFlushedSeq frozen.maxSeq
    immutable := core.immutable.eraseIdx pos }

def installOldest (core : Core) : Core :=
  match core.immutable with
  | [] => core
  | frozen :: _ => core.install frozen

def flushOldest (core : Core) : Core :=
  match core.immutable with
  | [] => core
  | frozen :: _ => (core.install frozen).forget frozen 0

def lookup (core : Core) (cf : Cf) (key : Bytes) : Option MemValue := Layers.find? (core.levels.map (· cf)) key

def seekCf (core : Core) (cf : Cf) (low : Bytes) : Option (Bytes × MemValue) :=
  Layers.earliest (Layers.candidates low (core.levels.map (· cf)) 0)

theorem seekCf_eq (core : Core) (cf : Cf) (low : Bytes) : core.seekCf cf low = core.reads.seekCf cf low :=
  Layers.earliest_candidates _ low 0

def Filled (core : Core) : Prop := ∀ m ∈ core.active :: core.immutable, m.Filled

variable {core : Core}

theorem Filled.freeze (filled : core.Filled) : core.freeze.Filled := by
  intro m member
  rcases mem_cons.mp member with rfl | queued
  · exact Memtable.filled_new
  · rcases mem_append.mp queued with old | new
    · exact filled m (mem_cons_of_mem _ old)
    · exact mem_singleton.mp new ▸ filled _ mem_cons_self

theorem Filled.applyBatch (filled : core.Filled) (batch : WriteBatch) : (core.applyBatch batch).Filled := by
  intro m member
  rcases mem_cons.mp member with rfl | queued
  · exact (filled _ mem_cons_self).apply _ batch
  · exact filled m (mem_cons_of_mem _ queued)

@[simp] theorem install_active (frozen : Memtable) : (core.install frozen).active = core.active := by
  unfold install
  split <;> rfl

@[simp] theorem install_immutable (frozen : Memtable) : (core.install frozen).immutable = core.immutable := by
  unfold install
  split <;> rfl

theorem Filled.forget (filled : core.Filled) (frozen : Memtable) (pos : Nat) :
    ((core.install frozen).forget frozen pos).Filled := by
  intro m member
  refine filled m ?_
  rcases mem_cons.mp member with rfl | queued
  · exact install_active frozen ▸ mem_cons_self
  · exact mem_cons_of_mem _ (install_immutable frozen ▸ mem_of_mem_eraseIdx queued)

theorem reads_congr {core' : Core} (same : ∀ cf key, core.lookup cf key = core'.lookup cf key) :
    core.reads = core'.reads := by
  rw [reads, reads, Reads.mk.injEq]
  constructor
  · funext cf key
    exact congrArg (Option.bind · MemValue.intoPresent) (same cf key)
  · funext cf low
    exact Layers.seek_congr (same cf) low

@[simp] theorem lookup_applyBatch (batch : WriteBatch) (cf : Cf) (key : Bytes) :
    (core.applyBatch batch).lookup cf key = (lastOp batch.ops cf key).or (core.lookup cf key) := by
  have applied (seq : Nat) : (core.active.apply seq batch).cfs = (batch.ops.foldl Memtable.applyOp core.active).cfs := rfl
  simp only [lookup, levels, applyBatch, map_cons, Layers.find?_cons, applied, Memtable.find?_foldl_applyOp,
    Option.or_assoc]

@[simp] theorem lookup_freeze (cf : Cf) (key : Bytes) : core.freeze.lookup cf key = core.lookup cf key := by
  simp [lookup, levels, freeze]

variable {frozen : Memtable} {rest : List Memtable}

theorem levels_oldest (queue : core.immutable = frozen :: rest) (cf : Cf) :
    core.levels.map (· cf) = (core.active.cfs cf :: rest.reverse.map (·.cfs cf)) ++
      frozen.cfs cf :: core.sstables.reverse.map (·.cfs cf) := by
  simp [levels, queue, Function.comp_def]

theorem lookup_install (queue : core.immutable = frozen :: rest) (cf : Cf)
    (key : Bytes) : (core.install frozen).lookup cf key = core.lookup cf key := by
  by_cases empty : frozen.size = 0
  · rw [install, if_pos empty]
  · have tables : (core.install frozen).sstables = core.sstables ++ [⟨core.nextSst, frozen.cfs⟩] := by
      rw [install, if_neg empty]
    rw [lookup, lookup, levels_oldest queue, levels_oldest ((install_immutable frozen).trans queue), install_active, tables]
    simp only [reverse_append, reverse_singleton, singleton_append, map_cons]
    exact Layers.find?_repeated ..

theorem lookup_forget (queue : core.immutable = frozen :: rest)
    (filled : frozen.Filled) (cf : Cf) (key : Bytes) :
    ((core.install frozen).forget frozen 0).lookup cf key = core.lookup cf key := by
  have left : core.immutable.eraseIdx 0 = rest := by rw [queue, eraseIdx_cons_zero]
  rw [lookup, lookup, levels_oldest queue]
  by_cases empty : frozen.size = 0
  · rw [filled empty, Layers.find?_hollow]
    simp [levels, install, forget, empty, left, Function.comp_def]
  · simp [levels, install, forget, empty, left, Function.comp_def]

theorem lookup_installOldest (cf : Cf) (key : Bytes) : core.installOldest.lookup cf key = core.lookup cf key := by
  unfold installOldest
  split
  · rfl
  · rename_i frozen rest queue
    exact lookup_install queue cf key

theorem lookup_flushOldest (filled : core.Filled) (cf : Cf) (key : Bytes) :
    core.flushOldest.lookup cf key = core.lookup cf key := by
  unfold flushOldest
  split
  · rfl
  · rename_i frozen rest queue
    exact lookup_forget queue (filled frozen (by simp [queue])) cf key

theorem Filled.flushOldest (filled : core.Filled) : core.flushOldest.Filled := by
  unfold Core.flushOldest
  split
  · exact filled
  · exact filled.forget _ 0

end Core

theorem lastOp_isSome {ops : List WriteOp} {op : WriteOp} (member : op ∈ ops) :
    ∃ value, lastOp ops op.cf op.key = some value := by
  have found : (ops.reverse.find? fun op' => op'.cf = op.cf ∧ op'.key = op.key).isSome := by
    rw [find?_isSome]
    exact ⟨op, mem_reverse.mpr member, by simp⟩
  obtain ⟨last, is⟩ := Option.isSome_iff_exists.mp found
  exact ⟨last.memValue, by rw [lastOp, is]; rfl⟩

theorem exists_of_lastOp {ops : List WriteOp} {cf : Cf} {key : Bytes} {value : MemValue}
    (last : lastOp ops cf key = some value) : ∃ op ∈ ops, op.cf = cf ∧ op.key = key := by
  obtain ⟨op, found, -⟩ := Option.map_eq_some_iff.mp last
  exact ⟨op, mem_reverse.mp (mem_of_find?_eq_some found), by simpa using find?_some found⟩

/-- A read returns the last operation on its key, and a seek the least key with an operation, not below the given one. -/
structure ReadsNewest (core : Core) (ops : List WriteOp) : Prop where
  getCf (cf : Cf) (key : Bytes) : core.reads.getCf cf key = (lastOp ops cf key).bind MemValue.intoPresent
  seekCf (cf : Cf) (low : Bytes) : match core.seekCf cf low with
    | none => ∀ op ∈ ops, op.cf = cf → op.key < low
    | some (key, value) => low ≤ key ∧ (∃ op ∈ ops, op.cf = cf ∧ op.key = key) ∧ lastOp ops cf key = some value ∧
        ∀ op ∈ ops, op.cf = cf → low ≤ op.key → key ≤ op.key

theorem Core.readsNewest {core : Core} {ops : List WriteOp}
    (newest : ∀ cf key, core.lookup cf key = lastOp ops cf key) : ReadsNewest core ops where
  getCf cf key := congrArg (Option.bind · MemValue.intoPresent) (newest cf key)
  seekCf cf low := by
    have spec := Layers.seek_spec (core.levels.map (· cf)) low
    have bound (key : Bytes) : Layers.find? (core.levels.map (· cf)) key = lastOp ops cf key := newest cf key
    have sought : core.seekCf cf low = Layers.seek (core.levels.map (· cf)) low := core.seekCf_eq cf low
    simp only [bound] at spec
    rw [sought]
    cases found : Layers.seek (core.levels.map (· cf)) low with
    | none =>
      rw [found] at spec
      intro op member here
      obtain ⟨value, last⟩ := lastOp_isSome member
      exact spec op.key value (here ▸ last)
    | some e =>
      rw [found] at spec
      obtain ⟨last, reached, least⟩ := spec
      refine ⟨reached, exists_of_lastOp last, last, fun op member here above => ?_⟩
      obtain ⟨value, last'⟩ := lastOp_isSome member
      exact least op.key value (here ▸ last') above

inductive Event where
  | apply (batch : WriteBatch)
  | freeze
  -- of the oldest frozen memtable
  | flush

def Event.ops : Event → List WriteOp
  | apply batch => batch.ops
  | freeze | flush => []

namespace Core

def step (core : Core) : Event → Core
  | .apply batch => core.applyBatch batch
  | .freeze => core.freeze
  | .flush => core.flushOldest

def run (core : Core) (events : List Event) : Core := events.foldl step core

variable {core : Core}

theorem Filled.step (filled : core.Filled) (event : Event) : (core.step event).Filled := by
  cases event with
  | apply batch => exact filled.applyBatch batch
  | freeze => exact filled.freeze
  | flush => exact filled.flushOldest

theorem lookup_step (filled : core.Filled) (event : Event) (cf : Cf) (key : Bytes) :
    (core.step event).lookup cf key = (lastOp event.ops cf key).or (core.lookup cf key) := by
  cases event with
  | apply batch => exact lookup_applyBatch batch cf key
  | freeze => exact lookup_freeze cf key
  | flush => exact lookup_flushOldest filled cf key

theorem lookup_run (filled : core.Filled) (events : List Event) (cf : Cf) (key : Bytes) :
    (core.run events).lookup cf key = (lastOp (events.flatMap Event.ops) cf key).or (core.lookup cf key) := by
  induction events generalizing core with
  | nil => rfl
  | cons event rest ih =>
    have later : (core.run (event :: rest)).lookup cf key = _ := ih (filled.step event)
    rw [later, lookup_step filled, flatMap_cons, lastOp_append, Option.or_assoc]

theorem filled_fresh (opts : Options) : (fresh opts).Filled := by
  intro m member
  exact mem_singleton.mp member ▸ Memtable.filled_new

end Core

/-- Whatever was frozen and flushed in between, and also in the middle of a flush. -/
theorem lsm_reads_newest (opts : Options) (events : List Event) :
    ReadsNewest ((Core.fresh opts).run events) (events.flatMap Event.ops) ∧
      ReadsNewest ((Core.fresh opts).run events).installOldest (events.flatMap Event.ops) := by
  have newest (cf : Cf) (key : Bytes) :
      ((Core.fresh opts).run events).lookup cf key = lastOp (events.flatMap Event.ops) cf key := by
    rw [Core.lookup_run (Core.filled_fresh opts)]
    exact Option.or_none
  exact ⟨Core.readsNewest newest, Core.readsNewest fun cf key => (Core.lookup_installOldest cf key).trans (newest cf key)⟩

end Arcux.Engine
