import Arcux.Concurrency.Crash
import Arcux.Data.Layers
import Arcux.Engine.Batch

namespace Arcux.Engine

open Codec Concurrency Data
open scoped Codec.ByteOrder

abbrev Families := Cf → OrdMap Bytes MemValue

structure Memtable where
  cfs : Families := fun _ => .empty
  size : Nat := 0
  maxSeq : Nat := 0

def WriteOp.footprint : WriteOp → Nat
  | put _ key value => key.length + value.length + 24
  | delete _ key => key.length + 24

namespace Memtable

def applyOp (m : Memtable) (op : WriteOp) : Memtable where
  cfs cf := if cf = op.cf then (m.cfs cf).insert op.key op.memValue else m.cfs cf
  size := m.size + op.footprint
  maxSeq := m.maxSeq

def apply (m : Memtable) (seq : Nat) (batch : WriteBatch) : Memtable :=
  { batch.ops.foldl applyOp m with maxSeq := max m.maxSeq seq }

end Memtable

structure Table where
  fileNo : Nat
  cfs : Families

inductive FsyncMode where
  | fsync | fullFsync | none
  deriving Repr, DecidableEq

structure Options where
  memtableSizeThreshold : Nat := 4 * 1024 * 1024
  fsyncMode : FsyncMode := .fsync

structure Core where
  opts : Options
  active : Memtable
  -- frozen memtables, oldest first
  immutable : List Memtable
  -- live tables, oldest first
  sstables : List Table
  -- the segment being written
  wal : Nat
  seq : Nat
  lastFlushedSeq : Nat
  nextSeg : Nat
  nextSst : Nat

structure Reads where
  getCf : Cf → Bytes → Option Bytes
  seekCf : Cf → Bytes → Option (Bytes × MemValue)

namespace Reads

def currentLock (reads : Reads) (key : Bytes) : Except Error (Option Lock) :=
  match reads.getCf .lock key with
  | some bytes =>
    match Lock.decode bytes with
    | some lock => .ok (some lock)
    | none => .error (.corruption "lock decode")
  | none => .ok none

def newerCommit (reads : Reads) (key : Bytes) (startTs : Ts) : Bool :=
  match reads.seekCf .write (encodeDataKey key maxTs) with
  | some (writeKey, _) =>
    match decodeDataKey writeKey with
    | some (writeUser, commitTs) => writeUser = key ∧ commitTs ≥ startTs
    | none => false
  | none => false

def checkPrewrite (reads : Reads) (key : Bytes) (startTs : Ts) : Except Error Unit :=
  if reads.newerCommit key startTs then .error (.conflict "write conflict: a newer commit exists")
  else if (reads.getCf .lock key).isSome then .error (.conflict "key is already locked by another transaction")
  else .ok ()

def plan (reads : Reads) : Op → Except Error (Option WriteBatch)
  | .write batch => .ok (some batch)
  | .prewrite spec =>
    match reads.checkPrewrite spec.key spec.startTs with
    | .ok () => .ok (some (buildPrewriteBatch spec))
    | .error e => .error e
  | .resolve spec =>
    match reads.currentLock spec.key with
    | .ok (some lock) => if lock.startTs = spec.startTs then .ok (some (buildResolveBatch spec)) else .ok none
    | .ok none => .ok none
    | .error e => .error e

end Reads

namespace Core

def levels (core : Core) : List Families :=
  core.active.cfs :: (core.immutable.reverse.map Memtable.cfs ++ core.sstables.reverse.map Table.cfs)

def reads (core : Core) : Reads where
  getCf cf key := (Layers.find? (core.levels.map (· cf)) key).bind MemValue.intoPresent
  seekCf cf low := Layers.seek (core.levels.map (· cf)) low

def newest (core : Core) : Nat :=
  (core.immutable.map Memtable.maxSeq).foldl max (max core.lastFlushedSeq core.active.maxSeq)

end Core

structure Disk where
  segments : OrdMap Nat Segment := .empty
  -- a table is either finished and durable or of no use
  tables : OrdMap Nat (Option Families) := .empty
  manifestTmp : Option Bytes := none
  manifest : Option Bytes := none

inductive Call where
  -- a change of the shared state becomes visible to readers
  | publish (core : Core)
  | ack (seq : Nat) (batch : WriteBatch)
  -- whether the next call fails
  | fault
  | loadManifest
  | draftManifest (m : Manifest)
  | renameManifest
  | listTables
  | createTable (n : Nat)
  | finishTable (n : Nat) (cfs : Families)
  | openTable (n : Nat)
  | removeTable (n : Nat)
  | listSegments
  | readSegment (n : Nat)
  | createSegment (n : Nat)
  | append (n seq : Nat) (batch : WriteBatch)
  | sync (n : Nat)
  | removeSegment (n : Nat)

namespace Call

abbrev Reply : Call → Type
  | fault => Bool
  | loadManifest => Option Bytes
  | listTables | listSegments => List Nat
  | openTable _ => Option Families
  | readSegment _ => Bytes
  | append _ _ _ => Bool
  | _ => Unit

end Call

/-- The files, the shared state of the engine if it is open, the batches logged in the order of their numbers, the
acknowledged ones, which of the next fallible calls fail, and which of the next appends, each with the number of bytes
that it writes nevertheless. -/
structure World where
  disk : Disk := {}
  core : Option Core := none
  logged : List WriteBatch := []
  acked : List (Nat × WriteBatch) := []
  faults : List Bool := []
  tears : List (Option Nat) := []

namespace Disk

def modifySegment (disk : Disk) (n : Nat) (change : Segment → Segment) : Disk :=
  match disk.segments.find? n with
  | some segment => { disk with segments := disk.segments.insert n (change segment) }
  | none => disk

end Disk

variable [Wal.Crc]

namespace World

def append (w : World) (n seq : Nat) (batch : WriteBatch) : World :=
  { w with
    disk := w.disk.modifySegment n fun s => { s with bytes := s.bytes ++ (Wal.Record.mk seq batch.encode).frame }
    -- a batch takes the place of those that a crash has lost
    logged := w.logged.take (seq - 1) ++ [batch]
    tears := w.tears.tail }

/-- A write that fails has not written the last byte of its frame; its number is used up, and stands for no batch. -/
def appendPart (w : World) (n seq : Nat) (batch : WriteBatch) (written : Nat) : World :=
  { w with
    disk := w.disk.modifySegment n fun s =>
      { s with bytes := s.bytes ++ (Wal.Record.mk seq batch.encode).frame.dropLast.take written }
    logged := w.logged.take (seq - 1) ++ [{}]
    tears := w.tears.tail }

end World

def Call.exec : (call : Call) → World → World × call.Reply
  | publish core, w => ({ w with core := some core }, ())
  | ack seq batch, w => ({ w with acked := (seq, batch) :: w.acked }, ())
  | fault, w => ({ w with faults := w.faults.tail }, w.faults.headD false)
  | loadManifest, w => (w, w.disk.manifest)
  | draftManifest m, w => ({ w with disk.manifestTmp := some m.encode }, ())
  | renameManifest, w => ({ w with disk.manifest := w.disk.manifestTmp, disk.manifestTmp := none }, ())
  | listTables, w => (w, w.disk.tables.entries.map Prod.fst)
  | createTable n, w => ({ w with disk.tables := w.disk.tables.insert n none }, ())
  | finishTable n cfs, w => ({ w with disk.tables := w.disk.tables.insert n (some cfs) }, ())
  | openTable n, w => (w, (w.disk.tables.find? n).join)
  | removeTable n, w => ({ w with disk.tables := w.disk.tables.erase n }, ())
  | listSegments, w => (w, w.disk.segments.entries.map Prod.fst)
  | readSegment n, w => (w, ((w.disk.segments.find? n).map Segment.bytes).getD [])
  | createSegment n, w => ({ w with disk.segments := w.disk.segments.insert n {} }, ())
  | append n seq batch, w =>
    match w.tears.headD none with
    | none => (w.append n seq batch, true)
    | some written => (w.appendPart n seq batch written, false)
  | sync n, w => ({ w with disk := w.disk.modifySegment n fun s => { s with synced := s.bytes.length } }, ())
  | removeSegment n, w => ({ w with disk.segments := w.disk.segments.erase n }, ())

def World.crash (cut : Nat → Nat) (w : World) : World :=
  { w with
    disk.segments := w.disk.segments.mapValues fun n s =>
      let bytes := s.bytes.take (max s.synced (cut n))
      ⟨bytes, bytes.length⟩
    disk.manifestTmp := none
    core := none }

abbrev Script := Prog Call Call.Reply

section

def perform (call : Call) : Script call.Reply := Prog.perform call

def logRequests : List Op → Core → Script (Core × List (Except Error Nat) × List (Nat × WriteBatch))
  | [], core => return (core, [], [])
  | op :: rest, core =>
    match core.reads.plan op with
    | .error e => do
      let (core, results, logged) ← logRequests rest core
      return (core, .error e :: results, logged)
    | .ok none => do
      let (core, results, logged) ← logRequests rest core
      return (core, .ok 0 :: results, logged)
    | .ok (some batch) => do
      let seq := core.seq + 1
      perform (.publish { core with seq })
      if ← perform (.append core.wal seq batch) then
        let core := { core with seq, active := core.active.apply seq batch }
        perform (.publish core)
        let (core, results, logged) ← logRequests rest core
        return (core, .ok seq :: results, (seq, batch) :: logged)
      else
        let (core, results, logged) ← logRequests rest { core with seq }
        return (core, .error .io :: results, logged)

def syncWal (core : Core) (logged : List (Nat × WriteBatch)) : Script Unit :=
  if logged = [] ∨ core.opts.fsyncMode = .none then return else perform (.sync core.wal)

def rotate (core : Core) : Script Core := do
  let core := { core with active := {}, immutable := core.immutable ++ [core.active] }
  perform (.publish core)
  perform (.createSegment core.nextSeg)
  let core := { core with wal := core.nextSeg, nextSeg := core.nextSeg + 1 }
  perform (.publish core)
  return core

def writeTable (core : Core) (frozen : Memtable) : Script (Core × Option Families) := do
  let n := core.nextSst
  let core := { core with nextSst := n + 1 }
  perform (.publish core)
  perform (.createTable n)
  if ← perform .fault then return (core, none)
  perform (.finishTable n frozen.cfs)
  if ← perform .fault then return (core, none)
  return (core, ← perform (.openTable n))

def persistManifest (core : Core) : Script Bool := do
  if ← perform .fault then return false
  perform (.draftManifest ⟨core.lastFlushedSeq, core.sstables.map Table.fileNo⟩)
  if ← perform .fault then return false
  perform .renameManifest
  return true

def finishFlush (core : Core) (frozen : Memtable) (pos : Nat) : Script Core := do
  let core := { core with lastFlushedSeq := max core.lastFlushedSeq frozen.maxSeq }
  perform (.publish core)
  if ← persistManifest core then
    let core := { core with immutable := core.immutable.eraseIdx pos }
    perform (.publish core)
    return core
  else return core

def flushMemtable (core : Core) (frozen : Memtable) (pos : Nat) : Script Core :=
  if frozen.size = 0 then finishFlush core frozen pos
  else do
    match ← writeTable core frozen with
    | (core, none) => return core
    | (core, some cfs) =>
      let core := { core with sstables := core.sstables ++ [⟨core.nextSst - 1, cfs⟩] }
      perform (.publish core)
      finishFlush core frozen pos

def flushIfFull (core : Core) : Script Core :=
  if core.opts.memtableSizeThreshold ≤ core.active.size then do
    let rotated ← rotate core
    flushMemtable rotated core.active core.immutable.length
  else return core

def ackAll : List (Nat × WriteBatch) → Script Unit
  | [] => return
  | (seq, batch) :: rest => do
    perform (.ack seq batch)
    ackAll rest

def processGroup (core : Core) (group : List Op) : Script (Core × List (Except Error Nat)) := do
  let (core, results, logged) ← logRequests group core
  syncWal core logged
  let core ← flushIfFull core
  ackAll logged
  return (core, results)

def runCommitter : List (List Op) → Core → Script Unit
  | [], _ => return
  | group :: rest, core => do
    let (core, _) ← processGroup core group
    runCommitter rest core

def openTables : List Nat → ExceptT Error Script (List Table)
  | [] => return []
  | n :: rest => do
    match ← perform (.openTable n) with
    | none => throw (.corruption "sstable smaller than footer")
    | some cfs => return ⟨n, cfs⟩ :: (← openTables rest)

structure Replay where
  active : Memtable := {}
  maxSeq : Nat
  reclaimable : List Nat := []

def replayRecords (lastFlushed : Nat) : List Wal.Record → Memtable × Nat → Except Error (Memtable × Nat)
  | [], state => .ok state
  | r :: rest, (active, maxSeq) =>
    if lastFlushed < r.seq then
      match WriteBatch.decode r.payload with
      | none => .error (.corruption "WAL batch decode failed")
      | some batch => replayRecords lastFlushed rest (active.apply r.seq batch, max maxSeq r.seq)
    else replayRecords lastFlushed rest (active, max maxSeq r.seq)

def replaySegments (lastFlushed : Nat) : List Nat → Replay → ExceptT Error Script Replay
  | [], replay => return replay
  | n :: rest, replay => do
    let records := Wal.records (← perform (.readSegment n))
    match replayRecords lastFlushed records (replay.active, replay.maxSeq) with
    | .error e => throw e
    | .ok (active, maxSeq) =>
      let dead := if records.any (lastFlushed < ·.seq) then [] else [n]
      replaySegments lastFlushed rest ⟨active, maxSeq, replay.reclaimable ++ dead⟩

def removeSegments : List Nat → Script Unit
  | [] => return
  | n :: rest => do
    perform (.removeSegment n)
    removeSegments rest

def removeOrphans (live : List Nat) : List Nat → Script Unit
  | [] => return
  | n :: rest =>
    if n ∈ live then removeOrphans live rest
    else do
      perform (.removeTable n)
      removeOrphans live rest

def loadManifest : ExceptT Error Script Manifest := do
  match ← perform .loadManifest with
  | none => return {}
  | some data =>
    match Manifest.decode data with
    | .ok m => return m
    | .error e => throw e

def openEngine (opts : Options) : ExceptT Error Script Core := do
  let manifest ← loadManifest
  let sstables ← openTables manifest.sstables
  let segments ← perform .listSegments
  let replay ← replaySegments manifest.lastFlushedSeq segments { maxSeq := manifest.lastFlushedSeq }
  let newSeg := segments.foldl max 0 + 1
  perform (.createSegment newSeg)
  removeSegments replay.reclaimable
  removeOrphans manifest.sstables (← perform .listTables)
  let core : Core :=
    { opts, active := replay.active, immutable := [], sstables, wal := newSeg, seq := replay.maxSeq,
      lastFlushedSeq := manifest.lastFlushedSeq, nextSeg := newSeg + 1, nextSst := manifest.sstables.foldl max 0 + 1 }
  perform (.publish core)
  return core

/-- One life of the process: it opens the engine, serves groups of requests, and is stopped after some number of
steps by a crash that cuts the segments. -/
structure Life where
  opts : Options
  groups : List (List Op)
  faults : List Bool := []
  steps : Nat
  cut : Nat → Nat := fun _ => 0

def Life.program (life : Life) : Script Unit := do
  match ← (openEngine life.opts).run with
  | .error _ => return
  | .ok core => runCommitter life.groups core

end

namespace World

def runLife (w : World) (life : Life) : World :=
  (life.program.evalFor Call.exec life.steps { w with faults := life.faults }).1

def live (w : World) (life : Life) : World := (w.runLife life).crash life.cut

end World

end Arcux.Engine
