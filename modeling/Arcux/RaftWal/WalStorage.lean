import Arcux.Concurrency.Crash
import Arcux.Raft.Contiguity
import Arcux.RaftWal.Codec

namespace Arcux.RaftWal

open Codec Concurrency Engine Raft

/-- The files of a storage. What `atomic_write` writes is there as a whole or not at all. -/
structure Dir where
  hardState : Option Bytes := none
  snapshot : Option Bytes := none
  log : Option Segment := none
  logTmp : Segment := {}

inductive Call where
  | readSnapshot
  | readLog
  | readHardState
  | setLen (len : Nat)
  | openAppend
  | writeHardState (data : Bytes)
  | writeSnapshot (data : Bytes)
  | append (r : Wal.Record)
  | sync
  | createTmp
  | appendTmp (r : Wal.Record)
  | syncTmp
  | renameTmp

variable [Wal.Crc]

namespace Call

abbrev Reply : Call → Type
  | readSnapshot | readLog | readHardState => Option Bytes
  | _ => Unit

def exec : (call : Call) → Dir → Dir × call.Reply
  | readSnapshot, dir => (dir, dir.snapshot)
  | readLog, dir => (dir, dir.log.map Segment.bytes)
  | readHardState, dir => (dir, dir.hardState)
  | setLen len, dir => ({ dir with log := dir.log.map fun s => ⟨s.bytes.take len, min s.synced len⟩ }, ())
  | openAppend, dir => ({ dir with log := some (dir.log.getD {}) }, ())
  | writeHardState data, dir => ({ dir with hardState := some data }, ())
  | writeSnapshot data, dir => ({ dir with snapshot := some data }, ())
  | append r, dir => ({ dir with log := dir.log.map fun s => { s with bytes := s.bytes ++ r.frame } }, ())
  | sync, dir => ({ dir with log := dir.log.map fun s => { s with synced := s.bytes.length } }, ())
  | createTmp, dir => ({ dir with logTmp := {} }, ())
  | appendTmp r, dir => ({ dir with logTmp.bytes := dir.logTmp.bytes ++ r.frame }, ())
  | syncTmp, dir => ({ dir with logTmp.synced := dir.logTmp.bytes.length }, ())
  | renameTmp, dir => ({ dir with log := some dir.logTmp, logTmp := {} }, ())

end Call

abbrev Script := Prog Call Call.Reply

def perform (call : Call) : Script call.Reply := Prog.perform call

structure WalStorage where
  hard : HardState
  log : List Entry
  snap : Option Snapshot
  deriving Repr, DecidableEq

def replay (base : Nat) : List Wal.Record → List Entry × Nat
  | [] => ([], 0)
  | r :: rest =>
    match decodeEntry r.seq r.payload with
    | some e =>
      let (log, validLen) := replay base rest
      (if base < e.index then e :: log else log, r.frame.length + validLen)
    | none => ([], r.frame.length)

def openLog (base : Nat) : Script (List Entry) := do
  match ← perform .readLog with
  | none => return []
  | some data =>
    let (log, validLen) := replay base (Wal.records data)
    perform (.setLen validLen)
    perform .sync
    return log

def loadHardState : Option Bytes → HardState
  | some bytes => decodeHardState bytes
  | none => {}

def openStorage : Script WalStorage := do
  let snap := (← perform .readSnapshot).bind decodeSnapshot
  let log ← openLog ((snap.map Snapshot.lastIncludedIndex).getD 0)
  let hard := loadHardState (← perform .readHardState)
  perform .openAppend
  return { hard, log, snap }

namespace WalStorage

def base (s : WalStorage) : Nat := (s.snap.map Snapshot.lastIncludedIndex).getD 0

def lastIndex (s : WalStorage) : Nat := (s.log.getLast?.map Entry.index).getD s.base

def firstIndex (s : WalStorage) : Nat := s.base + 1

def term (s : WalStorage) (index : Nat) : Option Nat :=
  if index = 0 then some 0
  else if index = s.base then s.snap.map Snapshot.lastIncludedTerm
  else if index < s.base then none
  else s.log[index - s.base - 1]?.map Entry.term

def entries (s : WalStorage) (low high : Nat) : List Entry :=
  let low := max low (s.base + 1)
  if high < low then []
  else
    let lo := low - s.base - 1
    let hi := min (high - s.base) s.log.length
    if hi ≤ lo then [] else (s.log.take hi).drop lo

def appendTmpAll : List Entry → Script Unit
  | [] => return
  | e :: rest => do
    perform (.appendTmp (recordOf e))
    appendTmpAll rest

def rewriteLog (s : WalStorage) : Script Unit := do
  perform .createTmp
  appendTmpAll s.log
  perform .syncTmp
  perform .renameTmp
  perform .openAppend

def saveHardState (s : WalStorage) (hs : HardState) : Script WalStorage := do
  perform (.writeHardState (encodeHardState hs))
  return { s with hard := hs }

def appendAll (s : WalStorage) : List Entry → Script WalStorage
  | [] => return s
  | e :: rest => do
    perform (.append (recordOf e))
    appendAll { s with log := s.log ++ [e] } rest

def append (s : WalStorage) (entries : List Entry) : Script WalStorage := do
  let s ← s.appendAll entries
  perform .sync
  return s

def truncateSuffix (s : WalStorage) (cut : Nat) : Script WalStorage := do
  let keep := if cut ≤ s.base + 1 then 0 else min (cut - s.base - 1) s.log.length
  if s.log.length ≤ keep then return s
  else
    let s := { s with log := s.log.take keep }
    s.rewriteLog
    return s

def installSnapshot (s : WalStorage) (snap : Snapshot) : Script WalStorage := do
  let s := { s with snap := some snap }
  perform (.writeSnapshot (encodeSnapshot snap))
  s.rewriteLog
  return s

def compact (s : WalStorage) (index term : Nat) (confState learners : List NodeId) (data : Bytes) :
    Script WalStorage :=
  if index ≤ s.base then return s
  else
    let drop := min (index - s.base) s.log.length
    installSnapshot { s with log := s.log.drop drop } ⟨index, term, confState, learners, data⟩

def applySnapshot (s : WalStorage) (snap : Snapshot) : Script WalStorage :=
  installSnapshot { s with log := [] } snap

end WalStorage

inductive Request where
  | saveHardState (hs : HardState)
  | append (entries : List Entry)
  | truncateSuffix (cut : Nat)
  | compact (index term : Nat) (confState learners : List NodeId) (data : Bytes)
  | applySnapshot (snap : Snapshot)
  | reopen

namespace Request

def run : Request → WalStorage → Script WalStorage
  | saveHardState hs, s => s.saveHardState hs
  | append entries, s => s.append entries
  | truncateSuffix cut, s => s.truncateSuffix cut
  | compact index term confState learners data, s => s.compact index term confState learners data
  | applySnapshot snap, s => s.applySnapshot snap
  | reopen, _ => openStorage

def runAll : List Request → WalStorage → Script WalStorage
  | [], s => return s
  | request :: rest, s => do runAll rest (← request.run s)

def apply (m : MemStorage) : Request → MemStorage
  | saveHardState hs => m.saveHardState hs
  | append entries => m.append entries
  | truncateSuffix cut => m.truncateSuffix cut
  | compact index term confState learners data => m.compact index term confState learners data
  | applySnapshot snap => m.applySnapshot snap
  | reopen => m

/-- Appends continue the log, numbers are `u64`s, and what is written has a size of 32 bits. -/
def Fits (m : MemStorage) : Request → Prop
  | saveHardState hs => hs.currentTerm < 2 ^ 64
  | append entries =>
    entries.map Entry.index = List.range' (m.lastIndex + 1) entries.length ∧ ∀ e ∈ entries, EntryFits e
  | compact index term confState learners data => SnapshotFits ⟨index, term, confState, learners, data⟩
  | applySnapshot snap => SnapshotFits snap
  | truncateSuffix _ | reopen => True

instance (m : MemStorage) (request : Request) : Decidable (request.Fits m) := by
  unfold Fits
  split <;> infer_instance

def AllFit : MemStorage → List Request → Prop
  | _, [] => True
  | m, request :: rest => request.Fits m ∧ AllFit (request.apply m) rest

instance decideAllFit : (m : MemStorage) → (requests : List Request) → Decidable (AllFit m requests)
  | _, [] => .isTrue trivial
  | m, request :: rest =>
    have := decideAllFit (request.apply m) rest
    inferInstanceAs (Decidable (_ ∧ _))

end Request

def useStorage (requests : List Request) : Script WalStorage := do
  Request.runAll requests (← openStorage)

end Arcux.RaftWal
