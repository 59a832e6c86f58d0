import Arcux.Raft.Message

namespace Arcux.Raft

open Codec

structure Snapshot where
  lastIncludedIndex : Nat
  lastIncludedTerm : Nat
  confState : List NodeId
  learners : List NodeId
  data : Bytes
  deriving Repr, DecidableEq

structure MemStorage where
  hard : HardState := {}
  log : List Entry := []
  snap : Option Snapshot := none
  deriving Repr, DecidableEq

namespace MemStorage

def base (s : MemStorage) : Nat := (s.snap.map Snapshot.lastIncludedIndex).getD 0

def saveHardState (s : MemStorage) (hard : HardState) : MemStorage := { s with hard := hard }

def lastIndex (s : MemStorage) : Nat := (s.log.getLast?.map Entry.index).getD s.base

def firstIndex (s : MemStorage) : Nat := s.base + 1

def term (s : MemStorage) (index : Nat) : Option Nat :=
  if index = 0 then some 0
  else if index = s.base then s.snap.map Snapshot.lastIncludedTerm
  else if index < s.base then none
  else s.log[index - s.base - 1]?.map Entry.term

def entries (s : MemStorage) (low high : Nat) : List Entry :=
  let low := max low (s.base + 1)
  if high < low then []
  else
    let lo := low - s.base - 1
    let hi := min (high - s.base) s.log.length
    if hi ≤ lo then [] else (s.log.take hi).drop lo

def append (s : MemStorage) (entries : List Entry) : MemStorage := { s with log := s.log ++ entries }

def truncateSuffix (s : MemStorage) (cut : Nat) : MemStorage :=
  if cut ≤ s.base + 1 then { s with log := [] } else { s with log := s.log.take (cut - s.base - 1) }

def compact (s : MemStorage) (index term : Nat) (confState learners : List NodeId) (data : Bytes) : MemStorage :=
  if index ≤ s.base then s
  else { s with
    log := s.log.drop (min (index - s.base) s.log.length)
    snap := some ⟨index, term, confState, learners, data⟩ }

theorem compact_of_lt {s : MemStorage} {index : Nat} (above : s.base < index) (term : Nat)
    (confState learners : List NodeId) (data : Bytes) : s.compact index term confState learners data = { s with
      log := s.log.drop (min (index - s.base) s.log.length)
      snap := some ⟨index, term, confState, learners, data⟩ } :=
  if_neg (Nat.not_le.mpr above)

def applySnapshot (s : MemStorage) (snap : Snapshot) : MemStorage := { s with log := [], snap := some snap }

end MemStorage

end Arcux.Raft
