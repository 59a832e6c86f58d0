import Arcux.Codec.BigEndian

namespace Arcux.Raft

open Codec

abbrev NodeId := UInt64

inductive EntryType where
  | normal | confChange
  deriving Repr, DecidableEq

/-- One log entry. Terms and indices are unbounded: a run would need 2^64 elections or entries to wrap them. -/
structure Entry where
  term : Nat
  index : Nat
  entryType : EntryType
  data : Bytes
  deriving Repr, DecidableEq

def Entry.normal (term index : Nat) (data : Bytes) : Entry := ⟨term, index, .normal, data⟩

inductive ConfChange where
  | addNode (id : NodeId) | removeNode (id : NodeId) | addLearner (id : NodeId)
  deriving Repr, DecidableEq

namespace ConfChange

def op : ConfChange → UInt8
  | addNode _ => 1
  | removeNode _ => 2
  | addLearner _ => 3

def nodeId : ConfChange → NodeId
  | addNode id | removeNode id | addLearner id => id

def encodeIds (ids : List NodeId) : Bytes := ids.flatMap (fun id => toBE 8 id.toNat)

/-- The operation and the membership that results from it. Counts are cut to 32 bits as in the source. -/
def encode (cc : ConfChange) (voters learners : List NodeId) : Bytes :=
  [cc.op] ++ toBE 8 cc.nodeId.toNat ++ toBE 4 voters.length ++ encodeIds voters ++
    toBE 4 learners.length ++ encodeIds learners

def readU64 (bytes : Bytes) (pos : Nat) : NodeId := UInt64.ofNat (fromBE ((bytes.drop pos).take 8))

def readU32 (bytes : Bytes) (pos : Nat) : Nat := fromBE ((bytes.drop pos).take 4)

def decodeIds (bytes : Bytes) : Nat → Nat → Option (List NodeId × Nat)
  | 0, pos => some ([], pos)
  | count + 1, pos =>
    if bytes.length < pos + 8 then none
    else match decodeIds bytes count (pos + 8) with
      | some (ids, last) => some (readU64 bytes pos :: ids, last)
      | none => none

def decode (bytes : Bytes) : Option (ConfChange × List NodeId × List NodeId) :=
  if bytes.length < 13 then none
  else
    let id := readU64 bytes 1
    let change := match bytes.head? with
      | some 1 => some (addNode id)
      | some 2 => some (removeNode id)
      | some 3 => some (addLearner id)
      | _ => none
    match change, decodeIds bytes (readU32 bytes 9) 13 with
    | some cc, some (voters, pos) =>
      -- An entry older than learners ends here.
      if bytes.length < pos + 4 then some (cc, voters, [])
      else match decodeIds bytes (readU32 bytes pos) (pos + 4) with
        | some (learners, _) => some (cc, voters, learners)
        | none => none
    | _, _ => none

end ConfChange

structure HardState where
  currentTerm : Nat := 0
  votedFor : Option NodeId := none
  deriving Repr, DecidableEq

inductive MessageBody where
  | requestVote (lastLogIndex lastLogTerm : Nat)
  | requestVoteResp (granted : Bool)
  | appendEntries (prevLogIndex prevLogTerm : Nat) (entries : List Entry) (leaderCommit readRound : Nat)
  | appendEntriesResp (success : Bool) (matchIndex readRound : Nat)
  | installSnapshot (lastIncludedIndex lastIncludedTerm : Nat) (confState learners : List NodeId) (data : Bytes)
  | installSnapshotResp (matchIndex : Nat)
  | timeoutNow
  deriving Repr, DecidableEq

structure Message where
  sender : NodeId
  dest : NodeId
  term : Nat
  body : MessageBody
  deriving Repr, DecidableEq

def MessageBody.isResponse : MessageBody → Bool
  | requestVoteResp _ | appendEntriesResp _ _ _ | installSnapshotResp _ => true
  | _ => false

end Arcux.Raft
