import Arcux.Engine.Wal
import Arcux.Raft.Storage

namespace Arcux.RaftWal

open Codec Engine List Raft

def entryTypeCode : EntryType → UInt8
  | .normal => 0
  | .confChange => 1

def encodeEntry (e : Entry) : Bytes := toBE 8 e.term ++ [entryTypeCode e.entryType] ++ e.data

def decodeEntry (index : Nat) (payload : Bytes) : Option Entry :=
  if payload.length < 9 then none
  else
    let entryType := if payload[8]? = some 1 then .confChange else .normal
    some ⟨fromBE (payload.take 8), index, entryType, payload.drop 9⟩

def recordOf (e : Entry) : Wal.Record := ⟨e.index, encodeEntry e⟩

@[mk_iff] structure EntryFits (e : Entry) : Prop where
  term : e.term < 2 ^ 64
  record : (recordOf e).Fits

instance (e : Entry) : Decidable (EntryFits e) := decidable_of_iff _ (entryFits_iff e).symm

theorem decodeEntry_encode {e : Entry} (small : e.term < 2 ^ 64) (index : Nat) :
    decodeEntry index (encodeEntry e) = some { e with index } := by
  have term : fromBE ((encodeEntry e).take 8) = e.term := by
    rw [encodeEntry, append_assoc, take_left' (toBE_length ..), fromBE_toBE_of_lt small]
  have data : (encodeEntry e).drop 9 = e.data := by rw [encodeEntry, drop_left' (by simp)]
  have kind : (encodeEntry e)[8]? = some (entryTypeCode e.entryType) := by
    rw [encodeEntry, append_assoc, getElem?_append_right (by simp), toBE_length]
    rfl
  have size : (encodeEntry e).length = 9 + e.data.length := by simp [encodeEntry]; omega
  rw [decodeEntry, if_neg (by omega)]
  simp only [term, data, kind]
  cases e.entryType <;> rfl

def encodeHardState (hs : HardState) : Bytes :=
  toBE 8 hs.currentTerm ++
    match hs.votedFor with
    | some v => 1 :: toBE 8 v.toNat
    | none => replicate 9 0

def decodeHardState (b : Bytes) : HardState :=
  if b.length < 17 then {}
  else
    { currentTerm := fromBE (b.take 8)
      votedFor := if b[8]? = some 1 then some (.ofNat (fromBE ((b.drop 9).take 8))) else none }

theorem decodeHardState_encode {hs : HardState} (small : hs.currentTerm < 2 ^ 64) :
    decodeHardState (encodeHardState hs) = hs := by
  obtain ⟨term, vote⟩ := hs
  have number : fromBE (toBE 8 term) = term := fromBE_toBE_of_lt small
  cases vote with
  | none => simp [encodeHardState, decodeHardState, number]
  | some v =>
    have id : UInt64.ofNat (fromBE (toBE 8 v.toNat)) = v := by
      rw [fromBE_toBE_of_lt (UInt64.toNat_lt v), UInt64.ofNat_toNat]
    have vote : ((toBE 8 term ++ 1 :: toBE 8 v.toNat).drop 9).take 8 = toBE 8 v.toNat := by
      rw [append_cons, drop_left' (by simp), take_of_length_le (toBE_length ..).le]
    simp [encodeHardState, decodeHardState, number, vote, id]

def encodeIds (ids : List NodeId) : Bytes := toBE 4 ids.length ++ ids.flatMap fun id => toBE 8 id.toNat

def encodeSnapshot (s : Snapshot) : Bytes :=
  toBE 8 s.lastIncludedIndex ++ toBE 8 s.lastIncludedTerm ++ encodeIds s.confState ++ encodeIds s.learners ++ s.data

def readId : Reader NodeId := do return .ofNat (← Reader.number 8)

def readIds : Reader (List NodeId) := do Reader.many readId (← Reader.number 4)

def readHeader : Reader (Bytes → Snapshot) := do
  let lastIncludedIndex ← Reader.number 8
  let lastIncludedTerm ← Reader.number 8
  let confState ← readIds
  let learners ← readIds
  return Snapshot.mk lastIncludedIndex lastIncludedTerm confState learners

def decodeSnapshot (b : Bytes) : Option Snapshot :=
  if b.length < 24 then none else (readHeader.run b).map fun (header, data) => header data

@[mk_iff] structure SnapshotFits (s : Snapshot) : Prop where
  index : s.lastIncludedIndex < 2 ^ 64
  term : s.lastIncludedTerm < 2 ^ 64
  voters : s.confState.length < 2 ^ 32
  learners : s.learners.length < 2 ^ 32

instance (s : Snapshot) : Decidable (SnapshotFits s) := decidable_of_iff _ (snapshotFits_iff s).symm

theorem reads_readId (id : NodeId) : Reader.Reads readId (toBE 8 id.toNat) id := by
  have small : id.toNat < 256 ^ 8 := UInt64.toNat_lt id
  have reads := (Reader.reads_number small).map UInt64.ofNat
  rwa [UInt64.ofNat_toNat] at reads

theorem reads_readIds {ids : List NodeId} (few : ids.length < 2 ^ 32) : Reader.Reads readIds (encodeIds ids) ids :=
  (Reader.reads_number few).bind (Reader.Reads.many fun id _ => reads_readId id)

theorem decodeSnapshot_encode {s : Snapshot} (fits : SnapshotFits s) : decodeSnapshot (encodeSnapshot s) = some s := by
  have size : ¬ (encodeSnapshot s).length < 24 := by
    simp only [encodeSnapshot, encodeIds, length_append, toBE_length]
    omega
  have header : readHeader.run (encodeSnapshot s) =
      some (Snapshot.mk s.lastIncludedIndex s.lastIncludedTerm s.confState s.learners, s.data) := by
    simp only [encodeSnapshot, readHeader, append_assoc]
    rw [(Reader.reads_number fits.index).run_bind, (Reader.reads_number fits.term).run_bind,
      (reads_readIds fits.voters).run_bind, (reads_readIds fits.learners).run_bind]
    rfl
  rw [decodeSnapshot, if_neg size, header]
  rfl

end Arcux.RaftWal
