import Arcux.Raft.Storage
import Mathlib.Data.Finset.Card
import Mathlib.Data.List.Sort

namespace Arcux.Raft

open Codec

inductive Role where
  | follower | candidate | leader
  deriving Repr, DecidableEq

structure Config where
  id : NodeId
  voters : List NodeId
  electionTimeout : UInt32
  heartbeatTimeout : UInt32
  seed : UInt64
  checkQuorum : Bool
  deriving Repr, DecidableEq

def Config.new (id : NodeId) (voters : List NodeId) : Config :=
  ⟨id, voters, 10, 1, id * 0x9E3779B97F4A7C15, true⟩

inductive ProposeError where
  | notLeader | confChangeInProgress | cannotRemoveLeader | transferInProgress | notAVoter
  deriving Repr, DecidableEq

/-- One Raft peer. Ordered maps keyed by node are partial functions and ordered sets are finite sets:
the code never iterates over either. -/
structure RaftNode where
  id : NodeId
  voters : List NodeId
  learners : List NodeId
  bootstrapConf : List NodeId
  storage : MemStorage
  role : Role
  currentTerm : Nat
  votedFor : Option NodeId
  commitIndex : Nat
  lastApplied : Nat
  leaderId : Option NodeId
  votes : Finset NodeId
  nextIndex : NodeId → Option Nat
  matchIndex : NodeId → Option Nat
  electionElapsed : UInt32
  heartbeatElapsed : UInt32
  randomizedElectionTimeout : UInt32
  electionTimeout : UInt32
  heartbeatTimeout : UInt32
  rng : UInt64
  transferTarget : Option NodeId
  transferElapsed : UInt32
  checkQuorum : Bool
  recentActive : Finset NodeId
  quorumElapsed : UInt32
  readRound : Nat
  ackedRound : NodeId → Option Nat
  pendingReads : List (Nat × Nat)
  readyReads : List (Nat × Nat)
  messages : List Message
  pendingSnapshot : Option (Nat × Bytes)

def dedup : List NodeId → List NodeId
  | [] => []
  | [a] => [a]
  | a :: b :: rest => if a = b then dedup (b :: rest) else a :: dedup (b :: rest)

def sortDedup (ids : List NodeId) : List NodeId := dedup (ids.insertionSort (· ≤ ·))

def nextRand (rng : UInt64) : UInt64 :=
  let x := rng ^^^ (rng <<< 13)
  let x := x ^^^ (x >>> 7)
  x ^^^ (x <<< 17)

def foldConf (start : List NodeId × List NodeId) (entries : List Entry) : List NodeId × List NodeId :=
  entries.foldl (fun conf e =>
    if e.entryType = .confChange then
      match ConfChange.decode e.data with
      | some (_, voters, learners) => (voters, learners)
      | none => conf
    else conf) start

def applyConfChange (voters learners : List NodeId) : ConfChange → List NodeId × List NodeId
  | .addNode id => (if id ∈ voters then voters else voters ++ [id], learners.filter (· ≠ id))
  | .removeNode id => (voters.filter (· ≠ id), learners.filter (· ≠ id))
  | .addLearner id => (voters, if id ∉ voters ∧ id ∉ learners then learners ++ [id] else learners)

namespace RaftNode

def majority (n : RaftNode) : Nat := n.voters.length / 2 + 1

def isVoter (n : RaftNode) : Bool := n.id ∈ n.voters

def isLeader (n : RaftNode) : Bool := n.role = .leader

def peers (n : RaftNode) : List NodeId := n.voters.filter (· ≠ n.id)

def replicationPeers (n : RaftNode) : List NodeId := (n.voters ++ n.learners).filter (· ≠ n.id)

def lastLogTerm (n : RaftNode) : Nat := (n.storage.term n.storage.lastIndex).getD 0

def progress (n : RaftNode) (peer : NodeId) : Option (Nat × Nat) :=
  if n.role ≠ .leader then none else (n.matchIndex peer).map (fun m => (m, n.storage.lastIndex))

def send (n : RaftNode) (dest : NodeId) (term : Nat) (body : MessageBody) : RaftNode :=
  { n with messages := n.messages ++ [⟨n.id, dest, term, body⟩] }

def persistHardState (n : RaftNode) : RaftNode :=
  { n with storage := n.storage.saveHardState ⟨n.currentTerm, n.votedFor⟩ }

def resetElectionTimer (n : RaftNode) : RaftNode :=
  let x := nextRand n.rng
  { n with
    electionElapsed := 0
    rng := x
    randomizedElectionTimeout := n.electionTimeout + (x % n.electionTimeout.toUInt64).toUInt32 }

def becomeFollower (n : RaftNode) (term : Nat) (leader : Option NodeId) : RaftNode :=
  let n := if n.currentTerm < term then { n with currentTerm := term, votedFor := none }.persistHardState else n
  { n with
    role := .follower
    leaderId := leader
    transferTarget := none
    transferElapsed := 0
    pendingReads := []
    readyReads := [] }.resetElectionTimer

def confAt (n : RaftNode) (index : Nat) : List NodeId × List NodeId :=
  let start := match n.storage.snap with
    | some s => (s.confState, s.learners)
    | none => (n.bootstrapConf, [])
  let conf := foldConf start (n.storage.entries n.storage.firstIndex index)
  (sortDedup conf.1, sortDedup conf.2)

def adoptConf (n : RaftNode) (conf : List NodeId × List NodeId) : RaftNode :=
  { n with voters := conf.1, learners := conf.2 }

def checkTransfer (n : RaftNode) : RaftNode :=
  match n.transferTarget with
  | some target => if target ∈ n.voters then n else { n with transferTarget := none, transferElapsed := 0 }
  | none => n

def recomputeConf (n : RaftNode) : RaftNode :=
  let n := (n.adoptConf (n.confAt n.storage.lastIndex)).checkTransfer
  if n.role = .leader ∧ ¬ n.isVoter then n.becomeFollower n.currentTerm none else n

def recover (cfg : Config) (storage : MemStorage) : RaftNode where
  id := cfg.id
  voters := cfg.voters
  learners := []
  bootstrapConf := cfg.voters
  storage := storage
  role := .follower
  currentTerm := storage.hard.currentTerm
  votedFor := storage.hard.votedFor
  commitIndex := 0
  lastApplied := 0
  leaderId := none
  votes := ∅
  nextIndex := fun _ => none
  matchIndex := fun _ => none
  electionElapsed := 0
  heartbeatElapsed := 0
  randomizedElectionTimeout := cfg.electionTimeout
  electionTimeout := max cfg.electionTimeout 1
  heartbeatTimeout := max cfg.heartbeatTimeout 1
  rng := cfg.seed ||| 1
  transferTarget := none
  transferElapsed := 0
  checkQuorum := cfg.checkQuorum
  recentActive := ∅
  quorumElapsed := 0
  readRound := 0
  ackedRound := fun _ => none
  pendingReads := []
  readyReads := []
  messages := []
  pendingSnapshot := none

def new (cfg : Config) (storage : MemStorage) : RaftNode := (recover cfg storage).resetElectionTimer.recomputeConf

def sendSnapshot (n : RaftNode) (dest : NodeId) : RaftNode :=
  match n.storage.snap with
  | none => n
  | some snap => n.send dest n.currentTerm
      (.installSnapshot snap.lastIncludedIndex snap.lastIncludedTerm snap.confState snap.learners snap.data)

def sendAppend (n : RaftNode) (dest : NodeId) : RaftNode :=
  let last := n.storage.lastIndex
  let next := (n.nextIndex dest).getD (last + 1)
  if next < n.storage.firstIndex then n.sendSnapshot dest
  else
    let prevLogIndex := next - 1
    n.send dest n.currentTerm (.appendEntries prevLogIndex ((n.storage.term prevLogIndex).getD 0)
      (n.storage.entries next last) n.commitIndex n.readRound)

def broadcastAppend (n : RaftNode) : RaftNode := n.replicationPeers.foldl sendAppend n

def readAcks (n : RaftNode) (round : Nat) : Nat :=
  n.voters.countP (fun v => v = n.id ∨ (n.ackedRound v).any (fun r => round ≤ r))

def advanceReads (n : RaftNode) : RaftNode :=
  if n.role ≠ .leader ∨ n.pendingReads = [] ∨ n.storage.term n.commitIndex ≠ some n.currentTerm then n
  else
    let confirmed := n.pendingReads.takeWhile (fun read => n.majority ≤ n.readAcks read.2)
    { n with
      readyReads := n.readyReads ++ confirmed.map (fun read => (read.1, n.commitIndex))
      pendingReads := n.pendingReads.drop confirmed.length }

def replicas (n : RaftNode) (index : Nat) : Nat :=
  n.voters.countP (fun v => index ≤ (n.matchIndex v).getD 0)

def commitScan (n : RaftNode) : Nat → Option Nat
  | 0 => none
  | index + 1 =>
    if index + 1 ≤ n.commitIndex then none
    else if n.storage.term (index + 1) = some n.currentTerm ∧ n.majority ≤ n.replicas (index + 1) then
      some (index + 1)
    else n.commitScan index

def maybeAdvanceCommit (n : RaftNode) : RaftNode :=
  match n.commitScan n.storage.lastIndex with
  | some index => { n with commitIndex := index }.advanceReads
  | none => n

def assumeLeadership (n : RaftNode) : RaftNode :=
  let last := n.storage.lastIndex
  let members := n.voters ++ n.learners
  { n with
    role := .leader
    leaderId := some n.id
    nextIndex := fun p => if p ∈ members then some (last + 1) else none
    matchIndex := Function.update (fun p => if p ∈ members then some 0 else none) n.id (some last)
    heartbeatElapsed := 0
    transferTarget := none
    transferElapsed := 0
    recentActive := ∅
    quorumElapsed := 0
    ackedRound := fun _ => none
    pendingReads := []
    readyReads := [] }

def becomeLeader (n : RaftNode) : RaftNode := n.assumeLeadership.broadcastAppend

def campaign (n : RaftNode) : RaftNode :=
  let n := { n with
    role := .candidate
    currentTerm := n.currentTerm + 1
    votedFor := some n.id }.persistHardState
  { n with leaderId := none, votes := {n.id} }.resetElectionTimer

def startElection (n : RaftNode) : RaftNode :=
  let n := n.campaign
  if n.majority ≤ n.votes.card then n.becomeLeader
  else
    n.peers.foldl (fun m p => m.send p n.currentTerm (.requestVote n.storage.lastIndex n.lastLogTerm)) n

def tickTransfer (n : RaftNode) : RaftNode :=
  if n.transferTarget.isSome then
    if n.electionTimeout ≤ n.transferElapsed + 1 then { n with transferTarget := none, transferElapsed := 0 }
    else { n with transferElapsed := n.transferElapsed + 1 }
  else n

def tickHeartbeat (n : RaftNode) : RaftNode :=
  if n.heartbeatTimeout ≤ n.heartbeatElapsed + 1 then { n with heartbeatElapsed := 0 }.broadcastAppend
  else { n with heartbeatElapsed := n.heartbeatElapsed + 1 }

def tickQuorum (n : RaftNode) : RaftNode :=
  if n.electionTimeout ≤ n.quorumElapsed + 1 then
    let heard := n.voters.countP (fun v => v = n.id ∨ v ∈ n.recentActive)
    let n := { n with quorumElapsed := 0, recentActive := ∅ }
    if n.checkQuorum ∧ heard < n.majority then n.becomeFollower n.currentTerm none else n
  else { n with quorumElapsed := n.quorumElapsed + 1 }

def tickElection (n : RaftNode) : RaftNode :=
  let n := { n with electionElapsed := n.electionElapsed + 1 }
  if n.randomizedElectionTimeout ≤ n.electionElapsed ∧ n.isVoter then n.startElection else n

def tick (n : RaftNode) : RaftNode :=
  match n.role with
  | .leader => n.tickTransfer.tickHeartbeat.tickQuorum
  | .follower | .candidate => n.tickElection

def appendOwn (n : RaftNode) (entry : Entry) : RaftNode :=
  { n with
    storage := n.storage.append [entry]
    matchIndex := Function.update n.matchIndex n.id (some entry.index)
    nextIndex := Function.update n.nextIndex n.id (some (entry.index + 1)) }

def propose (n : RaftNode) (data : Bytes) : Except ProposeError (RaftNode × Nat) :=
  if n.role ≠ .leader then .error .notLeader
  else if n.transferTarget.isSome then .error .transferInProgress
  else
    let index := n.storage.lastIndex + 1
    .ok ((n.appendOwn (.normal n.currentTerm index data)).maybeAdvanceCommit.broadcastAppend, index)

variable {n n' : RaftNode} {index : Nat} {data : Bytes}

theorem propose_ok (accepted : n.propose data = .ok (n', index)) :
    n.role = .leader ∧ index = n.storage.lastIndex + 1 ∧
      n' = (n.appendOwn (.normal n.currentTerm index data)).maybeAdvanceCommit.broadcastAppend := by
  unfold propose at accepted
  split at accepted
  · cases accepted
  rename_i role
  rw [not_not] at role
  split at accepted
  · cases accepted
  · cases accepted
    exact ⟨role, rfl, rfl⟩

def registerRead (n : RaftNode) (ctx : Nat) : RaftNode :=
  { n with readRound := n.readRound + 1, pendingReads := n.pendingReads ++ [(ctx, n.readRound + 1)] }

def readIndex (n : RaftNode) (ctx : Nat) : Except ProposeError RaftNode :=
  if n.role ≠ .leader then .error .notLeader
  else .ok (n.registerRead ctx).broadcastAppend.advanceReads

theorem readIndex_ok {ctx : Nat} (accepted : n.readIndex ctx = .ok n') :
    n.role = .leader ∧ n' = (n.registerRead ctx).broadcastAppend.advanceReads := by
  unfold readIndex at accepted
  split at accepted
  · cases accepted
  · rename_i role
    cases accepted
    exact ⟨not_not.mp role, rfl⟩

def takeReadStates (n : RaftNode) : RaftNode × List (Nat × Nat) := ({ n with readyReads := [] }, n.readyReads)

def hasPendingConfChange (n : RaftNode) : Bool :=
  (n.storage.entries (max (n.commitIndex + 1) n.storage.firstIndex) n.storage.lastIndex).any
    (fun e => e.entryType = .confChange)

/-- A replica added by a change starts from an empty log; a promoted learner keeps its progress. -/
def trackMember (n : RaftNode) : ConfChange → RaftNode
  | .addNode id | .addLearner id => { n with
      nextIndex := Function.update n.nextIndex id (some ((n.nextIndex id).getD 1))
      matchIndex := Function.update n.matchIndex id (some ((n.matchIndex id).getD 0)) }
  | .removeNode _ => n

def changeEntry (n : RaftNode) (cc : ConfChange) : Entry :=
  let conf := applyConfChange n.voters n.learners cc
  ⟨n.currentTerm, n.storage.lastIndex + 1, .confChange, cc.encode (sortDedup conf.1) (sortDedup conf.2)⟩

def proposeConfChange (n : RaftNode) (cc : ConfChange) : Except ProposeError (RaftNode × Nat) :=
  if n.role ≠ .leader then .error .notLeader
  else if n.transferTarget.isSome then .error .transferInProgress
  else if n.hasPendingConfChange then .error .confChangeInProgress
  else if cc = .removeNode n.id then .error .cannotRemoveLeader
  else
    let entry := n.changeEntry cc
    .ok (((n.appendOwn entry).recomputeConf.trackMember cc).maybeAdvanceCommit.broadcastAppend, entry.index)

theorem proposeConfChange_ok {cc : ConfChange} (accepted : n.proposeConfChange cc = .ok (n', index)) :
    n.role = .leader ∧ n.hasPendingConfChange = false ∧ cc ≠ .removeNode n.id ∧ index = (n.changeEntry cc).index ∧
      n' = ((n.appendOwn (n.changeEntry cc)).recomputeConf.trackMember cc).maybeAdvanceCommit.broadcastAppend := by
  unfold proposeConfChange at accepted
  split at accepted
  · cases accepted
  rename_i role
  rw [not_not] at role
  split at accepted
  · cases accepted
  split at accepted
  · cases accepted
  rename_i none
  split at accepted
  · cases accepted
  · rename_i stays
    cases accepted
    exact ⟨role, Bool.not_eq_true _ ▸ none, stays, rfl, rfl⟩

def fireTimeoutNow (n : RaftNode) (target : NodeId) : RaftNode :=
  { n.send target n.currentTerm .timeoutNow with transferTarget := none, transferElapsed := 0 }

def transferLeadership (n : RaftNode) (target : NodeId) : Except ProposeError RaftNode :=
  if n.role ≠ .leader then .error .notLeader
  else if target ∉ n.voters ∨ target = n.id then .error .notAVoter
  else
    let n := { n with transferTarget := some target, transferElapsed := 0 }
    match n.progress target with
    | some (m, last) => if last ≤ m then .ok (n.fireTimeoutNow target) else .ok (n.sendAppend target)
    | none => .ok (n.sendAppend target)

def handleRequestVote (n : RaftNode) (sender : NodeId) (term candLastIndex candLastTerm : Nat) : RaftNode :=
  let logOk : Bool := n.lastLogTerm < candLastTerm ∨
    (candLastTerm = n.lastLogTerm ∧ n.storage.lastIndex ≤ candLastIndex)
  let canVote : Bool := n.votedFor = none ∨ n.votedFor = some sender
  if n.currentTerm ≤ term ∧ canVote ∧ logOk then
    let n := { n with votedFor := some sender }.persistHardState.resetElectionTimer
    n.send sender n.currentTerm (.requestVoteResp true)
  else n.send sender n.currentTerm (.requestVoteResp false)

def handleRequestVoteResp (n : RaftNode) (sender : NodeId) (term : Nat) (granted : Bool) : RaftNode :=
  if n.role ≠ .candidate ∨ term ≠ n.currentTerm then n
  else if granted ∧ sender ∈ n.voters then
    let n := { n with votes := insert sender n.votes }
    if n.majority ≤ n.votes.card then n.becomeLeader else n
  else n

def handleTimeoutNow (n : RaftNode) (term : Nat) : RaftNode :=
  if term < n.currentTerm ∨ ¬ n.isVoter then n else n.startElection

/-- The splice of an append: the storage cut at the first conflict, and the entries left to append.
`index` is the index of the first entry. -/
def splice (storage : MemStorage) (base : Nat) : Nat → List Entry → MemStorage × Option (List Entry)
  | _, [] => (storage, none)
  | index, e :: rest =>
    if index ≤ base then splice storage base (index + 1) rest
    else if index ≤ storage.lastIndex then
      if storage.term index ≠ some e.term then (storage.truncateSuffix index, some (e :: rest))
      else splice storage base (index + 1) rest
    else (storage, some (e :: rest))

def follow (n : RaftNode) (leader : NodeId) : RaftNode :=
  { n with role := .follower, leaderId := some leader }.resetElectionTimer

def spliceEntries (n : RaftNode) (prevLogIndex : Nat) (entries : List Entry) : RaftNode :=
  match splice n.storage n.storage.base (prevLogIndex + 1) entries with
  | (storage, some fresh) => { n with storage := storage.append fresh }.recomputeConf
  | (storage, none) => { n with storage := storage }

def learnCommit (n : RaftNode) (leaderCommit lastNewIndex : Nat) : RaftNode :=
  { n with commitIndex := if n.commitIndex < leaderCommit then min leaderCommit lastNewIndex else n.commitIndex }

def handleAppendEntries (n : RaftNode) (sender : NodeId) (term prevLogIndex prevLogTerm : Nat)
    (entries : List Entry) (leaderCommit readRound : Nat) : RaftNode :=
  if term < n.currentTerm then n.send sender n.currentTerm (.appendEntriesResp false 0 readRound)
  else
    let n := n.follow sender
    let base := n.storage.firstIndex - 1
    let lastNewIndex := prevLogIndex + entries.length
    if lastNewIndex ≤ base then n.send sender n.currentTerm (.appendEntriesResp true base readRound)
    else if base ≤ prevLogIndex ∧ n.storage.term prevLogIndex ≠ some prevLogTerm then
      n.send sender n.currentTerm (.appendEntriesResp false 0 readRound)
    else
      let n := (n.spliceEntries prevLogIndex entries).learnCommit leaderCommit lastNewIndex
      n.send sender n.currentTerm (.appendEntriesResp true lastNewIndex readRound)

def recordMatch (n : RaftNode) (sender : NodeId) (matchIndex : Nat) : RaftNode :=
  let m := max matchIndex ((n.matchIndex sender).getD 0)
  { n with
    matchIndex := Function.update n.matchIndex sender (some m)
    nextIndex := Function.update n.nextIndex sender (some (m + 1)) }.maybeAdvanceCommit

def handleAppendResp (n : RaftNode) (sender : NodeId) (term : Nat) (success : Bool)
    (matchIndex readRound : Nat) : RaftNode :=
  if n.role ≠ .leader ∨ term ≠ n.currentTerm then n
  else
    let n := { n with
      recentActive := insert sender n.recentActive
      ackedRound := Function.update n.ackedRound sender (some (max ((n.ackedRound sender).getD 0) readRound)) }
    if success then
      let m := max matchIndex ((n.matchIndex sender).getD 0)
      let n := n.recordMatch sender matchIndex
      let n := if n.transferTarget = some sender ∧ n.storage.lastIndex ≤ m then n.fireTimeoutNow sender else n
      n.advanceReads
    else
      let next := (n.nextIndex sender).getD 1
      ({ n with nextIndex := Function.update n.nextIndex sender (some (max (next - 1) 1)) }.sendAppend
        sender).advanceReads

def installSnapshot (n : RaftNode) (snap : Snapshot) : RaftNode :=
  { n with
    storage := n.storage.applySnapshot snap
    commitIndex := snap.lastIncludedIndex
    lastApplied := snap.lastIncludedIndex
    pendingSnapshot := some (snap.lastIncludedIndex, snap.data) }.recomputeConf

def handleInstallSnapshot (n : RaftNode) (sender : NodeId) (term : Nat) (snap : Snapshot) : RaftNode :=
  if term < n.currentTerm then n.send sender n.currentTerm (.installSnapshotResp 0)
  else
    let n := n.follow sender
    if snap.lastIncludedIndex ≤ n.commitIndex then
      n.send sender n.currentTerm (.installSnapshotResp n.commitIndex)
    else
      let n := n.installSnapshot snap
      n.send sender n.currentTerm (.installSnapshotResp snap.lastIncludedIndex)

def handleInstallSnapshotResp (n : RaftNode) (sender : NodeId) (term matchIndex : Nat) : RaftNode :=
  if n.role ≠ .leader ∨ term ≠ n.currentTerm then n
  else { n with recentActive := insert sender n.recentActive }.recordMatch sender matchIndex

def adoptTerm (n : RaftNode) (msg : Message) : RaftNode :=
  if n.currentTerm < msg.term then
    let leader := match msg.body with
      | .appendEntries .. | .installSnapshot .. => some msg.sender
      | _ => none
    n.becomeFollower msg.term leader
  else n

def step (n : RaftNode) (msg : Message) : RaftNode :=
  let n := n.adoptTerm msg
  match msg.body with
  | .requestVote lastLogIndex lastLogTerm => n.handleRequestVote msg.sender msg.term lastLogIndex lastLogTerm
  | .requestVoteResp granted => n.handleRequestVoteResp msg.sender msg.term granted
  | .appendEntries prevLogIndex prevLogTerm entries leaderCommit readRound =>
    n.handleAppendEntries msg.sender msg.term prevLogIndex prevLogTerm entries leaderCommit readRound
  | .appendEntriesResp success matchIndex readRound =>
    n.handleAppendResp msg.sender msg.term success matchIndex readRound
  | .installSnapshot lastIncludedIndex lastIncludedTerm confState learners data =>
    n.handleInstallSnapshot msg.sender msg.term ⟨lastIncludedIndex, lastIncludedTerm, confState, learners, data⟩
  | .installSnapshotResp matchIndex => n.handleInstallSnapshotResp msg.sender msg.term matchIndex
  | .timeoutNow => n.handleTimeoutNow msg.term

def takeMessages (n : RaftNode) : RaftNode × List Message := ({ n with messages := [] }, n.messages)

def takeCommitted (n : RaftNode) : RaftNode × List Entry :=
  if n.commitIndex ≤ n.lastApplied then (n, [])
  else ({ n with lastApplied := n.commitIndex }, n.storage.entries (n.lastApplied + 1) n.commitIndex)

def takeSnapshot (n : RaftNode) : RaftNode × Option (Nat × Bytes) :=
  ({ n with pendingSnapshot := none }, n.pendingSnapshot)

def compact (n : RaftNode) (index : Nat) (data : Bytes) : Option RaftNode :=
  if index ≤ n.storage.base ∨ n.lastApplied < index then some n
  else (n.storage.term index).map (fun term =>
    let conf := n.confAt index
    { n with storage := n.storage.compact index term conf.1 conf.2 data })

theorem compact_cases (done : n.compact index data = some n') :
    n' = n ∨ ∃ term, n.storage.base < index ∧ index ≤ n.lastApplied ∧ n.storage.term index = some term ∧
      n' = { n with storage := n.storage.compact index term (n.confAt index).1 (n.confAt index).2 data } := by
  unfold compact at done
  split at done
  case isTrue => exact .inl (Option.some.inj done).symm
  case isFalse fresh =>
    rw [not_or, Nat.not_le, Nat.not_lt] at fresh
    obtain ⟨term, known, rfl⟩ := Option.map_eq_some_iff.mp done
    exact .inr ⟨term, fresh.1, fresh.2, known, rfl⟩

theorem compact_frame (n : RaftNode) (index : Nat) (data : Bytes) :
    ∃ storage, (n.compact index data).getD n = { n with storage } := by
  cases done : n.compact index data with
  | none => exact ⟨n.storage, rfl⟩
  | some n' =>
    rcases compact_cases done with rfl | ⟨term, -, -, -, rfl⟩
    · exact ⟨_, rfl⟩
    · exact ⟨_, rfl⟩

end RaftNode

end Arcux.Raft
