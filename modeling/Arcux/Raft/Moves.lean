import Arcux.Raft.Frame

namespace Arcux.Raft

open Codec

structure Seats where
  bootstrapConf : List NodeId
  voters : List NodeId
  learners : List NodeId
  body : List Entry × Option Snapshot

structure Standing where
  seats : Seats
  lastApplied : Nat
  pendingSnapshot : Option (Nat × Bytes)

namespace RaftNode

def seats (n : RaftNode) : Seats := ⟨n.bootstrapConf, n.voters, n.learners, n.storage.body⟩

def standing (n : RaftNode) : Standing := ⟨n.seats, n.lastApplied, n.pendingSnapshot⟩

end RaftNode

def MessageBody.replicates : MessageBody → Bool
  | appendEntries .. | installSnapshot .. => true
  | _ => false

/-- What a node answers: a vote only to the candidate on record, and an append in the round that it was asked in. -/
def MessageBody.Answers (action : Action) (n : RaftNode) (dest : NodeId) (term : Nat) : MessageBody → Prop
  | appendEntries .. | installSnapshot .. => False
  | requestVoteResp granted => granted → n.currentTerm = term ∧ n.votedFor = some dest
  | appendEntriesResp _ _ readRound => n.currentTerm = term ∧
    ∃ own sent prevLogIndex prevLogTerm entries leaderCommit incarnation, action = .deliver ⟨⟨dest, own, sent,
      .appendEntries prevLogIndex prevLogTerm entries leaderCommit readRound⟩, incarnation⟩
  | timeoutNow => n.transferTarget ≠ none
  | _ => True

theorem MessageBody.Answers.light {action : Action} {n : RaftNode} {dest : NodeId} {term : Nat} {body : MessageBody}
    (answers : body.Answers action n dest term) : body.replicates = false := by
  cases body with
  | appendEntries | installSnapshot => cases answers
  | _ => rfl

def Action.campaigns : Action → Bool
  | tick _ | deliver ⟨⟨_, _, _, .timeoutNow⟩, _⟩ => true
  | _ => false

/-- The moves that change neither what a node holds nor its outbox. -/
inductive Turn (action : Action) : RaftNode → RaftNode → Prop
  | idle {n : RaftNode} (electionElapsed heartbeatElapsed transferElapsed quorumElapsed : UInt32)
      (recentActive : Finset NodeId) : Turn action n { n with
        electionElapsed, heartbeatElapsed, transferElapsed, quorumElapsed, recentActive }
  | aim {n : RaftNode} {transferTarget : Option NodeId}
      (called : transferTarget = none ∨ ∃ i target, action = .transferLeadership i target) :
      Turn action n { n with transferTarget, transferElapsed := 0 }
  | progress {n : RaftNode} (nextIndex matchIndex : NodeId → Option Nat) : Turn action n { n with nextIndex, matchIndex }
  | becomeFollower {n : RaftNode} {term : Nat} (leader : Option NodeId) (newer : n.currentTerm ≤ term) :
      Turn action n (n.becomeFollower term leader)
  | follow {n : RaftNode} (leader : NodeId) : Turn action n (n.follow leader)
  | campaign {n : RaftNode} (voter : n.isVoter) (called : action.campaigns) : Turn action n n.campaign
  | assumeLeadership {n : RaftNode} (role : n.role = .candidate) (elected : n.majority ≤ n.votes.card) :
      Turn action n n.assumeLeadership
  | grant {n : RaftNode} {sender : NodeId} (free : n.votedFor = none ∨ n.votedFor = some sender) :
      Turn action n { n with votedFor := some sender }.persistHardState.resetElectionTimer
  | tally {n : RaftNode} {sender dest : NodeId} {incarnation : Nat} (role : n.role = .candidate)
      (heard : action = .deliver ⟨⟨sender, dest, n.currentTerm, .requestVoteResp true⟩, incarnation⟩)
      (member : sender ∈ n.voters) : Turn action n { n with votes := insert sender n.votes }
  | commit {n : RaftNode} {index : Nat} (found : n.commitScan n.storage.lastIndex = some index) :
      Turn action n { n with commitIndex := index }
  | learnCommit {n : RaftNode} (role : n.role = .follower) (leaderCommit lastNewIndex : Nat) :
      Turn action n (n.learnCommit leaderCommit lastNewIndex)
  | registerRead {n : RaftNode} {i : NodeId} {ctx : Nat} (called : action = .readIndex i ctx) :
      Turn action n (n.registerRead ctx)
  | acknowledge {n : RaftNode} {sender dest : NodeId} {success : Bool} {matchIndex readRound incarnation : Nat}
      (role : n.role = .leader) (heard : action = .deliver ⟨⟨sender, dest, n.currentTerm,
        .appendEntriesResp success matchIndex readRound⟩, incarnation⟩) : Turn action n { n with
        recentActive := insert sender n.recentActive
        ackedRound := Function.update n.ackedRound sender (some (max ((n.ackedRound sender).getD 0) readRound)) }
  | advanceReads {n : RaftNode} : Turn action n n.advanceReads
  | takeReadStates {n : RaftNode} : Turn action n n.takeReadStates.1

inductive Move (action : Action) : RaftNode → RaftNode → Prop
  | quiet {n n' : RaftNode} (turn : Turn action n n') : Move action n n'
  | answer {n : RaftNode} {dest : NodeId} {term : Nat} {body : MessageBody}
      (answers : body.Answers action n dest term) : Move action n (n.send dest term body)
  | sendAppend {n : RaftNode} (dest : NodeId) : Move action n (n.sendAppend dest)
  | appendOwn {n : RaftNode} {entry : Entry} (next : entry.index = n.storage.lastIndex + 1)
      (proposed : (∃ i data, action = .propose i data ∧ entry.entryType = .normal) ∨
        ∃ i cc, action = .proposeConfChange i cc) : Move action n (n.appendOwn entry)
  | recomputeConf {n : RaftNode} {i : NodeId} {cc : ConfChange} (called : action = .proposeConfChange i cc) :
      Move action n n.recomputeConf
  | splice {n : RaftNode} {sender dest : NodeId} {term prevLogIndex prevLogTerm leaderCommit readRound incarnation : Nat}
      {entries : List Entry} (role : n.role = .follower)
      (heard : action = .deliver ⟨⟨sender, dest, term,
        .appendEntries prevLogIndex prevLogTerm entries leaderCommit readRound⟩, incarnation⟩)
      (fits : n.storage.base ≤ prevLogIndex → n.storage.term prevLogIndex = some prevLogTerm) :
      Move action n (n.spliceEntries prevLogIndex entries)
  | install {n : RaftNode} {sender dest : NodeId} {term incarnation : Nat} {snap : Snapshot} (role : n.role = .follower)
      (heard : action = .deliver ⟨⟨sender, dest, term, .installSnapshot snap.lastIncludedIndex snap.lastIncludedTerm
        snap.confState snap.learners snap.data⟩, incarnation⟩) :
      Move action n (n.installSnapshot snap)
  | takeCommitted {n : RaftNode} {i : NodeId} (called : action = .takeCommitted i) : Move action n n.takeCommitted.1
  | takeSnapshot {n : RaftNode} {i : NodeId} (called : action = .takeSnapshot i) : Move action n n.takeSnapshot.1
  | compact {n n' : RaftNode} {i : NodeId} {index : Nat} {data : Bytes} (called : action = .compact i index data)
      (done : n.compact index data = some n') : Move action n n'
  | restart {n : RaftNode} {i : NodeId} {cfg : Config} (called : action = .restart i cfg) :
      Move action n (.new { cfg with id := n.id, voters := n.bootstrapConf } n.storage)

theorem Turn.frame {action : Action} {n n' : RaftNode} (turn : Turn action n n') :
    n'.standing = n.standing ∧ n'.messages = n.messages := by
  cases turn with
  | becomeFollower leader newer =>
    unfold RaftNode.becomeFollower
    simp only
    split <;> exact ⟨rfl, rfl⟩
  | advanceReads =>
    unfold RaftNode.advanceReads
    split <;> exact ⟨rfl, rfl⟩
  | _ => exact ⟨rfl, rfl⟩

theorem Turn.seats {action : Action} {n n' : RaftNode} (turn : Turn action n n') : n'.seats = n.seats :=
  congrArg Standing.seats turn.frame.1

theorem RaftNode.spliceEntries_role {n : RaftNode} (role : n.role = .follower) (prevLogIndex : Nat) (entries : List Entry) :
    (n.spliceEntries prevLogIndex entries).role = .follower := by
  unfold spliceEntries
  split
  · refine (congrArg Core.role (recomputeConf_core ?_)).trans role
    exact role
  · exact role

theorem RaftNode.spliceEntries_currentTerm (n : RaftNode) (prevLogIndex : Nat) (entries : List Entry) :
    (n.spliceEntries prevLogIndex entries).currentTerm = n.currentTerm := by
  unfold spliceEntries
  split
  · exact recomputeConf_currentTerm _
  · rfl

theorem Move.term_le {action : Action} {n n' : RaftNode}
    (saved : ∀ i cfg, action = .restart i cfg → n.storage.hard.currentTerm = n.currentTerm) (move : Move action n n') :
    n.currentTerm ≤ n'.currentTerm := by
  cases move with
  | quiet turn =>
    cases turn with
    | becomeFollower leader newer =>
      unfold RaftNode.becomeFollower
      simp only
      split
      · exact newer
      · exact le_rfl
    | campaign voter => exact Nat.le_succ _
    | advanceReads => exact (congrArg Core.currentTerm n.advanceReads_core).ge
    | _ => exact le_rfl
  | answer | appendOwn | takeSnapshot => exact le_rfl
  | sendAppend dest => exact (congrArg Core.currentTerm (n.sendAppend_core dest)).ge
  | recomputeConf => exact n.recomputeConf_currentTerm.ge
  | splice => exact (n.spliceEntries_currentTerm _ _).ge
  | install => rw [RaftNode.installSnapshot, RaftNode.recomputeConf_currentTerm]
  | takeCommitted =>
    unfold RaftNode.takeCommitted
    split <;> exact le_rfl
  | compact called done => rcases RaftNode.compact_cases done with rfl | ⟨-, -, -, -, rfl⟩ <;> exact le_rfl
  | restart called => exact ((RaftNode.recomputeConf_currentTerm _).trans (saved _ _ called)).ge

abbrev Moves (action : Action) : RaftNode → RaftNode → Prop := Relation.ReflTransGen (Move action)

namespace Moves

open Relation

variable {action : Action} (n : RaftNode)

theorem turn {n n' : RaftNode} (turn : Turn action n n') : Moves action n n' := .single (.quiet turn)

theorem answer {n : RaftNode} {dest : NodeId} {term : Nat} {body : MessageBody} (answers : body.Answers action n dest term) :
    Moves action n (n.send dest term body) :=
  .single (.answer answers)

theorem foldl {peers : List NodeId} {f : RaftNode → NodeId → RaftNode} (each : ∀ m p, Moves action m (f m p)) :
    Moves action n (peers.foldl f n) := by
  induction peers generalizing n with
  | nil => exact .refl
  | cons p peers ih => exact (each n p).trans (ih _)

theorem broadcastAppend : Moves action n n.broadcastAppend := foldl n fun _ p => .single (.sendAppend p)

theorem advanceReads : Moves action n n.advanceReads := turn .advanceReads

theorem maybeAdvanceCommit : Moves action n n.maybeAdvanceCommit := by
  unfold RaftNode.maybeAdvanceCommit
  split
  · rename_i found
    exact (turn (.commit found)).trans (advanceReads _)
  · exact .refl

theorem becomeLeader (role : n.role = .candidate) (elected : n.majority ≤ n.votes.card) :
    Moves action n n.becomeLeader :=
  (turn (.assumeLeadership role elected)).trans (broadcastAppend _)

theorem startElection (voter : n.isVoter) (called : action.campaigns) : Moves action n n.startElection := by
  refine (turn (.campaign voter called)).trans ?_
  unfold RaftNode.startElection
  simp only
  split
  · rename_i elected
    exact becomeLeader _ rfl elected
  · exact foldl _ fun m p => answer trivial

theorem tickElection (called : action.campaigns) : Moves action n n.tickElection := by
  have waited : Moves action n { n with electionElapsed := n.electionElapsed + 1 } := turn (.idle ..)
  refine waited.trans ?_
  unfold RaftNode.tickElection
  simp only
  split
  · rename_i due
    exact startElection _ due.2 called
  · exact .refl

theorem tick (called : action.campaigns) : Moves action n n.tick := by
  unfold RaftNode.tick
  split
  · have transfer : Moves action n n.tickTransfer := by
      unfold RaftNode.tickTransfer
      split_ifs
      · exact turn (.aim (.inl rfl))
      · exact turn (.idle ..)
      · exact .refl
    have beat (m : RaftNode) : Moves action m m.tickHeartbeat := by
      unfold RaftNode.tickHeartbeat
      split
      · exact (turn (.idle ..)).trans (broadcastAppend { m with heartbeatElapsed := 0 })
      · exact turn (.idle ..)
    have checked (m : RaftNode) : Moves action m { m with quorumElapsed := 0, recentActive := ∅ } := turn (.idle ..)
    refine (transfer.trans (beat _)).trans ?_
    unfold RaftNode.tickQuorum
    simp only
    split_ifs
    · exact (checked _).trans (turn (.becomeFollower none le_rfl))
    · exact checked _
    · exact turn (.idle ..)
  · exact tickElection n called
  · exact tickElection n called

variable {n' : RaftNode} {index : Nat}

theorem propose {i : NodeId} {data : Bytes} (called : action = .propose i data)
    (accepted : n.propose data = .ok (n', index)) : Moves action n n' := by
  obtain ⟨_, rfl, rfl⟩ := RaftNode.propose_ok accepted
  have appended : Moves action n (n.appendOwn (.normal n.currentTerm (n.storage.lastIndex + 1) data)) :=
    .single (.appendOwn rfl (.inl ⟨i, data, called, rfl⟩))
  exact (appended.trans (maybeAdvanceCommit _)).trans (broadcastAppend _)

theorem finishChange (cc : ConfChange) : Moves action n (n.trackMember cc).maybeAdvanceCommit.broadcastAppend := by
  have tracked : Moves action n (n.trackMember cc) := by
    cases cc with
    | addNode | addLearner => exact turn (.progress ..)
    | removeNode => exact .refl
  exact (tracked.trans (maybeAdvanceCommit _)).trans (broadcastAppend _)

theorem proposeConfChange {i : NodeId} {cc : ConfChange} (called : action = .proposeConfChange i cc)
    (accepted : n.proposeConfChange cc = .ok (n', index)) : Moves action n n' := by
  obtain ⟨_, _, _, _, rfl⟩ := RaftNode.proposeConfChange_ok accepted
  have appended : Moves action n (n.appendOwn (n.changeEntry cc)) := .single (.appendOwn rfl (.inr ⟨i, cc, called⟩))
  exact (appended.tail (.recomputeConf called)).trans (finishChange _ cc)

theorem readIndex {i : NodeId} {ctx : Nat} (called : action = .readIndex i ctx) (accepted : n.readIndex ctx = .ok n') :
    Moves action n n' := by
  obtain ⟨_, rfl⟩ := RaftNode.readIndex_ok accepted
  exact ((turn (.registerRead called)).trans (broadcastAppend _)).trans (advanceReads _)

theorem fireTimeoutNow (target : NodeId) (aimed : n.transferTarget ≠ none) :
    Moves action n (n.fireTimeoutNow target) := by
  have sent : Moves action n (n.send target n.currentTerm .timeoutNow) := answer aimed
  exact sent.trans (turn (.aim (.inl rfl)))

theorem transferLeadership {i target : NodeId} (called : action = .transferLeadership i target)
    (accepted : n.transferLeadership target = .ok n') : Moves action n n' := by
  have aimed : Moves action n { n with transferTarget := some target, transferElapsed := 0 } :=
    turn (.aim (.inr ⟨i, target, called⟩))
  refine aimed.trans ?_
  unfold RaftNode.transferLeadership at accepted
  split_ifs at accepted
  simp only at accepted
  split at accepted
  · split_ifs at accepted
    · cases accepted
      exact fireTimeoutNow _ target nofun
    · cases accepted
      exact .single (.sendAppend target)
  · cases accepted
    exact .single (.sendAppend target)

theorem adoptTerm (msg : Message) : Moves action n (n.adoptTerm msg) := by
  unfold RaftNode.adoptTerm
  split
  · rename_i newer
    exact turn (.becomeFollower _ newer.le)
  · exact .refl

theorem handleRequestVote (sender : NodeId) (term candLastIndex candLastTerm : Nat) :
    Moves action n (n.handleRequestVote sender term candLastIndex candLastTerm) := by
  unfold RaftNode.handleRequestVote
  simp only
  split
  · rename_i granted
    exact (turn (.grant (of_decide_eq_true granted.2.1))).trans (answer fun _ => ⟨rfl, rfl⟩)
  · exact answer nofun

variable {sender dest : NodeId} {incarnation : Nat}

theorem handleRequestVoteResp {term : Nat} {granted : Bool}
    (heard : action = .deliver ⟨⟨sender, dest, term, .requestVoteResp granted⟩, incarnation⟩) :
    Moves action n (n.handleRequestVoteResp sender term granted) := by
  unfold RaftNode.handleRequestVoteResp
  split
  · exact .refl
  rename_i relevant
  rw [not_or, not_not, not_not] at relevant
  obtain ⟨role, rfl⟩ := relevant
  split
  · rename_i counted
    obtain ⟨rfl, member⟩ := counted
    have tallied := turn (.tally role heard member)
    simp only
    split
    · rename_i elected
      exact tallied.trans (becomeLeader _ role elected)
    · exact tallied
  · exact .refl

theorem handleTimeoutNow (term : Nat) (called : action.campaigns) : Moves action n (n.handleTimeoutNow term) := by
  unfold RaftNode.handleTimeoutNow
  split
  · exact .refl
  · rename_i eligible
    rw [not_or, not_not] at eligible
    exact startElection n eligible.2 called

theorem recordMatch (sender : NodeId) (matchIndex : Nat) : Moves action n (n.recordMatch sender matchIndex) :=
  (turn (.progress ..)).trans (maybeAdvanceCommit _)

theorem handleAppendResp {term : Nat} {success : Bool} {matchIndex readRound : Nat} (heard : action =
      .deliver ⟨⟨sender, dest, term, .appendEntriesResp success matchIndex readRound⟩, incarnation⟩) :
    Moves action n (n.handleAppendResp sender term success matchIndex readRound) := by
  unfold RaftNode.handleAppendResp
  split
  · exact .refl
  rename_i relevant
  rw [not_or, not_not, not_not] at relevant
  obtain ⟨role, rfl⟩ := relevant
  refine (turn (.acknowledge role heard)).trans ?_
  simp only
  split
  · refine ReflTransGen.trans ?_ (advanceReads _)
    split
    · rename_i aimed
      exact (recordMatch _ sender matchIndex).trans (fireTimeoutNow _ sender (aimed.1 ▸ nofun))
    · exact recordMatch _ sender matchIndex
  · refine ReflTransGen.trans ?_ (advanceReads _)
    exact (turn (.progress ..)).tail (.sendAppend sender)

theorem handleInstallSnapshotResp (sender : NodeId) (term matchIndex : Nat) :
    Moves action n (n.handleInstallSnapshotResp sender term matchIndex) := by
  unfold RaftNode.handleInstallSnapshotResp
  split
  · exact .refl
  · have active : Moves action n { n with recentActive := insert sender n.recentActive } := turn (.idle ..)
    exact active.trans (recordMatch _ sender matchIndex)

theorem handleAppendEntries {term prevLogIndex prevLogTerm leaderCommit readRound : Nat}
    {entries : List Entry} (heard : action = .deliver ⟨⟨sender, dest, term,
      .appendEntries prevLogIndex prevLogTerm entries leaderCommit readRound⟩, incarnation⟩) :
    Moves action n (n.handleAppendEntries sender term prevLogIndex prevLogTerm entries leaderCommit readRound) := by
  have reply (m : RaftNode) (success : Bool) (k : Nat) :
      Moves action m (m.send sender m.currentTerm (.appendEntriesResp success k readRound)) :=
    answer ⟨rfl, _, _, _, _, _, _, _, heard⟩
  have followed : Moves action n (n.follow sender) := turn (.follow sender)
  unfold RaftNode.handleAppendEntries
  split
  · exact reply n _ _
  simp only
  split
  · exact followed.trans (reply _ _ _)
  split
  · exact followed.trans (reply _ _ _)
  rename_i mismatch
  have fits : (n.follow sender).storage.base ≤ prevLogIndex →
      (n.follow sender).storage.term prevLogIndex = some prevLogTerm :=
    fun reach => not_not.mp fun differs => mismatch ⟨reach, differs⟩
  have follows : ((n.follow sender).spliceEntries prevLogIndex entries).role = .follower :=
    RaftNode.spliceEntries_role rfl prevLogIndex entries
  exact ((followed.tail (.splice rfl heard fits)).trans (turn (.learnCommit follows _ _))).trans (reply _ _ _)

theorem handleInstallSnapshot {term : Nat} {snap : Snapshot}
    (heard : action = .deliver ⟨⟨sender, dest, term, .installSnapshot snap.lastIncludedIndex snap.lastIncludedTerm
      snap.confState snap.learners snap.data⟩, incarnation⟩) :
    Moves action n (n.handleInstallSnapshot sender term snap) := by
  have followed : Moves action n (n.follow sender) := turn (.follow sender)
  unfold RaftNode.handleInstallSnapshot
  split
  · exact answer trivial
  simp only
  split
  · exact followed.trans (answer trivial)
  · exact (followed.tail (.install rfl heard)).trans (answer trivial)

theorem step (envelope : Envelope) : Moves (.deliver envelope) n (n.step envelope.message) := by
  refine (adoptTerm n envelope.message).trans ?_
  obtain ⟨⟨sender, dest, term, body⟩, incarnation⟩ := envelope
  cases body with
  | requestVote => exact handleRequestVote _ _ _ _ _
  | requestVoteResp => exact handleRequestVoteResp _ rfl
  | appendEntries => exact handleAppendEntries _ rfl
  | appendEntriesResp => exact handleAppendResp _ rfl
  | installSnapshot => exact handleInstallSnapshot _ rfl
  | installSnapshotResp => exact handleInstallSnapshotResp _ _ _ _
  | timeoutNow => exact handleTimeoutNow _ _ rfl

theorem perform (action : Action) : Moves action n (action.perform n) := by
  cases action with
  | tick i => exact tick n rfl
  | propose i data =>
    simp only [Action.perform]
    split
    · rename_i accepted
      exact propose n rfl accepted
    · exact .refl
  | proposeConfChange i cc =>
    simp only [Action.perform]
    split
    · rename_i accepted
      exact proposeConfChange n rfl accepted
    · exact .refl
  | readIndex i ctx =>
    simp only [Action.perform]
    split
    · rename_i accepted
      exact readIndex n rfl accepted
    · exact .refl
  | transferLeadership i target =>
    simp only [Action.perform]
    split
    · rename_i accepted
      exact transferLeadership n rfl accepted
    · exact .refl
  | deliver envelope => exact step n envelope
  | takeCommitted i => exact .single (.takeCommitted rfl)
  | takeSnapshot i => exact .single (.takeSnapshot rfl)
  | takeReadStates i => exact turn .takeReadStates
  | compact i index data =>
    cases done : n.compact index data with
    | none =>
      rw [Action.perform, done]
      exact .refl
    | some n' =>
      rw [Action.perform, done]
      exact .single (.compact rfl done)
  | restart i cfg => exact .single (.restart rfl)

theorem preserves {n n' : RaftNode} (moves : Moves action n n') (holds : RaftNode → Prop)
    (keeps : ∀ m m', Move action m m' → holds m → holds m') (start : holds n) : holds n' := by
  induction moves with
  | refl => exact start
  | tail _ move ih => exact keeps _ _ move ih

end Moves

def Action.still : Action → Bool
  | deliver ⟨⟨_, _, _, .installSnapshot ..⟩, _⟩ | takeCommitted _ | takeSnapshot _ | compact .. | restart .. => false
  | _ => true

namespace RaftNode

theorem splice_log (storage : MemStorage) (base index : Nat) (entries : List Entry) :
    ∃ log, (splice storage base index entries).1 = { storage with log } := by
  induction entries generalizing index with
  | nil => exact ⟨_, rfl⟩
  | cons e rest ih =>
    rw [splice]
    split
    · exact ih _
    split
    · split
      · unfold MemStorage.truncateSuffix
        split <;> exact ⟨_, rfl⟩
      · exact ih _
    · exact ⟨_, rfl⟩

def progressed (n : RaftNode) : Nat × Option (Nat × Bytes) × Nat := (n.lastApplied, n.pendingSnapshot, n.storage.base)

theorem recomputeConf_progressed (n : RaftNode) : n.recomputeConf.progressed = n.progressed := by
  have checked : (n.adoptConf (n.confAt n.storage.lastIndex)).checkTransfer.progressed = n.progressed := by
    unfold checkTransfer
    split
    · split <;> rfl
    · rfl
  unfold recomputeConf
  simp only [becomeFollower, Nat.lt_irrefl, if_false]
  split
  · exact checked
  · exact checked

theorem spliceEntries_progressed (n : RaftNode) (prevLogIndex : Nat) (entries : List Entry) :
    (n.spliceEntries prevLogIndex entries).progressed = n.progressed := by
  obtain ⟨log, cut⟩ := splice_log n.storage n.storage.base (prevLogIndex + 1) entries
  unfold spliceEntries
  split
  · rename_i storage fresh found
    obtain rfl : storage = { n.storage with log } := by rw [← cut, found]
    exact (recomputeConf_progressed _).trans rfl
  · rename_i storage found
    obtain rfl : storage = { n.storage with log } := by rw [← cut, found]
    rfl

variable {action : Action}

theorem still_move {n n' : RaftNode} (still : action.still) (move : Move action n n') :
    n'.progressed = n.progressed := by
  cases move with
  | quiet turn =>
    obtain ⟨seats, applied, pending⟩ := Standing.mk.inj turn.frame.1
    rw [progressed, progressed, applied, pending, MemStorage.base_of_body (congrArg Seats.body seats)]
  | answer => rfl
  | sendAppend dest =>
    unfold sendAppend sendSnapshot
    simp only
    split
    · split <;> rfl
    · rfl
  | appendOwn => rfl
  | recomputeConf => exact recomputeConf_progressed n
  | splice => exact spliceEntries_progressed n _ _
  | install role heard =>
    subst heard
    cases still
  | takeCommitted called | takeSnapshot called | compact called | restart called =>
    subst called
    cases still

theorem still_perform (n : RaftNode) (still : action.still) : (action.perform n).progressed = n.progressed := by
  refine (Moves.perform n action).preserves (fun m => m.progressed = n.progressed) ?_ rfl
  exact fun m m' move same => (still_move still move).trans same

end RaftNode

end Arcux.Raft
