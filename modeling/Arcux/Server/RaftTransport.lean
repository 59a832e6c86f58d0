import Arcux.Raft.Safety.Appends

namespace Arcux.Server.RaftTransport

open Codec Raft

structure LogEntry where
  (term index : Nat)
  data : Bytes
  entryType : UInt32

structure RequestVoteRequest where
  term : Nat
  candidateId : NodeId
  (lastLogIndex lastLogTerm : Nat)
  groupId : UInt64

structure RequestVoteResponse where
  term : Nat
  voteGranted : Bool

structure AppendEntriesRequest where
  term : Nat
  leaderId : NodeId
  (prevLogIndex prevLogTerm : Nat)
  entries : List LogEntry
  leaderCommit : Nat
  groupId : UInt64
  readRound : Nat

structure AppendEntriesResponse where
  term : Nat
  success : Bool
  (matchIndex readRound : Nat)

structure InstallSnapshotRequest where
  term : Nat
  leaderId : NodeId
  (lastIncludedIndex lastIncludedTerm : Nat)
  data : Bytes
  groupId : UInt64
  (confState learners : List NodeId)

structure InstallSnapshotResponse where
  term : Nat

structure TimeoutNowRequest where
  term : Nat
  leaderId : NodeId
  groupId : UInt64

def entryNormal : UInt32 := 0

def entryConfChange : UInt32 := 1

def entryToProto (e : Entry) : LogEntry :=
  ⟨e.term, e.index, e.data, match e.entryType with | .normal => entryNormal | .confChange => entryConfChange⟩

def entryFromProto (p : LogEntry) : Entry :=
  ⟨p.term, p.index, if p.entryType = entryConfChange then .confChange else .normal, p.data⟩

/-! Requests; `none` is the panic on a message of another kind. -/

def voteRequest (m : Message) (groupId : UInt64) : Option RequestVoteRequest :=
  match m.body with
  | .requestVote lastLogIndex lastLogTerm => some ⟨m.term, m.sender, lastLogIndex, lastLogTerm, groupId⟩
  | _ => none

def appendRequest (m : Message) (groupId : UInt64) : Option AppendEntriesRequest :=
  match m.body with
  | .appendEntries prevLogIndex prevLogTerm entries leaderCommit readRound =>
    some ⟨m.term, m.sender, prevLogIndex, prevLogTerm, entries.map entryToProto, leaderCommit, groupId, readRound⟩
  | _ => none

def installSnapshotRequest (m : Message) (groupId : UInt64) : Option InstallSnapshotRequest :=
  match m.body with
  | .installSnapshot lastIncludedIndex lastIncludedTerm confState learners data =>
    some ⟨m.term, m.sender, lastIncludedIndex, lastIncludedTerm, data, groupId, confState, learners⟩
  | _ => none

def timeoutNowRequest (m : Message) (groupId : UInt64) : Option TimeoutNowRequest :=
  match m.body with
  | .timeoutNow => some ⟨m.term, m.sender, groupId⟩
  | _ => none

def voteRequestToMsg (req : RequestVoteRequest) (selfId : NodeId) : Message :=
  ⟨req.candidateId, selfId, req.term, .requestVote req.lastLogIndex req.lastLogTerm⟩

def appendRequestToMsg (req : AppendEntriesRequest) (selfId : NodeId) : Message :=
  ⟨req.leaderId, selfId, req.term, .appendEntries req.prevLogIndex req.prevLogTerm (req.entries.map entryFromProto)
    req.leaderCommit req.readRound⟩

def installSnapshotRequestToMsg (req : InstallSnapshotRequest) (selfId : NodeId) : Message :=
  ⟨req.leaderId, selfId, req.term, .installSnapshot req.lastIncludedIndex req.lastIncludedTerm req.confState req.learners
    req.data⟩

def timeoutNowRequestToMsg (req : TimeoutNowRequest) (selfId : NodeId) : Message :=
  ⟨req.leaderId, selfId, req.term, .timeoutNow⟩

def voteResponse : Option Message → RequestVoteResponse
  | some ⟨_, _, term, .requestVoteResp granted⟩ => ⟨term, granted⟩
  | _ => ⟨0, false⟩

def appendResponse : Option Message → AppendEntriesResponse
  | some ⟨_, _, term, .appendEntriesResp success matchIndex readRound⟩ => ⟨term, success, matchIndex, readRound⟩
  | _ => ⟨0, false, 0, 0⟩

def installSnapshotResponse (reply : Option Message) : InstallSnapshotResponse := ⟨(reply.map Message.term).getD 0⟩

def voteResponseToMsg (resp : RequestVoteResponse) (peer selfId : NodeId) : Message :=
  ⟨peer, selfId, resp.term, .requestVoteResp resp.voteGranted⟩

def appendResponseToMsg (resp : AppendEntriesResponse) (peer selfId : NodeId) : Message :=
  ⟨peer, selfId, resp.term, .appendEntriesResp resp.success resp.matchIndex resp.readRound⟩

def installSnapshotResponseToMsg (resp : InstallSnapshotResponse) (peer selfId : NodeId) (sentIndex : Nat) : Message :=
  ⟨peer, selfId, resp.term, .installSnapshotResp sentIndex⟩

def stepReply (n : RaftNode) (m : Message) : RaftNode × Option Message :=
  let (n, messages) := (n.step m).takeMessages
  (n, messages.find? fun reply => reply.dest = m.sender ∧ reply.body.isResponse)

/-- What becomes of a message whose call succeeds: the peer after it, and the reply that is fed back to the sender. -/
def runSender (groupId : UInt64) (selfId : NodeId) (m : Message) (n : RaftNode) : Option (RaftNode × Option Message) :=
  match m.body with
  | .requestVote .. => (voteRequest m groupId).map fun req =>
    (stepReply n (voteRequestToMsg req n.id)).map id fun reply =>
      some (voteResponseToMsg (voteResponse reply) m.dest selfId)
  | .appendEntries .. => (appendRequest m groupId).map fun req =>
    (stepReply n (appendRequestToMsg req n.id)).map id fun reply =>
      some (appendResponseToMsg (appendResponse reply) m.dest selfId)
  | .installSnapshot lastIncludedIndex .. => (installSnapshotRequest m groupId).map fun req =>
    (stepReply n (installSnapshotRequestToMsg req n.id)).map id fun reply =>
      some (installSnapshotResponseToMsg (installSnapshotResponse reply) m.dest selfId lastIncludedIndex)
  | .timeoutNow => (timeoutNowRequest m groupId).map fun req =>
    (stepReply n (timeoutNowRequestToMsg req n.id)).map id fun _ => none
  | _ => some (n, none)

@[simp] theorem entryFromProto_entryToProto (e : Entry) : entryFromProto (entryToProto e) = e := by
  obtain ⟨term, index, entryType, data⟩ := e
  cases entryType <;> rfl

variable {n : RaftNode} {m : Message}

/-- The ack of a snapshot covers it, unless it rejects the snapshot in a later term. -/
def Answers (m reply : Message) : Prop :=
  match m.body, reply.body with
  | .requestVote .., .requestVoteResp _ | .appendEntries .., .appendEntriesResp .. => True
  | .installSnapshot index .., .installSnapshotResp k => index ≤ k ∨ m.term < reply.term ∧ k = 0
  | _, _ => False

def fedBack (m reply : Message) : Message :=
  match m.body with
  | .installSnapshot index .. => { reply with body := .installSnapshotResp index }
  | _ => reply

theorem step_replies (quiet : n.messages = []) (request : ¬ m.body.isResponse) (ordinary : m.body ≠ .timeoutNow) :
    ∃ reply, (n.step m).messages = [reply] ∧ (reply.sender = n.id ∧ reply.dest = m.sender) ∧ Answers m reply := by
  have send {a : RaftNode} (id : a.id = n.id) (quiet : a.messages = []) (dest : NodeId) (term : Nat) (body : MessageBody) :
      (a.send dest term body).messages = [⟨n.id, dest, term, body⟩] := by
    rw [RaftNode.send, quiet, id]
    rfl
  have adopted : (n.adoptTerm m).id = n.id ∧ (n.adoptTerm m).messages = [] := by
    unfold RaftNode.adoptTerm RaftNode.becomeFollower
    split <;> exact ⟨rfl, quiet⟩
  obtain ⟨id, quiet⟩ := adopted
  obtain ⟨sender, dest, term, body⟩ := m
  unfold RaftNode.step
  generalize n.adoptTerm _ = a at id quiet ⊢
  cases body with
  | requestVote lastLogIndex lastLogTerm =>
    simp only [RaftNode.handleRequestVote]
    split <;> exact ⟨_, send id quiet _ _ _, ⟨rfl, rfl⟩, trivial⟩
  | appendEntries prevLogIndex prevLogTerm entries leaderCommit readRound =>
    obtain ⟨-, id', messages⟩ := (a.follow sender).spliceEntries_outside prevLogIndex entries
    simp only [RaftNode.handleAppendEntries]
    split_ifs
    · exact ⟨_, send id quiet _ _ _, ⟨rfl, rfl⟩, trivial⟩
    · exact ⟨_, send id quiet _ _ _, ⟨rfl, rfl⟩, trivial⟩
    · exact ⟨_, send id quiet _ _ _, ⟨rfl, rfl⟩, trivial⟩
    · exact ⟨_, send (id'.trans id) (messages.trans quiet) _ _ _, ⟨rfl, rfl⟩, trivial⟩
  | installSnapshot lastIncludedIndex lastIncludedTerm confState learners data =>
    have kept (snap : Snapshot) : ((a.follow sender).installSnapshot snap).id = a.id ∧
        ((a.follow sender).installSnapshot snap).messages = a.messages :=
      ⟨congrArg Core.id (RaftNode.recomputeConf_core rfl), RaftNode.recomputeConf_messages _⟩
    simp only [RaftNode.handleInstallSnapshot]
    split_ifs with stale covered
    · exact ⟨_, send id quiet _ _ _, ⟨rfl, rfl⟩, .inr ⟨stale, rfl⟩⟩
    · exact ⟨_, send id quiet _ _ _, ⟨rfl, rfl⟩, .inl covered⟩
    · exact ⟨_, send ((kept _).1.trans id) ((kept _).2.trans quiet) _ _ _, ⟨rfl, rfl⟩, .inl (Nat.le_refl _)⟩
  | timeoutNow => exact absurd rfl ordinary
  | _ => exact absurd rfl request

/-- A request reaches the peer as it was sent, and its reply is fed back; a snapshot's with the index that was sent. -/
theorem requests_answered (groupId : UInt64) (addressed : m.dest = n.id) (quiet : n.messages = [])
    (request : ¬ m.body.isResponse) (ordinary : m.body ≠ .timeoutNow) :
    ∃ reply, (n.step m).messages = [reply] ∧ Answers m reply ∧
      runSender groupId m.sender m n = some ((n.step m).takeMessages.1, some (fedBack m reply)) := by
  obtain ⟨reply, replied, ends, answers⟩ := step_replies quiet request ordinary
  obtain ⟨sender, dest, term, body⟩ := m
  obtain ⟨_, _, t, response⟩ := reply
  obtain ⟨rfl, rfl⟩ := ends
  subst addressed
  refine ⟨_, replied, answers, ?_⟩
  cases body with
  | requestVote =>
    cases response with
    | requestVoteResp => simp [runSender, voteRequest, voteRequestToMsg, stepReply, RaftNode.takeMessages, replied,
        MessageBody.isResponse, voteResponse, voteResponseToMsg, fedBack]
    | _ => exact answers.elim
  | appendEntries =>
    cases response with
    | appendEntriesResp => simp [runSender, appendRequest, appendRequestToMsg, Function.comp_def, stepReply,
        RaftNode.takeMessages, replied, MessageBody.isResponse, appendResponse, appendResponseToMsg, fedBack]
    | _ => exact answers.elim
  | installSnapshot =>
    cases response with
    | installSnapshotResp => simp [runSender, installSnapshotRequest, installSnapshotRequestToMsg, stepReply,
        RaftNode.takeMessages, replied, MessageBody.isResponse, installSnapshotResponse, installSnapshotResponseToMsg, fedBack]
    | _ => exact answers.elim
  | timeoutNow => exact absurd rfl ordinary
  | _ => exact absurd rfl request

theorem requests_answered_trio : let n := (Cluster.start trio).nodes 2
    let m : Message := ⟨1, 2, 1, .requestVote 0 0⟩
    ∃ reply, (n.step m).messages = [reply] ∧ Answers m reply ∧
      runSender 7 1 m n = some ((n.step m).takeMessages.1, some (fedBack m reply)) :=
  requests_answered 7 (by decide +kernel) (by decide +kernel) nofun nofun

end Arcux.Server.RaftTransport
