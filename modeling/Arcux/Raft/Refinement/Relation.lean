import Arcux.Consensus.Commit
import Arcux.Raft.Cluster
import Arcux.Raft.Membership

namespace Arcux.Raft

open Codec Consensus List

/-- The part of a node that the protocol history describes. Timers, leader hints, transfers and reads
are left out. -/
structure Core where
  id : NodeId
  voters : List NodeId
  bootstrapConf : List NodeId
  storage : MemStorage
  role : Role
  currentTerm : Nat
  votedFor : Option NodeId
  commitIndex : Nat
  lastApplied : Nat
  votes : Finset NodeId
  nextIndex : NodeId → Option Nat
  matchIndex : NodeId → Option Nat

def RaftNode.core (n : RaftNode) : Core :=
  ⟨n.id, n.voters, n.bootstrapConf, n.storage, n.role, n.currentTerm, n.votedFor, n.commitIndex, n.lastApplied,
    n.votes, n.nextIndex, n.matchIndex⟩

/-- What a simulation commits to: what snapshot data has to be for the log it covers, and whether the
membership stays fixed. -/
structure Scope where
  image : List Entry → Bytes → Prop
  fixed : Prop

structure Regular (scope : Scope) (log : List Entry) : Prop where
  indexed : Indexed log
  normal : scope.fixed → ∀ e ∈ log, e.entryType = .normal

theorem Regular.nil {scope : Scope} : Regular scope [] := ⟨Indexed.nil, nofun⟩

section

variable (bootstrap : List NodeId) (scope : Scope) (l : Ledger NodeId Entry)

structure Campaigns (i : NodeId) (n : RaftNode) : Prop where
  campaign : l.campaign i n.currentTerm = some (l.log i)
  unwon : ∀ b, l.winner n.currentTerm ≠ some (i, b)
  voter : i ∈ n.voters
  members : n.votes ⊆ n.voters.toFinset
  votes : ∀ v ∈ n.votes, l.vote v n.currentTerm = some i

structure Leads (i : NodeId) (n : RaftNode) : Prop where
  won : ∃ b, l.winner n.currentTerm = some (i, b)
  current : l.log i = l.lead n.currentTerm
  voter : i ∈ n.voters
  matched : ∀ v m, n.matchIndex v = some m → m = 0 ∨ l.acked v n.currentTerm m
  next : ∀ v x, n.nextIndex v = some x → 0 < x ∧ x ≤ (l.log i).length + 1
  reached : l.reached n.currentTerm ≤ n.commitIndex

structure Tracks (i : NodeId) (n : RaftNode) : Prop where
  id : n.id = i
  hard : n.storage.hard = ⟨n.currentTerm, n.votedFor⟩
  term : l.term i = n.currentTerm
  vote : l.vote i n.currentTerm = n.votedFor
  log : Holds n.storage (l.log i)
  recorded : Recorded bootstrap n (l.log i)
  image : ∀ snap, n.storage.snap = some snap → scope.image ((l.log i).take snap.lastIncludedIndex) snap.data
  voters : Informed bootstrap n.voters (l.log i)
  distinct : n.voters.Nodup
  commit : (raftRules bootstrap).Settled l n.currentTerm (l.log i) n.commitIndex
  base : (raftRules bootstrap).Settled l n.currentTerm (l.log i) n.storage.base
  applied : n.lastApplied ≤ n.commitIndex
  candidate : n.role = .candidate → Campaigns l i n
  leader : n.role = .leader → Leads l i n

def Justified (msg : Message) : Prop :=
  match msg.body with
  | .requestVote lastLogIndex lastLogTerm => ∃ b, l.campaign msg.sender msg.term = some b ∧
      lastLogIndex = b.length ∧ lastLogTerm = (raftRules bootstrap).lastTerm b
  | .requestVoteResp granted => granted = true → l.vote msg.sender msg.term = some msg.dest
  | .appendEntries prevLogIndex prevLogTerm entries leaderCommit _ =>
    (∃ b, l.winner msg.term = some (msg.sender, b)) ∧
      prevLogIndex + entries.length ≤ (l.lead msg.term).length ∧
      entries = ((l.lead msg.term).drop prevLogIndex).take entries.length ∧
      termAt (l.lead msg.term) prevLogIndex = some prevLogTerm ∧
      leaderCommit ≤ prevLogIndex + entries.length ∧
      (raftRules bootstrap).Settled l msg.term (l.lead msg.term) leaderCommit
  | .appendEntriesResp success matchIndex _ => success = true → l.acked msg.sender msg.term matchIndex
  | .installSnapshot lastIncludedIndex lastIncludedTerm confState _ data =>
    (∃ b, l.winner msg.term = some (msg.sender, b)) ∧ 0 < lastIncludedIndex ∧
      termAt (l.lead msg.term) lastIncludedIndex = some lastIncludedTerm ∧
      (raftRules bootstrap).Settled l msg.term (l.lead msg.term) lastIncludedIndex ∧
      Informed bootstrap confState ((l.lead msg.term).take lastIncludedIndex) ∧
      scope.image ((l.lead msg.term).take lastIncludedIndex) data
  | .installSnapshotResp matchIndex => matchIndex = 0 ∨ l.acked msg.sender msg.term matchIndex
  | .timeoutNow => True

structure View (i : NodeId) (n : RaftNode) : Prop where
  inv : Invariant (raftRules bootstrap) l.toState
  regular : ∀ T, Regular scope (l.lead T)
  idle : ∀ T, l.winner T = none → l.reached T = 0
  node : Tracks bootstrap scope l i n
  sent : ∀ msg ∈ n.messages, Justified bootstrap scope l msg

def Reaches (i : NodeId) (n : RaftNode) : Prop := ∃ l', Evolves i l l' ∧ View bootstrap scope l' i n

structure Simulates (s : Cluster) : Prop where
  inv : Invariant (raftRules bootstrap) l.toState
  regular : ∀ T, Regular scope (l.lead T)
  idle : ∀ T, l.winner T = none → l.reached T = 0
  nodes : ∀ i, Tracks bootstrap scope l i (s.nodes i)
  drained : ∀ i, (s.nodes i).messages = []
  sent : ∀ envelope ∈ s.net, Justified bootstrap scope l envelope.message

end

section

variable {bootstrap : List NodeId} {scope : Scope} {l l' : Ledger NodeId Entry}
  {i j : NodeId} {n n' : RaftNode}

theorem Tracks.congr (tracks : Tracks bootstrap scope l i n) (same : n'.core = n.core) :
    Tracks bootstrap scope l i n' := by
  cases n
  cases n'
  simp only [RaftNode.core, Core.mk.injEq] at same
  obtain ⟨rfl, rfl, rfl, rfl, rfl, rfl, rfl, rfl, rfl, rfl, rfl, rfl⟩ := same
  exact ⟨tracks.id, tracks.hard, tracks.term, tracks.vote, tracks.log, ⟨tracks.recorded.boot, tracks.recorded.snap⟩,
    tracks.image, tracks.voters, tracks.distinct, tracks.commit, tracks.base, tracks.applied,
    fun role => { tracks.candidate role with }, fun role => { tracks.leader role with }⟩

theorem View.congr (view : View bootstrap scope l i n) (same : n'.core = n.core)
    (messages : n'.messages = n.messages) : View bootstrap scope l i n' :=
  { view with node := view.node.congr same, sent := messages ▸ view.sent }

theorem View.send (view : View bootstrap scope l i n) {dest : NodeId} {term : Nat} {body : MessageBody}
    (justified : Justified bootstrap scope l ⟨i, dest, term, body⟩) :
    View bootstrap scope l i (n.send dest term body) := by
  refine { view with node := view.node.congr rfl, sent := ?_ }
  intro msg member
  rcases mem_append.mp member with old | new
  · exact view.sent msg old
  · rw [mem_singleton.mp new, view.node.id]
    exact justified

theorem Justified.mono {msg : Message} (justified : Justified bootstrap scope l msg)
    (ext : Extends l.toState l'.toState) (grown : ∀ T, l.reached T ≤ l'.reached T) :
    Justified bootstrap scope l' msg := by
  obtain ⟨sender, dest, term, body⟩ := msg
  cases body with
  | requestVote lastLogIndex lastLogTerm =>
    obtain ⟨b, campaign, rest⟩ := justified
    exact ⟨b, ext.campaign _ _ b campaign, rest⟩
  | requestVoteResp granted => exact fun yes => ext.vote _ _ _ (justified yes)
  | appendEntries prevLogIndex prevLogTerm entries leaderCommit readRound =>
    obtain ⟨⟨b, won⟩, bound, slice, previous, within, settled⟩ := justified
    have lead := ext.lead term
    refine ⟨⟨b, ext.winner _ _ won⟩, bound.trans lead.length_le, ?_, ?_, within, ?_⟩
    · obtain ⟨rest, split⟩ := lead
      simp only at slice bound ⊢
      rw [← split, drop_append_of_le_length (by omega), take_append_of_le_length (by simp; omega)]
      exact slice
    · simp only at previous bound ⊢
      rw [← previous]
      exact termAt_of_part lead (by omega)
    · exact (settled.mono ext grown).of_take (Nat.le_refl _) (( take_prefix _ _).trans lead)
  | appendEntriesResp success matchIndex readRound => exact fun yes => ext.acked _ _ _ (justified yes)
  | installSnapshot lastIncludedIndex lastIncludedTerm confState learners data =>
    obtain ⟨⟨b, won⟩, positive, boundary, settled, informed, faithful⟩ := justified
    have lead := ext.lead term
    have short : lastIncludedIndex ≤ (l.lead term).length := settled.le_length
    have same := ext.take_lead short
    refine ⟨⟨b, ext.winner _ _ won⟩, positive, ?_, ?_, ?_, ?_⟩
    · simp only at boundary ⊢
      rw [← boundary]
      exact termAt_of_part lead short
    · exact (settled.mono ext grown).of_take (Nat.le_refl _) (( take_prefix _ _).trans lead)
    · simp only at informed ⊢
      rw [same]
      exact informed
    · simp only at faithful ⊢
      rw [same]
      exact faithful
  | installSnapshotResp matchIndex => exact justified.imp_right (ext.acked _ _ _)
  | timeoutNow => trivial

theorem Tracks.frame (tracks : Tracks bootstrap scope l j n) (evolves : Evolves i l l') (other : j ≠ i) :
    Tracks bootstrap scope l' j n := by
  have log := evolves.log j other
  have ext := evolves.extend
  refine ⟨tracks.id, tracks.hard, (evolves.term j other).trans tracks.term, ?_, log ▸ tracks.log,
    log ▸ tracks.recorded, log ▸ tracks.image, log ▸ tracks.voters, tracks.distinct, ?_, ?_, tracks.applied, ?_, ?_⟩
  · rw [evolves.vote j other]
    exact tracks.vote
  · rw [log]
    exact tracks.commit.mono ext evolves.reached
  · rw [log]
    exact tracks.base.mono ext evolves.reached
  · intro role
    obtain ⟨campaign, unwon, voter, members, votes⟩ := tracks.candidate role
    refine ⟨?_, ?_, voter, members, fun v member => ext.vote v _ _ (votes v member)⟩
    · rw [log]
      exact ext.campaign _ _ _ campaign
    · intro b won
      exact unwon b (evolves.led _ j b other won).1
  · intro role
    obtain ⟨⟨b, won⟩, current, voter, matched, next, reached⟩ := tracks.leader role
    obtain ⟨_, lead, same⟩ := evolves.led _ j b other (ext.winner _ _ won)
    refine ⟨⟨b, ext.winner _ _ won⟩, ?_, voter, ?_, ?_, ?_⟩
    · rw [log, lead]
      exact current
    · exact fun v m found => (matched v m found).imp_right (ext.acked v _ m)
    · rw [log]
      exact next
    · rw [same]
      exact reached

theorem View.reaches (view : View bootstrap scope l i n) : Reaches bootstrap scope l i n :=
  ⟨l, Evolves.refl i l, view⟩

theorem Reaches.bind (reaches : Reaches bootstrap scope l i n)
    (next : ∀ l', Evolves i l l' → View bootstrap scope l' i n → Reaches bootstrap scope l' i n') :
    Reaches bootstrap scope l i n' := by
  obtain ⟨l', evolves, view⟩ := reaches
  obtain ⟨l'', evolves', view'⟩ := next l' evolves view
  exact ⟨l'', evolves.trans evolves', view'⟩

theorem Reaches.map (reaches : Reaches bootstrap scope l i n)
    (next : ∀ l', View bootstrap scope l' i n → View bootstrap scope l' i n') : Reaches bootstrap scope l i n' :=
  reaches.bind (fun l' _ view => (next l' view).reaches)

theorem View.regular_log (view : View bootstrap scope l i n) : Regular scope (l.log i) := by
  refine ⟨view.node.log.indexed, fun fixed e member => ?_⟩
  obtain ⟨prior, rest, split⟩ := append_of_mem member
  have part : prior ++ [e] <+: l.log i := ⟨rest, by rw [split, append_assoc, singleton_append]⟩
  have led := view.inv.logChained i prior e part
  exact (view.regular _).normal fixed e (led.subset (mem_append_right _ (mem_singleton_self e)))

theorem Simulates.view {s : Cluster} (sim : Simulates bootstrap scope l s) (i : NodeId) :
    View bootstrap scope l i (s.nodes i) :=
  ⟨sim.inv, sim.regular, sim.idle, sim.nodes i, by simp [sim.drained i]⟩

end

end Arcux.Raft
