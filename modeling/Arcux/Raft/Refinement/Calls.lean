import Arcux.Raft.Refinement.Step

namespace Arcux.Raft

open Codec Consensus

variable {bootstrap : List NodeId} {scope : Scope} {l : Ledger NodeId Entry}
  {i : NodeId} {n : RaftNode}

section

variable (view : View bootstrap scope l i n)

include view

theorem View.tickTransfer : View bootstrap scope l i n.tickTransfer := by
  unfold RaftNode.tickTransfer
  split
  · split <;> exact view.congr rfl rfl
  · exact view

theorem View.tickHeartbeat (role : n.role = .leader) : View bootstrap scope l i n.tickHeartbeat := by
  unfold RaftNode.tickHeartbeat
  split
  · have beat : View bootstrap scope l i { n with heartbeatElapsed := 0 } := view.congr rfl rfl
    exact beat.broadcastAppend role
  · exact view.congr rfl rfl

theorem View.tickQuorum : Reaches bootstrap scope l i n.tickQuorum := by
  unfold RaftNode.tickQuorum
  split
  · have checked : View bootstrap scope l i { n with quorumElapsed := 0, recentActive := ∅ } := view.congr rfl rfl
    simp only
    split
    · exact checked.becomeFollower (Nat.le_refl _) none
    · exact checked.reaches
  · exact View.reaches (view.congr rfl rfl)

theorem View.tickElection : Reaches bootstrap scope l i n.tickElection := by
  have ticked : View bootstrap scope l i { n with electionElapsed := n.electionElapsed + 1 } := view.congr rfl rfl
  unfold RaftNode.tickElection
  simp only
  split
  · rename_i due
    exact ticked.startElection due.2
  · exact ticked.reaches

theorem View.tick : Reaches bootstrap scope l i n.tick := by
  unfold RaftNode.tick
  split
  · rename_i role
    refine View.tickQuorum (View.tickHeartbeat view.tickTransfer ?_)
    rw [RaftNode.tickTransfer]
    split
    · split <;> exact role
    · exact role
  · exact view.tickElection
  · exact view.tickElection

variable {n' : RaftNode} {data : Bytes} {index : Nat}

theorem View.propose (accepted : n.propose data = .ok (n', index)) : Reaches bootstrap scope l i n' := by
  obtain ⟨role, rfl, rfl⟩ := RaftNode.propose_ok accepted
  have node := view.node
  have voter := (node.leader role).voter
  have informed : Informed bootstrap n.voters
      (l.log i ++ [.normal n.currentTerm (n.storage.lastIndex + 1) data]) := by
    refine .inr ((node.voters.config voter).trans ((raftRules bootstrap).config_append _ _ ?_).symm)
    exact nofun
  have appended : Reaches bootstrap scope l i (n.appendOwn (.normal n.currentTerm (n.storage.lastIndex + 1) data)) :=
    view.appendOwn role rfl rfl (fun _ => rfl) nofun informed node.distinct voter
  refine Reaches.bind appended (fun l' _ appended => ?_)
  refine Reaches.map (appended.maybeAdvanceCommit role) (fun l'' advanced => advanced.broadcastAppend ?_)
  exact (RaftNode.maybeAdvanceCommit_role _).trans role

theorem View.readIndex {ctx : Nat} (accepted : n.readIndex ctx = .ok n') : View bootstrap scope l i n' := by
  obtain ⟨role, rfl⟩ := RaftNode.readIndex_ok accepted
  have registered : View bootstrap scope l i (n.registerRead ctx) := view.congr rfl rfl
  exact (registered.broadcastAppend role).advanceReads

theorem View.transferLeadership {target : NodeId}
    (accepted : n.transferLeadership target = .ok n') : View bootstrap scope l i n' := by
  have aimed : View bootstrap scope l i { n with transferTarget := some target, transferElapsed := 0 } :=
    view.congr rfl rfl
  unfold RaftNode.transferLeadership at accepted
  split at accepted
  · cases accepted
  rename_i role
  rw [not_not] at role
  split at accepted
  · cases accepted
  simp only at accepted
  split at accepted
  · split at accepted
    · cases accepted
      exact aimed.fireTimeoutNow target
    · cases accepted
      exact aimed.sendAppend role target
  · cases accepted
    exact aimed.sendAppend role target

theorem View.takeCommitted : View bootstrap scope l i n.takeCommitted.1 := by
  unfold RaftNode.takeCommitted
  split
  · exact view
  · have node := view.node
    exact { view with node := { node with
      recorded := { node.recorded with }, applied := Nat.le_refl _
      candidate := fun role => { node.candidate role with }, leader := fun role => { node.leader role with } } }

theorem View.compact
    (faithful : n.storage.base < index → index ≤ n.lastApplied → scope.image ((l.log i).take index) data) :
    View bootstrap scope l i ((n.compact index data).getD n) := by
  cases done : n.compact index data with
  | none => exact view
  | some n' =>
    rcases RaftNode.compact_cases done with rfl | ⟨term, above, below, known, rfl⟩
    · exact view
    have node := view.node
    have short : index ≤ (l.log i).length := below.trans (node.applied.trans node.commit.le_length)
    rw [node.log.term above.le] at known
    have log : Holds (n.storage.compact index term (n.confAt index).1 (n.confAt index).2 data) (l.log i) :=
      node.log.compact above short known
    rw [MemStorage.compact_of_lt above] at log
    rw [Option.getD_some, MemStorage.compact_of_lt above]
    refine { view with node := ?_ }
    refine ⟨node.id, node.hard, node.term, node.vote, log, ⟨node.recorded.boot, ?_⟩, ?_, node.voters, node.distinct,
      node.commit, node.commit.of_le (below.trans node.applied), node.applied,
      fun role => { node.candidate role with }, fun role => { node.leader role with }⟩
    · rintro _ ⟨⟩
      exact node.recorded.confAt node.log index above.le
    · rintro _ ⟨⟩
      exact faithful above below

omit view in
theorem View.new (inv : Invariant (raftRules bootstrap) l.toState) (regular : ∀ T, Regular scope (l.lead T))
    (idle : ∀ T, l.winner T = none → l.reached T = 0) {cfg : Config} {storage : MemStorage} (id : cfg.id = i)
    (boot : cfg.voters = bootstrap ∨ cfg.voters = []) (term : l.term i = storage.hard.currentTerm)
    (vote : l.vote i storage.hard.currentTerm = storage.hard.votedFor) (log : Holds storage (l.log i))
    (snaps : ∀ snap, storage.snap = some snap → Informed bootstrap snap.confState ((l.log i).take snap.lastIncludedIndex) ∧
      scope.image ((l.log i).take snap.lastIncludedIndex) snap.data)
    (base : (raftRules bootstrap).Settled l storage.hard.currentTerm (l.log i) storage.base) :
    View bootstrap scope l i (RaftNode.new cfg storage) := by
  have recorded : Recorded bootstrap (RaftNode.recover cfg storage) (l.log i) :=
    ⟨boot, fun snap found => (snaps snap found).1⟩
  have voters := recorded.confAt log storage.lastIndex (log.lastIndex ▸ log.base_le)
  rw [log.lastIndex, List.take_length, ← log.lastIndex] at voters
  have recovered : View bootstrap scope l i { (RaftNode.recover cfg storage).resetElectionTimer with
      voters := ((RaftNode.recover cfg storage).confAt storage.lastIndex).1 } := by
    refine ⟨inv, regular, idle, ?_, nofun⟩
    exact ⟨id, rfl, term, vote, log, ⟨boot, recorded.snap⟩, fun snap found => (snaps snap found).2, voters,
      confAt_nodup _ _, Rules.Settled.zero _ _, base, Nat.le_refl _, nofun, nofun⟩
  exact recovered.congr (RaftNode.recomputeConf_core rfl) (RaftNode.recomputeConf_messages _)

theorem View.restart (cfg : Config) :
    View bootstrap scope l i (RaftNode.new { cfg with id := n.id, voters := n.bootstrapConf } n.storage) := by
  have node := view.node
  have hard := node.hard
  refine View.new view.inv view.regular view.idle node.id node.recorded.boot ?_ ?_ node.log
    (fun snap found => ⟨node.recorded.snap snap found, node.image snap found⟩) ?_
  · rw [hard]
    exact node.term
  · rw [hard]
    exact node.vote
  · rw [hard]
    exact node.base

end

end Arcux.Raft
