import Arcux.Raft.Refinement.Acceptance

namespace Arcux.Raft

open Consensus List

variable {bootstrap : List NodeId} {scope : Scope} {l : Ledger NodeId Entry}
  {i : NodeId} {n : RaftNode}

section

variable (view : View bootstrap scope l i n)

include view

theorem View.becomeFollower {term : Nat} (newer : n.currentTerm ≤ term)
    (leader : Option NodeId) : Reaches bootstrap scope l i (n.becomeFollower term leader) := by
  rw [RaftNode.becomeFollower]
  split
  · rename_i less
    have node := view.node
    have ahead : l.term i < term := node.term ▸ less
    have evolves : Evolves i l (l.become { l.toState with term := Function.update l.term i term }) :=
      Evolves.advance view.inv ahead
    refine ⟨_, evolves, (advance_sound view.inv ahead).preserves view.inv, view.regular, view.idle, ?_, ?_⟩
    · refine ⟨node.id, rfl, Function.update_self _ _ _, ?_, node.log.saveHardState _,
        ⟨node.recorded.boot, node.recorded.snap⟩, node.image, node.voters, node.distinct, ?_, ?_, node.applied,
        by rintro ⟨⟩, by rintro ⟨⟩⟩
      · change l.vote i term = none
        cases voted : l.vote i term with
        | none => rfl
        | some c =>
          have := view.inv.voteBound i term c voted
          omega
      · exact (node.commit.mono evolves.extend evolves.reached).of_take newer ( take_prefix _ _)
      · exact (node.base.mono evolves.extend evolves.reached).of_take newer ( take_prefix _ _)
    · exact fun msg member => (view.sent msg member).mono evolves.extend evolves.reached
  · exact View.reaches (View.congr view.follower rfl rfl)

theorem View.becomeLeader (role : n.role = .candidate)
    (elected : n.majority ≤ n.votes.card) : Reaches bootstrap scope l i n.becomeLeader := by
  have node := view.node
  have term := node.term
  obtain ⟨campaign, unwon, voter, members, votes⟩ := node.candidate role
  rw [← term] at campaign unwon votes
  have majority : Majority ((raftRules bootstrap).config (l.log i)) n.votes :=
    node.voters.config voter ▸ majority_of_card node.distinct members elected
  have evolves : Evolves i l (l.become (l.toState.won i)) := Evolves.won view.inv campaign unwon majority votes
  have inv := (win_sound view.inv campaign unwon majority votes).preserves view.inv
  have winner : (l.toState.won i).winner (l.term i) = some (i, l.log i) := by simp [State.won]
  have lead : (l.toState.won i).lead (l.term i) = l.log i := by simp [State.won]
  have vacant : l.winner (l.term i) = none := by
    cases won : l.winner (l.term i) with
    | none => rfl
    | some pair =>
      have kept := evolves.extend.winner _ _ won
      rw [show (l.become (l.toState.won i)).winner (l.term i) = some (i, l.log i) from winner] at kept
      exact absurd (won.trans kept.symm) (unwon _)
  refine Reaches.map (n := n.assumeLeadership) ?_ (fun _ view => view.broadcastAppend rfl)
  have last := node.log.lastIndex
  refine ⟨_, evolves, inv, ?_, ?_, ?_, ?_⟩
  · intro T
    by_cases here : T = l.term i
    · subst here
      exact lead ▸ view.regular_log
    · have same : (l.toState.won i).lead T = l.lead T := Function.update_of_ne here _ _
      exact same ▸ view.regular T
  · intro T none
    by_cases here : T = l.term i
    · subst here
      exact view.idle _ vacant
    · have same : (l.toState.won i).winner T = l.winner T := Function.update_of_ne here _ _
      exact view.idle T (same ▸ none)
  · refine ⟨node.id, node.hard, node.term, node.vote, node.log, ⟨node.recorded.boot, node.recorded.snap⟩,
      node.image, node.voters, node.distinct, node.commit.mono evolves.extend evolves.reached,
      node.base.mono evolves.extend evolves.reached, node.applied, by rintro ⟨⟩, ?_⟩
    intro _
    refine ⟨⟨l.log i, term ▸ winner⟩, (term ▸ lead).symm, voter, ?_, ?_, ?_⟩
    · intro v m found
      simp only [RaftNode.assumeLeadership] at found
      by_cases self : v = n.id
      · simp only [self, Function.update_self, Option.some.injEq] at found
        refine .inr (.inr ⟨self.trans node.id, term.symm, ?_⟩)
        omega
      · simp only [Function.update_of_ne self] at found
        split at found
        · exact .inl (Option.some.inj found).symm
        · cases found
    · intro v x found
      simp only [RaftNode.assumeLeadership] at found
      split at found
      · cases found
        change 0 < _ ∧ _ ≤ (l.log i).length + 1
        omega
      · cases found
    · change l.reached n.currentTerm ≤ n.commitIndex
      rw [← term, view.idle _ vacant]
      exact Nat.zero_le _
  · exact fun msg member => (view.sent msg member).mono evolves.extend evolves.reached

omit view in
theorem Tracks.lastLogTerm (node : Tracks bootstrap scope l i n) :
    n.lastLogTerm = (raftRules bootstrap).lastTerm (l.log i) := by
  have holds := node.log
  rw [RaftNode.lastLogTerm, holds.term (holds.lastIndex ▸ holds.base_le), holds.lastIndex, termAt, Rules.lastTerm,
    getLast?_eq_getElem?]
  split
  · rename_i empty
    rw [length_eq_zero_iff.mp empty]
    rfl
  · rfl

theorem View.campaign (voter : n.isVoter) : Reaches bootstrap scope l i n.campaign := by
  have node := view.node
  have term := node.term
  have evolves : Evolves i l (l.become (l.toState.campaigned i)) := Evolves.campaigned view.inv
  have vote : (l.toState.campaigned i).vote i (n.currentTerm + 1) = some i := by
    simp [State.campaigned, State.withVote, term]
  have later : n.currentTerm ≤ n.currentTerm + 1 := Nat.le_succ _
  refine ⟨_, evolves, (campaign_sound view.inv i).preserves view.inv, view.regular, view.idle, ?_, ?_⟩
  · refine ⟨node.id, rfl, ?_, ?_, node.log.saveHardState _, ⟨node.recorded.boot, node.recorded.snap⟩, node.image,
      node.voters, node.distinct, ?_, ?_, node.applied, ?_, by rintro ⟨⟩⟩
    · change (l.toState.campaigned i).term i = n.currentTerm + 1
      simp [State.campaigned, term]
    · change (l.toState.campaigned i).vote i (n.currentTerm + 1) = some n.id
      rw [vote, node.id]
    · exact (node.commit.mono evolves.extend evolves.reached).of_take later ( take_prefix _ _)
    · exact (node.base.mono evolves.extend evolves.reached).of_take later ( take_prefix _ _)
    · intro _
      have member : i ∈ n.voters := by
        rw [RaftNode.isVoter, decide_eq_true_eq, node.id] at voter
        exact voter
      refine ⟨?_, ?_, member, ?_, ?_⟩
      · change (l.toState.campaigned i).campaign i (n.currentTerm + 1) = some (l.log i)
        simp [State.campaigned, term]
      · intro b won
        have earlier := view.inv.campaignBound i _ b (view.inv.electedLog _ i b won).1
        rw [term] at earlier
        exact absurd earlier (Nat.not_succ_le_self _)
      · intro v self
        rw [Finset.mem_singleton.mp self]
        exact mem_toFinset.mpr (node.id ▸ member)
      · intro v self
        have only : v = i := (Finset.mem_singleton.mp self).trans node.id
        exact only ▸ vote
  · exact fun msg member => (view.sent msg member).mono evolves.extend evolves.reached

theorem View.startElection (voter : n.isVoter) : Reaches bootstrap scope l i n.startElection := by
  refine (view.campaign voter).bind (fun l' _ campaigning => ?_)
  rw [RaftNode.startElection]
  split
  · rename_i elected
    exact campaigning.becomeLeader rfl elected
  · refine View.reaches (campaigning.foldl (fun m p => m.send_core p _ _) ?_)
    intro m p _ current
    refine current.send ⟨l'.log i, ?_, campaigning.node.log.lastIndex, campaigning.node.lastLogTerm⟩
    exact (campaigning.node.candidate rfl).campaign

omit view in
theorem Justified.vote_refused (dest : NodeId) (term : Nat) :
    Justified bootstrap scope l ⟨i, dest, term, .requestVoteResp false⟩ := nofun

theorem View.handleRequestVote {sender dest : NodeId} {term candLastIndex candLastTerm : Nat}
    (justified : Justified bootstrap scope l ⟨sender, dest, term, .requestVote candLastIndex candLastTerm⟩)
    (current : term ≤ n.currentTerm) :
    Reaches bootstrap scope l i (n.handleRequestVote sender term candLastIndex candLastTerm) := by
  unfold RaftNode.handleRequestVote
  simp only
  split
  · rename_i granted
    obtain ⟨newer, canVote, logOk⟩ := granted
    simp only [decide_eq_true_eq] at canVote logOk
    obtain rfl : term = n.currentTerm := by omega
    obtain ⟨b, campaign, length, lastTerm⟩ := justified
    have node := view.node
    have nodeTerm := node.term
    simp only at campaign
    rw [node.lastLogTerm, node.log.lastIndex] at logOk
    have fresh : (raftRules bootstrap).UpToDate b (l.log i) := by
      rw [length, lastTerm] at logOk
      exact logOk.imp_right (fun tie => ⟨tie.1.symm, tie.2⟩)
    rw [← node.vote] at canVote
    rw [← nodeTerm] at campaign canVote
    have evolves : Evolves i l (l.become (l.toState.withVote i (l.term i) sender)) :=
      Evolves.granted view.inv canVote campaign fresh
    have voted : (l.toState.withVote i (l.term i) sender).vote i n.currentTerm = some sender := by
      simp [State.withVote, nodeTerm]
    have granted : View bootstrap scope (l.become (l.toState.withVote i (l.term i) sender)) i
        { n with votedFor := some sender }.persistHardState.resetElectionTimer := by
      refine ⟨(grant_sound view.inv canVote campaign fresh).preserves view.inv, view.regular, view.idle, ?_,
        fun msg member => (view.sent msg member).mono evolves.extend evolves.reached⟩
      refine ⟨node.id, rfl, node.term, voted, node.log.saveHardState _, ⟨node.recorded.boot, node.recorded.snap⟩,
        node.image, node.voters, node.distinct, node.commit.mono evolves.extend evolves.reached,
        node.base.mono evolves.extend evolves.reached, node.applied, ?_, ?_⟩
      · intro role
        obtain ⟨campaigning, unwon, voter, members, votes⟩ := node.candidate role
        exact ⟨campaigning, unwon, voter, members, fun v member => evolves.extend.vote v _ _ (votes v member)⟩
      · intro role
        obtain ⟨won, same, voter, matched, next, reached⟩ := node.leader role
        exact ⟨won, same, voter, matched, next, reached⟩
    exact ⟨_, evolves, granted.send (fun _ => voted)⟩
  · exact (view.send (Justified.vote_refused _ _)).reaches

theorem View.handleRequestVoteResp {sender : NodeId} {term : Nat} {granted : Bool}
    (justified : Justified bootstrap scope l ⟨sender, i, term, .requestVoteResp granted⟩) :
    Reaches bootstrap scope l i (n.handleRequestVoteResp sender term granted) := by
  unfold RaftNode.handleRequestVoteResp
  split
  · exact view.reaches
  rename_i relevant
  rw [not_or, not_not, not_not] at relevant
  obtain ⟨role, rfl⟩ := relevant
  split
  · rename_i counted
    obtain ⟨yes, member⟩ := counted
    have voted := justified yes
    have node := view.node
    have counted : View bootstrap scope l i { n with votes := insert sender n.votes } := by
      refine { view with node := { node with recorded := { node.recorded with }, candidate := ?_, leader := ?_ } }
      · intro _
        obtain ⟨campaigning, unwon, voter, members, votes⟩ := node.candidate role
        refine ⟨campaigning, unwon, voter, ?_, ?_⟩
        · exact Finset.insert_subset (mem_toFinset.mpr member) members
        · intro v among
          rcases Finset.mem_insert.mp among with rfl | old
          · exact voted
          · exact votes v old
      · intro bad
        rw [show n.role = .leader from bad] at role
        cases role
    simp only
    split
    · rename_i elected
      exact counted.becomeLeader role elected
    · exact counted.reaches
  · exact view.reaches

theorem View.handleTimeoutNow (term : Nat) : Reaches bootstrap scope l i (n.handleTimeoutNow term) := by
  unfold RaftNode.handleTimeoutNow
  split
  · exact view.reaches
  · rename_i eligible
    rw [not_or, not_not] at eligible
    exact view.startElection eligible.2

end

end Arcux.Raft
