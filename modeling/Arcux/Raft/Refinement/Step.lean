import Arcux.Raft.Frame
import Arcux.Raft.Refinement.Election

namespace Arcux.Raft

open Consensus

variable {bootstrap : List NodeId} {scope : Scope} {l : Ledger NodeId Entry}
  {i : NodeId} {n : RaftNode}

section

variable (view : View bootstrap scope l i n)

include view

theorem View.progress (role : n.role = .leader) {matchIndex nextIndex : NodeId → Option Nat}
    (matched : ∀ v m, matchIndex v = some m → m = 0 ∨ l.acked v n.currentTerm m)
    (next : ∀ v x, nextIndex v = some x → 0 < x ∧ x ≤ (l.log i).length + 1) :
    View bootstrap scope l i { n with matchIndex := matchIndex, nextIndex := nextIndex } := by
  have node := view.node
  refine { view with node := { node with recorded := { node.recorded with }, candidate := ?_, leader := ?_ } }
  · intro bad
    rw [show n.role = .candidate from bad] at role
    cases role
  · intro _
    obtain ⟨won, current, voter, _, _, reached⟩ := node.leader role
    exact ⟨won, current, voter, matched, next, reached⟩

variable {peer : NodeId} {m : Nat}

theorem View.matched_update (role : n.role = .leader)
    (acked : m = 0 ∨ l.acked peer n.currentTerm m) (v : NodeId) (k : Nat)
    (found : Function.update n.matchIndex peer (some m) v = some k) : k = 0 ∨ l.acked v n.currentTerm k := by
  by_cases same : v = peer
  · subst same
    rw [Function.update_self, Option.some.injEq] at found
    exact found ▸ acked
  · rw [Function.update_of_ne same] at found
    exact (view.node.leader role).matched v k found

theorem View.next_update (role : n.role = .leader) {x : Nat} (range : 0 < x ∧ x ≤ (l.log i).length + 1) (v : NodeId)
    (k : Nat) (found : Function.update n.nextIndex peer (some x) v = some k) : 0 < k ∧ k ≤ (l.log i).length + 1 := by
  by_cases same : v = peer
  · subst same
    rw [Function.update_self, Option.some.injEq] at found
    exact found ▸ range
  · rw [Function.update_of_ne same] at found
    exact (view.node.leader role).next v k found

theorem View.acked_bound (role : n.role = .leader)
    (acked : m = 0 ∨ l.acked peer n.currentTerm m) : m ≤ (l.log i).length := by
  rcases acked with rfl | acked
  · exact Nat.zero_le _
  · rw [(view.node.leader role).current]
    exact (view.inv.ackBound peer _ m acked).2

theorem View.recordMatch (role : n.role = .leader) {sender : NodeId}
    {matchIndex : Nat} (acked : matchIndex = 0 ∨ l.acked sender n.currentTerm matchIndex) :
    Reaches bootstrap scope l i (n.recordMatch sender matchIndex) := by
  have best : max matchIndex ((n.matchIndex sender).getD 0) = 0 ∨
      l.acked sender n.currentTerm (max matchIndex ((n.matchIndex sender).getD 0)) := by
    rcases Nat.le_total matchIndex ((n.matchIndex sender).getD 0) with less | more
    · rw [Nat.max_eq_right less]
      cases known : n.matchIndex sender with
      | none => exact .inl rfl
      | some m => exact (view.node.leader role).matched sender m known
    · rw [Nat.max_eq_left more]
      exact acked
  have bound := view.acked_bound role best
  exact (view.progress role (view.matched_update role best)
    (view.next_update role ⟨Nat.succ_pos _, by omega⟩)).maybeAdvanceCommit role

theorem View.fireTimeoutNow (target : NodeId) : View bootstrap scope l i (n.fireTimeoutNow target) :=
  (view.send trivial : View bootstrap scope l i (n.send target n.currentTerm .timeoutNow)).congr rfl rfl

variable {sender dest : NodeId}

theorem View.handleAppendResp {term matchIndex readRound : Nat} {success : Bool}
    (justified : Justified bootstrap scope l ⟨sender, dest, term, .appendEntriesResp success matchIndex readRound⟩) :
    Reaches bootstrap scope l i (n.handleAppendResp sender term success matchIndex readRound) := by
  unfold RaftNode.handleAppendResp
  split
  · exact view.reaches
  rename_i relevant
  rw [not_or, not_not, not_not] at relevant
  obtain ⟨role, rfl⟩ := relevant
  have heard : View bootstrap scope l i { n with
      recentActive := insert sender n.recentActive
      ackedRound := Function.update n.ackedRound sender (some (max ((n.ackedRound sender).getD 0) readRound)) } :=
    view.congr rfl rfl
  simp only
  split
  · rename_i yes
    refine (heard.recordMatch role (.inr (justified yes))).map (fun l' recorded => View.advanceReads ?_)
    split
    · exact recorded.fireTimeoutNow sender
    · exact recorded
  · have range : 0 < max ((n.nextIndex sender).getD 1 - 1) 1 ∧
        max ((n.nextIndex sender).getD 1 - 1) 1 ≤ (l.log i).length + 1 := by
      cases known : n.nextIndex sender with
      | none => simp
      | some x =>
        have := (view.node.leader role).next sender x known
        simp only [Option.getD_some]
        omega
    exact ((heard.progress role (heard.node.leader role).matched (heard.next_update role range)).sendAppend role
      sender).advanceReads.reaches

theorem View.handleInstallSnapshotResp {term matchIndex : Nat}
    (justified : Justified bootstrap scope l ⟨sender, dest, term, .installSnapshotResp matchIndex⟩) :
    Reaches bootstrap scope l i (n.handleInstallSnapshotResp sender term matchIndex) := by
  unfold RaftNode.handleInstallSnapshotResp
  split
  · exact view.reaches
  rename_i relevant
  rw [not_or, not_not, not_not] at relevant
  obtain ⟨role, rfl⟩ := relevant
  have heard : View bootstrap scope l i { n with recentActive := insert sender n.recentActive } :=
    view.congr rfl rfl
  exact heard.recordMatch role justified

end

namespace RaftNode

def safeInstall (n : RaftNode) (msg : Message) : Bool :=
  match msg.body with
  | .installSnapshot lastIncludedIndex lastIncludedTerm _ _ _ =>
    msg.term < n.currentTerm ∨ lastIncludedIndex ≤ n.commitIndex ∨
      n.storage.supersededBy lastIncludedIndex lastIncludedTerm
  | _ => true

theorem adoptTerm_frame (n : RaftNode) (msg : Message) :
    n.currentTerm ≤ (n.adoptTerm msg).currentTerm ∧ msg.term ≤ (n.adoptTerm msg).currentTerm ∧
      (n.adoptTerm msg).commitIndex = n.commitIndex := by
  unfold adoptTerm becomeFollower
  split
  · rename_i newer
    exact ⟨newer.le, Nat.le_refl _, rfl⟩
  · rename_i known
    exact ⟨Nat.le_refl _, Nat.le_of_not_lt known, rfl⟩

end RaftNode

theorem View.adoptTerm (view : View bootstrap scope l i n) (msg : Message) :
    Reaches bootstrap scope l i (n.adoptTerm msg) := by
  unfold RaftNode.adoptTerm
  split
  · rename_i newer
    exact view.becomeFollower newer.le _
  · exact view.reaches

theorem View.step (view : View bootstrap scope l i n) {msg : Message} (justified : Justified bootstrap scope l msg)
    (dest : msg.dest = i) (safe : n.safeInstall msg) : Reaches bootstrap scope l i (n.step msg) := by
  refine (view.adoptTerm msg).bind (fun l' evolves adopted => ?_)
  have backed := justified.mono evolves.extend evolves.reached
  obtain ⟨newer, current, commit⟩ := n.adoptTerm_frame msg
  have kept := n.adoptTerm_body msg
  unfold RaftNode.step
  obtain ⟨sender, dest', term, body⟩ := msg
  subst dest
  cases body with
  | requestVote lastLogIndex lastLogTerm => exact adopted.handleRequestVote backed current
  | requestVoteResp granted => exact adopted.handleRequestVoteResp backed
  | appendEntries prevLogIndex prevLogTerm entries leaderCommit readRound =>
    exact adopted.handleAppendEntries backed current
  | appendEntriesResp success matchIndex readRound => exact adopted.handleAppendResp backed
  | installSnapshot lastIncludedIndex lastIncludedTerm confState learners data =>
    refine adopted.handleInstallSnapshot ⟨lastIncludedIndex, lastIncludedTerm, confState, learners, data⟩ backed
      current ?_
    intro latest above
    simp only [RaftNode.safeInstall, decide_eq_true_eq] at safe
    rw [commit] at above
    rw [MemStorage.supersededBy_of_body kept]
    rcases safe with stale | known | superseded
    · exact absurd (Nat.le_trans newer latest) (Nat.not_le_of_lt stale)
    · exact absurd above (Nat.not_lt_of_le known)
    · exact superseded
  | installSnapshotResp matchIndex => exact adopted.handleInstallSnapshotResp backed
  | timeoutNow => exact adopted.handleTimeoutNow term

end Arcux.Raft
