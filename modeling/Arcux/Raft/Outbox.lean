import Arcux.Raft.Cluster

namespace Arcux.Raft

open Codec List

namespace RaftNode

def after (n : RaftNode) (earlier : List Message) : RaftNode := { n with messages := earlier ++ n.messages }

variable (n : RaftNode) (earlier : List Message)

theorem takeMessages_after : n.takeMessages.1.after n.messages = n := by
  simp [takeMessages, after]

theorem sendAppend_after (dest : NodeId) : (n.after earlier).sendAppend dest = (n.sendAppend dest).after earlier := by
  by_cases behind : (n.nextIndex dest).getD (n.storage.lastIndex + 1) < n.storage.firstIndex
  · cases snapshot : n.storage.snap <;> simp [sendAppend, sendSnapshot, after, send, behind, snapshot]
  · simp [sendAppend, after, send, behind]

theorem broadcastAppend_after : (n.after earlier).broadcastAppend = n.broadcastAppend.after earlier := by
  unfold broadcastAppend
  change n.replicationPeers.foldl sendAppend (n.after earlier) = _
  generalize n.replicationPeers = peers
  induction peers generalizing n with
  | nil => rfl
  | cons peer rest ih =>
    rw [foldl_cons, foldl_cons, sendAppend_after]
    exact ih _

theorem advanceReads_after : (n.after earlier).advanceReads = n.advanceReads.after earlier := by
  unfold advanceReads
  split_ifs <;> first | rfl | contradiction

theorem commitScan_after (index : Nat) : (n.after earlier).commitScan index = n.commitScan index := by
  induction index with
  | zero => rfl
  | succ index ih =>
    rw [commitScan, commitScan, ih]
    rfl

theorem maybeAdvanceCommit_after : (n.after earlier).maybeAdvanceCommit = n.maybeAdvanceCommit.after earlier := by
  have scan : (n.after earlier).commitScan (n.after earlier).storage.lastIndex = n.commitScan n.storage.lastIndex :=
    n.commitScan_after earlier _
  unfold maybeAdvanceCommit
  rw [scan]
  cases n.commitScan n.storage.lastIndex with
  | none => rfl
  | some index => exact advanceReads_after { n with commitIndex := index } earlier

theorem propose_after (data : Bytes) :
    (n.after earlier).propose data = (n.propose data).map (fun result => (result.1.after earlier, result.2)) := by
  unfold propose
  by_cases role : n.role = .leader
  · by_cases moving : n.transferTarget.isSome
    · simp [after, role, moving, Except.map]
    · have appended : ∀ entry, (n.after earlier).appendOwn entry = (n.appendOwn entry).after earlier := fun _ => rfl
      have passed : ¬ (n.after earlier).transferTarget.isSome := moving
      have leads : ¬ (n.after earlier).role ≠ .leader := fun other => other role
      rw [if_neg leads, if_neg passed, if_neg (not_not.mpr role), if_neg moving]
      simp only [appended, maybeAdvanceCommit_after, broadcastAppend_after, Except.map]
      rfl
  · simp [after, role, Except.map]

theorem sendAppend_requests {n : RaftNode} (requests : ∀ msg ∈ n.messages, ¬ msg.body.isResponse) (dest : NodeId) :
    ∀ msg ∈ (n.sendAppend dest).messages, ¬ msg.body.isResponse := by
  unfold sendAppend sendSnapshot
  simp only
  split
  · split
    · exact requests
    · simpa [send, MessageBody.isResponse, or_imp, forall_and] using requests
  · simpa [send, MessageBody.isResponse, or_imp, forall_and] using requests

theorem propose_requests {n n' : RaftNode} {data : Bytes} {index : Nat}
    (requests : ∀ msg ∈ n.messages, ¬ msg.body.isResponse) (accepted : n.propose data = .ok (n', index)) :
    ∀ msg ∈ n'.messages, ¬ msg.body.isResponse := by
  obtain ⟨_, _, rfl⟩ := propose_ok accepted
  have advanced : ∀ m : RaftNode, m.maybeAdvanceCommit.messages = m.messages := by
    intro m
    unfold maybeAdvanceCommit advanceReads
    split
    · split <;> rfl
    · rfl
  have started : ∀ msg ∈ (n.appendOwn (.normal n.currentTerm index data)).maybeAdvanceCommit.messages,
      ¬ msg.body.isResponse := by
    rw [advanced]
    exact requests
  unfold broadcastAppend
  generalize (n.appendOwn (.normal n.currentTerm index data)).maybeAdvanceCommit = m at started
  generalize m.replicationPeers = peers
  induction peers generalizing m with
  | nil => exact started
  | cons peer rest ih => exact ih (m.sendAppend peer) (sendAppend_requests started peer)

theorem perform_propose_requests {n : RaftNode} (i : NodeId) (data : Bytes) (empty : n.messages = []) :
    ∀ msg ∈ ((Action.propose i data).perform n).messages, ¬ msg.body.isResponse := by
  have requests : ∀ msg ∈ n.messages, ¬ msg.body.isResponse := by
    rw [empty]
    exact forall_mem_nil _
  simp only [Action.perform]
  split
  · rename_i accepted
    exact propose_requests requests accepted
  · exact requests

theorem takeMessages_self {n : RaftNode} (empty : n.messages = []) : n.takeMessages.1 = n := by
  cases n
  cases empty
  rfl

theorem perform_propose_after (i : NodeId) (data : Bytes) :
    (Action.propose i data).perform (n.after earlier) = ((Action.propose i data).perform n).after earlier := by
  simp only [Action.perform, propose_after]
  cases n.propose data <;> rfl

end RaftNode

namespace Cluster

def put (s : Cluster) (i : NodeId) (n : RaftNode) (sent : List Envelope) : Cluster :=
  { s with nodes := Function.update s.nodes i n, net := s.net ++ sent }

@[simp] theorem put_nodes (s : Cluster) (i : NodeId) (n : RaftNode) (sent : List Envelope) :
    (s.put i n sent).nodes i = n :=
  Function.update_self _ _ _

@[simp] theorem put_put (s : Cluster) (i : NodeId) (n m : RaftNode) (sent sent' : List Envelope) :
    (s.put i n sent).put i m sent' = s.put i m (sent ++ sent') := by
  simp [put]

variable {s : Cluster} {action : Action}

theorem exec_put (enabled : s.enabled action) (running : ∀ i cfg, action ≠ .restart i cfg) :
    s.exec action = s.put action.node (action.perform (s.nodes action.node)).takeMessages.1
      ((action.perform (s.nodes action.node)).messages.map (s.tag action)) := by
  unfold exec sends put
  rw [if_pos enabled, if_pos enabled]
  cases action with
  | restart i cfg => exact absurd rfl (running i cfg)
  | _ => rfl

variable {n : RaftNode} {i : NodeId}

theorem put_exec {sent : List Envelope} (action : Action)
    (node : action.node = i) (enabled : (s.put i n sent).enabled action) (running : ∀ i cfg, action ≠ .restart i cfg)
    (quiet : (action.perform n).messages = []) : (s.put i n sent).exec action = s.put i (action.perform n) sent := by
  subst node
  rw [exec_put enabled running, put_nodes, RaftNode.takeMessages_self quiet, quiet, map_nil, put_put,
    append_nil]

theorem tag_request (s : Cluster) (action : Action) {msg : Message} (request : ¬ msg.body.isResponse) :
    s.tag action msg = ⟨msg, s.incarnation action.node⟩ := by
  unfold tag
  split
  · rw [if_neg request]
  · rfl

theorem exec_propose {data : Bytes} (enabled : s.enabled action) (running : ∀ i cfg, action ≠ .restart i cfg)
    (node : action.node = i) (performed : (Action.propose i data).perform (action.perform (s.nodes i)) = n) :
    (s.exec action).exec (.propose i data) = s.put i n.takeMessages.1 (n.messages.map (s.tag action)) := by
  subst node
  have first := exec_put enabled running
  generalize action.perform (s.nodes action.node) = m at performed first
  rw [← m.takeMessages_after, RaftNode.perform_propose_after] at performed
  subst performed
  rw [first, exec_put rfl (by rintro _ _ ⟨⟩), Action.node, put_nodes, put_put]
  have requests := RaftNode.perform_propose_requests action.node data (n := m.takeMessages.1) rfl
  have tagged : ∀ msg ∈ ((Action.propose action.node data).perform m.takeMessages.1).messages,
      (s.put action.node m.takeMessages.1 (m.messages.map (s.tag action))).tag (.propose action.node data) msg =
        s.tag action msg :=
    fun msg member => (s.tag_request action (requests msg member)).symm
  rw [map_congr_left tagged, ← map_append]
  rfl

end Cluster

end Arcux.Raft
