import Arcux.Raft.Contiguity

namespace Arcux.Raft

open Codec

def Action.carries (action : Action) (i : Nat) (e : Entry) : Prop :=
  match action with
  | .deliver ⟨⟨_, _, _, .appendEntries _ _ entries _ _⟩, _⟩ => e ∈ entries ∧ e.index = i
  | _ => False

structure Keeps (n n' : RaftNode) : Prop where
  last : n.storage.lastIndex ≤ n'.storage.lastIndex
  held : ∀ i e, i ≤ n.storage.lastIndex → n'.storage.At i e → n.storage.At i e

namespace Keeps

variable {n n' n'' : RaftNode}

theorem trans (first : Keeps n n') (second : Keeps n' n'') : Keeps n n'' :=
  ⟨first.last.trans second.last,
    fun i e below held => first.held i e below (second.held i e (below.trans first.last) held)⟩

theorem of_body (same : n'.storage.body = n.storage.body) : Keeps n n' :=
  ⟨(MemStorage.lastIndex_of_body same).ge, fun _ _ _ => (MemStorage.at_of_body same).mp⟩

theorem refl (n : RaftNode) : Keeps n n := of_body rfl

theorem appendOwn (contiguous : n.storage.Contiguous) (entry : Entry) (next : entry.index = n.storage.lastIndex + 1) :
    Keeps n (n.appendOwn entry) := by
  refine ⟨?_, ?_⟩
  · have last := (contiguous.append_own next).lastIndex
    rw [contiguous.lastIndex]
    change _ ≤ (n.storage.append [entry]).lastIndex
    rw [last]
    simp [MemStorage.append, MemStorage.base]
  · intro i e below held
    rw [contiguous.lastIndex] at below
    rcases MemStorage.at_append.mp held with old | ⟨past, _⟩
    · exact old
    · omega

variable {index : Nat} {data : Bytes}

theorem of_proposal (accepted : n.propose data = .ok (n', index)) :
    Keeps (n.appendOwn (.normal n.currentTerm index data)) n' := by
  obtain ⟨_, _, rfl⟩ := RaftNode.propose_ok accepted
  refine of_body ?_
  rw [RaftNode.broadcastAppend_body, RaftNode.maybeAdvanceCommit_body]

theorem of_change {cc : ConfChange} (accepted : n.proposeConfChange cc = .ok (n', index)) :
    Keeps (n.appendOwn (n.changeEntry cc)) n' := by
  obtain ⟨_, _, _, _, rfl⟩ := RaftNode.proposeConfChange_ok accepted
  refine of_body ?_
  have tracked : ((n.appendOwn (n.changeEntry cc)).recomputeConf.trackMember cc).storage =
      (n.appendOwn (n.changeEntry cc)).recomputeConf.storage := by
    cases cc <;> rfl
  rw [RaftNode.broadcastAppend_body, RaftNode.maybeAdvanceCommit_body, tracked, RaftNode.recomputeConf_storage]

theorem propose (contiguous : n.storage.Contiguous) (accepted : n.propose data = .ok (n', index)) : Keeps n n' := by
  refine Keeps.trans (appendOwn contiguous _ ?_) (of_proposal accepted)
  exact (RaftNode.propose_ok accepted).2.1

theorem perform_propose (contiguous : n.storage.Contiguous) (i : NodeId) (data : Bytes) :
    Keeps n ((Action.propose i data).perform n) := by
  simp only [Action.perform]
  split
  · rename_i accepted
    exact propose contiguous accepted
  · exact refl n

theorem compact (contiguous : n.storage.Contiguous) (done : n.compact index data = some n') : Keeps n n' := by
  rcases RaftNode.compact_cases done with rfl | ⟨term, -, -, -, rfl⟩
  · exact refl _
  · refine ⟨?_, fun _ _ _ => MemStorage.at_compact⟩
    have compacted : (n.storage.compact index term (n.confAt index).1 (n.confAt index).2 data).Contiguous :=
      contiguous.of_at fun _ _ => MemStorage.at_compact
    have last := compacted.lastIndex
    rw [contiguous.lastIndex]
    simp only
    rw [last]
    unfold MemStorage.compact
    split
    · exact Nat.le_refl _
    · rw [List.length_drop]
      change _ ≤ index + _
      omega

theorem perform_compact (contiguous : n.storage.Contiguous) (i : NodeId) (index : Nat) (data : Bytes) :
    Keeps n ((Action.compact i index data).perform n) := by
  cases done : n.compact index data with
  | none =>
    rw [Action.perform, done]
    exact refl n
  | some n' =>
    rw [Action.perform, done]
    exact compact contiguous done

theorem move {action : Action} (tidy : n.Tidy)
    (light : ∀ envelope, action = .deliver envelope → ¬ envelope.message.body.replicates) (move : Move action n n') :
    Keeps n n' := by
  cases move with
  | quiet turn => exact of_body (congrArg Seats.body turn.seats)
  | answer => exact of_body rfl
  | sendAppend dest => exact of_body (n.sendAppend_body dest)
  | appendOwn next => exact appendOwn tidy.contiguous _ next
  | recomputeConf => exact of_body (congrArg MemStorage.body n.recomputeConf_storage)
  | splice role heard | install role heard => exact absurd rfl (light _ heard)
  | takeCommitted called =>
    unfold RaftNode.takeCommitted
    split <;> exact of_body rfl
  | takeSnapshot called => exact of_body rfl
  | compact called done => exact compact tidy.contiguous done
  | restart called => exact of_body (congrArg MemStorage.body (RaftNode.recomputeConf_storage _))

end Keeps

theorem handleInstallSnapshot_storage {n n' : RaftNode} {sender : NodeId} {term : Nat} {snap : Snapshot}
    (handled : n.handleInstallSnapshot sender term snap = n') :
    n'.storage = n.storage ∨ (n'.role = .follower ∧ n'.storage = n.storage.applySnapshot snap) := by
  unfold RaftNode.handleInstallSnapshot at handled
  simp only at handled
  split_ifs at handled
  · exact .inl (handled ▸ rfl)
  · exact .inl (handled ▸ rfl)
  · subst handled
    exact .inr ⟨congrArg Core.role (RaftNode.recomputeConf_core rfl), RaftNode.recomputeConf_storage _⟩

theorem step_effect {n : RaftNode} (tidy : n.Tidy) (envelope : Envelope)
    (replicates : envelope.message.body.replicates) (numbered : envelope.message.body.Numbered) :
    Keeps n (n.step envelope.message) ∨ ((n.step envelope.message).role ≠ .leader ∧
      ∀ i e, (n.step envelope.message).storage.At i e →
        n.storage.At i e ∨ (Action.deliver envelope).carries i e) := by
  obtain ⟨⟨sender, dest, term, body⟩, incarnation⟩ := envelope
  have same := n.adoptTerm_body ⟨sender, dest, term, body⟩
  have contiguous := tidy.contiguous.of_body same
  unfold RaftNode.step
  cases body with
  | appendEntries prevLogIndex prevLogTerm entries leaderCommit readRound =>
    rcases RaftNode.handleAppendEntries_storage contiguous rfl with kept | ⟨reach, role, spliced⟩
    · exact .inl (.of_body ((congrArg MemStorage.body kept).trans same))
    · refine .inr ⟨?_, ?_⟩
      · rw [role]
        nofun
      · intro i e held
        rw [spliced] at held
        rcases RaftNode.spliced_at contiguous numbered (by omega) held with old | fresh
        · exact .inl ((MemStorage.at_of_body same).mp old)
        · exact .inr fresh
  | installSnapshot lastIncludedIndex lastIncludedTerm confState learners data =>
    rcases handleInstallSnapshot_storage rfl with kept | ⟨role, installed⟩
    · exact .inl (.of_body ((congrArg MemStorage.body kept).trans same))
    · refine .inr ⟨?_, ?_⟩
      · rw [role]
        nofun
      · intro i e held
        rw [installed] at held
        exact absurd held MemStorage.at_applySnapshot
  | _ => cases replicates

theorem perform_effect {n : RaftNode} (tidy : n.Tidy) {action : Action}
    (numbered : ∀ envelope, action = .deliver envelope → envelope.message.body.Numbered) :
    Keeps n (action.perform n) ∨ ((action.perform n).role ≠ .leader ∧
      ∀ i e, (action.perform n).storage.At i e → n.storage.At i e ∨ action.carries i e) := by
  by_cases heard : ∃ envelope, action = .deliver envelope ∧ envelope.message.body.replicates
  · obtain ⟨envelope, rfl, replicates⟩ := heard
    exact step_effect tidy envelope replicates (numbered envelope rfl)
  · left
    have light : ∀ envelope, action = .deliver envelope → ¬ envelope.message.body.replicates :=
      fun envelope same replicates => heard ⟨envelope, same, replicates⟩
    have kept : (action.perform n).Tidy ∧ Keeps n (action.perform n) := by
      refine (Moves.perform n action).preserves (fun m => m.Tidy ∧ Keeps n m) ?_ ⟨tidy, .refl n⟩
      exact fun m m' move kept => ⟨kept.1.move numbered move, kept.2.trans (.move kept.1 light move)⟩
    exact kept.2

namespace RaftNode

/-- The checks that an append fails at, from its sender's term or from the node's log. -/
def refuses (n : RaftNode) (term prevLogIndex prevLogTerm : Nat) : Prop :=
  term < n.currentTerm ∨ (n.storage.firstIndex - 1 ≤ prevLogIndex ∧ n.storage.term prevLogIndex ≠ some prevLogTerm)
  deriving Decidable

theorem spliceEntries_commitIndex (n : RaftNode) (prevLogIndex : Nat) (entries : List Entry) :
    (n.spliceEntries prevLogIndex entries).commitIndex = n.commitIndex := by
  unfold spliceEntries
  split
  · simp only [recomputeConf, becomeFollower, Nat.lt_irrefl, if_false]
    split <;> exact congrArg Core.commitIndex (checkTransfer_core _)
  · rfl

theorem handleAppendEntries_commits {n : RaftNode} {sender : NodeId} {term prevLogIndex prevLogTerm : Nat}
    {entries : List Entry} {leaderCommit readRound : Nat}
    (commits : n.commitIndex <
      (n.handleAppendEntries sender term prevLogIndex prevLogTerm entries leaderCommit readRound).commitIndex) :
    ¬n.refuses term prevLogIndex prevLogTerm ∧
      (n.handleAppendEntries sender term prevLogIndex prevLogTerm entries leaderCommit readRound).commitIndex ≤
        leaderCommit := by
  unfold handleAppendEntries at commits ⊢
  simp only at commits ⊢
  split_ifs at commits ⊢ with stale covered mismatch
  · exact absurd commits (Nat.lt_irrefl _)
  · exact absurd commits (Nat.lt_irrefl _)
  · exact absurd commits (Nat.lt_irrefl _)
  · refine ⟨not_or.mpr ⟨stale, mismatch⟩, ?_⟩
    simp only [send, learnCommit, spliceEntries_commitIndex] at commits ⊢
    split at commits
    · rename_i behind
      rw [if_pos behind]
      exact Nat.min_le_left ..
    · exact absurd commits (Nat.lt_irrefl _)

theorem step_commits {n : RaftNode} {sender dest : NodeId} {term prevLogIndex prevLogTerm : Nat} {entries : List Entry}
    {leaderCommit readRound index : Nat} (new : n.commitIndex < index)
    (commits : index ≤
      (n.step ⟨sender, dest, term, .appendEntries prevLogIndex prevLogTerm entries leaderCommit readRound⟩).commitIndex) :
    ¬n.refuses term prevLogIndex prevLogTerm ∧ index ≤ leaderCommit := by
  generalize made : (⟨sender, dest, term, .appendEntries prevLogIndex prevLogTerm entries leaderCommit readRound⟩ :
    Message) = msg at commits
  have same : (n.adoptTerm msg).commitIndex = n.commitIndex := by
    unfold adoptTerm becomeFollower
    split <;> rfl
  subst made
  obtain ⟨taken, bound⟩ := handleAppendEntries_commits (same.trans_lt (new.trans_le commits))
  refine ⟨fun refused => taken ?_, commits.trans bound⟩
  unfold adoptTerm becomeFollower
  split
  · rename_i newer
    exact .inr (refused.resolve_left newer.not_gt)
  · exact refused

end RaftNode

end Arcux.Raft
