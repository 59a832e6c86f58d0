import Arcux.Raft.Refinement.Calls

namespace Arcux.Raft

open Consensus List

variable {bootstrap : List NodeId} {scope : Scope} {l : Ledger NodeId Entry}
  {i : NodeId} {n : RaftNode}

theorem applyConfChange_near (voters learners : List NodeId) (cc : ConfChange) :
    Near voters.toFinset (applyConfChange voters learners cc).1.toFinset := by
  cases cc with
  | addNode id =>
    simp only [applyConfChange]
    split
    · exact Near.refl _
    · have gone : voters.toFinset \ (voters ++ [id]).toFinset = ∅ := by
        ext v
        simp +contextual
      have added : (voters ++ [id]).toFinset \ voters.toFinset ⊆ {id} := by
        intro v member
        simp only [Finset.mem_sdiff, mem_toFinset, mem_append, mem_singleton] at member
        exact Finset.mem_singleton.mpr (member.1.resolve_left member.2)
      have := Finset.card_le_card added
      rw [Near, gone, Finset.card_empty]
      simpa using this
  | removeNode id =>
    have gone : voters.toFinset \ (voters.filter (· ≠ id)).toFinset ⊆ {id} := by
      intro v member
      simp only [Finset.mem_sdiff, mem_toFinset, mem_filter, decide_eq_true_eq, not_and, not_not] at member
      exact Finset.mem_singleton.mpr (member.2 member.1)
    have added : (voters.filter (· ≠ id)).toFinset \ voters.toFinset = ∅ := by
      ext v
      simp +contextual
    have := Finset.card_le_card gone
    simp only [applyConfChange]
    rw [Near, added, Finset.card_empty]
    simpa using this
  | addLearner id => exact Near.refl _

variable {voters learners : List NodeId} {cc : ConfChange}

theorem applyConfChange_keeps {id : NodeId} (member : id ∈ voters)
    (stays : cc ≠ .removeNode id) : id ∈ (applyConfChange voters learners cc).1 := by
  cases cc with
  | addNode other =>
    simp only [applyConfChange]
    split
    · exact member
    · exact mem_append_left _ member
  | removeNode other =>
    refine mem_filter.mpr ⟨member, ?_⟩
    have : id ≠ other := fun same => stays (same ▸ rfl)
    simpa using this
  | addLearner other => exact member

theorem applyConfChange_length (voters learners : List NodeId) (cc : ConfChange) :
    (applyConfChange voters learners cc).1.length ≤ voters.length + 1 ∧
      (applyConfChange voters learners cc).2.length ≤ learners.length + 1 := by
  cases cc with
  | addNode id =>
    have := length_filter_le (· ≠ id) learners
    simp only [applyConfChange]
    split
    · omega
    · simp only [length_append, length_singleton]
      omega
  | removeNode id =>
    have := length_filter_le (· ≠ id) voters
    have := length_filter_le (· ≠ id) learners
    simp only [applyConfChange]
    omega
  | addLearner id =>
    simp only [applyConfChange]
    split <;> simp

theorem foldConf_change (start : List NodeId × List NodeId) (log : List Entry) (term index : Nat) (cc : ConfChange)
    (small : voters.length < 2 ^ 32) (small' : learners.length < 2 ^ 32) :
    foldConf start (log ++ [⟨term, index, .confChange, cc.encode voters learners⟩]) = (voters, learners) := by
  simp [foldConf, cc.decode_encode small small']

def RaftNode.ownCommit (n : RaftNode) : Bool := n.storage.term n.commitIndex = some n.currentTerm

theorem View.own_committed (view : View bootstrap scope l i n) (role : n.role = .leader) (own : n.ownCommit) :
    n.storage.base ≤ n.commitIndex ∧ ∃ k m, (raftRules bootstrap).Committed l.toState n.currentTerm k m ∧
      n.commitIndex ≤ k := by
  have node := view.node
  obtain ⟨⟨b, won⟩, current, _⟩ := node.leader role
  have positive := (view.inv.campaignLog _ _ _ (view.inv.electedLog _ _ _ won).1).1
  rw [RaftNode.ownCommit, decide_eq_true_eq] at own
  have nonzero : 0 < n.commitIndex := by
    rcases Nat.eq_zero_or_pos n.commitIndex with zero | some
    · rw [zero, MemStorage.term, if_pos rfl, Option.some.injEq] at own
      omega
    · exact some
  have above := Holds.base_le_of_term nonzero own
  rw [node.log.term above] at own
  refine ⟨above, ?_⟩
  rcases node.commit with zero | ⟨U, k, m, older, committed, _, below, inside⟩
  · omega
  · suffices same : U = n.currentTerm from ⟨k, m, same ▸ committed, below⟩
    refine Nat.le_antisymm older ?_
    have short : n.commitIndex ≤ ((l.lead U).take n.commitIndex).length := by
      rw [length_take]
      have := committed.le_length
      omega
    rw [termAt_of_part inside short] at own
    obtain ⟨_, prior, e, split, term⟩ := termAt_split nonzero own
    have member : e ∈ l.lead U := by
      have inTake : e ∈ ((l.lead U).take n.commitIndex).take n.commitIndex := by simp [split]
      exact mem_of_mem_take (mem_of_mem_take inTake)
    exact term ▸ view.inv.leadTerms U e member

theorem View.quiet_tail (view : View bootstrap scope l i n) (none : n.hasPendingConfChange = false)
    (above : n.storage.base ≤ n.commitIndex) : ∀ x ∈ (l.log i).drop n.commitIndex, x.entryType ≠ .confChange := by
  intro x member change
  rw [RaftNode.hasPendingConfChange, view.node.log.entries, view.node.log.lastIndex, take_length,
    MemStorage.firstIndex, any_eq_false] at none
  have position : max (max (n.commitIndex + 1) (n.storage.base + 1)) (n.storage.base + 1) - 1 = n.commitIndex := by
    omega
  rw [position] at none
  exact none x member (by simpa using change)

theorem View.disciplined (view : View bootstrap scope l i n) (role : n.role = .leader) (own : n.ownCommit)
    (none : n.hasPendingConfChange = false) {e : Entry}
    (near : Near ((raftRules bootstrap).config (l.log i)) ((raftRules bootstrap).config (l.log i ++ [e]))) :
    (raftRules bootstrap).Disciplined l.toState n.currentTerm (l.lead n.currentTerm) e := by
  obtain ⟨above, k, m, committed, reached⟩ := view.own_committed role own
  have current := (view.node.leader role).current
  have quiet := view.quiet_tail none above
  rw [current] at quiet near
  refine ⟨⟨k, m, committed, committed.2.1, ?_⟩, near⟩
  intro x member
  refine quiet x ?_
  rw [← Nat.add_sub_cancel' reached, ← drop_drop] at member
  exact mem_of_mem_drop member

namespace RaftNode

theorem recomputeConf_voter_core (voter : n.id ∈ (n.confAt n.storage.lastIndex).1) :
    n.recomputeConf.core = { n with voters := (n.confAt n.storage.lastIndex).1 }.core := by
  have checked := (n.adoptConf (n.confAt n.storage.lastIndex)).checkTransfer_core
  have isVoter : (n.adoptConf (n.confAt n.storage.lastIndex)).checkTransfer.isVoter := by
    rw [RaftNode.isVoter, show (n.adoptConf _).checkTransfer.id = n.id from congrArg Core.id checked,
      show (n.adoptConf _).checkTransfer.voters = _ from congrArg Core.voters checked]
    exact decide_eq_true voter
  rw [recomputeConf, if_neg (by simp [isVoter])]
  exact checked

end RaftNode

theorem View.trackMember (view : View bootstrap scope l i n) (role : n.role = .leader) (cc : ConfChange) :
    View bootstrap scope l i (n.trackMember cc) := by
  have leads := view.node.leader role
  have tracked : ∀ id, View bootstrap scope l i { n with
      matchIndex := Function.update n.matchIndex id (some ((n.matchIndex id).getD 0))
      nextIndex := Function.update n.nextIndex id (some ((n.nextIndex id).getD 1)) } := by
    intro id
    refine view.progress role (view.matched_update role ?_) (view.next_update role ?_)
    · cases known : n.matchIndex id with
      | none => exact .inl rfl
      | some m => exact leads.matched id m known
    · cases known : n.nextIndex id with
      | none => simp
      | some x => exact leads.next id x known
  cases cc with
  | addNode id => exact tracked id
  | addLearner id => exact tracked id
  | removeNode id => exact view

theorem View.appendChange (view : View bootstrap scope l i n) (changes : ¬ scope.fixed) (role : n.role = .leader)
    (own : n.ownCommit) (none : n.hasPendingConfChange = false) (stays : cc ≠ .removeNode n.id)
    (small : n.voters.length + 1 < 2 ^ 32) (small' : n.learners.length + 1 < 2 ^ 32) :
    Reaches bootstrap scope l i (n.appendOwn (n.changeEntry cc)).recomputeConf ∧
      (n.appendOwn (n.changeEntry cc)).recomputeConf.role = .leader := by
  have node := view.node
  have voter := (node.leader role).voter
  obtain ⟨size, size'⟩ := applyConfChange_length n.voters n.learners cc
  have fits : (sortDedup (applyConfChange n.voters n.learners cc).1).length < 2 ^ 32 :=
    (sortDedup_length_le _).trans_lt (size.trans_lt small)
  have fits' : (sortDedup (applyConfChange n.voters n.learners cc).2).length < 2 ^ 32 :=
    (sortDedup_length_le _).trans_lt (size'.trans_lt small')
  have change : ∀ start log, foldConf start (log ++ [n.changeEntry cc]) =
      (sortDedup (applyConfChange n.voters n.learners cc).1, sortDedup (applyConfChange n.voters n.learners cc).2) :=
    fun start log => foldConf_change start log n.currentTerm (n.storage.lastIndex + 1) cc fits fits'
  have term : (n.changeEntry cc).term = n.currentTerm := rfl
  have index : (n.changeEntry cc).index = n.storage.lastIndex + 1 := rfl
  generalize n.changeEntry cc = e at change term index
  have config : (raftRules bootstrap).config (l.log i ++ [e]) =
      (applyConfChange n.voters n.learners cc).1.toFinset := by
    simp only [raftRules, change, sortDedup_toFinset]
  have near : Near ((raftRules bootstrap).config (l.log i)) ((raftRules bootstrap).config (l.log i ++ [e])) := by
    rw [config, ← node.voters.config voter]
    exact applyConfChange_near _ _ _
  have indexed : Indexed (l.log i ++ [e]) :=
    node.log.indexed.concat (by rw [index, node.log.lastIndex])
  have holds := node.log.append indexed
  have recomputed : ((n.appendOwn e).confAt (n.appendOwn e).storage.lastIndex).1 =
      sortDedup (sortDedup (applyConfChange n.voters n.learners cc).1) := by
    have entries : (n.appendOwn e).storage.entries (n.appendOwn e).storage.firstIndex
        (n.appendOwn e).storage.lastIndex = (l.log i).drop n.storage.base ++ [e] := by
      rw [show (n.appendOwn e).storage = n.storage.append [e] from rfl, holds.entries, holds.lastIndex,
        take_length, MemStorage.firstIndex, Nat.max_self, Nat.add_sub_cancel]
      exact drop_append_of_le_length node.log.base_le
    simp only [RaftNode.confAt, entries, change]
  have member : i ∈ ((n.appendOwn e).confAt (n.appendOwn e).storage.lastIndex).1 := by
    rw [recomputed, mem_sortDedup, mem_sortDedup]
    exact applyConfChange_keeps voter (node.id ▸ stays)
  have informed : Informed bootstrap ((n.appendOwn e).confAt (n.appendOwn e).storage.lastIndex).1 (l.log i ++ [e]) := by
    refine .inr ?_
    rw [recomputed, config, sortDedup_toFinset, sortDedup_toFinset]
  obtain ⟨l', evolves, view'⟩ := view.appendOwn role term index (fun fixed => absurd fixed changes)
    (fun _ => view.disciplined role own none near) informed (confAt_nodup _ _) member
  have settled := RaftNode.recomputeConf_voter_core (show (n.appendOwn e).id ∈ _ from node.id.symm ▸ member)
  exact ⟨⟨l', evolves, view'.congr settled (RaftNode.recomputeConf_messages _)⟩,
    (congrArg Core.role settled).trans role⟩

theorem View.proposeConfChange (view : View bootstrap scope l i n) (changes : ¬ scope.fixed)
    {n' : RaftNode} {index : Nat} (accepted : n.proposeConfChange cc = .ok (n', index)) (own : n.ownCommit)
    (small : n.voters.length + 1 < 2 ^ 32) (small' : n.learners.length + 1 < 2 ^ 32) :
    Reaches bootstrap scope l i n' := by
  obtain ⟨role, none, stays, _, rfl⟩ := RaftNode.proposeConfChange_ok accepted
  obtain ⟨appended, leading⟩ := view.appendChange changes role own none stays small small'
  refine appended.bind (fun l' _ appended => ?_)
  have leading' : ((n.appendOwn (n.changeEntry cc)).recomputeConf.trackMember cc).role = .leader := by
    cases cc <;> exact leading
  refine ((appended.trackMember leading cc).maybeAdvanceCommit leading').map (fun l'' advanced => ?_)
  exact advanced.broadcastAppend ((RaftNode.maybeAdvanceCommit_role _).trans leading')

end Arcux.Raft
