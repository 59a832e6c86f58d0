import Arcux.Raft.Refinement.Relation

namespace Arcux.Raft

open Consensus List

variable {bootstrap : List NodeId} {scope : Scope} {l : Ledger NodeId Entry}
  {i : NodeId} {n : RaftNode}

namespace RaftNode

theorem checkTransfer_core (n : RaftNode) : n.checkTransfer.core = n.core := by
  unfold checkTransfer
  split
  · split <;> rfl
  · rfl

@[simp] theorem checkTransfer_messages (n : RaftNode) : n.checkTransfer.messages = n.messages := by
  unfold checkTransfer
  split
  · split <;> rfl
  · rfl

theorem advanceReads_core (n : RaftNode) : n.advanceReads.core = n.core := by
  unfold advanceReads
  split <;> rfl

@[simp] theorem advanceReads_messages (n : RaftNode) : n.advanceReads.messages = n.messages := by
  unfold advanceReads
  split <;> rfl

theorem maybeAdvanceCommit_role (n : RaftNode) : n.maybeAdvanceCommit.role = n.role := by
  unfold maybeAdvanceCommit
  split
  · exact congrArg Core.role (advanceReads_core _)
  · rfl

theorem send_core (n : RaftNode) (dest : NodeId) (term : Nat) (body : MessageBody) :
    (n.send dest term body).core = n.core := rfl

theorem sendAppend_core (n : RaftNode) (dest : NodeId) : (n.sendAppend dest).core = n.core := by
  simp only [sendAppend, sendSnapshot]
  split
  · split <;> rfl
  · rfl

theorem foldl_core {peers : List NodeId} {f : RaftNode → NodeId → RaftNode} (quiet : ∀ n p, (f n p).core = n.core) :
    (peers.foldl f n).core = n.core := by
  induction peers generalizing n with
  | nil => rfl
  | cons p peers ih => rw [foldl_cons, ih, quiet]

theorem broadcastAppend_core (n : RaftNode) : n.broadcastAppend.core = n.core := foldl_core sendAppend_core

end RaftNode

section

variable (view : View bootstrap scope l i n)

include view

theorem View.sendSnapshot (role : n.role = .leader) (dest : NodeId) :
    View bootstrap scope l i (n.sendSnapshot dest) := by
  obtain ⟨won, current, _⟩ := view.node.leader role
  unfold RaftNode.sendSnapshot
  split
  · exact view
  · rename_i snap found
    obtain ⟨positive, boundary⟩ := view.node.log.boundary snap found
    have base : n.storage.base = snap.lastIncludedIndex := by simp [MemStorage.base, found]
    have settled := view.node.base
    rw [current, base] at settled
    rw [current] at boundary
    have informed := view.node.recorded.snap snap found
    have faithful := view.node.image snap found
    rw [current] at informed faithful
    exact view.send ⟨won, positive, boundary, settled, informed, faithful⟩

theorem View.sendAppend (role : n.role = .leader) (dest : NodeId) : View bootstrap scope l i (n.sendAppend dest) := by
  obtain ⟨won, current, _, _, next, _⟩ := view.node.leader role
  have log := view.node.log
  have last := log.lastIndex
  have position : ∃ x, (n.nextIndex dest).getD (n.storage.lastIndex + 1) = x ∧ 0 < x ∧ x ≤ (l.log i).length + 1 := by
    cases tracked : n.nextIndex dest with
    | none => exact ⟨_, rfl, by simp, by simp [last]⟩
    | some x => exact ⟨x, rfl, next dest x tracked⟩
  obtain ⟨x, value, positive, bound⟩ := position
  simp only [RaftNode.sendAppend, value]
  split
  · exact view.sendSnapshot role dest
  · rename_i held
    rw [MemStorage.firstIndex] at held
    have slice : n.storage.entries x n.storage.lastIndex = (l.log i).drop (x - 1) := by
      rw [log.entries, last, take_length, Nat.max_eq_left (by omega)]
    have size : x - 1 + (n.storage.entries x n.storage.lastIndex).length = (l.log i).length := by
      rw [slice, length_drop]
      omega
    have committed := view.node.commit
    have short := committed.le_length
    refine view.send ⟨won, ?_, ?_, ?_, ?_, ?_⟩
    · rw [size, ← current]
    · rw [slice, ← current, take_length]
    · rw [log.term (by omega), ← current]
      cases known : termAt (l.log i) (x - 1) with
      | some t => rfl
      | none =>
        rw [termAt] at known
        split at known
        · cases known
        · rw [Option.map_eq_none_iff, getElem?_eq_none_iff] at known
          omega
    · rw [size]
      exact short
    · rw [current] at committed
      exact committed

theorem View.foldl {peers : List NodeId} {f : RaftNode → NodeId → RaftNode} (quiet : ∀ m p, (f m p).core = m.core)
    (keeps : ∀ m p, m.core = n.core → View bootstrap scope l i m → View bootstrap scope l i (f m p)) :
    View bootstrap scope l i (peers.foldl f n) := by
  suffices ∀ m, m.core = n.core → View bootstrap scope l i m → View bootstrap scope l i (peers.foldl f m) from
    this n rfl view
  induction peers with
  | nil => exact fun m _ view => view
  | cons p peers ih => exact fun m same view => ih (f m p) ((quiet m p).trans same) (keeps m p same view)

theorem View.broadcastAppend (role : n.role = .leader) : View bootstrap scope l i n.broadcastAppend :=
  view.foldl RaftNode.sendAppend_core (fun _ p same view => view.sendAppend ((congrArg Core.role same).trans role) p)

theorem View.advanceReads : View bootstrap scope l i n.advanceReads :=
  view.congr n.advanceReads_core n.advanceReads_messages

end

theorem commitScan_spec {from' index : Nat} (found : n.commitScan from' = some index) :
    index ≤ from' ∧ n.commitIndex < index ∧ n.storage.term index = some n.currentTerm ∧
      n.majority ≤ n.replicas index := by
  induction from' with
  | zero => cases found
  | succ k ih =>
    rw [RaftNode.commitScan] at found
    split at found
    · cases found
    split at found
    · rename_i above reached
      cases found
      exact ⟨Nat.le_refl _, by omega, reached.1, reached.2⟩
    · obtain ⟨bound, rest⟩ := ih found
      exact ⟨by omega, rest⟩

theorem termAt_split {log : List Entry} {k t : Nat} (positive : 0 < k) (known : termAt log k = some t) :
    k ≤ log.length ∧ ∃ prior e, log.take k = prior ++ [e] ∧ e.term = t := by
  obtain ⟨k, rfl⟩ := Nat.exists_eq_succ_of_ne_zero (Nat.ne_of_gt positive)
  rw [Nat.succ_eq_add_one, termAt_succ, Option.map_eq_some_iff] at known
  obtain ⟨e, found, rfl⟩ := known
  obtain ⟨bound, value⟩ := List.getElem?_eq_some_iff.mp found
  exact ⟨bound, log.take k, e, by rw [← value, List.take_append_getElem bound], rfl⟩

theorem Holds.base_le_of_term {storage : MemStorage} {k t : Nat} (positive : 0 < k)
    (known : storage.term k = some t) : storage.base ≤ k := by
  rw [MemStorage.term, if_neg (by omega)] at known
  split at known
  · omega
  split at known
  · cases known
  · omega

theorem View.committed (view : View bootstrap scope l i n) (role : n.role = .leader) {index : Nat}
    (found : n.commitScan n.storage.lastIndex = some index) :
    (raftRules bootstrap).Committed l.toState n.currentTerm index (l.lead n.currentTerm).length := by
  obtain ⟨bound, above, own, enough⟩ := commitScan_spec found
  obtain ⟨_, current, voter, matched, _, _⟩ := view.node.leader role
  have log := view.node.log
  rw [log.term (Holds.base_le_of_term (by omega) own), current] at own
  obtain ⟨short, prior, e, last, term⟩ := termAt_split (by omega) own
  refine ⟨short, Nat.le_refl _, ⟨prior, e, last, term⟩,
    n.voters.toFinset.filter (fun v => decide (index ≤ (n.matchIndex v).getD 0) = true), ?_, ?_⟩
  · rw [take_length, ← current, ← view.node.voters.config voter]
    exact majority_of_countP view.node.distinct enough
  · intro v member
    have reached := (Finset.mem_filter.mp member).2
    simp only [decide_eq_true_eq] at reached
    cases known : n.matchIndex v with
    | none =>
      rw [known, Option.getD_none] at reached
      omega
    | some m =>
      rw [known, Option.getD_some] at reached
      rcases matched v m known with zero | acked
      · omega
      · exact view.inv.ackDown v _ m index acked reached

theorem View.maybeAdvanceCommit (view : View bootstrap scope l i n) (role : n.role = .leader) :
    Reaches bootstrap scope l i n.maybeAdvanceCommit := by
  unfold RaftNode.maybeAdvanceCommit
  split
  · rename_i index found
    have committed := view.committed role found
    obtain ⟨_, above, _, _⟩ := commitScan_spec found
    obtain ⟨⟨b, won⟩, current, voter, matched, next, reached⟩ := view.node.leader role
    have evolves : Evolves i l (l.commits n.currentTerm index) := Evolves.commits won (by omega)
    refine ⟨_, evolves, View.advanceReads ⟨view.inv, view.regular, ?_, ?_, ?_⟩⟩
    · intro T vacant
      change l.winner T = none at vacant
      have elsewhere : T ≠ n.currentTerm := by
        rintro rfl
        rw [won] at vacant
        cases vacant
      exact (Function.update_of_ne elsewhere _ _).trans (view.idle T vacant)
    · have node := view.node
      refine ⟨node.id, node.hard, node.term, node.vote, node.log, ⟨node.recorded.boot, node.recorded.snap⟩,
        node.image, node.voters, node.distinct, ?_, node.base.mono evolves.extend evolves.reached, ?_, ?_, ?_⟩
      · refine .inr ⟨n.currentTerm, index, _, Nat.le_refl _, committed, ?_, Nat.le_refl _, ?_⟩
        · simp [Ledger.commits]
        · change (l.lead n.currentTerm).take index <+: l.log i
          rw [current]
          exact take_prefix _ _
      · have := node.applied
        simp only
        omega
      · intro bad
        rw [show n.role = .candidate from bad] at role
        cases role
      · intro _
        exact ⟨⟨b, won⟩, current, voter, matched, next, by simp [Ledger.commits]⟩
    · exact fun msg member => (view.sent msg member).mono evolves.extend evolves.reached
  · exact view.reaches

end Arcux.Raft
