import Arcux.Raft.Refinement.Reconfiguration
import Arcux.Raft.Safety.MembershipTwin

namespace Arcux.Raft

open Consensus List

variable {n n' : RaftNode} {cc : ConfChange} {index : Nat} {voters learners : List NodeId}

theorem quorums_meet {voters' : List NodeId} {q r : Finset NodeId} (near : Near voters.toFinset voters'.toFinset)
    (nodup : voters.Nodup) (nodup' : voters'.Nodup) (inside : q ⊆ voters.toFinset) (inside' : r ⊆ voters'.toFinset)
    (enough : voters.length / 2 + 1 ≤ q.card) (enough' : voters'.length / 2 + 1 ≤ r.card) : (q ∩ r).Nonempty := by
  rw [← toFinset_card_of_nodup nodup] at enough
  rw [← toFinset_card_of_nodup nodup'] at enough'
  obtain ⟨node, inQ, inR⟩ := near.overlap q r ⟨inside, by omega⟩ ⟨inside', by omega⟩
  exact ⟨node, Finset.mem_inter.mpr ⟨inQ, inR⟩⟩

theorem MemStorage.entries_append {s : MemStorage} {e : Entry} (dense : s.lastIndex = s.base + s.log.length)
    (next : e.index = s.lastIndex + 1) :
    (s.append [e]).entries (s.append [e]).firstIndex (s.append [e]).lastIndex = s.log ++ [e] := by
  have last : (s.append [e]).lastIndex = s.base + (s.log.length + 1) := by
    rw [MemStorage.lastIndex, MemStorage.append, getLast?_concat, Option.map_some, Option.getD_some, next, dense,
      Nat.add_assoc]
  have base : (s.append [e]).base = s.base := rfl
  have size : (s.append [e]).log.length = s.log.length + 1 := length_append
  rw [MemStorage.entries, MemStorage.firstIndex, last, base]
  simp only [max_self, size, Nat.add_sub_cancel_left, min_self]
  rw [if_neg (by omega), if_neg (by omega), ← size, take_length]
  rfl

theorem proposeConfChange_adopts (accepted : n.proposeConfChange cc = .ok (n', index))
    (dense : n.storage.lastIndex = n.storage.base + n.storage.log.length)
    (small : voters.length < 2 ^ 32) (small' : learners.length < 2 ^ 32)
    (resulting : canonical (applyConfChange n.voters n.learners cc) = (voters, learners)) :
    n'.voters = voters ∧ n'.learners = learners := by
  obtain ⟨-, -, -, -, rfl⟩ := RaftNode.proposeConfChange_ok accepted
  have entry : n.changeEntry cc = ⟨n.currentTerm, n.storage.lastIndex + 1, .confChange, cc.encode voters learners⟩ := by
    rw [← (Prod.mk.inj resulting).1, ← (Prod.mk.inj resulting).2]
    rfl
  have conf : (n.appendOwn (n.changeEntry cc)).confAt (n.appendOwn (n.changeEntry cc)).storage.lastIndex =
      (voters, learners) := by
    rw [RaftNode.confAt]
    simp only [RaftNode.appendOwn]
    rw [MemStorage.entries_append dense rfl, entry, foldConf_change _ _ _ _ _ small small']
    rw [← resulting]
    exact canonical_idem _
  have seats := ((n.appendOwn (n.changeEntry cc)).recomputeConf.trackMember_seats cc).trans (RaftNode.recomputeConf_seats _)
  rw [conf] at seats
  obtain ⟨-, same, same', -⟩ := Seats.mk.inj seats
  exact ⟨same, same'⟩

theorem single_change_keeps_overlap (seated : Seated n.voters n.learners) (leads : n.id ∈ n.voters)
    (accepted : n.proposeConfChange cc = .ok (n', index))
    (resulting : canonical (applyConfChange n.voters n.learners cc) = (voters, learners)) :
    (n.changeEntry cc).data = cc.encode voters learners ∧
    (n.storage.lastIndex = n.storage.base + n.storage.log.length → voters.length < 2 ^ 32 → learners.length < 2 ^ 32 →
      n'.voters = voters ∧ n'.learners = learners) ∧
    Seated voters learners ∧ n.id ∈ voters ∧ (symmDiff n.voters.toFinset voters.toFinset).card ≤ 1 ∧
    ∀ q r : Finset NodeId, q ⊆ n.voters.toFinset → n.voters.length / 2 + 1 ≤ q.card →
      r ⊆ voters.toFinset → voters.length / 2 + 1 ≤ r.card → (q ∩ r).Nonempty := by
  refine ⟨?_, fun dense small small' => proposeConfChange_adopts accepted dense small small' resulting, ?_⟩
  · rw [← (Prod.mk.inj resulting).1, ← (Prod.mk.inj resulting).2]
    rfl
  obtain ⟨-, -, stays, -, -⟩ := RaftNode.proposeConfChange_ok accepted
  obtain ⟨rfl, rfl⟩ := Prod.mk.inj resulting
  have near : Near n.voters.toFinset (sortDedup (applyConfChange n.voters n.learners cc).1).toFinset := by
    rw [sortDedup_toFinset]
    exact applyConfChange_near n.voters n.learners cc
  refine ⟨⟨sortDedup_sorted _, sortDedup_sorted _, ?_⟩, mem_sortDedup.mpr (applyConfChange_keeps leads stays), ?_, ?_⟩
  · simpa only [mem_sortDedup] using applyConfChange_apart seated.apart cc
  · exact (Finset.card_union_le ..).trans near
  · intro q r inside enough inside' enough'
    have nodup : n.voters.Nodup := seated.sorted.imp fun less => (UInt64.ne_of_lt less)
    exact quorums_meet near nodup (sortDedup_nodup _) inside inside' enough enough'

theorem single_change_keeps_overlap_promotion :
    ∃ n' : RaftNode, n'.voters = [1, 2, 3] ∧ n'.learners = [] ∧ ({1, 2} ∩ {2, 3} : Finset NodeId).Nonempty := by
  let n : RaftNode := { RaftNode.recover (.new 1 [1, 2]) {} with role := .leader, learners := [3] }
  have seated : Seated n.voters n.learners := ⟨by decide, by decide, by simp [n, RaftNode.recover, Config.new]⟩
  obtain ⟨n', index, accepted⟩ : ∃ n' index, n.proposeConfChange (.addNode 3) = .ok (n', index) := ⟨_, _, rfl⟩
  have kept := single_change_keeps_overlap seated (by decide) accepted rfl
  have adopted := kept.2.1 rfl (by decide) (by decide)
  exact ⟨n', adopted.1, adopted.2, kept.2.2.2.2.2 {1, 2} {2, 3} (by decide) (by decide) (by decide) (by decide)⟩

end Arcux.Raft
