import Arcux.Raft.Refinement.Acceptance

namespace Arcux.Raft

def MemStorage.body (storage : MemStorage) : List Entry × Option Snapshot := (storage.log, storage.snap)

variable {storage storage' : MemStorage}

theorem MemStorage.base_of_body (same : storage'.body = storage.body) : storage'.base = storage.base := by
  have snap : storage'.snap = storage.snap := congrArg Prod.snd same
  simp only [MemStorage.base, snap]

theorem MemStorage.lastIndex_of_body (same : storage'.body = storage.body) :
    storage'.lastIndex = storage.lastIndex := by
  obtain ⟨log, snap⟩ := Prod.mk.inj same
  simp only [MemStorage.lastIndex, MemStorage.base, log, snap]

theorem MemStorage.supersededBy_of_body (same : storage'.body = storage.body) :
    storage'.supersededBy = storage.supersededBy := by
  obtain ⟨hard, log, snap⟩ := storage
  obtain ⟨hard', log', snap'⟩ := storage'
  cases same
  rfl

namespace RaftNode

variable (n : RaftNode)

/-! Only an append by the leader, a splice, an install and a compaction touch the body of the storage. -/

theorem body_of_core {n n' : RaftNode} (same : n'.core = n.core) : n'.storage.body = n.storage.body := by
  rw [show n'.storage = n.storage from congrArg Core.storage same]

@[simp] theorem becomeFollower_body (term : Nat) (leader : Option NodeId) :
    (n.becomeFollower term leader).storage.body = n.storage.body := by
  unfold becomeFollower
  simp only
  split <;> rfl

@[simp] theorem recomputeConf_storage : n.recomputeConf.storage = n.storage := by
  have checked := (n.adoptConf (n.confAt n.storage.lastIndex)).checkTransfer_core
  unfold recomputeConf
  simp only [becomeFollower, Nat.lt_irrefl, if_false]
  split <;> exact congrArg Core.storage checked

@[simp] theorem sendAppend_body (dest : NodeId) : (n.sendAppend dest).storage.body = n.storage.body :=
  body_of_core (n.sendAppend_core dest)

@[simp] theorem broadcastAppend_body : n.broadcastAppend.storage.body = n.storage.body :=
  body_of_core n.broadcastAppend_core

@[simp] theorem advanceReads_body : n.advanceReads.storage.body = n.storage.body :=
  body_of_core n.advanceReads_core

@[simp] theorem maybeAdvanceCommit_body : n.maybeAdvanceCommit.storage.body = n.storage.body := by
  unfold maybeAdvanceCommit
  split
  · exact advanceReads_body _
  · rfl

@[simp] theorem adoptTerm_body (msg : Message) : (n.adoptTerm msg).storage.body = n.storage.body := by
  unfold adoptTerm
  split
  · exact becomeFollower_body _ _ _
  · rfl

end RaftNode

end Arcux.Raft
