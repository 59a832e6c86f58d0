import Arcux.Raft.Moves

namespace Arcux.Raft

/-- The actions that change neither the log of a node nor its members. -/
def Action.idle : Action → Bool
  | propose .. | proposeConfChange .. | compact .. | restart .. => false
  | deliver envelope => !envelope.message.body.replicates
  | _ => true

theorem RaftNode.sendAppend_seats (n : RaftNode) (dest : NodeId) : (n.sendAppend dest).seats = n.seats := by
  unfold sendAppend sendSnapshot
  simp only
  split
  · split <;> rfl
  · rfl

variable {action : Action} {n n' : RaftNode}

theorem Move.seats (idle : action.idle) (move : Move action n n') : n'.seats = n.seats := by
  cases move with
  | quiet turn => exact turn.seats
  | answer | takeSnapshot => rfl
  | sendAppend dest => exact n.sendAppend_seats dest
  | appendOwn next proposed => rcases proposed with ⟨i, data, rfl, -⟩ | ⟨i, cc, rfl⟩ <;> cases idle
  | takeCommitted =>
    unfold RaftNode.takeCommitted
    split <;> rfl
  | splice role called | install role called | recomputeConf called | compact called | restart called =>
    subst called
    cases idle

theorem Moves.seats (idle : action.idle) (moves : Moves action n n') : n'.seats = n.seats :=
  moves.preserves (fun m => m.seats = n.seats) (fun _ _ move same => (move.seats idle).trans same) rfl

theorem Action.idle_seats (idle : action.idle) (n : RaftNode) : (action.perform n).seats = n.seats :=
  (Moves.perform n action).seats idle

namespace RaftNode

variable (n : RaftNode)

theorem broadcastAppend_seats : n.broadcastAppend.seats = n.seats :=
  Moves.seats (show (Action.tick 0).idle from rfl) (Moves.broadcastAppend n)

theorem maybeAdvanceCommit_seats : n.maybeAdvanceCommit.seats = n.seats :=
  Moves.seats (show (Action.tick 0).idle from rfl) (Moves.maybeAdvanceCommit n)

theorem trackMember_seats (cc : ConfChange) :
    (n.trackMember cc).maybeAdvanceCommit.broadcastAppend.seats = n.seats :=
  Moves.seats (show (Action.tick 0).idle from rfl) (Moves.finishChange n cc)

theorem adoptTerm_seats (msg : Message) : (n.adoptTerm msg).seats = n.seats :=
  Moves.seats (show (Action.tick 0).idle from rfl) (Moves.adoptTerm n msg)

end RaftNode

end Arcux.Raft
