import Arcux.Raft.Moves

namespace Arcux.Raft

open Codec

def Action.ordinary : Action → Bool
  | tick _ | takeReadStates _ => true
  | deliver ⟨⟨_, _, _, .timeoutNow⟩, _⟩ => false
  | deliver _ => true
  | _ => false

namespace RaftNode

structure Steady (n : RaftNode) : Prop where
  settled : n.transferTarget = none
  silent : ∀ msg ∈ n.messages, msg.body ≠ .timeoutNow

/-- What a leader keeps while it leads: its log, and that no snapshot waits to be loaded. -/
def held (n : RaftNode) : List Entry × Option (Nat × Bytes) := (n.storage.log, n.pendingSnapshot)

/-- What holds along the moves of one action: off the ground a node is in the term and with the log that it had, or its
timer has sent it into a newer term. -/
structure Upholds (action : Action) (n n' : RaftNode) : Prop where
  later : n.currentTerm ≤ n'.currentTerm
  steady : n.Steady → n'.Steady
  risen : n'.role ≠ .follower → (n'.currentTerm = n.currentTerm ∧ n.role ≠ .follower ∧ n'.held = n.held) ∨
    (n.currentTerm < n'.currentTerm ∧ ∃ i, action = .tick i)

structure Reigns (n n' : RaftNode) : Prop where
  steady : n.Steady → n'.Steady
  elected : n'.role = .leader → (n'.currentTerm = n.currentTerm ∧ n.role ≠ .follower) ∨
    (n.currentTerm < n'.currentTerm ∧ n.role ≠ .leader)

variable {action : Action} {n m m' : RaftNode}

theorem leader_ne_follower (leads : n.role = .leader) : n.role ≠ .follower := by
  rw [leads]
  nofun

theorem recomputeConf_steady (steady : n.Steady) : n.recomputeConf.Steady := by
  have checked : (n.adoptConf (n.confAt n.storage.lastIndex)).checkTransfer = n.adoptConf (n.confAt n.storage.lastIndex) := by
    rw [checkTransfer, show (n.adoptConf _).transferTarget = none from steady.settled]
  rw [recomputeConf, checked]
  simp only [becomeFollower, Nat.lt_irrefl, if_false]
  split
  · exact ⟨rfl, steady.silent⟩
  · exact ⟨steady.settled, steady.silent⟩

namespace Upholds

theorem refl (n : RaftNode) : Upholds action n n := ⟨le_rfl, fun steady => steady, fun rank => .inl ⟨rfl, rank, rfl⟩⟩

variable (upholds : Upholds action n m)

include upholds

theorem stays (term : m'.currentTerm = m.currentTerm) (steady : m.Steady → m'.Steady)
    (kept : m'.role ≠ .follower → m.role ≠ .follower ∧ m'.held = m.held) : Upholds action n m' := by
  refine ⟨term ▸ upholds.later, fun start => steady (upholds.steady start), fun rank => ?_⟩
  rw [term, (kept rank).2]
  exact upholds.risen (kept rank).1

theorem falls (role : m'.role = .follower) (later : m.currentTerm ≤ m'.currentTerm) (steady : m.Steady → m'.Steady) :
    Upholds action n m' :=
  ⟨upholds.later.trans later, fun start => steady (upholds.steady start), fun rank => absurd role rank⟩

theorem send (dest : NodeId) (term : Nat) {body : MessageBody} (calm : m.Steady → body ≠ .timeoutNow) :
    Upholds action n (m.send dest term body) := by
  refine upholds.stays rfl (fun steady => ⟨steady.settled, fun msg member => ?_⟩) fun rank => ⟨rank, rfl⟩
  rcases List.mem_append.mp member with before | sent
  · exact steady.silent msg before
  · rw [List.mem_singleton.mp sent]
    exact calm steady

theorem turn (ordinary : action.ordinary) (turn : Turn action m m') : Upholds action n m' := by
  have silent := turn.frame.2
  cases turn with
  | aim called =>
    rcases called with rfl | ⟨i, target, rfl⟩
    · exact upholds.stays rfl (fun steady => ⟨rfl, steady.silent⟩) fun rank => ⟨rank, rfl⟩
    · cases ordinary
  | becomeFollower leader newer =>
    refine upholds.falls rfl ?_ fun steady => ⟨rfl, silent ▸ steady.silent⟩
    unfold becomeFollower
    simp only
    split
    · exact newer
    · exact le_rfl
  | follow leader => exact upholds.falls rfl le_rfl fun steady => ⟨steady.settled, steady.silent⟩
  | campaign voter called =>
    have newer : n.currentTerm < m.currentTerm + 1 := Nat.lt_succ_of_le upholds.later
    refine ⟨newer.le, fun start => ⟨(upholds.steady start).settled, (upholds.steady start).silent⟩, fun _ => .inr ⟨newer, ?_⟩⟩
    cases action with
    | tick i => exact ⟨i, rfl⟩
    | deliver envelope =>
      obtain ⟨⟨sender, dest, term, body⟩, incarnation⟩ := envelope
      cases body with
      | timeoutNow => cases ordinary
      | _ => cases called
    | _ => cases called
  | assumeLeadership role elected =>
    refine upholds.stays rfl (fun steady => ⟨rfl, steady.silent⟩) fun _ => ⟨?_, rfl⟩
    rw [role]
    nofun
  | advanceReads =>
    unfold advanceReads
    split <;> exact upholds.stays rfl (fun steady => ⟨steady.settled, steady.silent⟩) fun rank => ⟨rank, rfl⟩
  | _ => exact upholds.stays rfl (fun steady => ⟨steady.settled, steady.silent⟩) fun rank => ⟨rank, rfl⟩

theorem move (ordinary : action.ordinary) (move : Move action m m') : Upholds action n m' := by
  cases move with
  | quiet turn => exact upholds.turn ordinary turn
  | @answer dest term body answers =>
    refine upholds.send dest term fun steady => ?_
    rintro rfl
    exact answers steady.settled
  | sendAppend dest =>
    unfold sendAppend sendSnapshot
    simp only
    split
    · split
      · exact upholds
      · exact upholds.send dest _ nofun
    · exact upholds.send dest _ nofun
  | splice role heard fits =>
    refine upholds.falls (spliceEntries_role role _ _) (m.spliceEntries_currentTerm _ _).ge fun steady => ?_
    unfold spliceEntries
    split
    · exact recomputeConf_steady ⟨steady.settled, steady.silent⟩
    · exact ⟨steady.settled, steady.silent⟩
  | install role heard =>
    unfold installSnapshot
    refine upholds.falls ((congrArg Core.role (recomputeConf_core ?_)).trans role) ?_ fun steady => recomputeConf_steady ?_
    · exact role
    · rw [recomputeConf_currentTerm]
    · exact ⟨steady.settled, steady.silent⟩
  | appendOwn next proposed =>
    rcases proposed with ⟨i, data, rfl, -⟩ | ⟨i, cc, rfl⟩ <;> cases ordinary
  | recomputeConf called | takeCommitted called | takeSnapshot called | compact called | restart called =>
    subst called
    cases ordinary

variable (settled : n.role = .leader → ∀ i, action = .tick i → m.currentTerm = n.currentTerm)

include settled

theorem reigns : Reigns n m := by
  refine ⟨upholds.steady, fun leads => ?_⟩
  rcases upholds.risen (leader_ne_follower leads) with ⟨term, rank, -⟩ | ⟨newer, i, timer⟩
  · exact .inl ⟨term, rank⟩
  · exact .inr ⟨newer, fun was => newer.ne' (settled was i timer)⟩

theorem held (was : n.role = .leader) (leads : m.role = .leader) : m.held = n.held := by
  rcases upholds.risen (leader_ne_follower leads) with ⟨-, -, held⟩ | ⟨newer, i, timer⟩
  · exact held
  · exact absurd (settled was i timer) newer.ne'

end Upholds

variable (n : RaftNode)

theorem moves_uphold {n n' : RaftNode} (ordinary : action.ordinary) (moves : Moves action n n') : Upholds action n n' :=
  moves.preserves (Upholds action n) (fun _ _ move upholds => upholds.move ordinary move) (.refl n)

theorem tick_upholds : Upholds (.tick n.id) n n.tick := moves_uphold rfl (Moves.tick n rfl)

theorem tick_currentTerm (was : n.role = .leader) : n.tick.currentTerm = n.currentTerm := by
  have transfer : n.tickTransfer.currentTerm = n.currentTerm := by
    unfold tickTransfer
    split_ifs <;> rfl
  have beat (m : RaftNode) : m.tickHeartbeat.currentTerm = m.currentTerm := by
    unfold tickHeartbeat
    split
    · exact congrArg Core.currentTerm (broadcastAppend_core _)
    · rfl
  have quorum (m : RaftNode) : m.tickQuorum.currentTerm = m.currentTerm := by
    unfold tickQuorum
    simp only [becomeFollower, Nat.lt_irrefl, if_false]
    split_ifs <;> rfl
  rw [tick, was]
  exact ((quorum _).trans (beat _)).trans transfer

theorem tick_reigns : Reigns n n.tick := n.tick_upholds.reigns fun was _ _ => n.tick_currentTerm was

theorem tick_held (was : n.role = .leader) (leads : n.tick.role = .leader) : n.tick.held = n.held :=
  n.tick_upholds.held (fun was _ _ => n.tick_currentTerm was) was leads

theorem step_upholds {msg : Message} (calm : msg.body ≠ .timeoutNow) : Upholds (.deliver ⟨msg, 0⟩) n (n.step msg) := by
  refine moves_uphold ?_ (Moves.step n ⟨msg, 0⟩)
  obtain ⟨sender, dest, term, body⟩ := msg
  cases body with
  | timeoutNow => exact absurd rfl calm
  | _ => rfl

theorem step_reigns {msg : Message} (calm : msg.body ≠ .timeoutNow) : Reigns n (n.step msg) :=
  (n.step_upholds calm).reigns nofun

theorem step_held {msg : Message} (calm : msg.body ≠ .timeoutNow) (was : n.role = .leader)
    (leads : (n.step msg).role = .leader) : (n.step msg).held = n.held :=
  (n.step_upholds calm).held nofun was leads

theorem propose_reigns {n n' : RaftNode} {data : Bytes} {index : Nat} (accepted : n.propose data = .ok (n', index)) :
    Reigns n n' ∧ n'.currentTerm = n.currentTerm ∧ n'.role = .leader ∧
      n'.held = (n.storage.log ++ [.normal n.currentTerm (n.storage.lastIndex + 1) data], n.pendingSnapshot) := by
  obtain ⟨role, rfl, rfl⟩ := propose_ok accepted
  let appended := n.appendOwn (.normal n.currentTerm (n.storage.lastIndex + 1) data)
  have upholds : Upholds (.takeReadStates 0) appended appended.maybeAdvanceCommit.broadcastAppend :=
    moves_uphold rfl ((Moves.maybeAdvanceCommit appended).trans (Moves.broadcastAppend _))
  have kept := congrArg Core.role (broadcastAppend_core appended.maybeAdvanceCommit)
  have leads : appended.maybeAdvanceCommit.broadcastAppend.role = .leader :=
    kept.trans ((maybeAdvanceCommit_role _).trans role)
  rcases upholds.risen (leader_ne_follower leads) with ⟨term, -, held⟩ | ⟨-, i, ⟨⟩⟩
  exact ⟨⟨fun steady => upholds.steady ⟨steady.settled, steady.silent⟩, fun _ => .inl ⟨term, leader_ne_follower role⟩⟩,
    term, leads, held⟩

end RaftNode

end Arcux.Raft
