import Arcux.Raft.Moves
import Arcux.Raft.Safety.StateMachine
import Mathlib.Data.List.TakeWhile

namespace Arcux.Raft

open Codec List

def MessageBody.rounded : MessageBody → Bool
  | appendEntries .. | appendEntriesResp .. => true
  | _ => false

/-- What an observer asserts of the reads on one node: the rounds that a leader of a term has heard, the
reads that wait on it, the reads it answered, and what it sends. -/
structure Watch where
  node : NodeId
  round : Nat
  heard : NodeId → Nat → Nat → Prop
  waits : Nat × Nat → Nat → Prop
  answers : Nat × Nat → Prop
  sends : Message → Prop
  quiet : ∀ msg, msg.body.rounded = false → sends msg
  append : ∀ dest term prevLogIndex prevLogTerm entries leaderCommit,
    sends ⟨node, dest, term, .appendEntries prevLogIndex prevLogTerm entries leaderCommit round⟩

structure Reading (w : Watch) (n : RaftNode) : Prop where
  id : n.id = w.node
  round : n.readRound = w.round
  heard : n.role = .leader → ∀ v a, n.ackedRound v = some a → w.heard v a n.currentTerm
  waiting : n.role = .leader → ∀ read ∈ n.pendingReads, w.waits read n.currentTerm
  answered : ∀ read ∈ n.readyReads, w.answers read
  sent : ∀ msg ∈ n.messages, w.sends msg

/-- A waiting read that a majority confirms may be answered with any index of the leader's own term from
the commit index on. -/
def Confirms (w : Watch) (n : RaftNode) : Prop :=
  n.role = .leader → ∀ read ∈ n.pendingReads, ∀ index, n.commitIndex ≤ index →
    n.storage.term index = some n.currentTerm → ∀ heard : NodeId → Bool,
      (∀ v, heard v → ∃ a, read.2 ≤ a ∧ w.heard v a n.currentTerm) →
      n.majority ≤ n.voters.countP (fun v => v = n.id ∨ heard v) → w.answers (read.1, index)

structure Serves (w : Watch) (n : RaftNode) : Prop where
  reading : Reading w n
  confirms : Confirms w n

section

variable {w : Watch} {n n' : RaftNode}

def RaftNode.stance (n : RaftNode) : NodeId × List NodeId × MemStorage × Role × Nat :=
  (n.id, n.voters, n.storage, n.role, n.currentTerm)

variable {body : MessageBody} {term : Nat} {dest : NodeId}

theorem Reading.send (reading : Reading w n)
    (sends : w.sends ⟨w.node, dest, term, body⟩) : Reading w (n.send dest term body) := by
  obtain ⟨id, round, heard, waiting, answered, sent⟩ := reading
  refine ⟨id, round, heard, waiting, answered, ?_⟩
  intro msg member
  rcases mem_append.mp member with old | new
  · exact sent msg old
  · rw [mem_singleton.mp new, id]
    exact sends

theorem Confirms.grow (confirms : Confirms w n) (same : n'.stance = n.stance) (commit : n.commitIndex ≤ n'.commitIndex)
    (pending : n'.pendingReads ⊆ n.pendingReads) : Confirms w n' := by
  simp only [RaftNode.stance, Prod.mk.injEq] at same
  obtain ⟨id, voters, storage, role, term⟩ := same
  intro leads read member index above own heard acks majority
  rw [RaftNode.majority, voters, id] at majority
  rw [storage, term] at own
  rw [term] at acks
  exact confirms (role ▸ leads) read (pending member) index (commit.trans above) own heard acks majority

def RaftNode.served (n : RaftNode) : (NodeId × List NodeId × MemStorage × Role × Nat) × Nat × Nat ×
    (NodeId → Option Nat) × List (Nat × Nat) × List (Nat × Nat) × List Message :=
  (n.stance, n.commitIndex, n.readRound, n.ackedRound, n.pendingReads, n.readyReads, n.messages)

section

variable (serves : Serves w n)

include serves

theorem Serves.congr (same : n'.served = n.served) : Serves w n' := by
  simp only [RaftNode.served, Prod.mk.injEq] at same
  obtain ⟨stance, commit, round, acked, pending, ready, messages⟩ := same
  refine ⟨?_, serves.confirms.grow stance commit.ge (pending ▸ Subset.refl _)⟩
  simp only [RaftNode.stance, Prod.mk.injEq] at stance
  obtain ⟨id, _, _, role, term⟩ := stance
  obtain ⟨⟩ := serves.reading
  constructor <;> simp_all

theorem Serves.send (sends : w.sends ⟨w.node, dest, term, body⟩) : Serves w (n.send dest term body) :=
  ⟨serves.reading.send sends, serves.confirms⟩

theorem Serves.sendAppend (dest : NodeId) : Serves w (n.sendAppend dest) := by
  unfold RaftNode.sendAppend RaftNode.sendSnapshot
  simp only
  split
  · split
    · exact serves
    · exact serves.send (w.quiet _ rfl)
  · rw [serves.reading.round]
    exact serves.send (w.append ..)

theorem Serves.broadcastAppend : Serves w n.broadcastAppend := by
  unfold RaftNode.broadcastAppend
  generalize n.replicationPeers = peers
  induction peers generalizing n with
  | nil => exact serves
  | cons peer rest ih => exact ih (serves.sendAppend peer)

theorem Serves.advanceReads : Serves w n.advanceReads := by
  obtain ⟨reading, confirms⟩ := serves
  unfold RaftNode.advanceReads
  split
  · exact ⟨reading, confirms⟩
  rename_i ready
  simp only [not_or, not_not] at ready
  obtain ⟨role, _, own⟩ := ready
  have dropped : ∀ k, n.pendingReads.drop k ⊆ n.pendingReads := fun k => drop_subset k _
  refine ⟨⟨reading.id, reading.round, reading.heard, ?_, ?_, reading.sent⟩, ?_⟩
  · exact fun leads read member => reading.waiting leads read (dropped _ member)
  · intro answer member
    rcases mem_append.mp member with old | new
    · exact reading.answered answer old
    · obtain ⟨read, confirmed, rfl⟩ := mem_map.mp new
      have majority := mem_takeWhile_imp confirmed
      rw [decide_eq_true_eq] at majority
      refine confirms role read (( takeWhile_prefix _).subset confirmed) n.commitIndex (Nat.le_refl _) own
        (fun v => (n.ackedRound v).any (fun r => read.2 ≤ r)) ?_ majority
      intro v heard
      cases acked : n.ackedRound v with
      | none => simp [acked] at heard
      | some a =>
        simp only [acked, Option.any_some, decide_eq_true_eq] at heard
        exact ⟨a, heard, reading.heard role v a acked⟩
  · exact confirms.grow rfl (Nat.le_refl _) (dropped _)

theorem Serves.commit {index : Nat} (found : n.commitScan n.storage.lastIndex = some index) :
    Serves w { n with commitIndex := index } := by
  obtain ⟨_, above, _, _⟩ := commitScan_spec found
  obtain ⟨⟨id, round, heard, waiting, answered, sent⟩, confirms⟩ := serves
  exact ⟨⟨id, round, heard, waiting, answered, sent⟩, confirms.grow rfl above.le (Subset.refl _)⟩

theorem Serves.maybeAdvanceCommit : Serves w n.maybeAdvanceCommit := by
  unfold RaftNode.maybeAdvanceCommit
  split
  · rename_i found
    exact (serves.commit found).advanceReads
  · exact serves

theorem Serves.acknowledge (role : n.role = .leader) {sender : NodeId} {readRound : Nat}
    (heard : w.heard sender readRound n.currentTerm) : Serves w { n with
      recentActive := insert sender n.recentActive
      ackedRound := Function.update n.ackedRound sender (some (max ((n.ackedRound sender).getD 0) readRound)) } := by
  obtain ⟨⟨id, round, known, waiting, answered, sent⟩, confirms⟩ := serves
  refine ⟨⟨id, round, ?_, waiting, answered, sent⟩, confirms.grow rfl (Nat.le_refl _) (Subset.refl _)⟩
  intro _ v a acked
  by_cases same : v = sender
  · subst same
    simp only [Function.update_self, Option.some.injEq] at acked
    cases old : n.ackedRound v with
    | none =>
      rw [old, Option.getD_none, Nat.zero_max] at acked
      exact acked ▸ heard
    | some b =>
      rw [old, Option.getD_some] at acked
      rcases Nat.le_total b readRound with newer | older
      · rw [Nat.max_eq_right newer] at acked
        exact acked ▸ heard
      · rw [Nat.max_eq_left older] at acked
        exact acked ▸ known role v b old
  · simp only [Function.update_of_ne same] at acked
    exact known role v a acked

end

/-- A node that does not lead confirms no read. -/
theorem Reading.deposed (reading : Reading w n) (role : n'.role ≠ .leader) (id : n'.id = n.id)
    (round : n'.readRound = n.readRound) (ready : n'.readyReads ⊆ n.readyReads) (messages : n'.messages = n.messages) :
    Serves w n' :=
  ⟨⟨id.trans reading.id, round.trans reading.round, fun leads => absurd leads role, fun leads => absurd leads role,
    fun read member => reading.answered read (ready member), messages ▸ reading.sent⟩, fun leads => absurd leads role⟩

def RaftNode.asked (n : RaftNode) : NodeId × Nat × List (Nat × Nat) × List Message :=
  (n.id, n.readRound, n.readyReads, n.messages)

theorem RaftNode.recomputeConf_asked (n : RaftNode) (follower : n.role = .follower) :
    n.recomputeConf.role = .follower ∧ n.recomputeConf.asked = n.asked := by
  have role := (congrArg Core.role (recomputeConf_core follower)).trans follower
  refine ⟨role, ?_⟩
  have checked : (n.adoptConf (n.confAt n.storage.lastIndex)).checkTransfer.asked = n.asked ∧
      (n.adoptConf (n.confAt n.storage.lastIndex)).checkTransfer.role = n.role := by
    unfold checkTransfer
    split
    · split <;> exact ⟨rfl, rfl⟩
    · exact ⟨rfl, rfl⟩
  unfold recomputeConf
  simp only [checked.2, follower, reduceCtorEq, false_and, if_false]
  exact checked.1

theorem Reading.recomputed (reading : Reading w n) {m : RaftNode} (follower : m.role = .follower)
    (same : m.asked = n.asked) : Serves w m.recomputeConf := by
  obtain ⟨role, kept⟩ := m.recomputeConf_asked follower
  have same := kept.trans same
  simp only [RaftNode.asked, Prod.mk.injEq] at same
  obtain ⟨id, round, ready, messages⟩ := same
  exact reading.deposed (by simp [role]) id round (ready ▸ Subset.refl _) messages

/-- What an action brings to a node that is in `term`: the rounds that it answers, and those that it hears of. -/
structure Watch.Hears (w : Watch) (action : Action) (term : Nat) : Prop where
  replies : ∀ {sender dest t prevLogIndex prevLogTerm entries leaderCommit readRound incarnation}, action =
      .deliver ⟨⟨sender, dest, t, .appendEntries prevLogIndex prevLogTerm entries leaderCommit readRound⟩, incarnation⟩ →
    ∀ T, term ≤ T → ∀ success matchIndex, w.sends ⟨w.node, sender, T, .appendEntriesResp success matchIndex readRound⟩
  heard : ∀ {sender dest t success matchIndex readRound incarnation},
    action = .deliver ⟨⟨sender, dest, t, .appendEntriesResp success matchIndex readRound⟩, incarnation⟩ →
      w.heard sender readRound t

def Action.serving : Action → Bool
  | propose .. | proposeConfChange .. | readIndex .. | compact .. | restart .. => false
  | _ => true

variable {action : Action}

theorem Serves.turn (serves : Serves w n) (serving : action.serving) {term : Nat} (hears : w.Hears action term)
    (turn : Turn action n n') : Serves w n' := by
  have reading := serves.reading
  cases turn with
  | idle | aim | progress | tally => exact serves.congr rfl
  | grant free =>
    obtain ⟨⟨id, round, heard, waiting, answered, sent⟩, confirms⟩ := serves
    exact ⟨⟨id, round, heard, waiting, answered, sent⟩, confirms⟩
  | becomeFollower leader newer =>
    unfold RaftNode.becomeFollower
    simp only
    split <;> exact reading.deposed nofun rfl rfl (nil_subset _) rfl
  | follow | campaign => exact reading.deposed nofun rfl rfl (Subset.refl _) rfl
  | assumeLeadership role elected => exact ⟨{ reading with heard := nofun, waiting := nofun, answered := nofun }, nofun⟩
  | commit found => exact serves.commit found
  | learnCommit role =>
    refine reading.deposed (fun leads => ?_) rfl rfl (Subset.refl _) rfl
    cases role.symm.trans leads
  | registerRead called =>
    subst called
    cases serving
  | acknowledge role called => exact serves.acknowledge role (hears.heard called)
  | advanceReads => exact serves.advanceReads
  | takeReadStates =>
    obtain ⟨⟨id, round, heard, waiting, answered, sent⟩, confirms⟩ := serves
    exact ⟨⟨id, round, heard, waiting, by rintro _ ⟨⟩, sent⟩, confirms.grow rfl (Nat.le_refl _) (Subset.refl _)⟩

theorem Serves.move (serves : Serves w n) (serving : action.serving) {term : Nat} (hears : w.Hears action term)
    (onward : term ≤ n.currentTerm) (move : Move action n n') : Serves w n' := by
  have reading := serves.reading
  cases move with
  | quiet turn => exact serves.turn serving hears turn
  | @answer dest term body answers =>
    cases body with
    | appendEntriesResp success matchIndex readRound =>
      obtain ⟨rfl, _, _, _, _, _, _, _, called⟩ := answers
      exact serves.send (hears.replies called _ onward success matchIndex)
    | appendEntries | installSnapshot => cases answers
    | _ => exact serves.send (w.quiet _ rfl)
  | sendAppend dest => exact serves.sendAppend dest
  | appendOwn next proposed => rcases proposed with ⟨i, data, rfl, -⟩ | ⟨i, cc, rfl⟩ <;> cases serving
  | splice role =>
    unfold RaftNode.spliceEntries
    split
    · exact reading.recomputed role rfl
    · refine reading.deposed (fun leads => ?_) rfl rfl (Subset.refl _) rfl
      cases role.symm.trans leads
  | install role => exact reading.recomputed role rfl
  | takeCommitted =>
    unfold RaftNode.takeCommitted
    split
    · exact serves
    · exact serves.congr rfl
  | takeSnapshot => exact serves.congr rfl
  | recomputeConf called | compact called | restart called =>
    subst called
    cases serving

theorem Serves.perform (serves : Serves w n) (serving : action.serving) (hears : w.Hears action n.currentTerm) :
    Serves w (action.perform n) := by
  refine ((Moves.perform n action).preserves (fun m => n.currentTerm ≤ m.currentTerm ∧ Serves w m) ?_
    ⟨le_rfl, serves⟩).2
  rintro m m' move ⟨onward, serves⟩
  refine ⟨onward.trans (move.term_le ?_), serves.move serving hears onward move⟩
  rintro i cfg rfl
  cases serving

end

theorem Reading.takeMessages {w : Watch} {n : RaftNode} (reading : Reading w n) : Reading w n.takeMessages.1 :=
  { reading with sent := nofun }

theorem Reading.new (w : Watch) (cfg : Config) (storage : MemStorage) (id : cfg.id = w.node) (round : w.round = 0) :
    Reading w (RaftNode.new cfg storage) := by
  have recovered : Reading w (RaftNode.recover cfg storage).resetElectionTimer :=
    ⟨id, round.symm, nofun, nofun, nofun, nofun⟩
  exact (recovered.recomputed rfl rfl).reading

theorem Reading.settle (make : Nat → Watch) (rounds : ∀ R, (make R).round = R) {R : Nat} {n : RaftNode}
    (reading : Reading (make R) n) : n.readRound = R ∧ Reading (make n.readRound) n := by
  have round := reading.round.trans (rounds R)
  exact ⟨round, round.symm ▸ reading⟩

theorem Serves.act (make : Nat → Watch) {n : RaftNode} {action : Action} (node : ∀ R, (make R).node = n.id)
    (rounds : ∀ R, (make R).round = R) (serves : Serves (make n.readRound) n) (plain : action.plain)
    (registers : ∀ i ctx, action = .readIndex i ctx → n.role = .leader →
      Serves (make (n.readRound + 1)) (n.registerRead ctx))
    (appends : ∀ i data, action = .propose i data →
      Serves (make n.readRound) (n.appendOwn (.normal n.currentTerm (n.storage.lastIndex + 1) data)))
    (hears : (make n.readRound).Hears action n.currentTerm) :
    Reading (make (action.perform n).readRound) (action.perform n) ∧
      ((∀ i cfg, action ≠ .restart i cfg) → n.readRound ≤ (action.perform n).readRound) := by
  have settled {R : Nat} {n' : RaftNode} (reading : Reading (make R) n') (later : n.readRound ≤ R) :
      Reading (make n'.readRound) n' ∧ ((∀ i cfg, action ≠ .restart i cfg) → n.readRound ≤ n'.readRound) :=
    ⟨(reading.settle make rounds).2, fun _ => later.trans (reading.settle make rounds).1.ge⟩
  cases action with
  | restart i cfg =>
    have reading := Reading.new (make 0) { cfg with id := n.id, voters := n.bootstrapConf } n.storage
      (node 0).symm (rounds 0)
    exact ⟨(reading.settle make rounds).2, fun running => absurd rfl (running i cfg)⟩
  | readIndex i ctx =>
    simp only [Action.perform]
    split
    · rename_i accepted
      obtain ⟨role, rfl⟩ := RaftNode.readIndex_ok accepted
      exact settled (registers i ctx rfl role).broadcastAppend.advanceReads.reading (Nat.le_succ _)
    · exact settled serves.reading le_rfl
  | propose i data =>
    simp only [Action.perform]
    split
    · rename_i accepted
      obtain ⟨_, rfl, rfl⟩ := RaftNode.propose_ok accepted
      exact settled (appends i data rfl).maybeAdvanceCommit.broadcastAppend.reading le_rfl
    · exact settled serves.reading le_rfl
  | proposeConfChange | compact => cases plain
  | _ => exact settled (serves.perform rfl hears).reading le_rfl

end Arcux.Raft
