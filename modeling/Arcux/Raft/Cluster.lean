import Arcux.Raft.Node

namespace Arcux.Raft

open Codec List

/-- A message on the network. A response carries the incarnation of the process whose request it
answers, as the call it travels back on does. -/
structure Envelope where
  message : Message
  incarnation : Nat
  deriving Repr, DecidableEq

/-- A group of peers and every message they have sent. Nothing leaves `net`, so a message can be
delivered at any later time, any number of times, or never. -/
structure Cluster where
  nodes : NodeId → RaftNode
  incarnation : NodeId → Nat
  net : List Envelope

inductive Action where
  | tick (i : NodeId)
  | propose (i : NodeId) (data : Bytes)
  | proposeConfChange (i : NodeId) (cc : ConfChange)
  | readIndex (i : NodeId) (ctx : Nat)
  | transferLeadership (i target : NodeId)
  | deliver (envelope : Envelope)
  | takeCommitted (i : NodeId)
  | takeSnapshot (i : NodeId)
  | takeReadStates (i : NodeId)
  | compact (i : NodeId) (index : Nat) (data : Bytes)
  | restart (i : NodeId) (cfg : Config)
  deriving Repr, DecidableEq

namespace Action

def node : Action → NodeId
  | tick i | propose i _ | proposeConfChange i _ | readIndex i _ | transferLeadership i _ | takeCommitted i
  | takeSnapshot i | takeReadStates i | compact i _ _ | restart i _ => i
  | deliver envelope => envelope.message.dest

/-- The node after a driver call. A refused call and a panic leave it as it was. A process restarts
from its own storage under its own id and bootstrap membership. -/
def perform (n : RaftNode) : Action → RaftNode
  | tick _ => n.tick
  | propose _ data => match n.propose data with
    | .ok (n', _) => n'
    | .error _ => n
  | proposeConfChange _ cc => match n.proposeConfChange cc with
    | .ok (n', _) => n'
    | .error _ => n
  | readIndex _ ctx => match n.readIndex ctx with
    | .ok n' => n'
    | .error _ => n
  | transferLeadership _ target => match n.transferLeadership target with
    | .ok n' => n'
    | .error _ => n
  | deliver envelope => n.step envelope.message
  | takeCommitted _ => n.takeCommitted.1
  | takeSnapshot _ => n.takeSnapshot.1
  | takeReadStates _ => n.takeReadStates.1
  | compact _ index data => (n.compact index data).getD n
  | restart _ cfg => .new { cfg with id := n.id, voters := n.bootstrapConf } n.storage

end Action

namespace Cluster

def start (cfg : NodeId → Config) : Cluster where
  nodes := fun i => .new { cfg i with id := i } {}
  incarnation := fun _ => 0
  net := []

def enabled (s : Cluster) : Action → Bool
  | .deliver envelope => envelope ∈ s.net
  | _ => true

def tag (s : Cluster) (action : Action) (msg : Message) : Envelope :=
  match action with
  | .deliver envelope =>
    ⟨msg, if msg.body.isResponse then envelope.incarnation else s.incarnation action.node⟩
  | _ => ⟨msg, s.incarnation action.node⟩

def sends (s : Cluster) (action : Action) : List Envelope :=
  if s.enabled action then (action.perform (s.nodes action.node)).messages.map (s.tag action) else []

def exec (s : Cluster) (action : Action) : Cluster :=
  if s.enabled action then
    { nodes := Function.update s.nodes action.node (action.perform (s.nodes action.node)).takeMessages.1
      incarnation := match action with
        | .restart i _ => Function.update s.incarnation i (s.incarnation i + 1)
        | _ => s.incarnation
      net := s.net ++ s.sends action }
  else s

variable {s : Cluster} {action : Action}

theorem exec_disabled (disabled : ¬ s.enabled action) : s.exec action = s :=
  if_neg disabled

theorem exec_net (s : Cluster) (action : Action) : (s.exec action).net = s.net ++ s.sends action := by
  unfold exec sends
  split <;> simp

theorem exec_node (enabled : s.enabled action) :
    (s.exec action).nodes action.node = (action.perform (s.nodes action.node)).takeMessages.1 := by
  unfold exec
  rw [if_pos enabled]
  exact Function.update_self _ _ _

variable {j : NodeId}

theorem exec_other (other : j ≠ action.node) : (s.exec action).nodes j = s.nodes j := by
  unfold exec
  split
  · exact Function.update_of_ne other _ _
  · rfl

theorem tag_message (s : Cluster) (action : Action) (msg : Message) : (s.tag action msg).message = msg := by
  unfold tag
  split <;> rfl

variable {envelope : Envelope}

theorem exists_of_mem_sends (sent : envelope ∈ s.sends action) :
    ∃ msg ∈ (action.perform (s.nodes action.node)).messages, envelope = s.tag action msg := by
  unfold sends at sent
  split at sent
  · obtain ⟨msg, member, rfl⟩ := mem_map.mp sent
    exact ⟨msg, member, rfl⟩
  · cases sent

theorem mem_sends (sent : envelope ∈ s.sends action) :
    envelope.message ∈ (action.perform (s.nodes action.node)).messages := by
  obtain ⟨msg, member, rfl⟩ := exists_of_mem_sends sent
  rw [tag_message]
  exact member

theorem exec_incarnation (running : ∀ i cfg, action ≠ .restart i cfg) :
    (s.exec action).incarnation = s.incarnation := by
  unfold exec
  split
  · cases action with
    | restart i cfg => exact absurd rfl (running i cfg)
    | _ => rfl
  · rfl

theorem restart_incarnation (s : Cluster) (i : NodeId) (cfg : Config) :
    (s.exec (.restart i cfg)).incarnation = Function.update s.incarnation i (s.incarnation i + 1) := rfl

theorem exec_incarnation_le (s : Cluster) (action : Action) (j : NodeId) :
    s.incarnation j ≤ (s.exec action).incarnation j := by
  by_cases restarts : ∃ i cfg, action = .restart i cfg
  · obtain ⟨i, cfg, rfl⟩ := restarts
    rw [restart_incarnation]
    by_cases here : j = i
    · rw [here, Function.update_self]
      exact Nat.le_succ _
    · rw [Function.update_of_ne here]
  · rw [exec_incarnation (fun i cfg same => restarts ⟨i, cfg, same⟩)]

theorem exec_incarnation_other (other : j ≠ action.node) : (s.exec action).incarnation j = s.incarnation j := by
  by_cases restarts : ∃ i cfg, action = .restart i cfg
  · obtain ⟨i, cfg, rfl⟩ := restarts
    exact Function.update_of_ne other _ _
  · rw [exec_incarnation (fun i cfg same => restarts ⟨i, cfg, same⟩)]

theorem running_of_incarnation (same : (s.exec action).incarnation action.node = s.incarnation action.node) :
    ∀ i cfg, action ≠ .restart i cfg := by
  rintro i cfg rfl
  rw [restart_incarnation, Action.node, Function.update_self] at same
  omega

def run (s : Cluster) (actions : List Action) : Cluster := actions.foldl exec s

@[simp] theorem run_nil (s : Cluster) : s.run [] = s := rfl

@[simp] theorem run_cons (s : Cluster) (action : Action) (rest : List Action) :
    s.run (action :: rest) = (s.exec action).run rest := rfl

theorem run_append (s : Cluster) (first rest : List Action) : s.run (first ++ rest) = (s.run first).run rest :=
  foldl_append

def Along (admits : Cluster → Action → Prop) : Cluster → List Action → Prop
  | _, [] => True
  | s, action :: rest => admits s action ∧ Along admits (s.exec action) rest

variable {admits : Cluster → Action → Prop}

theorem Along.append {first rest : List Action} :
    Along admits s (first ++ rest) ↔ Along admits s first ∧ Along admits (s.run first) rest := by
  induction first generalizing s with
  | nil => simp [Along]
  | cons action first ih => simp [Along, ih, and_assoc]

variable {actions : List Action}

theorem Along.of_forall {allowed : Action → Prop}
    (every : ∀ action ∈ actions, allowed action) : Along (fun _ action => allowed action) s actions := by
  induction actions generalizing s with
  | nil => trivial
  | cons action rest ih =>
    exact ⟨every action (mem_cons_self ..), ih (fun a member => every a (mem_cons_of_mem _ member))⟩

instance Along.decidable {admits : Cluster → Action → Prop} [∀ s action, Decidable (admits s action)] :
    ∀ s actions, Decidable (Along admits s actions)
  | _, [] => isTrue trivial
  | s, action :: rest =>
    have : Decidable (Along admits (s.exec action) rest) := Along.decidable _ rest
    inferInstanceAs (Decidable (_ ∧ _))

theorem Along.preserves (holds : Cluster → Prop)
    (keeps : ∀ s action, admits s action → holds s → holds (s.exec action))
    (along : Along admits s actions) (start : holds s) : holds (s.run actions) := by
  induction actions generalizing s with
  | nil => exact start
  | cons action rest ih => exact ih along.2 (keeps s action along.1 start)

end Cluster

/-! A sample group of three, for runs on concrete inputs. -/

def Action.receive (sender dest : NodeId) (term : Nat) (body : MessageBody) : Action :=
  .deliver ⟨⟨sender, dest, term, body⟩, 0⟩

def trio (i : NodeId) : Config := .new i [1, 2, 3]

theorem trio_voters (i : NodeId) : (trio i).voters = [1, 2, 3] := rfl

def firstElection : List Action :=
  replicate 19 (.tick 1) ++ [.receive 1 2 1 (.requestVote 0 0), .receive 2 1 1 (.requestVoteResp true)]

end Arcux.Raft
