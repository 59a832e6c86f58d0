import Arcux.Raft.Refinement.Reconfiguration

namespace Arcux.Raft

open Consensus

def Cluster.safeDelivery (s : Cluster) : Action → Bool
  | .deliver envelope => (s.nodes envelope.message.dest).safeInstall envelope.message
  | _ => true

/-- The membership changes only after a commit in the leader's own term, and its size fits its encoding. -/
def Cluster.ownTermChange (s : Cluster) : Action → Bool
  | .proposeConfChange i cc =>
    let n := s.nodes i
    (n.proposeConfChange cc).isOk →
      n.ownCommit ∧ n.voters.length + 1 < 2 ^ 32 ∧ n.learners.length + 1 < 2 ^ 32
  | _ => true

/-- The two places where the code leaves more open than the protocol allows. -/
def Cluster.disciplined (s : Cluster) (action : Action) : Bool := s.safeDelivery action && s.ownTermChange action

def Action.compacts : Action → Bool
  | .compact .. => true
  | _ => false

def Action.reconfigures : Action → Bool
  | .proposeConfChange .. => true
  | _ => false

variable {action : Action}

theorem Cluster.ownTermChange_of_fixed {s : Cluster} (fixed : action.reconfigures = false) :
    s.ownTermChange action := by
  cases action with
  | proposeConfChange i cc => cases fixed
  | _ => rfl

section

variable {bootstrap : List NodeId} {scope : Scope} {l : Ledger NodeId Entry} {s : Cluster}

/-- The action keeps to the scope: what a driver hands to `compact` stands for the log it replaces, and
a fixed membership is not changed. -/
structure Faithful (scope : Scope) (l : Ledger NodeId Entry) (s : Cluster) (action : Action) : Prop where
  image : ∀ i index data, action = .compact i index data → (s.nodes i).storage.base < index →
    index ≤ (s.nodes i).lastApplied → scope.image ((l.log i).take index) data
  fixed : scope.fixed → action.reconfigures = false

theorem Simulates.perform (sim : Simulates bootstrap scope l s) (enabled : s.enabled action)
    (disciplined : s.disciplined action) (faithful : Faithful scope l s action) :
    Reaches bootstrap scope l action.node (action.perform (s.nodes action.node)) := by
  have view := sim.view action.node
  cases action with
  | tick i => exact view.tick
  | propose i data =>
    simp only [Action.perform, Action.node] at view ⊢
    split
    · rename_i n' index accepted
      exact view.propose accepted
    · exact view.reaches
  | proposeConfChange i cc =>
    simp only [Action.perform, Action.node] at view ⊢
    split
    · rename_i n' index accepted
      simp only [Cluster.disciplined, Cluster.safeDelivery, Cluster.ownTermChange, Bool.true_and, accepted,
        Except.isOk, Except.toBool, decide_eq_true_eq] at disciplined
      obtain ⟨own, small, small'⟩ := disciplined trivial
      exact view.proposeConfChange (fun fixed => Bool.noConfusion (faithful.fixed fixed)) accepted own small small'
    · exact view.reaches
  | readIndex i ctx =>
    simp only [Action.perform, Action.node] at view ⊢
    split
    · rename_i n' accepted
      exact (view.readIndex accepted).reaches
    · exact view.reaches
  | transferLeadership i target =>
    simp only [Action.perform, Action.node] at view ⊢
    split
    · rename_i n' accepted
      exact (view.transferLeadership accepted).reaches
    · exact view.reaches
  | deliver envelope =>
    simp only [Cluster.enabled, decide_eq_true_eq] at enabled
    rw [Cluster.disciplined, Bool.and_eq_true] at disciplined
    exact view.step (sim.sent envelope enabled) rfl disciplined.1
  | takeCommitted i => exact view.takeCommitted.reaches
  | takeSnapshot i => exact View.reaches (view.congr rfl rfl)
  | takeReadStates i => exact View.reaches (view.congr rfl rfl)
  | compact i index data => exact (view.compact (faithful.image i index data rfl)).reaches
  | restart i cfg => exact (view.restart cfg).reaches

theorem Simulates.put {l' : Ledger NodeId Entry} {s' : Cluster} {i : NodeId} {n : RaftNode}
    (sim : Simulates bootstrap scope l s) (evolves : Evolves i l l') (view : View bootstrap scope l' i n)
    (node : s'.nodes i = n.takeMessages.1) (others : ∀ j, j ≠ i → s'.nodes j = s.nodes j)
    (sent : ∀ envelope ∈ s'.net, envelope ∈ s.net ∨ envelope.message ∈ n.messages) :
    Simulates bootstrap scope l' s' := by
  refine ⟨view.inv, view.regular, view.idle, ?_, ?_, ?_⟩
  · intro j
    by_cases here : j = i
    · rw [here, node]
      exact view.node.congr rfl
    · rw [others j here]
      exact (sim.nodes j).frame evolves here
  · intro j
    by_cases here : j = i
    · rw [here, node]
      rfl
    · rw [others j here]
      exact sim.drained j
  · intro envelope member
    rcases sent envelope member with old | new
    · exact (sim.sent envelope old).mono evolves.extend evolves.reached
    · exact view.sent _ new

theorem Simulates.exec (sim : Simulates bootstrap scope l s)
    (disciplined : s.enabled action → s.disciplined action) (faithful : Faithful scope l s action) :
    ∃ l', Evolves action.node l l' ∧ Simulates bootstrap scope l' (s.exec action) := by
  by_cases enabled : s.enabled action
  · obtain ⟨l', evolves, view⟩ := sim.perform enabled (disciplined enabled) faithful
    refine ⟨l', evolves, sim.put evolves view (Cluster.exec_node enabled) (fun j other => Cluster.exec_other other) ?_⟩
    intro envelope member
    rw [Cluster.exec_net] at member
    exact (List.mem_append.mp member).imp_right Cluster.mem_sends
  · rw [Cluster.exec_disabled enabled]
    exact ⟨l, Evolves.refl _ l, sim⟩

end

section

variable {bootstrap : List NodeId} {scope : Scope} {l l' l'' : Ledger NodeId Entry} {s : Cluster}

theorem Simulates.start {cfg : NodeId → Config} (boot : ∀ i, (cfg i).voters = bootstrap ∨ (cfg i).voters = []) :
    Simulates bootstrap scope Ledger.initial (Cluster.start cfg) := by
  have view : ∀ i, View bootstrap scope Ledger.initial i ((Cluster.start cfg).nodes i) := fun i =>
    View.new (Invariant.initial _) (fun _ => Regular.nil) (fun _ _ => rfl) rfl (boot i) rfl rfl (Holds.empty _) nofun
      (Rules.Settled.zero _ _)
  exact ⟨Invariant.initial _, fun _ => Regular.nil, fun _ _ => rfl, fun i => (view i).node,
    fun i => RaftNode.recomputeConf_messages _, nofun⟩

structure Continues (l l' : Ledger NodeId Entry) : Prop where
  extend : Extends l.toState l'.toState
  reached : ∀ T, l.reached T ≤ l'.reached T

theorem Continues.refl (l : Ledger NodeId Entry) : Continues l l := ⟨Extends.refl _, fun _ => Nat.le_refl _⟩

theorem Continues.trans (first : Continues l l') (second : Continues l' l'') : Continues l l'' :=
  ⟨first.extend.trans second.extend, fun T => (first.reached T).trans (second.reached T)⟩

theorem Simulates.run (admits : Cluster → Action → Prop)
    (follows : ∀ l s action, Simulates bootstrap scope l s → admits s action →
      (s.enabled action → s.disciplined action) ∧ Faithful scope l s action)
    (sim : Simulates bootstrap scope l s) {actions : List Action} (along : Cluster.Along admits s actions) :
    ∃ l', Continues l l' ∧ Simulates bootstrap scope l' (s.run actions) := by
  induction actions generalizing s l with
  | nil => exact ⟨l, Continues.refl l, sim⟩
  | cons action rest ih =>
    obtain ⟨disciplined, faithful⟩ := follows l s action sim along.1
    obtain ⟨l', evolves, sim'⟩ := sim.exec disciplined faithful
    obtain ⟨l'', continues, sim''⟩ := ih sim' along.2
    exact ⟨l'', Continues.trans ⟨evolves.extend, evolves.reached⟩ continues, sim''⟩

end

def Scope.uncompacted (fixed : Prop) : Scope := ⟨fun _ _ => False, fixed⟩

def Scope.compacted : Scope := ⟨fun _ _ => True, False⟩

section

variable {bootstrap : List NodeId} {fixed : Prop} {l : Ledger NodeId Entry} {s : Cluster}

theorem Simulates.uncompacted (sim : Simulates bootstrap (.uncompacted fixed) l s) (i : NodeId) :
    (s.nodes i).storage.snap = none := by
  cases found : (s.nodes i).storage.snap with
  | none => rfl
  | some snap => exact ((sim.nodes i).image snap found).elim

theorem Simulates.uncompacted_follows (sim : Simulates bootstrap (.uncompacted fixed) l s)
    (keeps : action.compacts = false) (changes : s.ownTermChange action) (same : fixed → action.reconfigures = false) :
    (s.enabled action → s.disciplined action) ∧ Faithful (.uncompacted fixed) l s action := by
  constructor
  · intro enabled
    rw [Cluster.disciplined, Bool.and_eq_true]
    refine ⟨?_, changes⟩
    cases action with
    | deliver envelope =>
      simp only [Cluster.enabled, decide_eq_true_eq] at enabled
      have justified := sim.sent envelope enabled
      unfold Cluster.safeDelivery RaftNode.safeInstall
      simp only
      unfold Justified at justified
      split
      · rename_i body
        rw [body] at justified
        exact justified.2.2.2.2.2.elim
      · rfl
    | _ => rfl
  · refine ⟨?_, same⟩
    intro i index data bad
    subst bad
    cases keeps

end

end Arcux.Raft
