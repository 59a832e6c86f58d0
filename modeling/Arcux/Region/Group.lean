import Arcux.Raft.Outbox
import Arcux.Region.Driver

namespace Arcux.Region

open Codec Raft

structure RaftGroup (σ : Type) where
  cluster : Cluster
  drivers : NodeId → Driver σ

inductive Event where
  | command (i : NodeId) (cmd : Cmd)
  | restart (i : NodeId) (cfg : Config)
  deriving DecidableEq

namespace RaftGroup

variable {σ ε : Type}

def start (cfg : NodeId → Config) (engine : NodeId → σ) : RaftGroup σ where
  cluster := .start cfg
  drivers := fun i => { engine := engine i }

def enabled (g : RaftGroup σ) : Event → Bool
  | .command i (.step m) | .command i (.stepReply m _) => m ∈ g.cluster.net ∧ m.message.dest = i
  | _ => true

variable (machine : Machine σ ε) (tickMs : Nat)

def turnOf (g : RaftGroup σ) (i : NodeId) (cmd : Cmd) : Turn σ ε :=
  turn machine tickMs (g.cluster.nodes i) (g.drivers i) cmd

def exec (g : RaftGroup σ) (event : Event) : RaftGroup σ :=
  if g.enabled event then
    match event with
    | .command i cmd =>
      let t := g.turnOf machine tickMs i cmd
      { cluster := { g.cluster with
          nodes := Function.update g.cluster.nodes i t.node
          net := g.cluster.net ++ t.messages.map (g.cluster.tag (cmd.action i (g.drivers i))) }
        drivers := Function.update g.drivers i t.driver }
    | .restart i cfg =>
      { cluster := g.cluster.exec (.restart i cfg)
        drivers := Function.update g.drivers i { engine := (g.drivers i).engine } }
  else g

def run (g : RaftGroup σ) (events : List Event) : RaftGroup σ := events.foldl (exec machine tickMs) g

def turns (g : RaftGroup σ) : List Event → List (Turn σ ε)
  | [] => []
  | event :: rest =>
    let later := turns (g.exec machine tickMs event) rest
    match event with
    | .command i cmd => if g.enabled event then g.turnOf machine tickMs i cmd :: later else later
    | .restart _ _ => later

def actions (g : RaftGroup σ) (event : Event) : List Action :=
  if g.enabled event then
    match event with
    | .command i cmd =>
      let action := cmd.action i (g.drivers i)
      let served := serve machine (g.cluster.nodes i) (g.drivers i) cmd
      ([action] ++ if (g.drivers i).isElected (action.perform (g.cluster.nodes i)) then [.propose i []] else []) ++
        ([.takeSnapshot i, .takeCommitted i] ++
          (if served.isLong then [.compact i served.node.lastApplied (machine.snapshot served.driver.engine)] else []) ++
          [.takeReadStates i])
    | .restart i cfg => [.restart i cfg]
  else []

variable {i : NodeId} {cmd : Cmd}

theorem enabled_action {g : RaftGroup σ} (enabled : g.enabled (.command i cmd)) :
    g.cluster.enabled (cmd.action i (g.drivers i)) ∧ (cmd.action i (g.drivers i)).node = i := by
  cases cmd with
  | step m | stepReply m =>
    obtain ⟨sent, addressed⟩ := of_decide_eq_true enabled
    exact ⟨decide_eq_true sent, addressed⟩
  | _ => exact ⟨rfl, rfl⟩

theorem action_running (i : NodeId) (driver : Driver σ) (cmd : Cmd) :
    ∀ j cfg, cmd.action i driver ≠ .restart j cfg := by
  cases cmd <;> rintro _ _ ⟨⟩

variable {s : Cluster}

theorem run_call {driver : Driver σ}
    (enabled : s.enabled (cmd.action i driver)) (node : (cmd.action i driver).node = i) :
    s.run ([cmd.action i driver] ++
        if driver.isElected ((cmd.action i driver).perform (s.nodes i)) then [.propose i []] else []) =
      s.put i (driver.call i (s.nodes i) cmd).takeMessages.1
        ((driver.call i (s.nodes i) cmd).messages.map (s.tag (cmd.action i driver))) := by
  have running := action_running i driver cmd
  unfold Driver.call
  simp only
  split
  · exact Cluster.exec_propose enabled running node rfl
  · have performed := Cluster.exec_put enabled running
    rw [node] at performed
    exact performed

theorem run_settled {n drained settled : RaftNode} {sent : List Envelope}
    (empty : n.messages = []) (drains : drained = n.takeSnapshot.1.takeCommitted.1) (long : Bool) (index : Nat)
    (data : Bytes) (settles : settled = if long then (Action.compact i index data).perform drained else drained) :
    (s.put i n sent).run ([.takeSnapshot i, .takeCommitted i] ++ (if long then [.compact i index data] else []) ++
      [.takeReadStates i]) = s.put i settled.takeReadStates.1 sent := by
  have committed : drained.messages = [] := by
    rw [drains]
    unfold RaftNode.takeCommitted
    split <;> exact empty
  have compacted : ((Action.compact i index data).perform drained).messages = [] := by
    obtain ⟨storage, same⟩ := drained.compact_frame index data
    rw [Action.perform, same]
    exact committed
  have final : settled.messages = [] := by
    rw [settles]
    split
    · exact compacted
    · exact committed
  have first : (s.put i n sent).run [.takeSnapshot i, .takeCommitted i] = s.put i drained sent := by
    have loaded : (s.put i n sent).exec (.takeSnapshot i) = s.put i n.takeSnapshot.1 sent :=
      Cluster.put_exec (.takeSnapshot i) rfl rfl (by rintro _ _ ⟨⟩) empty
    subst drains
    rw [Cluster.run_cons, loaded]
    exact Cluster.put_exec (.takeCommitted i) rfl rfl (by rintro _ _ ⟨⟩) committed
  have second : (s.put i drained sent).run (if long then [.compact i index data] else []) =
      s.put i settled sent := by
    subst settles
    cases long with
    | true => exact Cluster.put_exec (.compact i index data) rfl rfl (by rintro _ _ ⟨⟩) compacted
    | false => rfl
  rw [Cluster.run_append, Cluster.run_append, first, second]
  exact Cluster.put_exec (.takeReadStates i) rfl rfl (by rintro _ _ ⟨⟩) final

/-- Every turn of a replica is a sequence of calls on its node: the group is a run of the cluster. -/
theorem exec_cluster (g : RaftGroup σ) (event : Event) :
    (g.exec machine tickMs event).cluster = g.cluster.run (g.actions machine event) := by
  unfold exec actions
  split
  · rename_i enabled
    cases event with
    | restart i cfg => rfl
    | command i cmd =>
      obtain ⟨offered, node⟩ := enabled_action enabled
      have drains := serve_node machine i (g.cluster.nodes i) (g.drivers i) cmd
      have settles := Turn.boundLog_node (serve machine (g.cluster.nodes i) (g.drivers i) cmd) machine i
      rw [Cluster.run_append, run_call offered node, run_settled rfl drains _ _ _ settles, ← turn_node,
        ← turn_messages machine i tickMs]
      rfl
  · rfl

end RaftGroup

end Arcux.Region
