import Arcux.Pd.Cursor
import Arcux.Region.Proposals

namespace Arcux.Region

open Codec Consensus List Pd Raft

variable {σ ε : Type}

namespace Machine

variable (machine : Machine σ ε) (engine : σ)

def replay (entries : List Entry) : σ := entries.foldl (fun engine e => (machine.run engine e).1) engine

def load : Option (Nat × Bytes) → σ
  | some (_, data) => machine.restore engine data
  | none => engine

/-- A snapshot brings whoever has applied a first part of its log to where replay brings it. -/
def Exact : Prop := ∀ entries more, let whole := machine.replay engine (entries ++ more)
  machine.restore (machine.replay engine entries) (machine.snapshot whole) = whole

variable (i : NodeId) (node : RaftNode) (driver : Driver σ) (cmd : Cmd)

theorem serve_engine : (serve machine node driver cmd).driver.engine =
    machine.replay (machine.load driver.engine (driver.call i node cmd).pendingSnapshot)
      (driver.call i node cmd).takeMessages.1.takeSnapshot.1.takeCommitted.2 := by
  have executed (t : Turn σ ε) : (t.execute cmd).driver.engine = t.driver.engine := by
    cases cmd <;> simp only [Turn.execute] <;> split <;> rfl
  have routed (t : Turn σ ε) : (t.route cmd).driver.engine = t.driver.engine := by cases cmd <;> rfl
  have loaded (t : Turn σ ε) : (t.load machine).driver.engine = machine.load t.driver.engine t.node.pendingSnapshot := by
    unfold Turn.load RaftNode.takeSnapshot
    cases t.node.pendingSnapshot <;> rfl
  have applied (t : Turn σ ε) :
      (t.applyCommitted machine).driver.engine = machine.replay t.driver.engine t.node.takeCommitted.2 := by
    refine (foldl_hom (fun t : Turn σ ε => t.driver.engine) fun t e => ?_).symm
    unfold Turn.applyEntry
    simp only
    split <;> rfl
  unfold serve
  rw [applied, loaded, Turn.load_node, Turn.route_node, Turn.announce_node _ cmd i, routed]
  exact congrArg (fun engine => machine.replay (machine.load engine _) _) (executed _)

theorem turn_engine (tickMs : Nat) :
    (turn machine tickMs node driver cmd).driver.engine = (serve machine node driver cmd).driver.engine := by
  have bounded (t : Turn σ ε) : (t.boundLog machine).driver.engine = t.driver.engine := by
    unfold Turn.boundLog
    split <;> rfl
  have swept (t : Turn σ ε) : t.sweep.driver.engine = t.driver.engine := by
    unfold Turn.sweep
    split <;> rfl
  have expired (t : Turn σ ε) : (t.expire tickMs cmd).driver.engine = t.driver.engine := by
    unfold Turn.expire
    split <;> rfl
  have confirmed (t : Turn σ ε) : t.confirmReads.driver.engine = t.driver.engine := rfl
  rw [turn, expired, swept, confirmed, bounded]

end Machine

structure Founding (σ ε : Type) where
  voters : List NodeId
  machine : Machine σ ε
  origin : σ

def Founding.scope (f : Founding σ ε) : Scope := ⟨fun log data => data = f.machine.snapshot (f.machine.replay f.origin log), False⟩

/-- With the snapshot that waits for it, the engine is where the log that the node has handed out leads. -/
structure Mirrors (f : Founding σ ε) (engine : σ) (l : Ledger NodeId Entry) (i : NodeId) (n : RaftNode) : Prop where
  view : View f.voters f.scope l i n
  loads : f.machine.load engine n.pendingSnapshot = f.machine.replay f.origin ((l.log i).take (position n))

structure Rests (f : Founding σ ε) (engine : σ) (l : Ledger NodeId Entry) (i : NodeId) (n : RaftNode) : Prop
    extends Mirrors f engine l i n where
  drained : n.pendingSnapshot = none
  quiet : n.messages = []

section

variable {f : Founding σ ε} {engine : σ} {l l' : Ledger NodeId Entry} {i : NodeId} {n n' : RaftNode}
  {driver : Driver σ} {cmd : Cmd} {tickMs : Nat} {g : RaftGroup σ}

theorem Mirrors.moved (mirrors : Mirrors f engine l i n) (evolves : Evolves i l l')
    (view : View f.voters f.scope l' i n') (still : n'.progressed = n.progressed) : Mirrors f engine l' i n' := by
  have same := position_of_progressed still
  have pending : n'.pendingSnapshot = n.pendingSnapshot := congrArg (fun progressed => progressed.2.1) still
  refine ⟨view, ?_⟩
  rw [pending, same, take_log_eq mirrors.view.node view evolves (Nat.le_refl _) same.ge]
  exact mirrors.loads

theorem Mirrors.loaded (mirrors : Mirrors f engine l i n) :
    Rests f (f.machine.load engine n.pendingSnapshot) l i n.takeMessages.1.takeSnapshot.1 := by
  have view := mirrors.view
  exact ⟨⟨{ view with node := view.node.congr rfl, sent := nofun }, mirrors.loads⟩, rfl, rfl⟩

namespace Rests

variable (rests : Rests f engine l i n)

include rests

theorem caught : engine = f.machine.replay f.origin ((l.log i).take (position n)) := by
  have loads := rests.loads
  rwa [rests.drained, Machine.load] at loads

theorem stepped (exact : f.machine.Exact f.origin) {msg : Message} (safe : n.safeInstall msg) (evolves : Evolves i l l')
    (view : View f.voters f.scope l' i (n.step msg)) : Mirrors f engine l' i (n.step msg) := by
  rcases n.step_progressed msg with still | ⟨snap, held, beyond, progressed⟩
  · exact rests.moved evolves view still
  have node := rests.view.node
  have above := RaftNode.step_base (node.log.lastIndex ▸ node.log.base_le) safe
  have applied := node.applied
  simp only [RaftNode.progressed, Prod.mk.injEq] at progressed
  have here : position (n.step msg) = snap.lastIncludedIndex := by
    rw [position, progressed.1, progressed.2.2, Nat.max_self]
  have before : position n ≤ snap.lastIncludedIndex := by
    rw [position]
    omega
  obtain ⟨more, whole⟩ := take_prefix_take_left (l := l'.log i) before
  refine ⟨view, ?_⟩
  rw [progressed.2.1, here, Machine.load, rests.caught, view.node.image snap held,
    ← take_log_eq node view evolves (Nat.le_refl _) (here ▸ before), ← whole]
  exact exact _ more

theorem takeCommitted : Rests f (f.machine.replay engine n.takeCommitted.2) l i n.takeCommitted.1 := by
  have kept : n.takeCommitted.1.pendingSnapshot = none ∧ n.takeCommitted.1.messages = [] := by
    unfold RaftNode.takeCommitted
    split <;> exact ⟨rests.drained, rests.quiet⟩
  refine ⟨⟨rests.view.takeCommitted, ?_⟩, kept.1, kept.2⟩
  rw [kept.1, Machine.load, take_position_takeCommitted, Machine.replay, Machine.replay, foldl_append,
    rests.view.node.takeCommitted_eq, rests.caught]
  rfl

theorem compact : Rests f engine l i ((n.compact n.lastApplied (f.machine.snapshot engine)).getD n) := by
  have image (above : n.storage.base < n.lastApplied) (_ : n.lastApplied ≤ n.lastApplied) :
      f.scope.image ((l.log i).take n.lastApplied) (f.machine.snapshot engine) := by
    rw [rests.caught, position, Nat.max_eq_left above.le]
    rfl
  have same : position ((n.compact n.lastApplied (f.machine.snapshot engine)).getD n) = position n := by
    cases done : n.compact n.lastApplied (f.machine.snapshot engine) with
    | none => rfl
    | some n' =>
      rcases n.compact_progressed done with still | ⟨base, progressed, above, within⟩
      · exact position_of_progressed still
      · simp only [RaftNode.progressed, Prod.mk.injEq] at progressed
        rw [Option.getD_some, position, position, progressed.1, progressed.2.2]
        omega
  obtain ⟨-, -, -, messages, pending, -⟩ := compact_kept n n.lastApplied (f.machine.snapshot engine)
  refine ⟨⟨rests.view.compact image, ?_⟩, pending.trans rests.drained, messages.trans rests.quiet⟩
  rw [pending, same]
  exact rests.loads

theorem call (exact : f.machine.Exact f.origin) {s : Cluster} (sim : Simulates f.voters f.scope l s)
    (node : s.nodes i = n) (enabled : s.enabled (cmd.action i driver)) (own : (cmd.action i driver).node = i)
    (disciplined : s.disciplined (cmd.action i driver)) :
    ∃ l', Evolves i l l' ∧ Mirrors f engine l' i (driver.call i n cmd) := by
  have faithful : Faithful f.scope l s (cmd.action i driver) := by
    refine ⟨fun j index data same => ?_, False.elim⟩
    cases cmd <;> cases same
  obtain ⟨l', evolves, view⟩ := sim.perform enabled disciplined faithful
  rw [own] at evolves view
  rw [node] at view
  have performed : Mirrors f engine l' i ((cmd.action i driver).perform n) := by
    cases cmd with
    | step m | stepReply m tx =>
      obtain ⟨safe, -⟩ := Bool.and_eq_true_iff.mp disciplined
      change (s.nodes m.message.dest).safeInstall m.message at safe
      rw [show m.message.dest = i from own, node] at safe
      exact rests.stepped exact safe evolves view
    | _ => exact rests.moved evolves view (n.still_perform rfl)
  unfold Driver.call
  simp only
  split
  · simp only [Action.perform] at performed ⊢
    split
    · rename_i accepted
      obtain ⟨l'', evolves', view'⟩ := performed.view.propose accepted
      exact ⟨l'', evolves.trans evolves', performed.moved evolves' view' (propose_progressed accepted)⟩
    · exact ⟨l', evolves, performed⟩
  · exact ⟨l', evolves, performed⟩

end Rests

theorem Mirrors.turn (tickMs : Nat) (called : Mirrors f driver.engine l i (driver.call i n cmd)) :
    Rests f (turn f.machine tickMs n driver cmd).driver.engine l i (turn f.machine tickMs n driver cmd).node := by
  have served := called.loaded.takeCommitted
  rw [← f.machine.serve_engine i n driver cmd, ← serve_node f.machine i n driver cmd] at served
  have answered {m : RaftNode} (rests : Rests f (serve f.machine n driver cmd).driver.engine l i m) :
      Rests f (serve f.machine n driver cmd).driver.engine l i m.takeReadStates.1 :=
    ⟨⟨rests.view.congr rfl rfl, rests.loads⟩, rests.drained, rests.quiet⟩
  rw [Machine.turn_engine, turn_node, Turn.boundLog_node _ f.machine i]
  split
  · exact answered served.compact
  · exact answered served

namespace RaftGroup

structure Replicates (f : Founding σ ε) (l : Ledger NodeId Entry) (g : RaftGroup σ) : Prop where
  sim : Simulates f.voters f.scope l g.cluster
  rests : ∀ i, Rests f (g.drivers i).engine l i (g.cluster.nodes i)

def admits (g : RaftGroup σ) : Event → Bool
  | .command i cmd => g.cluster.disciplined (cmd.action i (g.drivers i))
  | .restart .. => false

theorem Replicates.exec (replicates : g.Replicates f l) (exact : f.machine.Exact f.origin) {event : Event}
    (admitted : g.admits event) : ∃ l', Continues l l' ∧ (g.exec f.machine tickMs event).Replicates f l' := by
  unfold RaftGroup.exec
  split
  · rename_i enabled
    cases event with
    | restart => cases admitted
    | command i cmd =>
      obtain ⟨sim, rests⟩ := replicates
      obtain ⟨offered, own⟩ := enabled_action enabled
      obtain ⟨l', evolves, called⟩ := (rests i).call exact sim rfl offered own admitted
      have turned := called.turn tickMs
      have view : View f.voters f.scope l' i { (g.turnOf f.machine tickMs i cmd).node with
          messages := ((g.drivers i).call i (g.cluster.nodes i) cmd).messages } :=
        ⟨called.view.inv, called.view.regular, called.view.idle, turned.view.node.congr rfl, called.view.sent⟩
      have sim' : Simulates f.voters f.scope l' (g.cluster.put i (g.turnOf f.machine tickMs i cmd).node
          ((g.turnOf f.machine tickMs i cmd).messages.map (g.cluster.tag (cmd.action i (g.drivers i))))) := by
        refine sim.put evolves view ?_ (fun j other => Function.update_of_ne other _ _) fun envelope member => ?_
        · exact (Function.update_self ..).trans (RaftNode.takeMessages_self turned.quiet).symm
        · refine (mem_append.mp member).imp_right fun new => ?_
          obtain ⟨msg, posted, rfl⟩ := mem_map.mp new
          rw [turnOf, turn_messages f.machine i] at posted
          rwa [Cluster.tag_message]
      refine ⟨l', ⟨evolves.extend, evolves.reached⟩, sim', fun j => ?_⟩
      by_cases here : j = i
      · subst here
        simp only [Function.update_self]
        exact turned
      · have kept := sim'.view j
        simp only [Cluster.put, Function.update_of_ne here] at kept ⊢
        exact ⟨⟨kept, (evolves.log j here).symm ▸ (rests j).loads⟩, (rests j).drained, (rests j).quiet⟩
  · exact ⟨l, Continues.refl l, replicates⟩

def Admitted (machine : Machine σ ε) (tickMs : Nat) : RaftGroup σ → List Event → Bool
  | _, [] => true
  | g, event :: rest => g.admits event && (g.exec machine tickMs event).Admitted machine tickMs rest

theorem Replicates.run (replicates : g.Replicates f l) (exact : f.machine.Exact f.origin) {events : List Event}
    (admitted : g.Admitted f.machine tickMs events) :
    ∃ l', Continues l l' ∧ (g.run f.machine tickMs events).Replicates f l' := by
  induction events generalizing g l with
  | nil => exact ⟨l, Continues.refl l, replicates⟩
  | cons event rest ih =>
    obtain ⟨now, later⟩ := Bool.and_eq_true_iff.mp admitted
    obtain ⟨l', continues, next⟩ := replicates.exec exact now
    obtain ⟨l'', continues', last⟩ := ih next later
    exact ⟨l'', continues.trans continues', last⟩

/-- The engines are where the logs lead, of which the nodes hold all but what their snapshots cover. -/
def Replays (machine : Machine σ ε) (origin : σ) (logs : NodeId → List Entry) (g : RaftGroup σ) : Prop :=
  ∀ i, let n := g.cluster.nodes i
    (g.drivers i).engine = machine.replay origin (logs i) ∧ (logs i).length = position n ∧
      n.storage.entries 1 (position n) = (logs i).drop n.storage.base

theorem Replicates.replays (replicates : g.Replicates f l) :
    g.Replays f.machine f.origin fun i => (l.log i).take (position (g.cluster.nodes i)) := by
  intro i
  have rests := replicates.rests i
  refine ⟨rests.caught, ?_, ?_⟩
  · rw [length_take, Nat.min_eq_left (settled_position rests.view.node).le_length]
  · rw [rests.view.node.log.entries, Nat.max_eq_right (Nat.le_add_left ..), Nat.add_sub_cancel]

/-- State machine replication: throughout a run without restarts the engines replay first parts of one log. -/
theorem replicas_replay_one_log {cfg : NodeId → Config} (boot : ∀ i, (cfg i).voters = f.voters ∨ (cfg i).voters = [])
    (exact : f.machine.Exact f.origin) {events rest : List Event}
    (admitted : (start cfg fun _ => f.origin).Admitted f.machine tickMs events)
    (started : (start cfg fun _ => f.origin).run f.machine tickMs events = g)
    (admitted' : g.Admitted f.machine tickMs rest) :
    ∃ logs logs', g.Replays f.machine f.origin logs ∧ (g.run f.machine tickMs rest).Replays f.machine f.origin logs' ∧
      ∀ i j, logs i <+: logs' j ∨ logs' j <+: logs i := by
  have fresh : (start cfg fun _ => f.origin).Replicates f Ledger.initial := by
    have sim : Simulates f.voters f.scope _ (.start cfg) := Simulates.start boot
    have drained (i : NodeId) : ((Cluster.start cfg).nodes i).pendingSnapshot = none := by
      have same := RaftNode.recomputeConf_progressed (RaftNode.recover { cfg i with id := i } {}).resetElectionTimer
      exact congrArg (fun progressed => progressed.2.1) same
    refine ⟨sim, fun i => ⟨⟨sim.view i, ?_⟩, drained i, sim.drained i⟩⟩
    change f.machine.load _ ((Cluster.start cfg).nodes i).pendingSnapshot = _
    rw [drained]
    exact congrArg (f.machine.replay f.origin) take_nil.symm
  obtain ⟨l, -, replicates⟩ := fresh.run exact admitted
  rw [started] at replicates
  obtain ⟨l', continues, replicates'⟩ := replicates.run exact admitted'
  refine ⟨_, _, replicates.replays, replicates'.replays, fun i j => ?_⟩
  have settled := (settled_position (replicates.sim.nodes i)).mono continues.extend continues.reached
  have settled' := settled_position (replicates'.sim.nodes j)
  rcases Nat.le_total (position _) (position _) with less | less
  · rw [settled.agree replicates'.sim.inv settled' less]
    exact .inl (take_prefix_take_left less)
  · rw [settled'.agree replicates'.sim.inv settled less]
    exact .inr (take_prefix_take_left less)

end RaftGroup

end

def register : Founding Bytes Unit := ⟨[1, 2, 3], ⟨fun _ data => (data, .ok ()), id, fun _ data => data⟩, []⟩

def registers : RaftGroup Bytes := (RaftGroup.start trio fun _ => []).run register.machine 30 elected

theorem RaftGroup.replicas_replay_one_log_register :
    ((registers.run register.machine 30 (proposed :: acknowledged)).drivers 1).engine = [7] ∧
      ∃ logs logs', registers.Replays register.machine [] logs ∧
        (registers.run register.machine 30 (proposed :: acknowledged)).Replays register.machine [] logs' ∧
        ∀ i j, logs i <+: logs' j ∨ logs' j <+: logs i :=
  ⟨by decide +kernel, replicas_replay_one_log (f := register) (fun i => .inl (trio_voters i)) (fun _ _ => rfl)
    (by decide +kernel) rfl (by decide +kernel)⟩

end Arcux.Region
