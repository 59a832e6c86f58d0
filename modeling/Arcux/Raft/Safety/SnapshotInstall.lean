import Arcux.Raft.Moves
import Arcux.Raft.Safety.StateMachine

namespace Arcux.Raft

open Codec Consensus List

section

variable {n : RaftNode}

theorem RaftNode.base_of_progressed {n' : RaftNode} (same : n'.progressed = n.progressed) :
    n'.storage.base = n.storage.base := congrArg (fun progressed => progressed.2.2) same

theorem RaftNode.handleInstallSnapshot_base {sender : NodeId} {term : Nat} {snap : Snapshot}
    (based : n.storage.base ≤ n.storage.lastIndex)
    (safe : term < n.currentTerm ∨ snap.lastIncludedIndex ≤ n.commitIndex ∨
      n.storage.supersededBy snap.lastIncludedIndex snap.lastIncludedTerm) :
    n.storage.base ≤ (n.handleInstallSnapshot sender term snap).storage.base := by
  unfold handleInstallSnapshot
  split
  · exact Nat.le_refl _
  rename_i fresh
  simp only
  split
  · exact Nat.le_refl _
  rename_i newer
  have installed : ((n.follow sender).installSnapshot snap).storage.base = snap.lastIncludedIndex := by
    unfold installSnapshot
    rw [recomputeConf_storage]
    rfl
  refine Nat.le_trans ?_ (Nat.le_of_eq installed.symm)
  rcases safe with stale | known | superseded
  · exact absurd stale fresh
  · exact absurd known newer
  · simp only [MemStorage.supersededBy, decide_eq_true_eq] at superseded
    omega

theorem RaftNode.compact_base {n' : RaftNode} {index : Nat} {data : Bytes} (done : n.compact index data = some n') :
    n.storage.base ≤ n'.storage.base := by
  rcases compact_cases done with rfl | ⟨term, above, -, -, rfl⟩
  · exact Nat.le_refl _
  · rw [MemStorage.compact_of_lt above]
    exact above.le

theorem RaftNode.step_base {msg : Message} (based : n.storage.base ≤ n.storage.lastIndex) (safe : n.safeInstall msg) :
    n.storage.base ≤ (n.step msg).storage.base := by
  by_cases still : (Action.deliver ⟨msg, 0⟩).still
  · exact (base_of_progressed (n.still_perform still)).ge
  obtain ⟨newer, _, commit⟩ := n.adoptTerm_frame msg
  have kept := n.adoptTerm_body msg
  have base := MemStorage.base_of_body kept
  obtain ⟨sender, dest, term, body⟩ := msg
  cases body with
  | installSnapshot lastIncludedIndex lastIncludedTerm confState learners data =>
    simp only [safeInstall, decide_eq_true_eq] at safe
    rw [← base]
    refine handleInstallSnapshot_base ?_ ?_
    · rw [base, MemStorage.lastIndex_of_body kept]
      exact based
    · rw [commit, MemStorage.supersededBy_of_body kept]
      exact safe.imp_left (fun stale => Nat.lt_of_lt_of_le stale newer)
  | _ => exact absurd rfl still

theorem Action.perform_base {s : Cluster} {action : Action} (safe : s.safeDelivery action)
    (based : (s.nodes action.node).storage.base ≤ (s.nodes action.node).storage.lastIndex) :
    (s.nodes action.node).storage.base ≤ (action.perform (s.nodes action.node)).storage.base := by
  by_cases still : action.still
  · exact (RaftNode.base_of_progressed (RaftNode.still_perform _ still)).ge
  cases action with
  | deliver envelope => exact RaftNode.step_base based safe
  | takeCommitted i =>
    simp only [perform, RaftNode.takeCommitted]
    split <;> exact Nat.le_refl _
  | takeSnapshot i => exact Nat.le_refl _
  | compact i index data =>
    simp only [perform, node]
    cases done : (s.nodes i).compact index data with
    | none => exact Nat.le_refl _
    | some n' => exact RaftNode.compact_base done
  | restart i cfg =>
    simp only [perform, RaftNode.new, RaftNode.recomputeConf_storage]
    exact Nat.le_refl _
  | _ => exact absurd rfl still

end

def Cluster.guarded (s : Cluster) (action : Action) : Bool := !action.reconfigures && s.safeDelivery action

section

variable {voters : List NodeId} {l : Ledger NodeId Entry} {s : Cluster}

theorem Simulates.guarded_follows (sim : Simulates voters .compacted l s) {action : Action}
    (guarded : s.guarded action) :
    (∃ l', Evolves action.node l l' ∧ Simulates voters .compacted l' (s.exec action)) ∧
      ∀ i, (s.nodes i).storage.base ≤ ((s.exec action).nodes i).storage.base := by
  rw [Cluster.guarded, Bool.and_eq_true, Bool.not_eq_true'] at guarded
  obtain ⟨fixed, safe⟩ := guarded
  have disciplined : s.disciplined action := by
    rw [Cluster.disciplined, Bool.and_eq_true]
    exact ⟨safe, Cluster.ownTermChange_of_fixed fixed⟩
  refine ⟨sim.exec (fun _ => disciplined) ⟨fun _ _ _ _ _ _ => trivial, by rintro ⟨⟩⟩, fun i => ?_⟩
  by_cases enabled : s.enabled action
  · by_cases here : i = action.node
    · subst here
      rw [Cluster.exec_node enabled]
      have log := (sim.nodes action.node).log
      exact Action.perform_base safe (log.lastIndex ▸ log.base_le)
    · rw [Cluster.exec_other here]
  · rw [Cluster.exec_disabled enabled]

theorem Simulates.guarded_run (sim : Simulates voters .compacted l s) {actions : List Action}
    (along : Cluster.Along (fun s action => s.guarded action) s actions) :
    ∃ l', Continues l l' ∧ Simulates voters .compacted l' (s.run actions) ∧
      ∀ i, (s.nodes i).storage.base ≤ ((s.run actions).nodes i).storage.base := by
  refine along.preserves (fun s' => ∃ l', Continues l l' ∧ Simulates voters .compacted l' s' ∧
    ∀ i, (s.nodes i).storage.base ≤ (s'.nodes i).storage.base) ?_ ⟨l, Continues.refl l, sim, fun _ => Nat.le_refl _⟩
  rintro s' action guarded ⟨l', continues, sim', grown⟩
  obtain ⟨⟨l'', evolves, sim''⟩, more⟩ := sim'.guarded_follows guarded
  exact ⟨l'', continues.trans ⟨evolves.extend, evolves.reached⟩, sim'', fun i => (grown i).trans (more i)⟩

theorem Tracks.acked_held {scope : Scope} {i : NodeId} {n : RaftNode} {m : Nat}
    (inv : Invariant (raftRules voters) l.toState) (tracks : Tracks voters scope l i n)
    (acked : l.acked i n.currentTerm m) : (l.log i).take m = (l.lead n.currentTerm).take m := by
  have short := (inv.ackBound i _ m acked).2
  refine take_eq_of_part ?_ short
  rcases inv.retained i n.currentTerm m (by rw [tracks.term]; omega) acked with held | ⟨U, _, _, later, within, _⟩
  · exact held
  · rw [tracks.term] at within
    omega

end

/-- The storage covers an index: its snapshot reaches it, or its log holds the given storage's entry there. -/
def MemStorage.covers (storage acked : MemStorage) (m : Nat) : Prop :=
  m ≤ storage.base ∨ (storage.entries m m = acked.entries m m ∧ storage.entries m m ≠ [])
  deriving Decidable

theorem Holds.covers {storage acked : MemStorage} {log log' : List Entry} {m : Nat} (now : Holds storage log)
    (before : Holds acked log') (same : log.take m = log'.take m) (long : m ≤ log.length)
    (grown : acked.base ≤ storage.base) : storage.covers acked m := by
  by_cases below : m ≤ storage.base
  · exact .inl below
  · have position : max m (storage.base + 1) - 1 = max m (acked.base + 1) - 1 := by omega
    refine .inr ⟨by rw [now.entries, before.entries, same, position], ?_⟩
    rw [now.entries, ne_eq, drop_eq_nil_iff, length_take]
    omega

theorem Simulates.acked_covered {voters : List NodeId} {l l' : Ledger NodeId Entry} {s s' : Cluster} {i : NodeId}
    {term m : Nat} (sim : Simulates voters .compacted l s) (sim' : Simulates voters .compacted l' s')
    (continues : Continues l l') (acked : l.acked i term m) (current : (s'.nodes i).currentTerm = term)
    (grown : (s.nodes i).storage.base ≤ (s'.nodes i).storage.base) :
    (s'.nodes i).storage.covers (s.nodes i).storage m := by
  -- The follower acknowledged in `term` and is in `term` now, so it was in `term` in between.
  have between : (s.nodes i).currentTerm = term := by
    have low := (sim.inv.ackBound i term m acked).1
    have high := continues.extend.term i
    rw [(sim.nodes i).term] at low high
    rw [(sim'.nodes i).term] at high
    exact Nat.le_antisymm (high.trans current.le) low
  have short := (sim.inv.ackBound i term m acked).2
  have acked' := continues.extend.acked _ _ _ acked
  have held := (sim.nodes i).acked_held sim.inv (between.symm ▸ acked)
  have held' := (sim'.nodes i).acked_held sim'.inv (current.symm ▸ acked')
  rw [between] at held
  rw [current, continues.extend.take_lead short] at held'
  refine (sim'.nodes i).log.covers (sim.nodes i).log (held'.trans held.symm) ?_ grown
  have size := congrArg length held'
  rw [length_take, length_take] at size
  omega

/-- In a run where every installed snapshot supersedes the log it replaces, a follower that is still in
the term of an acknowledgement it sent covers the index it acknowledged. -/
theorem acknowledged_stays_covered {voters : List NodeId} {cfg : NodeId → Config}
    (shared : ∀ i, (cfg i).voters = voters) {before after : List Action} {action : Action}
    (guarded : Cluster.Along (fun s action => s.guarded action) (Cluster.start cfg) (before ++ action :: after))
    {envelope : Envelope} {m readRound : Nat} (sent : envelope ∈ ((Cluster.start cfg).run before).sends action)
    (body : envelope.message.body = .appendEntriesResp true m readRound)
    (current : (((Cluster.start cfg).run (before ++ action :: after)).nodes envelope.message.sender).currentTerm =
      envelope.message.term) :
    (((Cluster.start cfg).run (before ++ action :: after)).nodes envelope.message.sender).storage.covers
      (((Cluster.start cfg).run (before ++ [action])).nodes envelope.message.sender).storage m := by
  have start : Simulates voters .compacted Ledger.initial (Cluster.start cfg) :=
    Simulates.start (fun i => .inl (shared i))
  obtain ⟨along, guardedAction, along'⟩ := Cluster.Along.append.mp guarded
  obtain ⟨l, _, sim, _⟩ := start.guarded_run along
  obtain ⟨⟨l', _, sim'⟩, _⟩ := sim.guarded_follows guardedAction
  obtain ⟨l'', continues, sim'', grown⟩ := sim'.guarded_run along'
  have received : envelope ∈ (((Cluster.start cfg).run before).exec action).net := by
    rw [Cluster.exec_net]
    exact mem_append_right _ sent
  have justified := sim'.sent envelope received
  obtain ⟨⟨i, dest, term, _⟩, incarnation⟩ := envelope
  subst body
  rw [Cluster.run_append] at current ⊢
  rw [Cluster.run_append]
  exact sim'.acked_covered sim'' continues (justified rfl) current (grown i)

def acknowledging : List Action := firstElection ++
  [.propose 1 [7], .receive 1 2 1 (.appendEntries 0 0 [.normal 1 1 [7]] 0 0), .propose 1 [8]]

def acknowledgment : Action := .receive 1 3 1 (.appendEntries 0 0 [.normal 1 1 [7], .normal 1 2 [8]] 0 0)

def compacting : List Action :=
  [.receive 2 1 1 (.appendEntriesResp true 1 0), .takeCommitted 1, .compact 1 1 [0], .tick 1]

def overtaking : List Action := compacting ++ [.receive 1 3 1 (.installSnapshot 1 1 [1, 2, 3] [] [0])]

def superseding : List Action :=
  [.receive 1 2 1 (.appendEntries 0 0 [.normal 1 1 [7], .normal 1 2 [8]] 0 0), .receive 2 1 1 (.appendEntriesResp true 2 0),
    .takeCommitted 1, .compact 1 2 [0], .tick 1, .receive 1 3 1 (.installSnapshot 2 1 [1, 2, 3] [] [0])]

theorem acknowledged_stays_covered_superseded :
    (((Cluster.start trio).run (acknowledging ++ acknowledgment :: superseding)).nodes 3).storage.base = 2 ∧
    (((Cluster.start trio).run (acknowledging ++ acknowledgment :: superseding)).nodes 3).storage.covers
      (((Cluster.start trio).run (acknowledging ++ [acknowledgment])).nodes 3).storage 2 := by
  have guarded : Cluster.Along (fun s action => s.guarded action) (Cluster.start trio)
      (acknowledging ++ acknowledgment :: superseding) := by decide +kernel
  have sent : ⟨⟨3, 1, 1, .appendEntriesResp true 2 0⟩, 0⟩ ∈
      ((Cluster.start trio).run acknowledging).sends acknowledgment := by decide +kernel
  have current : (((Cluster.start trio).run (acknowledging ++ acknowledgment :: superseding)).nodes 3).currentTerm = 1 := by
    decide +kernel
  have covered := acknowledged_stays_covered trio_voters guarded sent rfl
  exact ⟨by decide +kernel, covered current⟩

theorem acknowledged_dropped :
    (∀ action ∈ acknowledging ++ acknowledgment :: overtaking, action.reconfigures = false) ∧
    ⟨⟨3, 1, 1, .appendEntriesResp true 2 0⟩, 0⟩ ∈ ((Cluster.start trio).run acknowledging).sends acknowledgment ∧
    (((Cluster.start trio).run (acknowledging ++ acknowledgment :: overtaking)).nodes 3).currentTerm = 1 ∧
    ¬ (((Cluster.start trio).run (acknowledging ++ acknowledgment :: overtaking)).nodes 3).storage.covers
      (((Cluster.start trio).run (acknowledging ++ [acknowledgment])).nodes 3).storage 2 := by
  decide +kernel

end Arcux.Raft
