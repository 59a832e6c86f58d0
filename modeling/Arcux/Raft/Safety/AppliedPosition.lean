import Arcux.Raft.Safety.SnapshotInstall

namespace Arcux.Raft

open Codec Consensus List

namespace RaftNode

variable (n : RaftNode)

/-- A delivery hands out nothing and keeps the base, or it installs a snapshot beyond the commit index. -/
theorem step_progressed (msg : Message) : (n.step msg).progressed = n.progressed ∨
    ∃ snap, (n.step msg).storage.snap = some snap ∧ n.commitIndex < snap.lastIncludedIndex ∧ (n.step msg).progressed =
      (snap.lastIncludedIndex, some (snap.lastIncludedIndex, snap.data), snap.lastIncludedIndex) := by
  by_cases still : (Action.deliver ⟨msg, 0⟩).still
  · exact .inl (n.still_perform still)
  have adopted : (n.adoptTerm msg).progressed = n.progressed := by
    unfold adoptTerm
    split
    · unfold becomeFollower
      simp only
      split <;> rfl
    · rfl
  have commit := (n.adoptTerm_frame msg).2.2
  obtain ⟨sender, dest, term, body⟩ := msg
  cases body with
  | installSnapshot lastIncludedIndex lastIncludedTerm confState learners data =>
    simp only [step, handleInstallSnapshot]
    split
    · exact .inl adopted
    split
    · exact .inl adopted
    rename_i beyond
    have later : n.commitIndex < lastIncludedIndex := commit ▸ Nat.lt_of_not_le beyond
    exact .inr ⟨⟨lastIncludedIndex, lastIncludedTerm, confState, learners, data⟩, congrArg MemStorage.snap (recomputeConf_storage _),
      later, recomputeConf_progressed _⟩
  | _ => exact absurd rfl still

theorem compact_progressed {n' : RaftNode} {index : Nat} {data : Bytes} (done : n.compact index data = some n') :
    n'.progressed = n.progressed ∨ ∃ base, n'.progressed = (n.lastApplied, n.pendingSnapshot, base) ∧
      n.storage.base < base ∧ base ≤ n.lastApplied := by
  rcases compact_cases done with rfl | ⟨term, above, below, -, rfl⟩
  · exact .inl rfl
  · refine .inr ⟨index, ?_, above, below⟩
    rw [MemStorage.compact_of_lt above]
    rfl

end RaftNode

inductive Brought where
  | snapshot (index : Nat)
  | entry (index : Nat)
  deriving Repr, DecidableEq

def Brought.position : Brought → Nat
  | snapshot index | entry index => index

def Cluster.brings (s : Cluster) (i : NodeId) : Action → List Brought
  | .takeSnapshot j => if j = i then ((s.nodes i).takeSnapshot.2.map fun taken => .snapshot taken.1).toList else []
  | .takeCommitted j => if j = i then (s.nodes i).takeCommitted.2.map fun e => .entry e.index else []
  | _ => []

def Cluster.brought (i : NodeId) : Cluster → List Action → List Brought
  | _, [] => []
  | s, action :: rest => s.brings i action ++ brought i (s.exec action) rest

/-- From `position` on, entries follow one by one and snapshots lead further; the first step of a life may be the snapshot
that the driver started from. -/
def Ascends (first : Bool) (position : Nat) : List Brought → Prop
  | [] => True
  | .entry index :: rest => index = position + 1 ∧ Ascends false index rest
  | .snapshot index :: rest => (position < index ∨ first ∧ index = position) ∧ Ascends false index rest

theorem Ascends.ge {first : Bool} {position : Nat} {events : List Brought} (ascends : Ascends first position events) :
    ∀ e ∈ events, position ≤ e.position := by
  induction events generalizing first position with
  | nil => exact forall_mem_nil _
  | cons e rest ih =>
    cases e with
    | entry index =>
      obtain ⟨next, later⟩ := ascends
      refine forall_mem_cons.mpr ⟨?_, fun e member => le_trans ?_ (ih later e member)⟩
      all_goals
        change position ≤ index
        omega
    | snapshot index =>
      obtain ⟨further, later⟩ := ascends
      refine forall_mem_cons.mpr ⟨?_, fun e member => le_trans ?_ (ih later e member)⟩
      all_goals
        change position ≤ index
        omega

theorem ascends_entries {first : Bool} {position count : Nat} {rest : List Brought} :
    Ascends first position ((range' (position + 1) count).map .entry ++ rest) ↔
      Ascends (first && count = 0) (position + count) rest := by
  induction count generalizing first position with
  | zero => simp
  | succ count ih =>
    have place : position + 1 + count = position + (count + 1) := by omega
    rw [range'_succ, map_cons, cons_append, Ascends, ih, and_iff_right rfl, place]
    simp

structure RaftNode.Stands (n : RaftNode) (first : Bool) (position : Nat) : Prop where
  drained : n.pendingSnapshot = none → max n.lastApplied n.storage.base = position
  behind : n.pendingSnapshot = none → n.lastApplied < n.storage.base → first = true
  waiting : ∀ k data, n.pendingSnapshot = some (k, data) →
    n.lastApplied = k ∧ n.storage.base = k ∧ (position < k ∨ first ∧ k = position)

namespace RaftNode.Stands

variable {n n' : RaftNode} {first : Bool} {position : Nat}

theorem congr (stands : n.Stands first position) (same : n'.progressed = n.progressed) : n'.Stands first position := by
  simp only [progressed, Prod.mk.injEq] at same
  obtain ⟨applied, pending, base⟩ := same
  obtain ⟨drained, behind, waiting⟩ := stands
  rw [← applied, ← pending, ← base] at drained behind
  refine ⟨drained, behind, fun k data found => ?_⟩
  rw [applied, base]
  exact waiting k data (pending ▸ found)

theorem fresh (cfg : Config) (storage : MemStorage) : (RaftNode.new cfg storage).Stands true storage.base := by
  have recovered : (RaftNode.recover cfg storage).resetElectionTimer.Stands true storage.base :=
    ⟨fun _ => Nat.zero_max _, fun _ _ => rfl, nofun⟩
  exact recovered.congr (recomputeConf_progressed _)

variable {data : Bytes} {k : Nat}

theorem install (stands : n.Stands first position) (applied : n.lastApplied < k)
    (above : n.storage.base ≤ k) (installed : n'.progressed = (k, some (k, data), k)) : n'.Stands first position := by
  simp only [progressed, Prod.mk.injEq] at installed
  obtain ⟨applied', pending', base⟩ := installed
  have waits : ∀ {p : Prop}, n'.pendingSnapshot = none → p := fun none => by
    rw [pending'] at none
    cases none
  refine ⟨waits, waits, fun k' data' found => ?_⟩
  rw [pending'] at found
  cases found
  refine ⟨applied', base, ?_⟩
  cases pending : n.pendingSnapshot with
  | none =>
    have here := stands.drained pending
    by_cases behind : n.lastApplied < n.storage.base
    · rcases above.lt_or_eq with further | same
      · left
        omega
      · exact .inr ⟨stands.behind pending behind, by omega⟩
    · left
      omega
  | some waiting =>
    obtain ⟨old, _, further⟩ := stands.waiting waiting.1 waiting.2 pending
    left
    omega

theorem compact (stands : n.Stands first position) {index : Nat}
    (done : n.compact index data = some n') : n'.Stands first position := by
  obtain kept | ⟨base, moved, above, within⟩ := n.compact_progressed done
  · exact stands.congr kept
  simp only [progressed, Prod.mk.injEq] at moved
  obtain ⟨applied, pending, rfl⟩ := moved
  refine ⟨fun none => ?_, fun none => ?_, fun k data' found => ?_⟩
  · have here := stands.drained (pending ▸ none)
    omega
  · omega
  · have waits := stands.waiting k data' (pending ▸ found)
    omega

theorem takeSnapshot (stands : n.Stands first position)
    (pending : n.pendingSnapshot = some (k, data)) : n.takeSnapshot.1.Stands false k := by
  obtain ⟨applied, base, -⟩ := stands.waiting k data pending
  refine ⟨fun _ => ?_, fun _ behind => ?_, nofun⟩
  · change max n.lastApplied n.storage.base = k
    omega
  · change n.lastApplied < n.storage.base at behind
    omega

theorem takeCommitted (stands : n.Stands first position) (none : n.pendingSnapshot = none) :
    n.takeCommitted.1.Stands (first && n.commitIndex - position = 0) (position + (n.commitIndex - position)) := by
  have here := stands.drained none
  have behind := stands.behind none
  unfold RaftNode.takeCommitted
  split
  · rename_i done
    have nothing : n.commitIndex - position = 0 := by omega
    rw [nothing, Nat.add_zero, decide_eq_true rfl, Bool.and_true]
    exact stands
  · rename_i more
    refine ⟨fun _ => ?_, fun _ short => ?_, fun k data found => ?_⟩
    · change max n.commitIndex n.storage.base = _
      omega
    · change n.commitIndex < n.storage.base at short
      rw [behind (by omega), Bool.true_and, decide_eq_true_eq]
      omega
    · change n.pendingSnapshot = some (k, data) at found
      rw [none] at found
      cases found

theorem perform {s : Cluster} {action : Action} (stands : (s.nodes action.node).Stands first position)
    (applied : (s.nodes action.node).lastApplied ≤ (s.nodes action.node).commitIndex)
    (based : (s.nodes action.node).storage.base ≤ (s.nodes action.node).storage.lastIndex)
    (safe : s.safeDelivery action) (running : ∀ i cfg, action ≠ .restart i cfg)
    (untaken : ∀ i, action ≠ .takeCommitted i) (unloaded : ∀ i, action ≠ .takeSnapshot i) :
    (action.perform (s.nodes action.node)).Stands first position := by
  by_cases still : action.still
  · exact stands.congr (RaftNode.still_perform _ still)
  cases action with
  | deliver envelope =>
    rcases RaftNode.step_progressed _ envelope.message with same | ⟨snap, -, beyond, installed⟩
    · exact stands.congr same
    · have grown := RaftNode.step_base based safe
      have base : (RaftNode.step _ envelope.message).storage.base = snap.lastIncludedIndex := congrArg (fun progressed => progressed.2.2) installed
      exact stands.install (applied.trans_lt beyond) (base ▸ grown) installed
  | takeCommitted i => exact absurd rfl (untaken i)
  | takeSnapshot i => exact absurd rfl (unloaded i)
  | compact i index data =>
    simp only [Action.perform, Action.node]
    cases done : (s.nodes i).compact index data with
    | none => exact stands
    | some n' => exact stands.compact done
  | restart i cfg => exact absurd rfl (running i cfg)
  | _ => exact absurd rfl still

end RaftNode.Stands

def Cluster.drains (i : NodeId) (s : Cluster) (action : Action) : Prop :=
  action = .takeCommitted i → (s.nodes i).pendingSnapshot = none
  deriving Decidable

variable {action : Action}

theorem Cluster.brings_other {s : Cluster} {i : NodeId} (other : i ≠ action.node) : s.brings i action = [] := by
  cases action with
  | takeSnapshot j => exact if_neg other.symm
  | takeCommitted j => exact if_neg other.symm
  | _ => rfl

section

variable {voters : List NodeId} {l : Ledger NodeId Entry} {s : Cluster} {i : NodeId} {first : Bool} {position : Nat}

theorem Simulates.brings_ascends (sim : Simulates voters .compacted l s) (guarded : s.guarded action)
    (drains : s.drains i action) (alive : ∀ cfg, action ≠ .restart i cfg) (stands : (s.nodes i).Stands first position) :
    ∃ first' position', ((s.exec action).nodes i).Stands first' position' ∧
      ∀ rest, Ascends first' position' rest → Ascends first position (s.brings i action ++ rest) := by
  by_cases other : i ≠ action.node
  · refine ⟨first, position, ?_, fun rest ascends => ?_⟩
    · rw [Cluster.exec_other other]
      exact stands
    · rw [Cluster.brings_other other]
      exact ascends
  rw [not_not] at other
  subst other
  by_cases enabled : s.enabled action
  case neg =>
    refine ⟨first, position, ?_, fun rest ascends => ?_⟩
    · rw [Cluster.exec_disabled enabled]
      exact stands
    · cases action with
      | deliver envelope => exact ascends
      | _ => exact absurd rfl enabled
  rw [Cluster.exec_node enabled]
  -- a message that is taken out of the outbox moves nothing
  have sent : ∀ {n : RaftNode} {first' : Bool} {position' : Nat}, n.Stands first' position' →
      n.takeMessages.1.Stands first' position' := fun stands => stands.congr rfl
  have tracks := sim.nodes action.node
  rw [Cluster.guarded, Bool.and_eq_true, Bool.not_eq_true'] at guarded
  cases action with
  | takeSnapshot j =>
    simp only [Action.perform, Action.node, Cluster.brings, if_pos] at stands ⊢
    cases pending : (s.nodes j).pendingSnapshot with
    | none =>
      refine ⟨first, position, sent (stands.congr ?_), fun rest ascends => ?_⟩
      · simp only [RaftNode.progressed, RaftNode.takeSnapshot, pending]
      · simpa [RaftNode.takeSnapshot, pending] using ascends
    | some taken =>
      refine ⟨false, taken.1, sent (stands.takeSnapshot pending), fun rest ascends => ?_⟩
      have further := (stands.waiting taken.1 taken.2 pending).2.2
      simp only [RaftNode.takeSnapshot, pending, Option.map_some, Option.toList_some, singleton_append]
      exact ⟨further, ascends⟩
  | takeCommitted j =>
    simp only [Action.perform, Action.node, Cluster.brings, if_pos] at stands tracks ⊢
    have none := drains rfl
    have here := stands.drained none
    have taken : (s.nodes j).takeCommitted.2.map (fun e => Brought.entry e.index) =
        (range' (position + 1) ((s.nodes j).commitIndex - position)).map .entry := by
      rw [← here, ← tracks.takeCommitted_indices, map_map]
      rfl
    refine ⟨_, _, sent (stands.takeCommitted none), fun rest ascends => ?_⟩
    rw [taken]
    exact ascends_entries.mpr ascends
  | restart j cfg => exact absurd rfl (alive cfg)
  | _ =>
    have log := tracks.log
    refine ⟨first, position, sent ?_, fun rest ascends => ascends⟩
    refine stands.perform tracks.applied (log.lastIndex ▸ log.base_le) guarded.2 ?_ ?_ ?_
    · rintro _ _ ⟨⟩
    · rintro _ ⟨⟩
    · rintro _ ⟨⟩

theorem Simulates.brought_ascends (sim : Simulates voters .compacted l s) {life : List Action}
    (guarded : Cluster.Along (fun s action => s.guarded action) s life)
    (drains : Cluster.Along (Cluster.drains i) s life) (alive : ∀ cfg, .restart i cfg ∉ life)
    (stands : (s.nodes i).Stands first position) : Ascends first position (s.brought i life) := by
  induction life generalizing l s first position with
  | nil => trivial
  | cons action rest ih =>
    have here : ∀ cfg, action ≠ .restart i cfg := fun cfg same => alive cfg (same ▸ mem_cons_self ..)
    obtain ⟨first', position', stands', ascends⟩ := sim.brings_ascends guarded.1 drains.1 here stands
    obtain ⟨⟨l', _, sim'⟩, _⟩ := sim.guarded_follows guarded.1
    exact ascends _ (ih sim' guarded.2 drains.2 (fun cfg member => alive cfg (mem_cons_of_mem _ member)) stands')

end

def Cluster.Starts (i : NodeId) (before : List Action) : Prop :=
  before = [] ∨ ∃ earlier cfg, before = earlier ++ [.restart i cfg]

theorem Cluster.Starts.stands {cfg : NodeId → Config} {i : NodeId} {before : List Action} (starts : Starts i before) :
    (((start cfg).run before).nodes i).Stands true (((start cfg).run before).nodes i).storage.base := by
  have fresh (cfg : Config) (storage : MemStorage) :
      (RaftNode.new cfg storage).takeMessages.1.Stands true (RaftNode.new cfg storage).storage.base := by
    have kept : (RaftNode.new cfg storage).storage = storage := RaftNode.recomputeConf_storage _
    rw [kept]
    exact (RaftNode.Stands.fresh cfg storage).congr rfl
  rcases starts with rfl | ⟨earlier, cfg', rfl⟩
  · exact (fresh _ _).congr rfl
  · have node : ((start cfg).run (earlier ++ [.restart i cfg'])).nodes i =
        ((Action.restart i cfg').perform (((start cfg).run earlier).nodes i)).takeMessages.1 := by
      have enabled : ((start cfg).run earlier).enabled (.restart i cfg') = true := rfl
      rw [run_append]
      exact exec_node enabled
    rw [node]
    exact fresh _ _

/-- In a run where every installed snapshot supersedes the log it replaces, the position of a driver only ascends from
the snapshot it started from. -/
theorem applied_position_ascends {voters : List NodeId} {cfg : NodeId → Config} (shared : ∀ i, (cfg i).voters = voters)
    {i : NodeId} {before life : List Action} (starts : Cluster.Starts i before)
    (guarded : Cluster.Along (fun s action => s.guarded action) (Cluster.start cfg) (before ++ life))
    (drains : Cluster.Along (Cluster.drains i) ((Cluster.start cfg).run before) life)
    (alive : ∀ cfg', .restart i cfg' ∉ life) :
    Ascends true (((Cluster.start cfg).run before).nodes i).storage.base (((Cluster.start cfg).run before).brought i life) ∧
      ∀ index, .snapshot index ∈ ((Cluster.start cfg).run before).brought i life →
        (((Cluster.start cfg).run before).nodes i).storage.base ≤ index := by
  have start : Simulates voters .compacted Ledger.initial (Cluster.start cfg) := Simulates.start (fun i => .inl (shared i))
  obtain ⟨along, along'⟩ := Cluster.Along.append.mp guarded
  obtain ⟨l, _, sim, _⟩ := start.guarded_run along
  have ascends := sim.brought_ascends along' drains alive starts.stands
  exact ⟨ascends, fun index member => ascends.ge _ member⟩

def compactedTwice : List Action := firstElection ++
  [.propose 1 [7], .receive 1 2 1 (.appendEntries 0 0 [.normal 1 1 [7]] 0 0),
    .receive 2 1 1 (.appendEntriesResp true 1 0), .takeCommitted 1, .compact 1 1 [0], .tick 1,
    .receive 1 3 1 (.installSnapshot 1 1 [1, 2, 3] [] [0]), .takeSnapshot 3, .receive 3 1 1 (.installSnapshotResp 1),
    .propose 1 [8], .receive 1 3 1 (.appendEntries 1 1 [.normal 1 2 [8]] 1 0),
    .receive 3 1 1 (.appendEntriesResp true 2 0), .tick 1, .receive 1 3 1 (.appendEntries 2 1 [] 2 0), .takeCommitted 3,
    .compact 3 2 [0, 8]]

def restarted : List Action := compactedTwice ++ [.restart 3 (trio 3)]

def continuing : List Action :=
  [.propose 1 [9], .receive 1 3 1 (.appendEntries 2 1 [.normal 1 3 [9]] 2 0), .receive 3 1 1 (.appendEntriesResp true 3 0),
    .tick 1, .receive 1 3 1 (.appendEntries 3 1 [] 3 0), .takeSnapshot 3, .takeCommitted 3]

theorem applied_position_ascends_continuing :
    (((Cluster.start trio).run restarted).nodes 3).storage.base = 2 ∧
      ((Cluster.start trio).run restarted).brought 3 continuing = [.entry 3] ∧ Ascends true 2 [.entry 3] := by
  have starts : Cluster.Starts 3 restarted := .inr ⟨compactedTwice, trio 3, rfl⟩
  have alive : ∀ cfg', .restart 3 cfg' ∉ continuing := by simp [continuing, Action.receive]
  have base : (((Cluster.start trio).run restarted).nodes 3).storage.base = 2 := by decide +kernel
  have taken : ((Cluster.start trio).run restarted).brought 3 continuing = [.entry 3] := by decide +kernel
  have position := applied_position_ascends trio_voters starts (by decide +kernel) (by decide +kernel) alive
  rw [base, taken] at position
  exact ⟨base, taken, position.1⟩

def rejoining : List Action := [.receive 1 3 1 (.installSnapshot 1 1 [1, 2, 3] [] [0]), .takeSnapshot 3]

/-- The restarted node does not know that its storage is ahead: it installs the old snapshot, and its driver goes back. -/
theorem old_snapshot_taken :
    (∀ action ∈ restarted ++ rejoining, action.reconfigures = false) ∧
    Cluster.Along (Cluster.drains 3) ((Cluster.start trio).run restarted) rejoining ∧
    (((Cluster.start trio).run restarted).nodes 3).storage.base = 2 ∧
    ((Cluster.start trio).run restarted).brought 3 rejoining = [.snapshot 1] := by
  decide +kernel

end Arcux.Raft
