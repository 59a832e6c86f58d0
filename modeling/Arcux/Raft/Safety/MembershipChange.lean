import Arcux.Raft.Safety.StateMachine

namespace Arcux.Raft

open Consensus List

def Cluster.settledChanges (s : Cluster) (action : Action) : Bool := !action.compacts && s.ownTermChange action

section

variable {voters : List NodeId} {l l' : Ledger NodeId Entry} {s s' : Cluster}

theorem Simulates.settled_run (sim : Simulates voters (.uncompacted False) l s) {actions : List Action}
    (along : Cluster.Along (fun s action => s.settledChanges action) s actions) :
    ∃ l', Continues l l' ∧ Simulates voters (.uncompacted False) l' (s.run actions) := by
  refine sim.run (fun s action => s.settledChanges action) ?_ along
  intro l s action sim settled
  rw [Cluster.settledChanges, Bool.and_eq_true, Bool.not_eq_true'] at settled
  exact sim.uncompacted_follows settled.1 settled.2 nofun

theorem Simulates.entries_of_take (sim : Simulates voters (.uncompacted False) l s)
    (sim' : Simulates voters (.uncompacted False) l' s') {x y : NodeId} {index : Nat}
    (same : (l'.log y).take index = (l.log x).take index) :
    (s'.nodes y).storage.entries index index = (s.nodes x).storage.entries index index := by
  have base : (s.nodes x).storage.base = 0 := by simp [MemStorage.base, sim.uncompacted x]
  have base' : (s'.nodes y).storage.base = 0 := by simp [MemStorage.base, sim'.uncompacted y]
  rw [(sim.nodes x).log.entries, (sim'.nodes y).log.entries, same, base, base']

theorem Simulates.leader_complete {top : Ledger NodeId Entry} (sim : Simulates voters (.uncompacted False) l s)
    (sim' : Simulates voters (.uncompacted False) l' s') (inv : Invariant (raftRules voters) top.toState)
    (continues : Continues l top) (continues' : Continues l' top) {x y : NodeId} {index : Nat}
    (committed : index ≤ (s.nodes x).commitIndex) (leads : (s'.nodes y).role = .leader)
    (later : (s.nodes x).currentTerm < (s'.nodes y).currentTerm) :
    (s'.nodes y).storage.entries index index = (s.nodes x).storage.entries index index := by
  have settled := (sim.nodes x).commit.of_le committed
  obtain ⟨⟨b, won⟩, current, _⟩ := (sim'.nodes y).leader leads
  have held := (settled.mono continues.extend continues.reached).in_base inv later
    (continues'.extend.winner _ _ won)
  refine sim.entries_of_take sim' (take_eq_of_part ?_ settled.le_length)
  rw [current]
  exact held.trans (sim'.inv.base_part won)

end

/-- Leader completeness: an entry that a node, a leader above all, has committed is in the log of every
leader of a later term, in a run where each membership change comes after a commit in the
proposer's own term. -/
theorem leader_completeness {voters : List NodeId} {cfg : NodeId → Config}
    (boot : ∀ i, (cfg i).voters = voters ∨ (cfg i).voters = []) {actions first second : List Action}
    (settled : Cluster.Along (fun s action => s.settledChanges action) (Cluster.start cfg) actions)
    (part : first <+: actions) (part' : second <+: actions) {x y : NodeId} {index : Nat} {e : Entry}
    (committed : index ≤ (((Cluster.start cfg).run first).nodes x).commitIndex)
    (held : (((Cluster.start cfg).run first).nodes x).storage.entries index index = [e])
    (leads : (((Cluster.start cfg).run second).nodes y).role = .leader)
    (later : (((Cluster.start cfg).run first).nodes x).currentTerm <
      (((Cluster.start cfg).run second).nodes y).currentTerm) :
    (((Cluster.start cfg).run second).nodes y).storage.entries index index = [e] := by
  have start : Simulates voters (.uncompacted False) Ledger.initial (Cluster.start cfg) := Simulates.start boot
  rw [← held]
  have along : ∀ {some : List Action}, some <+: actions →
      Cluster.Along (fun s action => s.settledChanges action) (Cluster.start cfg) some := by
    rintro some ⟨rest, rfl⟩
    exact (Cluster.Along.append.mp settled).1
  rcases prefix_or_prefix_of_prefix part part' with ⟨rest, rfl⟩ | ⟨rest, rfl⟩
  · obtain ⟨along, along'⟩ := Cluster.Along.append.mp (along part')
    obtain ⟨l, _, sim⟩ := start.settled_run along
    obtain ⟨l', continues, sim'⟩ := sim.settled_run along'
    rw [Cluster.run_append] at leads later ⊢
    exact sim.leader_complete sim' sim'.inv continues (Continues.refl _) committed leads later
  · obtain ⟨along, along'⟩ := Cluster.Along.append.mp (along part)
    obtain ⟨l', _, sim'⟩ := start.settled_run along
    obtain ⟨l, continues, sim⟩ := sim'.settled_run along'
    rw [Cluster.run_append] at committed later ⊢
    exact sim.leader_complete sim' sim.inv (Continues.refl _) continues committed leads later

def joining : Entry := ⟨1, 2, .confChange, ConfChange.encode (.addNode 4) [1, 2, 3, 4] []⟩

def growing : List Action := committing ++
  [.proposeConfChange 1 (.addNode 4), .receive 1 2 1 (.appendEntries 1 1 [joining] 1 0),
    .receive 1 3 1 (.appendEntries 0 0 [.normal 1 1 [7], joining] 1 0),
    .receive 2 1 1 (.appendEntriesResp true 2 0), .receive 3 1 1 (.appendEntriesResp true 2 0)]

def succeeding : List Action := growing ++ replicate 19 (.tick 2) ++
  [.receive 2 1 2 (.requestVote 2 1), .receive 2 3 2 (.requestVote 2 1), .receive 1 2 2 (.requestVoteResp true),
    .receive 3 2 2 (.requestVoteResp true)]

theorem leader_completeness_grown :
    (((Cluster.start trio).run growing).nodes 1).commitIndex = 2 ∧
    (((Cluster.start trio).run succeeding).nodes 2).role = .leader ∧
    (((Cluster.start trio).run succeeding).nodes 2).storage.entries 2 2 = [joining] := by
  have settled : Cluster.Along (fun s action => s.settledChanges action) (Cluster.start trio) succeeding := by
    decide +kernel
  have part : growing <+: succeeding := ⟨_, (append_assoc ..).symm⟩
  have committed : (((Cluster.start trio).run growing).nodes 1).commitIndex = 2 := by decide +kernel
  have held : (((Cluster.start trio).run growing).nodes 1).storage.entries 2 2 = [joining] := by decide +kernel
  have leads : (((Cluster.start trio).run succeeding).nodes 2).role = .leader := by decide +kernel
  have later : (((Cluster.start trio).run growing).nodes 1).currentTerm <
      (((Cluster.start trio).run succeeding).nodes 2).currentTerm := by decide +kernel
  exact ⟨committed, leads, leader_completeness (fun i => .inl (trio_voters i)) settled part (prefix_refl _)
    committed.ge held leads later⟩

def quartet (i : NodeId) : Config := .new i (if i = 5 then [] else [1, 2, 3, 4])

def addingAlone : List Action := replicate 19 (.tick 1) ++
  [.receive 1 2 1 (.requestVote 0 0), .receive 1 3 1 (.requestVote 0 0), .receive 2 1 1 (.requestVoteResp true),
    .receive 3 1 1 (.requestVoteResp true), .proposeConfChange 1 (.addNode 5)]

def removal : Entry := ⟨2, 1, .confChange, ConfChange.encode (.removeNode 1) [2, 3, 4] []⟩

def removing : List Action := addingAlone ++ replicate 14 (.tick 2) ++
  [.receive 2 3 2 (.requestVote 0 0), .receive 2 4 2 (.requestVote 0 0), .receive 3 2 2 (.requestVoteResp true),
    .receive 4 2 2 (.requestVoteResp true), .proposeConfChange 2 (.removeNode 1),
    .receive 2 3 2 (.appendEntries 0 0 [removal] 0 0), .receive 3 2 2 (.appendEntriesResp true 1 0)]

def returning : List Action := removing ++ [.receive 2 1 2 (.requestVote 0 0)] ++ replicate 10 (.tick 1) ++
  [.receive 1 4 3 (.requestVote 1 1), .receive 1 5 3 (.requestVote 1 1), .receive 4 1 3 (.requestVoteResp true),
    .receive 5 1 3 (.requestVoteResp true)]

theorem leader_completeness_violated :
    (∀ action ∈ returning, action.compacts = false) ∧
    (((Cluster.start quartet).run removing.dropLast).nodes 2).commitIndex = 0 ∧
    (((Cluster.start quartet).run removing).nodes 2).role = .leader ∧
    (((Cluster.start quartet).run removing).nodes 2).currentTerm = 2 ∧
    (((Cluster.start quartet).run removing).nodes 2).commitIndex = 1 ∧
    (((Cluster.start quartet).run removing).nodes 2).storage.entries 1 1 = [removal] ∧
    (((Cluster.start quartet).run returning.dropLast).nodes 1).role = .candidate ∧
    (((Cluster.start quartet).run returning).nodes 1).role = .leader ∧
    (((Cluster.start quartet).run returning).nodes 1).currentTerm = 3 ∧
    (((Cluster.start quartet).run returning).nodes 1).storage.entries 1 1 ≠ [removal] := by
  decide +kernel

end Arcux.Raft
