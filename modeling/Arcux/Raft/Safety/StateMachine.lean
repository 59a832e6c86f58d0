import Arcux.Raft.Refinement.Run

namespace Arcux.Raft

open Consensus List

section

variable {bootstrap : List NodeId} {scope : Scope} {l : Ledger NodeId Entry} {i : NodeId}
  {n : RaftNode}

theorem Tracks.takeCommitted_eq (tracks : Tracks bootstrap scope l i n) :
    n.takeCommitted.2 = ((l.log i).take n.commitIndex).drop (max n.lastApplied n.storage.base) := by
  unfold RaftNode.takeCommitted
  split
  · rename_i done
    symm
    apply drop_eq_nil_of_le
    rw [length_take]
    omega
  · simp only [tracks.log.entries]
    congr 1
    omega

theorem Tracks.mem_takeCommitted (tracks : Tracks bootstrap scope l i n) {e : Entry} (taken : e ∈ n.takeCommitted.2) :
    ∃ k, e.index = k + 1 ∧ k < n.commitIndex ∧ (l.log i)[k]? = some e := by
  rw [tracks.takeCommitted_eq] at taken
  obtain ⟨k, found⟩ := getElem?_of_mem (mem_of_mem_drop taken)
  rw [getElem?_take] at found
  split at found
  · rename_i below
    exact ⟨k, tracks.log.indexed k e found, below, found⟩
  · cases found

theorem Indexed.map_index {log : List Entry} (indexed : Indexed log) (k : Nat) :
    (log.drop k).map Entry.index = range' (k + 1) (log.length - k) := by
  refine ext_getElem? (fun m => ?_)
  rw [getElem?_map, getElem?_drop]
  cases found : log[k + m]? with
  | none =>
    rw [getElem?_eq_none_iff] at found
    simp only [Option.map_none]
    rw [eq_comm, getElem?_eq_none_iff, length_range']
    omega
  | some e =>
    have bound := (List.getElem?_eq_some_iff.mp found).1
    rw [Option.map_some, List.getElem?_range' (by omega), indexed _ e found]
    congr 1
    omega

theorem Tracks.takeCommitted_indices (tracks : Tracks bootstrap scope l i n) :
    n.takeCommitted.2.map Entry.index = range' (max n.lastApplied n.storage.base + 1)
      (n.commitIndex - max n.lastApplied n.storage.base) := by
  have short := tracks.commit.le_length
  rw [tracks.takeCommitted_eq,
    Indexed.map_index (tracks.log.indexed.of_part ( take_prefix _ _)), length_take, Nat.min_eq_left short]

end

theorem Simulates.takeCommitted_agree {bootstrap : List NodeId} {scope : Scope} {l l' : Ledger NodeId Entry}
    {s s' : Cluster} (sim : Simulates bootstrap scope l s) (sim' : Simulates bootstrap scope l' s')
    (continues : Continues l l') {i j : NodeId} {e e' : Entry} (taken : e ∈ (s.nodes i).takeCommitted.2)
    (taken' : e' ∈ (s'.nodes j).takeCommitted.2) (same : e.index = e'.index) : e = e' := by
  obtain ⟨k, index, below, found⟩ := (sim.nodes i).mem_takeCommitted taken
  obtain ⟨k', index', below', found'⟩ := (sim'.nodes j).mem_takeCommitted taken'
  obtain rfl : k = k' := by omega
  have settled := ((sim.nodes i).commit.mono continues.extend continues.reached).of_le below
  have settled' := (sim'.nodes j).commit.of_le below'
  have prefixes := settled.agree sim'.inv settled' (Nat.le_refl _)
  have lookup : (l.log i)[k]? = (l'.log j)[k]? := by
    rw [← getElem?_take_of_lt (Nat.lt_succ_self k), prefixes, getElem?_take_of_lt (Nat.lt_succ_self k)]
  exact Option.some.inj (found.symm.trans (lookup.trans found'))

def Action.plain (action : Action) : Bool := !action.compacts && !action.reconfigures

theorem Simulates.plain_run {voters : List NodeId} {l : Ledger NodeId Entry} {s : Cluster}
    (sim : Simulates voters (.uncompacted True) l s) {actions : List Action}
    (plain : ∀ action ∈ actions, action.plain) :
    ∃ l', Continues l l' ∧ Simulates voters (.uncompacted True) l' (s.run actions) := by
  refine sim.run (fun _ action => action.plain) ?_ (Cluster.Along.of_forall plain)
  intro l s action sim plain
  rw [Action.plain, Bool.and_eq_true, Bool.not_eq_true', Bool.not_eq_true'] at plain
  exact sim.uncompacted_follows plain.1 (Cluster.ownTermChange_of_fixed plain.2) (fun _ => plain.2)

theorem Simulates.takeCommitted_contiguous {bootstrap : List NodeId} {l : Ledger NodeId Entry} {s : Cluster}
    (sim : Simulates bootstrap (.uncompacted True) l s) (i : NodeId) :
    (s.nodes i).takeCommitted.2.map Entry.index =
      range' ((s.nodes i).lastApplied + 1) ((s.nodes i).commitIndex - (s.nodes i).lastApplied) := by
  have base : (s.nodes i).storage.base = 0 := by simp [MemStorage.base, sim.uncompacted i]
  rw [(sim.nodes i).takeCommitted_indices, base, Nat.max_zero]

/-- State machine safety: `takeCommitted` never returns two different entries at one index, on any
nodes and at any times of a run, and every call returns a contiguous range of indices. -/
theorem state_machine_safety {voters : List NodeId} {cfg : NodeId → Config} (shared : ∀ i, (cfg i).voters = voters)
    (first rest : List Action) (plain : ∀ action ∈ first ++ rest, action.plain) :
    (∀ i j e e', e ∈ (((Cluster.start cfg).run first).nodes i).takeCommitted.2 →
      e' ∈ (((Cluster.start cfg).run (first ++ rest)).nodes j).takeCommitted.2 → e.index = e'.index → e = e') ∧
    ∀ i, let n := ((Cluster.start cfg).run first).nodes i
      n.takeCommitted.2.map Entry.index = range' (n.lastApplied + 1) (n.commitIndex - n.lastApplied) := by
  obtain ⟨l, _, sim⟩ := (Simulates.start (fun i => .inl (shared i))).plain_run
    (fun action member => plain action (mem_append_left _ member))
  obtain ⟨l', continues, sim'⟩ := sim.plain_run (fun action member => plain action (mem_append_right _ member))
  rw [Cluster.run_append]
  exact ⟨fun i j e e' taken taken' same => sim.takeCommitted_agree sim' continues taken taken' same,
    sim.takeCommitted_contiguous⟩

def committing : List Action := firstElection ++
  [.propose 1 [7], .receive 1 2 1 (.appendEntries 0 0 [.normal 1 1 [7]] 0 0),
    .receive 2 1 1 (.appendEntriesResp true 1 0)]

def informing : List Action := [.propose 1 [8], .receive 1 2 1 (.appendEntries 1 1 [.normal 1 2 [8]] 1 0)]

theorem state_machine_safety_trio :
    (((Cluster.start trio).run committing).nodes 1).takeCommitted.2 = [.normal 1 1 [7]] ∧
    (((Cluster.start trio).run (committing ++ informing)).nodes 2).takeCommitted.2 = [.normal 1 1 [7]] ∧
    ∀ i j e e', e ∈ (((Cluster.start trio).run committing).nodes i).takeCommitted.2 →
      e' ∈ (((Cluster.start trio).run (committing ++ informing)).nodes j).takeCommitted.2 → e.index = e'.index → e = e' :=
  ⟨by decide +kernel, by decide +kernel,
    (state_machine_safety trio_voters committing informing (by decide)).1⟩

end Arcux.Raft
