import Arcux.Raft.Safety.SnapshotInstall

namespace Arcux.Raft

open Consensus List

section

variable {storage storage' : MemStorage} {log log' : List Entry} {index low : Nat} {e : Entry} (holds : Holds storage log)

include holds

theorem Holds.getElem_of_entries (held : storage.entries index index = [e]) : log[index - 1]? = some e := by
  rw [holds.entries] at held
  have size := congrArg length held
  have first := congrArg head? held
  simp only [length_drop, length_take, length_singleton] at size
  have here : max index (storage.base + 1) - 1 = index - 1 := by omega
  rwa [head?_drop, here, getElem?_take_of_lt (by omega)] at first

theorem Holds.entries_eq (holds' : Holds storage' log') (same : log.take index = log'.take index)
    (kept : storage.base < low) (kept' : storage'.base < low) : storage.entries low index = storage'.entries low index := by
  rw [holds.entries, holds'.entries, same, Nat.max_eq_left kept, Nat.max_eq_left kept']

end

/-- A disciplined run leads from the one state to the other. -/
def Cluster.Attains (s s' : Cluster) : Prop :=
  ∃ actions, Along (fun s action => s.disciplined action) s actions ∧ s.run actions = s'

def sampled : Cluster := (Cluster.start trio).run committing

def informed : Cluster := sampled.run informing

theorem sampled_attains : (Cluster.start trio).Attains sampled ∧ sampled.Attains informed := by
  have along : Cluster.Along (fun s action => s.disciplined action) (.start trio) (committing ++ informing) := by
    decide +kernel
  obtain ⟨first, rest⟩ := Cluster.Along.append.mp along
  exact ⟨⟨_, first, rfl⟩, ⟨_, rest, rfl⟩⟩

section

variable {voters : List NodeId} {cfg : NodeId → Config} {s s' : Cluster} {i j : NodeId} {index low : Nat} {e e' : Entry}

theorem Simulates.attains {l : Ledger NodeId Entry} (sim : Simulates voters .compacted l s) (later : s.Attains s') :
    ∃ l', Continues l l' ∧ Simulates voters .compacted l' s' := by
  obtain ⟨actions, along, rfl⟩ := later
  exact sim.run _ (fun _ _ _ _ disciplined => ⟨fun _ => disciplined, fun _ _ _ _ _ _ => trivial, False.elim⟩) along

variable (boot : ∀ i, (cfg i).voters = voters ∨ (cfg i).voters = []) (reached : (Cluster.start cfg).Attains s)
  (later : s.Attains s')

include boot reached later

theorem attained_histories : ∃ l l', Simulates voters .compacted l s ∧ Continues l l' ∧
    Simulates voters .compacted l' s' := by
  obtain ⟨l, -, sim⟩ := (Simulates.start boot).attains reached
  obtain ⟨l', continues, sim'⟩ := sim.attains later
  exact ⟨l, l', sim, continues, sim'⟩

/-- Log matching: where two nodes, at any times, hold entries of one index and one term, they hold the same entries up
to there. -/
theorem log_matching (held : (s.nodes i).storage.entries index index = [e])
    (held' : (s'.nodes j).storage.entries index index = [e']) (terms : e.term = e'.term)
    (kept : (s.nodes i).storage.base < low) (kept' : (s'.nodes j).storage.base < low) :
    (s.nodes i).storage.entries low index = (s'.nodes j).storage.entries low index := by
  obtain ⟨l, l', sim, continues, sim'⟩ := attained_histories boot reached later
  have holds := (sim.nodes i).log
  have holds' := (sim'.nodes j).log
  have chained := (sim.inv.logChained i).mono continues.extend
  have same := chained.take_eq (sim'.inv.logChained j) (holds.getElem_of_entries held)
    (holds'.getElem_of_entries held') terms
  cases index with
  | zero => exact holds.entries_eq holds' rfl kept kept'
  | succ k => exact holds.entries_eq holds' same kept kept'

omit boot reached later in
theorem log_matching_trio :
    (sampled.nodes 1).storage.entries 1 1 = (informed.nodes 2).storage.entries 1 1 := by
  have held : (sampled.nodes 1).storage.entries 1 1 = [.normal 1 1 [7]] := by decide +kernel
  have held' : (informed.nodes 2).storage.entries 1 1 = [.normal 1 1 [7]] := by decide +kernel
  exact log_matching (fun i => .inl (trio_voters i)) sampled_attains.1 sampled_attains.2 held held' rfl
    (by decide +kernel) (by decide +kernel)

/-- Leader append-only: while a node leads a term, its log grows and nothing in it is replaced. -/
theorem leader_append_only (leads : (s.nodes i).role = .leader) (leads' : (s'.nodes i).role = .leader)
    (sameTerm : (s.nodes i).currentTerm = (s'.nodes i).currentTerm) (kept : (s.nodes i).storage.base < low)
    (kept' : (s'.nodes i).storage.base < low) :
    (s.nodes i).storage.lastIndex ≤ (s'.nodes i).storage.lastIndex ∧
      (s.nodes i).storage.entries low (s.nodes i).storage.lastIndex =
        (s'.nodes i).storage.entries low (s.nodes i).storage.lastIndex := by
  obtain ⟨l, l', sim, continues, sim'⟩ := attained_histories boot reached later
  have holds := (sim.nodes i).log
  have holds' := (sim'.nodes i).log
  have grown : l.log i <+: l'.log i := by
    rw [((sim.nodes i).leader leads).current, ((sim'.nodes i).leader leads').current, ← sameTerm]
    exact continues.extend.lead _
  rw [holds.lastIndex, holds'.lastIndex]
  refine ⟨grown.length_le, holds.entries_eq holds' ?_ kept kept'⟩
  rw [take_length]
  exact prefix_iff_eq_take.mp grown

omit boot reached later in
theorem leader_append_only_trio : (sampled.nodes 1).storage.lastIndex ≤ (informed.nodes 1).storage.lastIndex ∧
    (sampled.nodes 1).storage.entries 1 (sampled.nodes 1).storage.lastIndex =
      (informed.nodes 1).storage.entries 1 (sampled.nodes 1).storage.lastIndex :=
  leader_append_only (fun i => .inl (trio_voters i)) sampled_attains.1 sampled_attains.2 (by decide +kernel)
    (by decide +kernel) (by decide +kernel) (by decide +kernel) (by decide +kernel)

/-- State machine safety through compaction, snapshots and membership changes. -/
theorem committed_entries_agree (taken : e ∈ (s.nodes i).takeCommitted.2) (taken' : e' ∈ (s'.nodes j).takeCommitted.2)
    (same : e.index = e'.index) : e = e' := by
  obtain ⟨l, l', sim, continues, sim'⟩ := attained_histories boot reached later
  exact sim.takeCommitted_agree sim' continues taken taken' same

omit boot reached later in
theorem committed_entries_agree_trio : .normal 1 1 [7] ∈ (sampled.nodes 1).takeCommitted.2 ∧
    ∀ e ∈ (informed.nodes 2).takeCommitted.2, e.index = 1 → .normal 1 1 [7] = e := by
  have taken : .normal 1 1 [7] ∈ (sampled.nodes 1).takeCommitted.2 := by decide +kernel
  exact ⟨taken, fun e taken' index => committed_entries_agree (fun i => .inl (trio_voters i)) sampled_attains.1
    sampled_attains.2 taken taken' index.symm⟩

end

end Arcux.Raft
