import Arcux.Raft.Contiguity

namespace Arcux.Raft

open Codec List

def Entry.voters (e : Entry) : List NodeId :=
  if e.entryType = .confChange then ((ConfChange.decode e.data).map fun change => change.2.1).getD [] else []

variable {v : NodeId}

theorem Entry.changes_of_voter {e : Entry} (member : v ∈ e.voters) : e.entryType = .confChange := by
  unfold voters at member
  split at member
  · assumption
  · cases member

def RaftNode.committed (n : RaftNode) : List Entry := n.storage.entries n.storage.firstIndex n.commitIndex

def Cluster.CommitsVoter (s : Cluster) (v : NodeId) : Prop := ∃ i, ∃ e ∈ (s.nodes i).committed, v ∈ e.voters

namespace MemStorage

variable {storage : MemStorage} {e : Entry}

theorem At.mem_entries {i low high : Nat} (held : storage.At i e) (above : low ≤ i) (below : i ≤ high) :
    e ∈ storage.entries low high := by
  have start := held.1
  have place : max low (storage.base + 1) + (i - max low (storage.base + 1)) = i := by omega
  refine mem_of_getElem? (i := i - max low (storage.base + 1)) ?_
  rw [getElem?_entries, place]
  exact ⟨below, held⟩

theorem At.mem_drop {i k : Nat} (held : storage.At i e) (above : storage.base + k < i) : e ∈ storage.log.drop k := by
  have place : k + (i - storage.base - 1 - k) = i - storage.base - 1 := by omega
  refine mem_of_getElem? (i := i - storage.base - 1 - k) ?_
  rw [getElem?_drop, place]
  exact held.2

theorem at_of_mem_log (member : e ∈ storage.log) : ∃ i, storage.At i e := by
  obtain ⟨k, found⟩ := getElem?_of_mem member
  refine ⟨storage.base + 1 + k, by omega, ?_⟩
  rwa [show storage.base + 1 + k - storage.base - 1 = k by omega]

end MemStorage

variable {entries : List Entry}

theorem foldConf_voters {start : List NodeId × List NodeId}
    (member : v ∈ (foldConf start entries).1) : v ∈ start.1 ∨ ∃ e ∈ entries, v ∈ e.voters := by
  induction entries generalizing start with
  | nil => exact .inl member
  | cons e rest ih =>
    rcases ih member with first | ⟨e', later, voter⟩
    · by_cases change : e.entryType = .confChange
      · cases decoded : ConfChange.decode e.data with
        | none => exact .inl (by simpa [change, decoded] using first)
        | some conf => exact .inr ⟨e, mem_cons_self .., by simpa [Entry.voters, change, decoded] using first⟩
      · exact .inl (by simpa [change] using first)
    · exact .inr ⟨e', mem_cons_of_mem _ later, voter⟩

def MessageBody.Backed (known : NodeId → Prop) : MessageBody → Prop
  | .installSnapshot _ _ confState _ _ => ∀ v ∈ confState, known v
  | _ => True

variable {body : MessageBody}

theorem MessageBody.Backed.of_light {known : NodeId → Prop} (light : body.replicates = false) :
    body.Backed known := by
  cases body <;> trivial

namespace RaftNode

structure Rooted (known : NodeId → Prop) (n : RaftNode) : Prop where
  boot : ∀ v ∈ n.bootstrapConf, known v
  snap : ∀ snap, n.storage.snap = some snap → ∀ v ∈ snap.confState, known v
  sent : ∀ msg ∈ n.messages, msg.body.Backed known

structure Backed (known : NodeId → Prop) (n : RaftNode) : Prop extends Rooted known n where
  voters : ∀ v ∈ n.voters, known v ∨ ∃ e ∈ n.storage.log, v ∈ e.voters

variable {known : NodeId → Prop} {n n' : RaftNode} {index : Nat}

theorem Rooted.confAt (rooted : Rooted known n) (member : v ∈ (n.confAt index).1) :
    known v ∨ ∃ e ∈ n.storage.entries n.storage.firstIndex index, v ∈ e.voters := by
  rw [RaftNode.confAt, mem_sortDedup] at member
  refine (foldConf_voters member).imp_left fun first => ?_
  cases found : n.storage.snap with
  | none =>
    rw [found] at first
    exact rooted.boot v first
  | some snap =>
    rw [found] at first
    exact rooted.snap snap found v first

theorem Rooted.recomputeConf (rooted : Rooted known n) : Backed known n.recomputeConf := by
  have checked := checkTransfer_core (n.adoptConf (n.confAt n.storage.lastIndex))
  have voters : n.recomputeConf.voters = (n.confAt n.storage.lastIndex).1 ∧
      n.recomputeConf.bootstrapConf = n.bootstrapConf := by
    unfold RaftNode.recomputeConf
    simp only [becomeFollower, Nat.lt_irrefl, if_false]
    split <;> exact ⟨congrArg Core.voters checked, congrArg Core.bootstrapConf checked⟩
  refine ⟨⟨?_, ?_, ?_⟩, ?_⟩
  · rw [voters.2]
    exact rooted.boot
  · rw [recomputeConf_storage]
    exact rooted.snap
  · rw [recomputeConf_messages]
    exact rooted.sent
  · rw [voters.1, recomputeConf_storage]
    intro v member
    refine (rooted.confAt member).imp_right ?_
    rintro ⟨e, listed, voter⟩
    obtain ⟨i, _, _, held⟩ := MemStorage.at_of_mem_entries listed
    exact ⟨e, mem_of_getElem? held.2, voter⟩

theorem splice_none {storage storage' : MemStorage} {base index : Nat}
    (nothing : splice storage base index entries = (storage', none)) : storage' = storage := by
  induction entries generalizing index with
  | nil =>
    cases nothing
    rfl
  | cons e rest ih =>
    rw [splice] at nothing
    split_ifs at nothing
    · exact ih nothing
    · cases nothing
    · exact ih nothing
    · cases nothing

namespace Backed

section

variable (backed : Backed known n)

include backed

theorem congr (seats : n'.seats = n.seats) (messages : n'.messages = n.messages) : Backed known n' := by
  obtain ⟨⟨boot, snap, sent⟩, voters⟩ := backed
  obtain ⟨bootstrapConf, current, _, body⟩ := Seats.mk.inj seats
  obtain ⟨log, snapshot⟩ := Prod.mk.inj body
  exact ⟨⟨bootstrapConf ▸ boot, snapshot ▸ snap, messages ▸ sent⟩, by rwa [current, log]⟩

theorem send (dest : NodeId) (term : Nat) (carried : body.Backed known) : Backed known (n.send dest term body) := by
  refine ⟨⟨backed.boot, backed.snap, ?_⟩, backed.voters⟩
  intro msg member
  rcases mem_append.mp member with old | new
  · exact backed.sent msg old
  · rw [mem_singleton.mp new]
    exact carried

theorem sendAppend (dest : NodeId) : Backed known (n.sendAppend dest) := by
  unfold RaftNode.sendAppend sendSnapshot
  simp only
  split
  · split
    · exact backed
    · rename_i snap found
      exact backed.send dest _ (backed.snap snap found)
  · exact backed.send dest _ trivial

theorem appendOwn (entry : Entry) : Backed known (n.appendOwn entry) := by
  refine ⟨{ backed with }, fun v member => ?_⟩
  refine (backed.voters v member).imp_right fun ⟨e, held, voter⟩ => ⟨e, ?_, voter⟩
  exact mem_append_left _ held

theorem spliceEntries (prevLogIndex : Nat) (entries : List Entry) :
    Backed known (n.spliceEntries prevLogIndex entries) := by
  obtain ⟨log, cut⟩ := splice_log n.storage n.storage.base (prevLogIndex + 1) entries
  unfold RaftNode.spliceEntries
  split
  · rename_i storage fresh found
    obtain rfl : storage = { n.storage with log } := by rw [← cut, found]
    exact Rooted.recomputeConf { backed with }
  · rename_i storage found
    rw [splice_none found]
    exact backed

theorem installSnapshot {snap : Snapshot} (carried : ∀ v ∈ snap.confState, known v) :
    Backed known (n.installSnapshot snap) :=
  Rooted.recomputeConf ⟨backed.boot, fun _ same => Option.some.inj same ▸ carried, backed.sent⟩

variable {action : Action}

theorem move (carried : ∀ envelope, action = .deliver envelope → envelope.message.body.Backed known)
    (whole : ∀ i index data, action ≠ .compact i index data) (move : Move action n n') : Backed known n' := by
  cases move with
  | quiet turn => exact backed.congr turn.seats turn.frame.2
  | answer answers => exact backed.send _ _ (.of_light answers.light)
  | sendAppend dest => exact backed.sendAppend dest
  | appendOwn next => exact backed.appendOwn _
  | recomputeConf => exact backed.toRooted.recomputeConf
  | splice => exact backed.spliceEntries _ _
  | install role heard => exact backed.installSnapshot (carried _ heard)
  | takeCommitted called =>
    unfold RaftNode.takeCommitted
    split
    · exact backed
    · exact ⟨{ backed with }, backed.voters⟩
  | takeSnapshot called => exact ⟨{ backed with }, backed.voters⟩
  | compact called done => exact absurd called (whole _ _ _)
  | restart called => exact Rooted.recomputeConf ⟨backed.boot, backed.snap, nofun⟩

theorem compact {data : Bytes} (done : n.compact index data = some n')
    (covered : index ≤ n.commitIndex) (settled : ∀ e ∈ n.committed, ∀ v ∈ e.voters, known v) : Backed known n' := by
  rcases RaftNode.compact_cases done with rfl | ⟨term, above, -, -, rfl⟩
  · exact backed
  have early : ∀ {e i v}, n.storage.At i e → i ≤ index → v ∈ e.voters → known v := by
    intro e i v held below voter
    exact settled e (held.mem_entries held.1 (below.trans covered)) v voter
  rw [MemStorage.compact_of_lt above]
  refine ⟨⟨backed.boot, ?_, backed.sent⟩, ?_⟩
  · intro snap same v member
    cases same
    rcases backed.confAt member with known | ⟨e, held, voter⟩
    · exact known
    · obtain ⟨i, _, below, held⟩ := MemStorage.at_of_mem_entries held
      exact early held below voter
  · intro v member
    rcases backed.voters v member with known | ⟨e, held, voter⟩
    · exact .inl known
    obtain ⟨i, held⟩ := MemStorage.at_of_mem_log held
    by_cases below : i ≤ index
    · exact .inl (early held below voter)
    · exact .inr ⟨e, held.mem_drop (by omega), voter⟩

theorem perform (carried : ∀ envelope, action = .deliver envelope → envelope.message.body.Backed known)
    (covered : ∀ i index data, action = .compact i index data → index ≤ n.commitIndex)
    (settled : ∀ e ∈ n.committed, ∀ v ∈ e.voters, known v) : Backed known (action.perform n) := by
  by_cases compacts : ∃ i index data, action = .compact i index data
  · obtain ⟨i, index, data, rfl⟩ := compacts
    cases done : n.compact index data with
    | none =>
      rw [Action.perform, done]
      exact backed
    | some n' =>
      rw [Action.perform, done]
      exact backed.compact done (covered i index data rfl) settled
  · have whole : ∀ i index data, action ≠ .compact i index data := fun i index data same => compacts ⟨i, index, data, same⟩
    exact (Moves.perform n action).preserves (Backed known) (fun _ _ move backed => backed.move carried whole move) backed

theorem voters_known (contiguous : n.storage.Contiguous) (settled : ∀ e ∈ n.committed, ∀ v ∈ e.voters, known v)
    (steady : n.hasPendingConfChange = false) : ∀ v ∈ n.voters, known v := by
  intro v member
  rcases backed.voters v member with known | ⟨e, held, voter⟩
  · exact known
  obtain ⟨i, held⟩ := MemStorage.at_of_mem_log held
  have start := held.1
  by_cases below : i ≤ n.commitIndex
  · exact settled e (held.mem_entries start below) v voter
  · have last : i ≤ n.storage.lastIndex := contiguous.lastIndex ▸ held.le
    have pending : e ∈ n.storage.entries (max (n.commitIndex + 1) n.storage.firstIndex) n.storage.lastIndex := by
      refine held.mem_entries ?_ last
      rw [MemStorage.firstIndex]
      omega
    have none := any_eq_false.mp steady e pending
    exact absurd (decide_eq_true (Entry.changes_of_voter voter)) none

end

end Backed

end RaftNode

structure Cluster.Backed (known : NodeId → Prop) (s : Cluster) : Prop where
  nodes : ∀ i, (s.nodes i).Backed known
  net : ∀ envelope ∈ s.net, envelope.message.body.Backed known

namespace Cluster.Backed

variable {known : NodeId → Prop}

theorem start {cfg : NodeId → Config} (boot : ∀ i, ∀ v ∈ (cfg i).voters, known v) :
    (Cluster.start cfg).Backed known := by
  refine ⟨fun i => ?_, nofun⟩
  have rooted : RaftNode.Rooted known (RaftNode.recover { cfg i with id := i } {}).resetElectionTimer :=
    ⟨boot i, nofun, nofun⟩
  exact rooted.recomputeConf

theorem exec {s : Cluster} (backed : s.Backed known) {action : Action}
    (covered : ∀ i index data, action = .compact i index data → index ≤ (s.nodes i).commitIndex)
    (settled : ∀ v, s.CommitsVoter v → known v) : (s.exec action).Backed known := by
  by_cases enabled : s.enabled action
  · have performed : (action.perform (s.nodes action.node)).Backed known := by
      refine (backed.nodes action.node).perform ?_ ?_ fun e member v voter => settled v ⟨_, e, member, voter⟩
      · rintro envelope rfl
        exact backed.net envelope (of_decide_eq_true enabled)
      · rintro i index data rfl
        exact covered i index data rfl
    refine ⟨?_, ?_⟩
    · intro i
      by_cases here : i = action.node
      · rw [here, exec_node enabled]
        exact ⟨⟨performed.boot, performed.snap, nofun⟩, performed.voters⟩
      · rw [exec_other here]
        exact backed.nodes i
    · intro envelope member
      rw [exec_net] at member
      rcases mem_append.mp member with old | new
      · exact backed.net envelope old
      · exact performed.sent _ (mem_sends new)
  · rw [exec_disabled enabled]
    exact backed

end Cluster.Backed

end Arcux.Raft
