import Arcux.Raft.Moves

namespace Arcux.Raft

open Codec List

namespace MemStorage

def At (storage : MemStorage) (i : Nat) (e : Entry) : Prop :=
  storage.base < i ∧ storage.log[i - storage.base - 1]? = some e

def Contiguous (storage : MemStorage) : Prop := ∀ i e, storage.At i e → e.index = i

variable {storage : MemStorage} {i : Nat} {e : Entry}

theorem getElem?_entries {low high k : Nat} : (storage.entries low high)[k]? = some e ↔
    max low (storage.base + 1) + k ≤ high ∧ storage.At (max low (storage.base + 1) + k) e := by
  have position : max low (storage.base + 1) + k - storage.base - 1 =
      max low (storage.base + 1) - storage.base - 1 + k := by omega
  unfold entries At
  simp only [position]
  have short : ∀ m, storage.log[m]? = some e → m < storage.log.length :=
    fun m found => (List.getElem?_eq_some_iff.mp found).1
  split
  · simp
    omega
  split
  · simp only [getElem?_nil, reduceCtorEq, false_iff, not_and]
    intro inside _ found
    have := short _ found
    omega
  · rw [getElem?_drop, getElem?_take]
    split
    · constructor
      · exact fun found => ⟨by omega, by omega, found⟩
      · exact fun found => found.2.2
    · simp only [reduceCtorEq, false_iff, not_and]
      intro inside _ found
      have := short _ found
      omega

theorem entries_self : storage.entries i i = [e] ↔ storage.At i e := by
  have first : (storage.entries i i)[0]? = some e ↔ storage.At i e := by
    rw [getElem?_entries]
    constructor
    · rintro ⟨inside, found⟩
      rwa [Nat.add_zero, show max i (storage.base + 1) = i by omega] at found
    · intro found
      have above := found.1
      rw [Nat.add_zero, show max i (storage.base + 1) = i by omega]
      exact ⟨Nat.le_refl _, found⟩
  have single : (storage.entries i i)[1]? = none := by
    cases found : (storage.entries i i)[1]? with
    | none => rfl
    | some x =>
      have := (getElem?_entries.mp found).1
      omega
  rw [← first]
  constructor
  · intro same
    rw [same]
    rfl
  · intro found
    match taken : storage.entries i i with
    | [] => rw [taken] at found; cases found
    | [x] => rw [taken] at found; simpa using found
    | x :: y :: rest => rw [taken] at single; cases single

theorem at_of_mem_entries {low high : Nat} (member : e ∈ storage.entries low high) :
    ∃ i, low ≤ i ∧ i ≤ high ∧ storage.At i e := by
  obtain ⟨k, found⟩ := getElem?_of_mem member
  obtain ⟨inside, held⟩ := getElem?_entries.mp found
  exact ⟨_, by omega, inside, held⟩

theorem at_append {entries : List Entry} : (storage.append entries).At i e ↔
    storage.At i e ∨ (storage.base + storage.log.length < i ∧
      entries[i - storage.base - storage.log.length - 1]? = some e) := by
  change storage.base < i ∧ (storage.log ++ entries)[i - storage.base - 1]? = some e ↔ _
  rw [getElem?_append]
  unfold At
  split
  · constructor
    · exact fun found => .inl found
    · rintro (found | ⟨past, _⟩)
      · exact found
      · omega
  · rw [show i - storage.base - 1 - storage.log.length = i - storage.base - storage.log.length - 1 by omega]
    constructor
    · exact fun found => .inr ⟨by omega, found.2⟩
    · rintro (⟨_, found⟩ | ⟨past, found⟩)
      · have := (List.getElem?_eq_some_iff.mp found).1
        omega
      · exact ⟨by omega, found⟩

theorem at_truncateSuffix {cut : Nat} (held : (storage.truncateSuffix cut).At i e) : i < cut ∧ storage.At i e := by
  unfold truncateSuffix at held
  split at held
  · simp [At] at held
  · obtain ⟨above, found⟩ := held
    change storage.base < i at above
    change (storage.log.take (cut - storage.base - 1))[i - storage.base - 1]? = some e at found
    rw [getElem?_take] at found
    split at found
    · exact ⟨by omega, above, found⟩
    · cases found

theorem at_compact {index term : Nat} {confState learners : List NodeId} {data : Bytes}
    (held : (storage.compact index term confState learners data).At i e) : storage.At i e := by
  unfold compact at held
  split at held
  · exact held
  · obtain ⟨above, found⟩ := held
    change index < i at above
    change (storage.log.drop (min (index - storage.base) storage.log.length))[i - index - 1]? = some e at found
    rw [List.getElem?_drop] at found
    have inside := (List.getElem?_eq_some_iff.mp found).1
    refine ⟨by omega, ?_⟩
    rwa [show min (index - storage.base) storage.log.length + (i - index - 1) = i - storage.base - 1 by omega] at found

theorem at_applySnapshot {snap : Snapshot} : ¬ (storage.applySnapshot snap).At i e := by
  simp [At, applySnapshot]

variable {storage' : MemStorage}

theorem at_of_body (same : storage'.body = storage.body) : storage'.At i e ↔ storage.At i e := by
  have log : storage'.log = storage.log := congrArg Prod.fst same
  rw [At, At, base_of_body same, log]

theorem At.le (held : storage.At i e) : i ≤ storage.base + storage.log.length := by
  have inside := (List.getElem?_eq_some_iff.mp held.2).1
  have above := held.1
  omega

namespace Contiguous

theorem lastIndex (contiguous : storage.Contiguous) : storage.lastIndex = storage.base + storage.log.length := by
  unfold MemStorage.lastIndex
  cases last : storage.log.getLast? with
  | none => simp [getLast?_eq_none_iff.mp last]
  | some e =>
    rw [List.getLast?_eq_getElem?] at last
    have inside := (List.getElem?_eq_some_iff.mp last).1
    refine contiguous _ e ⟨by omega, ?_⟩
    rwa [show storage.base + storage.log.length - storage.base - 1 = storage.log.length - 1 by omega]

theorem of_at (contiguous : storage.Contiguous)
    (fewer : ∀ i e, storage'.At i e → storage.At i e) : storage'.Contiguous :=
  fun i e held => contiguous i e (fewer i e held)

theorem of_body (contiguous : storage.Contiguous) (same : storage'.body = storage.body) : storage'.Contiguous :=
  contiguous.of_at fun _ _ => (at_of_body same).mp

theorem append_own (contiguous : storage.Contiguous) (next : e.index = storage.lastIndex + 1) :
    (storage.append [e]).Contiguous := by
  intro i x held
  rw [contiguous.lastIndex] at next
  rcases at_append.mp held with old | ⟨past, found⟩
  · exact contiguous i x old
  · rw [getElem?_singleton] at found
    split at found
    · cases found
      omega
    · cases found

end Contiguous

end MemStorage

def MessageBody.Numbered : MessageBody → Prop
  | .appendEntries prevLogIndex _ entries _ _ => ∀ k e, entries[k]? = some e → e.index = prevLogIndex + 1 + k
  | _ => True

variable {body : MessageBody}

theorem MessageBody.Numbered.of_light (light : body.replicates = false) : body.Numbered := by
  cases body <;> trivial

namespace RaftNode

def joined : MemStorage × Option (List Entry) → MemStorage
  | (storage, some fresh) => storage.append fresh
  | (storage, none) => storage

theorem spliceEntries_storage (n : RaftNode) (prevLogIndex : Nat) (entries : List Entry) :
    (n.spliceEntries prevLogIndex entries).storage =
      joined (splice n.storage n.storage.base (prevLogIndex + 1) entries) := by
  unfold spliceEntries
  split
  · rename_i outcome
    rw [outcome, recomputeConf_storage]
    rfl
  · rename_i outcome
    rw [outcome]
    rfl

variable {entries : List Entry} {storage : MemStorage} {e : Entry}

theorem appended_at {index i : Nat} (numbered : ∀ k e, entries[k]? = some e → e.index = index + k)
    (next : index = storage.base + storage.log.length + 1) (held : (storage.append entries).At i e) :
    storage.At i e ∨ (e ∈ entries ∧ e.index = i) := by
  rcases MemStorage.at_append.mp held with old | ⟨past, found⟩
  · exact .inl old
  · have carried := numbered _ e found
    exact .inr ⟨mem_of_getElem? found, by omega⟩

variable {index : Nat}

theorem spliced_at (contiguous : storage.Contiguous)
    (numbered : ∀ k e, entries[k]? = some e → e.index = index + k) (reach : index ≤ storage.lastIndex + 1)
    {i : Nat} (held : (joined (splice storage storage.base index entries)).At i e) :
    storage.At i e ∨ (e ∈ entries ∧ e.index = i) := by
  have last := contiguous.lastIndex
  induction entries generalizing index with
  | nil => exact .inl held
  | cons x rest ih =>
    have skip : index ≤ storage.lastIndex → (joined (splice storage storage.base (index + 1) rest)).At i e →
        storage.At i e ∨ (e ∈ x :: rest ∧ e.index = i) := by
      intro inside held
      have later : ∀ k e, rest[k]? = some e → e.index = index + 1 + k := by
        intro k e found
        have := numbered (k + 1) e found
        omega
      rcases ih later (by omega) held with old | ⟨member, carried⟩
      · exact .inl old
      · exact .inr ⟨mem_cons_of_mem _ member, carried⟩
    rw [splice] at held
    split_ifs at held with covered known conflict
    · exact skip (by omega) held
    · have base : (storage.truncateSuffix index).base = storage.base := by
        unfold MemStorage.truncateSuffix
        split <;> rfl
      have length : (storage.truncateSuffix index).log.length = index - storage.base - 1 := by
        unfold MemStorage.truncateSuffix
        split
        · simp only [length_nil]
          omega
        · rw [length_take]
          omega
      rcases appended_at numbered (by omega) held with old | fresh
      · exact .inl (MemStorage.at_truncateSuffix old).2
      · exact .inr fresh
    · exact skip known held
    · exact appended_at numbered (by omega) held

theorem le_lastIndex_of_term (contiguous : storage.Contiguous) {index term : Nat}
    (known : storage.term index = some term) : index ≤ storage.lastIndex := by
  rw [contiguous.lastIndex]
  unfold MemStorage.term at known
  split_ifs at known
  · omega
  · omega
  · obtain ⟨e, found, _⟩ := Option.map_eq_some_iff.mp known
    have := (List.getElem?_eq_some_iff.mp found).1
    omega

theorem reach_of_match (contiguous : storage.Contiguous) {prevLogIndex prevLogTerm : Nat}
    (fits : storage.base ≤ prevLogIndex → storage.term prevLogIndex = some prevLogTerm) :
    prevLogIndex ≤ storage.lastIndex := by
  by_cases inside : storage.base ≤ prevLogIndex
  · exact le_lastIndex_of_term contiguous (fits inside)
  · rw [contiguous.lastIndex]
    omega

theorem handleAppendEntries_storage {n : RaftNode} (contiguous : n.storage.Contiguous) {sender : NodeId}
    {term prevLogIndex prevLogTerm leaderCommit readRound : Nat} {n' : RaftNode}
    (handled : n.handleAppendEntries sender term prevLogIndex prevLogTerm entries leaderCommit readRound = n') :
    n'.storage = n.storage ∨ (prevLogIndex ≤ n.storage.lastIndex ∧ n'.role = .follower ∧
      n'.storage = joined (splice n.storage n.storage.base (prevLogIndex + 1) entries)) := by
  unfold handleAppendEntries at handled
  simp only at handled
  split_ifs at handled with stale covered mismatch
  · exact .inl (handled ▸ rfl)
  · exact .inl (handled ▸ rfl)
  · exact .inl (handled ▸ rfl)
  · rw [not_and, not_not] at mismatch
    refine .inr ⟨reach_of_match contiguous mismatch, ?_, ?_⟩
    · subst handled
      change ((n.follow sender).spliceEntries prevLogIndex entries).role = .follower
      exact spliceEntries_role rfl _ _
    · subst handled
      exact spliceEntries_storage (n.follow sender) prevLogIndex entries

structure Tidy (n : RaftNode) : Prop where
  contiguous : n.storage.Contiguous
  sent : ∀ msg ∈ n.messages, msg.body.Numbered

namespace Tidy

variable {n n' : RaftNode}

theorem congr (tidy : Tidy n) (body : n'.storage.body = n.storage.body) (messages : n'.messages = n.messages) :
    Tidy n' :=
  ⟨tidy.contiguous.of_body body, messages ▸ tidy.sent⟩

theorem send (tidy : Tidy n) (dest : NodeId) (term : Nat) (numbered : body.Numbered) :
    Tidy (n.send dest term body) := by
  refine ⟨tidy.contiguous, ?_⟩
  intro msg member
  rcases mem_append.mp member with old | new
  · exact tidy.sent msg old
  · rw [mem_singleton.mp new]
    exact numbered

theorem sendAppend (tidy : Tidy n) (dest : NodeId) : Tidy (n.sendAppend dest) := by
  unfold RaftNode.sendAppend sendSnapshot
  simp only
  split
  · split
    · exact tidy
    · exact tidy.send _ _ trivial
  · rename_i kept
    refine tidy.send _ _ ?_
    intro k e found
    rw [MemStorage.getElem?_entries] at found
    rw [MemStorage.firstIndex] at kept
    have carried := tidy.contiguous _ e found.2
    omega

theorem recomputeConf (tidy : Tidy n) : Tidy n.recomputeConf :=
  tidy.congr (congrArg MemStorage.body n.recomputeConf_storage) n.recomputeConf_messages

theorem spliceEntries (tidy : Tidy n) {prevLogIndex : Nat}
    (numbered : ∀ k e, entries[k]? = some e → e.index = prevLogIndex + 1 + k)
    (reach : prevLogIndex ≤ n.storage.lastIndex) : Tidy (n.spliceEntries prevLogIndex entries) := by
  refine ⟨?_, ?_⟩
  · rw [spliceEntries_storage]
    intro i e held
    rcases spliced_at tidy.contiguous numbered (by omega) held with old | ⟨_, carried⟩
    · exact tidy.contiguous i e old
    · exact carried
  · unfold RaftNode.spliceEntries
    split
    · rw [recomputeConf_messages]
      exact tidy.sent
    · exact tidy.sent

theorem appendOwn (tidy : Tidy n) {entry : Entry} (next : entry.index = n.storage.lastIndex + 1) :
    Tidy (n.appendOwn entry) :=
  ⟨tidy.contiguous.append_own next, tidy.sent⟩

theorem compact (tidy : Tidy n) {data : Bytes} (done : n.compact index data = some n') : Tidy n' := by
  rcases RaftNode.compact_cases done with rfl | ⟨term, -, -, -, rfl⟩
  · exact tidy
  · exact ⟨tidy.contiguous.of_at fun _ _ => MemStorage.at_compact, tidy.sent⟩

theorem new (contiguous : storage.Contiguous) (cfg : Config) : Tidy (.new cfg storage) := by
  refine Tidy.recomputeConf ?_
  exact ⟨contiguous, nofun⟩

variable {action : Action}

theorem move (tidy : Tidy n) (numbered : ∀ envelope, action = .deliver envelope → envelope.message.body.Numbered)
    (move : Move action n n') : Tidy n' := by
  cases move with
  | quiet turn => exact tidy.congr (congrArg Seats.body turn.seats) turn.frame.2
  | answer answers => exact tidy.send _ _ (.of_light answers.light)
  | sendAppend dest => exact tidy.sendAppend dest
  | appendOwn next => exact tidy.appendOwn next
  | recomputeConf => exact tidy.recomputeConf
  | splice role heard fits => exact tidy.spliceEntries (numbered _ heard) (reach_of_match tidy.contiguous fits)
  | install =>
    refine Tidy.recomputeConf ?_
    exact ⟨fun i e held => absurd held MemStorage.at_applySnapshot, tidy.sent⟩
  | takeCommitted called =>
    unfold RaftNode.takeCommitted
    split
    · exact tidy
    · exact tidy.congr rfl rfl
  | takeSnapshot called => exact tidy.congr rfl rfl
  | compact called done => exact tidy.compact done
  | restart called => exact .new tidy.contiguous _

theorem perform (tidy : Tidy n)
    (numbered : ∀ envelope, action = .deliver envelope → envelope.message.body.Numbered) : Tidy (action.perform n) :=
  (Moves.perform n action).preserves Tidy (fun _ _ move tidy => tidy.move numbered move) tidy

end Tidy

end RaftNode

structure Cluster.Tidy (s : Cluster) : Prop where
  nodes : ∀ i, (s.nodes i).Tidy
  net : ∀ envelope ∈ s.net, envelope.message.body.Numbered

namespace Cluster.Tidy

theorem start (cfg : NodeId → Config) : (Cluster.start cfg).Tidy :=
  ⟨fun _ => RaftNode.Tidy.new (fun i e held => by simp [MemStorage.At] at held) _, nofun⟩

variable {s : Cluster}

theorem exec (tidy : s.Tidy) (action : Action) : (s.exec action).Tidy := by
  by_cases enabled : s.enabled action
  · have performed : (action.perform (s.nodes action.node)).Tidy := by
      refine (tidy.nodes action.node).perform ?_
      rintro envelope rfl
      exact tidy.net envelope (of_decide_eq_true enabled)
    refine ⟨?_, ?_⟩
    · intro i
      by_cases here : i = action.node
      · rw [here, exec_node enabled]
        exact ⟨performed.contiguous, nofun⟩
      · rw [exec_other here]
        exact tidy.nodes i
    · intro envelope member
      rw [exec_net] at member
      rcases mem_append.mp member with old | new
      · exact tidy.net envelope old
      · exact performed.sent _ (mem_sends new)
  · rw [exec_disabled enabled]
    exact tidy

theorem run (tidy : s.Tidy) (actions : List Action) : (s.run actions).Tidy := by
  induction actions generalizing s with
  | nil => exact tidy
  | cons action rest ih => exact ih (tidy.exec action)

end Cluster.Tidy

end Arcux.Raft
