import Arcux.Raft.Remembered
import Arcux.Raft.LogOps

namespace Arcux.Raft

open Codec List

def Action.brought : Action → List Entry
  | deliver ⟨⟨_, _, _, .appendEntries _ _ entries _ _⟩, _⟩ => entries
  | _ => []

/-- No snapshot is installed, and an append numbers its entries and contradicts nothing that the snapshot covers, so that
it cuts off entries not yet committed only. -/
def Action.Allowed (n t : RaftNode) : Action → Prop
  | deliver ⟨⟨_, _, _, .appendEntries prevLogIndex _ entries _ _⟩, _⟩ =>
    (∀ k e, entries[k]? = some e → e.index = prevLogIndex + 1 + k) ∧
      ∀ i ≤ n.storage.base, ¬ Conflicts t.storage (prevLogIndex + 1) entries i
  | deliver ⟨⟨_, _, _, .installSnapshot ..⟩, _⟩ => False
  | _ => True

/-- A node and its twin after the same log operations. Every membership change in an append comes from an accepted
proposal on a node of such a run, and `admits` says which proposals are made. -/
inductive Reached (admits : RaftNode → ConfChange → Prop) : RaftNode → RaftNode → Prop
  | start (cfg : Config) : Reached admits (.new cfg {}) (.new cfg {})
  | act {n t : RaftNode} (reached : Reached admits n t) (action : Action) (allowed : action.Allowed n t)
      (proposes : ∀ i cc, action = .proposeConfChange i cc → admits n cc) (maker twin : Entry → RaftNode)
      (change : Entry → ConfChange)
      (made : ∀ e ∈ action.brought, e.entryType = .confChange → Reached admits (maker e) (twin e))
      (produced : ∀ e ∈ action.brought, e.entryType = .confChange → admits (maker e) (change e) ∧
        (∃ done, (maker e).proposeConfChange (change e) = .ok done) ∧ e = (maker e).changeEntry (change e)) :
      Reached admits (action.perform n) (t.replay (action.logOp n))

def Recordable (n : RaftNode) (cc : ConfChange) : Prop :=
  (sortDedup (applyConfChange n.voters n.learners cc).1).length < 2 ^ 32 ∧
    (sortDedup (applyConfChange n.voters n.learners cc).2).length < 2 ^ 32

structure Seated (voters learners : List NodeId) : Prop where
  sorted : voters.Pairwise (· < ·)
  sorted' : learners.Pairwise (· < ·)
  apart : ∀ id ∈ voters, id ∉ learners

def Entry.Orderly (e : Entry) : Prop := ∃ cc voters learners, ConfChange.decode e.data = some (cc, voters, learners) ∧
  Seated voters learners

variable {voters learners : List NodeId}

theorem applyConfChange_apart (apart : ∀ id ∈ voters, id ∉ learners) (cc : ConfChange) :
    ∀ id ∈ (applyConfChange voters learners cc).1, id ∉ (applyConfChange voters learners cc).2 := by
  intro id
  cases cc with
  | addNode new =>
    simp only [applyConfChange]
    split_ifs with old
    · simp only [mem_filter, decide_eq_true_eq, not_and, not_not]
      intro voter learner
      exact absurd learner (apart id voter)
    · simp only [mem_append, mem_singleton, mem_filter, decide_eq_true_eq, not_and, not_not]
      rintro (voter | rfl) learner
      · exact absurd learner (apart id voter)
      · rfl
  | removeNode gone =>
    simp only [applyConfChange, mem_filter]
    rintro ⟨voter, -⟩ ⟨learner, -⟩
    exact apart id voter learner
  | addLearner new =>
    simp only [applyConfChange]
    split_ifs with fresh
    · rw [mem_append, mem_singleton]
      rintro voter (learner | rfl)
      · exact apart id voter learner
      · exact fresh.1 voter
    · exact apart id

variable {cc : ConfChange}

theorem changeEntry_orderly {n : RaftNode} (apart : ∀ id ∈ n.voters, id ∉ n.learners)
    (recordable : Recordable n cc) : (n.changeEntry cc).Orderly := by
  refine ⟨cc, _, _, ConfChange.decode_encode cc recordable.1 recordable.2, sortDedup_sorted _, sortDedup_sorted _, ?_⟩
  simpa only [mem_sortDedup] using applyConfChange_apart apart cc

def LastRecorded (bootstrap : List NodeId) (log : List Entry) (conf : List NodeId × List NodeId) : Prop :=
  match log.reverse.find? (fun e => e.entryType = .confChange) with
  | some e => ∃ cc, ConfChange.decode e.data = some (cc, conf)
  | none => conf = (sortDedup bootstrap, [])

theorem membership_recorded {bootstrap : List NodeId} {log : List Entry}
    (orderly : ∀ e ∈ log, e.entryType = .confChange → e.Orderly) :
    LastRecorded bootstrap log (membership bootstrap log) ∧
      Seated (membership bootstrap log).1 (membership bootstrap log).2 := by
  induction log using reverseRecOn with
  | nil => exact ⟨rfl, sortDedup_sorted _, .nil, fun _ _ => not_mem_nil⟩
  | append_singleton log e ih =>
    have earlier := ih fun x member => orderly x (mem_append_left _ member)
    by_cases change : e.entryType = .confChange
    · obtain ⟨cc, voters, learners, decoded, seated⟩ := orderly e (mem_append_right _ (mem_singleton_self e)) change
      have recorded : membership bootstrap (log ++ [e]) = (voters, learners) := by
        simp only [membership, foldConf_concat]
        simp [foldConf, change, decoded, canonical, sortDedup_eq seated.sorted, sortDedup_eq seated.sorted']
      rw [recorded]
      refine ⟨?_, seated⟩
      simp only [LastRecorded, reverse_append, reverse_singleton, singleton_append, change, decide_true,
        find?_cons_of_pos]
      exact ⟨cc, decoded⟩
    · rw [membership_normal bootstrap log e change]
      refine ⟨?_, earlier.2⟩
      have skipped := earlier.1
      simp only [LastRecorded, reverse_append, reverse_singleton, singleton_append] at skipped ⊢
      rw [find?_cons_of_neg (by simpa using change)]
      exact skipped

structure Twinned (n t : RaftNode) : Prop where
  remembers : Remembers n t.storage.log
  bare : t.storage.snap = none
  boot : t.bootstrapConf = n.bootstrapConf
  members : (n.voters, n.learners) = membership n.bootstrapConf t.storage.log
  members' : (t.voters, t.learners) = membership n.bootstrapConf t.storage.log
  orderly : ∀ e ∈ t.storage.log, e.entryType = .confChange → e.Orderly

namespace Twinned

variable {n n' t : RaftNode}

section

variable (twinned : Twinned n t)

include twinned

theorem twin : Remembers t t.storage.log := by
  have bottom : t.storage.base = 0 := by simp [MemStorage.base, twinned.bare]
  refine ⟨⟨twinned.remembers.holds.indexed, by omega, by rw [bottom]; rfl, by simp [twinned.bare]⟩, ?_⟩
  simp [twinned.bare]

theorem congr (same : n'.seats = n.seats) : Twinned n' t := by
  obtain ⟨boot, voters, learners, body⟩ := Seats.mk.inj same
  refine ⟨twinned.remembers.congr boot body, twinned.bare, twinned.boot.trans boot.symm, ?_, ?_, twinned.orderly⟩
  · rw [voters, learners, boot]
    exact twinned.members
  · rw [boot]
    exact twinned.members'

theorem seated : Seated n.voters n.learners := by
  have recorded : Seated (membership n.bootstrapConf t.storage.log).1 (membership n.bootstrapConf t.storage.log).2 :=
    (membership_recorded twinned.orderly).2
  rwa [← twinned.members] at recorded

theorem append {e : Entry} (next : e.index = n.storage.lastIndex + 1)
    (orderly : e.entryType = .confChange → e.Orderly) :
    Remembers (n.appendOwn e) (t.storage.log ++ [e]) ∧
      (∀ n', Remembers n' (t.storage.log ++ [e]) → n'.bootstrapConf = n.bootstrapConf →
        (n'.voters, n'.learners) = membership n.bootstrapConf (t.storage.log ++ [e]) →
        Twinned n' (t.appendOwn e).recomputeConf) := by
  have holds := twinned.remembers.holds
  have indexed : Indexed (t.storage.log ++ [e]) := holds.indexed.concat (by rw [next, holds.lastIndex])
  have covered {k : Nat} (inside : k ≤ t.storage.log.length) :
      (t.storage.log ++ [e]).take k = t.storage.log.take k := take_append_of_le_length inside
  have twin : Remembers (t.appendOwn e) (t.storage.log ++ [e]) :=
    twinned.twin.change rfl rfl (twinned.twin.holds.append indexed) (covered twinned.twin.holds.base_le)
  obtain ⟨-, boot', members'⟩ := twin.recomputeConf
  have log : (t.appendOwn e).recomputeConf.storage.log = t.storage.log ++ [e] := by
    rw [RaftNode.recomputeConf_storage]
    rfl
  refine ⟨twinned.remembers.change rfl rfl (holds.append indexed) (covered holds.base_le), fun n' remembers boot members => ?_⟩
  refine ⟨log ▸ remembers, ?_, (boot'.trans twinned.boot).trans boot.symm, ?_, ?_, ?_⟩
  · rw [RaftNode.recomputeConf_storage]
    exact twinned.bare
  · rw [log, boot]
    exact members
  · rw [log, boot, members', ← twinned.boot]
    rfl
  · rw [log]
    intro x member change
    rcases mem_append.mp member with old | new
    · exact twinned.orderly x old change
    · cases mem_singleton.mp new
      exact orderly change

theorem propose (i : NodeId) (data : Bytes) :
    Twinned ((Action.propose i data).perform n) (t.replay ((Action.propose i data).logOp n)) := by
  cases accepted : n.propose data with
  | error e =>
    simp only [Action.perform, Action.logOp, accepted]
    exact twinned
  | ok done =>
    obtain ⟨n', index⟩ := done
    simp only [Action.perform, Action.logOp, accepted, RaftNode.replay]
    obtain ⟨_, rfl, rfl⟩ := RaftNode.propose_ok accepted
    obtain ⟨remembers, finish⟩ := twinned.append (e := .normal n.currentTerm (n.storage.lastIndex + 1) data) rfl (by rintro ⟨⟩)
    refine (finish (n.appendOwn _) remembers rfl ?_).congr
      ((RaftNode.broadcastAppend_seats _).trans (RaftNode.maybeAdvanceCommit_seats _))
    rw [membership_normal _ _ (.normal n.currentTerm (n.storage.lastIndex + 1) data) (by rintro ⟨⟩)]
    exact twinned.members

theorem proposeConfChange (i : NodeId) (recordable : Recordable n cc) :
    Twinned ((Action.proposeConfChange i cc).perform n) (t.replay ((Action.proposeConfChange i cc).logOp n)) := by
  cases accepted : n.proposeConfChange cc with
  | error e =>
    simp only [Action.perform, Action.logOp, accepted]
    exact twinned
  | ok done =>
    obtain ⟨n', index⟩ := done
    simp only [Action.perform, Action.logOp, accepted, RaftNode.replay]
    obtain ⟨-, -, -, -, rfl⟩ := RaftNode.proposeConfChange_ok accepted
    have orderly := changeEntry_orderly twinned.seated.apart recordable
    obtain ⟨remembers, finish⟩ := twinned.append (e := n.changeEntry cc) rfl fun _ => orderly
    obtain ⟨remembers', boot, members⟩ := remembers.recomputeConf
    exact (finish _ remembers' boot members).congr (RaftNode.trackMember_seats _ cc)

variable {entries : List Entry}

theorem splice {prevLogIndex : Nat} (numbered : ∀ k e, entries[k]? = some e → e.index = prevLogIndex + 1 + k)
    (agreed : ∀ i ≤ n.storage.base, ¬ Conflicts t.storage (prevLogIndex + 1) entries i)
    (orderly : ∀ e ∈ entries, e.entryType = .confChange → e.Orderly) (reach : prevLogIndex ≤ n.storage.lastIndex) :
    Twinned (n.spliceEntries prevLogIndex entries) (t.spliceEntries prevLogIndex entries) := by
  have holds := twinned.remembers.holds
  rw [holds.lastIndex] at reach
  have same := splice_same holds twinned.bare rfl numbered (Nat.succ_pos _) (Nat.succ_le_succ reach) agreed
  unfold RaftNode.spliceEntries
  generalize RaftNode.splice n.storage n.storage.base (prevLogIndex + 1) entries = left at same ⊢
  generalize RaftNode.splice t.storage t.storage.base (prevLogIndex + 1) entries = right at same ⊢
  cases same with
  | held => exact twinned
  | @fresh cut cut' rest holds' snap bare part covers brought =>
    have bottom : t.storage.base = 0 := by simp [MemStorage.base, twinned.bare]
    have bottom' : (cut'.append rest).base = 0 := by simp [MemStorage.base, MemStorage.append, bare]
    have covered : (cut'.log ++ rest).take n.storage.base = t.storage.log.take n.storage.base := by
      obtain ⟨gone, joins⟩ := part
      rw [take_append_of_le_length covers, ← joins, take_append_of_le_length covers]
    have twin' : Holds (cut'.append rest) (cut'.log ++ rest) :=
      ⟨holds'.indexed, by omega, by rw [bottom']; rfl, by simp [MemStorage.append, bare]⟩
    have remembers : Remembers { n with storage := cut.append rest } (cut'.log ++ rest) :=
      twinned.remembers.change rfl snap holds' covered
    have remembers' : Remembers { t with storage := cut'.append rest } (cut'.log ++ rest) :=
      twinned.twin.change rfl (bare.trans twinned.bare.symm) twin' (by rw [bottom]; rfl)
    obtain ⟨recomputed, boot, members⟩ := remembers.recomputeConf
    obtain ⟨-, boot', members'⟩ := remembers'.recomputeConf
    have log : { t with storage := cut'.append rest }.recomputeConf.storage = cut'.append rest :=
      RaftNode.recomputeConf_storage _
    refine ⟨?_, ?_, ?_, ?_, ?_, ?_⟩
    all_goals simp only [log, boot, boot']
    · exact recomputed
    · exact bare
    · exact twinned.boot
    · exact members
    · rw [members']
      simp only [twinned.boot]
      rfl
    · intro e member change
      rcases mem_append.mp member with old | new
      · exact twinned.orderly e (part.subset old) change
      · exact orderly e (brought new) change

theorem deliver {sender dest : NodeId} {term prevLogIndex prevLogTerm leaderCommit readRound incarnation : Nat}
    (numbered : ∀ k e, entries[k]? = some e → e.index = prevLogIndex + 1 + k)
    (agreed : ∀ i ≤ n.storage.base, ¬ Conflicts t.storage (prevLogIndex + 1) entries i)
    (orderly : ∀ e ∈ entries, e.entryType = .confChange → e.Orderly) :
    let action := Action.deliver ⟨⟨sender, dest, term,
      .appendEntries prevLogIndex prevLogTerm entries leaderCommit readRound⟩, incarnation⟩
    Twinned (action.perform n) (t.replay (action.logOp n)) := by
  intro action
  -- A message of a newer term is adopted first, which changes neither the log nor the members.
  let m := n.adoptTerm ⟨sender, dest, term, .appendEntries prevLogIndex prevLogTerm entries leaderCommit readRound⟩
  have seats : m.seats = n.seats := RaftNode.adoptTerm_seats _ _
  have adopted : Twinned m t := twinned.congr seats
  have body : m.storage.body = n.storage.body := congrArg Seats.body seats
  have base : m.storage.base = n.storage.base := MemStorage.base_of_body body
  have same : m.Accepts term prevLogIndex prevLogTerm entries ↔ n.Accepts term prevLogIndex prevLogTerm entries := by
    obtain ⟨log, snap⟩ := Prod.mk.inj body
    have current : m.currentTerm ≤ term ↔ n.currentTerm ≤ term := RaftNode.adoptTerm_current n _
    simp only [RaftNode.Accepts, current, MemStorage.term, base, log, snap]
  have performed : action.perform n =
      m.handleAppendEntries sender term prevLogIndex prevLogTerm entries leaderCommit readRound := rfl
  rw [performed]
  simp only [action, Action.logOp]
  rcases m.handleAppendEntries_seats sender term prevLogIndex prevLogTerm entries leaderCommit readRound with
    ⟨refused, kept⟩ | ⟨accepted, spliced⟩
  · rw [if_neg (same.not.mp refused)]
    exact adopted.congr kept
  · rw [if_pos (same.mp accepted)]
    have followed : Twinned (m.follow sender) t := adopted.congr rfl
    have holds := followed.remembers.holds
    have contiguous : m.storage.Contiguous := by
      intro i e held
      have numbered := holds.indexed _ e (holds.at_iff.mp held).2
      have := held.1
      omega
    exact (followed.splice numbered (base ▸ agreed) orderly (RaftNode.reach_of_match contiguous accepted.2.2)).congr spliced

theorem compact (i : NodeId) (index : Nat) (data : Bytes) : Twinned ((Action.compact i index data).perform n) t := by
  simp only [Action.perform]
  cases done : n.compact index data with
  | none => exact twinned
  | some n' =>
    rcases RaftNode.compact_cases done with rfl | ⟨term, above, -, known, rfl⟩
    · exact twinned
    · have holds := twinned.remembers.holds
      rw [holds.term above.le] at known
      have inside : index ≤ t.storage.log.length := by
        by_contra past
        rw [termAt, if_neg (by omega), getElem?_eq_none (by omega)] at known
        cases known
      refine ⟨⟨holds.compact above inside known, ?_⟩, twinned.bare, twinned.boot, twinned.members, twinned.members',
        twinned.orderly⟩
      rw [MemStorage.compact_of_lt above]
      rintro _ ⟨⟩
      exact twinned.remembers.confAt above.le

theorem restart (i : NodeId) (cfg : Config) : Twinned ((Action.restart i cfg).perform n) t := by
  have recovered : Remembers (RaftNode.recover { cfg with id := n.id, voters := n.bootstrapConf } n.storage).resetElectionTimer
      t.storage.log := twinned.remembers.congr rfl rfl
  obtain ⟨remembers, boot, members⟩ := recovered.recomputeConf
  exact ⟨remembers, twinned.bare, twinned.boot.trans boot.symm, boot ▸ members, boot ▸ twinned.members', twinned.orderly⟩

end

end Twinned

theorem Twinned.start (cfg : Config) : Twinned (.new cfg {}) (.new cfg {}) := by
  have empty : Remembers (RaftNode.recover cfg {}).resetElectionTimer [] := ⟨Holds.empty {}, nofun⟩
  obtain ⟨remembers, boot, members⟩ := empty.recomputeConf
  have storage : (RaftNode.new cfg {}).storage = {} := RaftNode.recomputeConf_storage _
  refine ⟨?_, ?_, rfl, ?_, ?_, ?_⟩
  all_goals simp only [storage]
  · exact remembers
  · exact boot ▸ members
  · exact boot ▸ members
  · exact nofun

theorem Reached.twinned {n t : RaftNode} (reached : Reached Recordable n t) : Twinned n t := by
  induction reached with
  | start cfg => exact .start cfg
  | @act n t reached action allowed proposes maker twin change made produced ih makers =>
    have orderly : ∀ e ∈ action.brought, e.entryType = .confChange → e.Orderly := by
      intro e member changes
      obtain ⟨recordable, -, same⟩ := produced e member changes
      rw [same]
      exact changeEntry_orderly (makers e member changes).seated.apart recordable
    by_cases idle : action.idle
    · rw [Action.idle_logOp idle]
      exact ih.congr (Action.idle_seats idle n)
    · cases action with
      | propose i data => exact ih.propose i data
      | proposeConfChange i cc => exact ih.proposeConfChange i (proposes i cc rfl)
      | compact i index data => exact ih.compact i index data
      | restart i cfg => exact ih.restart i cfg
      | deliver envelope =>
        obtain ⟨⟨sender, dest, term, body⟩, incarnation⟩ := envelope
        cases body with
        | appendEntries prevLogIndex prevLogTerm entries leaderCommit readRound =>
          exact ih.deliver allowed.1 allowed.2 orderly
        | installSnapshot => cases allowed
        | _ => exact absurd rfl idle
      | _ => exact absurd rfl idle

/-- Compaction and restarts leave the membership what the whole log records: the twin, which keeps all of it, has the same
members. -/
theorem membership_unaffected {n t : RaftNode} (reached : Reached Recordable n t) :
    n.voters = t.voters ∧ n.learners = t.learners ∧ t.storage.snap = none ∧ Holds n.storage t.storage.log ∧
      LastRecorded n.bootstrapConf t.storage.log (n.voters, n.learners) ∧ Seated n.voters n.learners := by
  have twinned := reached.twinned
  obtain ⟨voters, learners⟩ := Prod.mk.inj (twinned.members.trans twinned.members'.symm)
  refine ⟨voters, learners, twinned.bare, twinned.remembers.holds, ?_, twinned.seated⟩
  rw [twinned.members]
  exact (membership_recorded twinned.orderly).1

theorem Reached.plain {admits : RaftNode → ConfChange → Prop} {n t : RaftNode} (reached : Reached admits n t)
    (action : Action) (light : action.brought = []) (allowed : action.Allowed n t)
    (proposes : ∀ i cc, action = .proposeConfChange i cc → admits n cc) :
    Reached admits (action.perform n) (t.replay (action.logOp n)) :=
  .act reached action allowed proposes (fun _ => n) (fun _ => t) (fun _ => .addNode 0) (light ▸ nofun) (light ▸ nofun)

theorem membership_unaffected_compacted : ∃ n t, Reached Recordable n t ∧ n.storage.base = 1 ∧ n.learners = [2] ∧
    n.voters = t.voters ∧ n.learners = t.learners := by
  have elected := ((Reached.start (.new 1 [1])).plain (.receive 1 1 0 .timeoutNow) rfl trivial nofun :
    Reached Recordable _ _)
  have changed := elected.plain (.proposeConfChange 1 (.addLearner 2)) rfl trivial fun _ _ same => by
    cases same
    exact ⟨by decide +kernel, by decide +kernel⟩
  have taken := changed.plain (.takeCommitted 1) rfl trivial nofun
  have compacted := taken.plain (.compact 1 1 []) rfl trivial nofun
  have restarted := compacted.plain (.restart 1 (.new 1 [1])) rfl trivial nofun
  obtain ⟨voters, learners, -⟩ := membership_unaffected restarted
  exact ⟨_, _, restarted, by decide +kernel, by decide +kernel, voters, learners⟩

theorem decode_cut (rest : List NodeId) (many : rest.length = 2 ^ 32 - 2) :
    ConfChange.decode ((ConfChange.addNode 1).encode (1 :: 4294967296 :: 4294967297 :: rest) []) =
      some (.addNode 1, [1], [1]) := by
  have count : toBE 4 (1 :: 4294967296 :: 4294967297 :: rest : List NodeId).length = [0, 0, 0, 1] := by
    simp only [length_cons, many]
    decide
  have bytes : (ConfChange.addNode 1).encode (1 :: 4294967296 :: 4294967297 :: rest) [] =
      [1, 0, 0, 0, 0, 0, 0, 0, 1, 0, 0, 0, 1, 0, 0, 0, 0, 0, 0, 0, 1, 0, 0, 0, 1, 0, 0, 0, 0, 0, 0, 0, 1] ++
        ([0, 0, 0, 1] ++ ConfChange.encodeIds rest ++ [0, 0, 0, 0]) := by
    simp only [ConfChange.encode, count, ConfChange.encodeIds, flatMap_cons, flatMap_nil, append_assoc,
      append_nil]
    rfl
  rw [bytes]
  generalize [0, 0, 0, 1] ++ ConfChange.encodeIds rest ++ [0, 0, 0, 0] = tail
  generalize shape : [1, 0, 0, 0, 0, 0, 0, 0, 1, 0, 0, 0, 1, 0, 0, 0, 0, 0, 0, 0, 1, 0, 0, 0, 1, 0, 0, 0, 0, 0, 0, 0, 1] ++
    tail = bytes
  have long {k : Nat} (inside : k ≤ 33) : ¬ bytes.length < k := by
    rw [← shape, length_append]
    exact Nat.not_lt.mpr (inside.trans (Nat.le_add_right _ _))
  have counts : ConfChange.readU32 bytes 9 = 1 ∧ ConfChange.readU32 bytes 21 = 1 := by
    subst shape
    exact ⟨rfl, rfl⟩
  have ids : ConfChange.readU64 bytes 1 = 1 ∧ ConfChange.readU64 bytes 13 = 1 ∧ ConfChange.readU64 bytes 25 = 1 := by
    subst shape
    exact ⟨rfl, rfl, rfl⟩
  have head : bytes.head? = some 1 := by
    subst shape
    rfl
  simp only [ConfChange.decode, counts, ids, head, ConfChange.decodeIds, if_neg (long (show 13 ≤ 33 by decide)),
    if_neg (long (show 13 + 8 ≤ 33 by decide)), if_neg (long (show 13 + 8 + 4 ≤ 33 by decide)),
    if_neg (long (show 13 + 8 + 4 + 8 ≤ 33 by decide))]

/-! Node 1 of a group with members `ids` is elected and proposes the change. -/

theorem foldl_send (n : RaftNode) (peers : List NodeId) (f : RaftNode → NodeId → RaftNode)
    (sends : ∀ m p, ∃ messages, f m p = { m with messages := messages }) :
    ∃ messages, peers.foldl f n = { n with messages := messages } := by
  induction peers generalizing n with
  | nil => exact ⟨n.messages, rfl⟩
  | cons p peers ih =>
    obtain ⟨first, sent⟩ := sends n p
    obtain ⟨messages, rest⟩ := ih (f n p)
    rw [sent] at rest
    exact ⟨messages, by rw [foldl_cons, sent, rest]⟩

theorem RaftNode.broadcastAppend_outbox (n : RaftNode) :
    ∃ messages, n.broadcastAppend = { n with messages := messages } := by
  refine foldl_send n _ _ fun m p => ?_
  unfold sendAppend sendSnapshot
  simp only
  split
  · split
    · exact ⟨m.messages, rfl⟩
    · exact ⟨_, rfl⟩
  · exact ⟨_, rfl⟩

structure Fresh (ids : List NodeId) (role : Role) (n : RaftNode) : Prop where
  id : n.id = 1
  role : n.role = role
  term : n.currentTerm = 1
  seats : n.seats = ⟨ids, ids, [], ([], none)⟩
  free : n.transferTarget = none

variable {ids : List NodeId} {n t : RaftNode}

theorem fresh_candidate (sorted : ids.Pairwise (· < ·)) (member : 1 ∈ ids) (several : 2 ≤ ids.length) :
    ∃ n t, Reached (fun _ _ => True) n t ∧ Fresh ids .candidate n ∧ n.votes = {1} := by
  have started : Reached (fun _ _ => True) (.new (.new 1 ids) {}) (.new (.new 1 ids) {}) := .start _
  have campaigns := started.plain (.receive 1 1 0 .timeoutNow) rfl trivial nofun
  generalize new : RaftNode.new (.new 1 ids) {} = n at campaigns
  have conf : n = (RaftNode.recover (.new 1 ids) {}).resetElectionTimer.adoptConf (ids, []) := by
    rw [← new, show (ids, []) = (sortDedup ids, ([] : List NodeId)) by rw [sortDedup_eq sorted]]
    rfl
  have voter : n.isVoter = true := by
    rw [conf]
    exact decide_eq_true member
  have elects : (Action.receive 1 1 0 .timeoutNow).perform n = n.startElection := by
    have current : n.currentTerm = 0 := by rw [conf]; rfl
    simp [Action.perform, Action.receive, RaftNode.step, RaftNode.adoptTerm, RaftNode.handleTimeoutNow, current, voter]
  have short : ¬ n.campaign.majority ≤ n.campaign.votes.card := by
    have : n.campaign.majority = ids.length / 2 + 1 := by rw [conf]; rfl
    have : n.campaign.votes.card = 1 := rfl
    omega
  obtain ⟨messages, sent⟩ := foldl_send n.campaign n.campaign.peers (fun m p => m.send p n.campaign.currentTerm
    (.requestVote n.campaign.storage.lastIndex n.campaign.lastLogTerm)) fun m p => ⟨_, rfl⟩
  have outcome : n.startElection = { n.campaign with messages := messages } := by
    rw [← sent]
    exact if_neg short
  rw [elects, outcome] at campaigns
  refine ⟨_, _, campaigns, ?_, ?_⟩
  · rw [conf]
    exact ⟨rfl, rfl, rfl, rfl, rfl⟩
  · rw [conf]
    rfl

theorem fresh_leader (reached : Reached (fun _ _ => True) n t) (fresh : Fresh ids .candidate n) {voters : List NodeId}
    (distinct : voters.Nodup) (members : ∀ v ∈ voters, v ∈ ids ∧ v ∉ n.votes)
    (enough : ids.length / 2 + 1 ≤ n.votes.card + voters.length) (short : n.votes.card < ids.length / 2 + 1) :
    ∃ n t, Reached (fun _ _ => True) n t ∧ Fresh ids .leader n := by
  induction voters generalizing n t with
  | nil =>
    simp only [length_nil] at enough
    omega
  | cons v rest ih =>
    obtain ⟨mem, new⟩ := members v (mem_cons_self ..)
    have granted := reached.plain (.receive v 1 1 (.requestVoteResp true)) rfl trivial nofun
    have voters : n.voters = ids := congrArg Seats.voters fresh.seats
    have counted : (Action.receive v 1 1 (.requestVoteResp true)).perform n =
        if ids.length / 2 + 1 ≤ n.votes.card + 1 then { n with votes := insert v n.votes }.becomeLeader
        else { n with votes := insert v n.votes } := by
      have adopted : n.adoptTerm ⟨v, 1, 1, .requestVoteResp true⟩ = n := if_neg (by simp [fresh.term])
      have card : (insert v n.votes).card = n.votes.card + 1 := Finset.card_insert_of_notMem new
      simp only [Action.perform, Action.receive, RaftNode.step, adopted, RaftNode.handleRequestVoteResp, fresh.role,
        fresh.term, voters, mem, RaftNode.majority, card]
      simp
    rw [counted] at granted
    split_ifs at granted with won
    · obtain ⟨messages, sent⟩ := RaftNode.broadcastAppend_outbox
        { n with votes := insert v n.votes }.assumeLeadership
      rw [RaftNode.becomeLeader, sent] at granted
      exact ⟨_, _, granted, fresh.id, rfl, fresh.term, fresh.seats, rfl⟩
    · have card : (insert v n.votes).card = n.votes.card + 1 := Finset.card_insert_of_notMem new
      refine ih granted ⟨fresh.id, fresh.role, fresh.term, fresh.seats, fresh.free⟩ distinct.of_cons ?_ ?_ ?_
      · intro w later
        obtain ⟨mem', new'⟩ := members w (mem_cons_of_mem _ later)
        refine ⟨mem', ?_⟩
        simp only [Finset.mem_insert, not_or]
        exact ⟨fun same => (nodup_cons.mp distinct).1 (same ▸ later), new'⟩
      · simp only [length_cons] at enough
        simp only [card]
        omega
      · simp only [card]
        omega

theorem fresh_change (reached : Reached (fun _ _ => True) n t) (fresh : Fresh ids .leader n)
    (sorted : ids.Pairwise (· < ·)) (member : 1 ∈ ids)
    (read : ConfChange.decode ((ConfChange.addNode 1).encode ids []) = some (.addNode 1, voters, learners)) :
    ∃ n t, Reached (fun _ _ => True) n t ∧ (n.voters, n.learners) = (sortDedup voters, sortDedup learners) := by
  have proposed := reached.plain (.proposeConfChange 1 (.addNode 1)) rfl trivial fun _ _ _ => trivial
  obtain ⟨boot, seated, none, body⟩ := Seats.mk.inj fresh.seats
  obtain ⟨log, snap⟩ := Prod.mk.inj body
  have empty : Holds n.storage [] :=
    ⟨Indexed.nil, by simp [MemStorage.base, snap], by simp [MemStorage.base, snap, log], by simp [snap]⟩
  have idle : n.hasPendingConfChange = false := by simp [RaftNode.hasPendingConfChange, empty.entries]
  have entry : n.changeEntry (.addNode 1) = ⟨1, 1, .confChange, (ConfChange.addNode 1).encode ids []⟩ := by
    simp [RaftNode.changeEntry, applyConfChange, seated, none, member, fresh.term, empty.lastIndex, sortDedup_eq sorted]
    rfl
  obtain ⟨done, accepted⟩ : ∃ done, n.proposeConfChange (.addNode 1) = .ok done := by
    unfold RaftNode.proposeConfChange
    rw [if_neg (by simp [fresh.role]), if_neg (by simp [fresh.free]), if_neg (by simp [idle]), if_neg (by rintro ⟨⟩)]
    exact ⟨_, rfl⟩
  obtain ⟨n', index⟩ := done
  simp only [Action.perform, accepted] at proposed
  obtain ⟨-, -, -, -, rfl⟩ := RaftNode.proposeConfChange_ok accepted
  have recorded : Remembers (n.appendOwn (n.changeEntry (.addNode 1))) [n.changeEntry (.addNode 1)] := by
    refine ⟨empty.append (Indexed.nil.concat ?_), fun s found => ?_⟩
    · rw [entry]
      rfl
    · cases snap.symm.trans found
  obtain ⟨-, -, members⟩ := recorded.recomputeConf
  refine ⟨_, _, proposed, ?_⟩
  have seats := ((RaftNode.broadcastAppend_seats _).trans (RaftNode.maybeAdvanceCommit_seats
    ((n.appendOwn (n.changeEntry (.addNode 1))).recomputeConf.trackMember (.addNode 1))))
  obtain ⟨-, same, same', -⟩ := Seats.mk.inj seats
  rw [same, same']
  refine members.trans ?_
  rw [entry]
  simp [membership, foldConf, read, canonical]

/-- A group of more than 2^32 voters: its first change records one voter, and reads another's id as a learner. -/
theorem cut_membership : ∃ n t, Reached (fun _ _ => True) n t ∧ n.voters = [1] ∧ n.learners = [1] := by
  obtain ⟨rest, many, large, sorted⟩ : ∃ rest : List NodeId, rest.length = 2 ^ 32 - 2 ∧ (∀ id ∈ rest, 4294967297 < id) ∧
      rest.Pairwise (· < ·) := by
    refine ⟨(range (2 ^ 32 - 2)).map fun k => UInt64.ofNat (4294967298 + k), ?_, ?_, ?_⟩
    · rw [length_map, length_range]
    · intro id member
      obtain ⟨k, inside, rfl⟩ := mem_map.mp member
      rw [mem_range] at inside
      rw [UInt64.lt_iff_toNat_lt, UInt64.toNat_ofNat_of_lt' (by simp only [UInt64.size]; omega)]
      exact Nat.lt_of_lt_of_le (by decide) (Nat.le_add_right _ k)
    · refine pairwise_map.mpr (pairwise_lt_range.imp_of_mem fun {a b} first second less => ?_)
      rw [mem_range] at first second
      rw [UInt64.lt_iff_toNat_lt, UInt64.toNat_ofNat_of_lt' (by simp only [UInt64.size]; omega),
        UInt64.toNat_ofNat_of_lt' (by simp only [UInt64.size]; omega)]
      omega
  obtain ⟨tail, shape⟩ : ∃ tail : List NodeId, tail = 4294967296 :: 4294967297 :: rest := ⟨_, rfl⟩
  have length : tail.length = 2 ^ 32 := by 
    rw [shape, length_cons, length_cons, many]
    omega
  have above : ∀ id ∈ tail, 1 < id := by
    rw [shape, forall_mem_cons, forall_mem_cons]
    exact ⟨by decide, by decide, fun id member => UInt64.lt_trans (by decide) (large id member)⟩
  have ordered : tail.Pairwise (· < ·) := by
    rw [shape, pairwise_cons, pairwise_cons, forall_mem_cons]
    exact ⟨⟨by decide, fun id member => UInt64.lt_trans (by decide) (large id member)⟩, large, sorted⟩
  have sorted' : (1 :: tail).Pairwise (· < ·) := pairwise_cons.mpr ⟨above, ordered⟩
  have members : (1 :: tail).length = 2 ^ 32 + 1 := by rw [length_cons, length]
  obtain ⟨n, t, reached, candidate, own⟩ := fresh_candidate sorted' (mem_cons_self ..) (by omega)
  have card : n.votes.card = 1 := by rw [own, Finset.card_singleton]
  obtain ⟨l, s, elected, leader⟩ := fresh_leader reached candidate (ordered.imp UInt64.ne_of_lt)
    (fun v member => ⟨mem_cons_of_mem _ member, by
      rw [own, Finset.mem_singleton]
      rintro rfl
      exact UInt64.lt_irrefl _ (above _ member)⟩) (by omega) (by omega)
  have read : ConfChange.decode ((ConfChange.addNode 1).encode (1 :: tail) []) = some (.addNode 1, [1], [1]) := by
    rw [shape]
    exact decode_cut rest many
  obtain ⟨n', t', changed, left⟩ := fresh_change elected leader sorted' (mem_cons_self ..) read
  obtain ⟨voters, learners⟩ := Prod.mk.inj left
  exact ⟨n', t', changed, voters, learners⟩

end Arcux.Raft
