import Arcux.Raft.Refinement.Replication

namespace Arcux.Raft

open Consensus List

variable {bootstrap : List NodeId} {scope : Scope} {l : Ledger NodeId Entry}
  {i : NodeId} {n : RaftNode}

variable {voters : List NodeId}

theorem View.appendOwn (view : View bootstrap scope l i n) (role : n.role = .leader) {e : Entry} (own : e.term = n.currentTerm) (index : e.index = n.storage.lastIndex + 1)
    (normal : scope.fixed → e.entryType = .normal)
    (disciplined : e.entryType = .confChange →
      (raftRules bootstrap).Disciplined l.toState n.currentTerm (l.lead n.currentTerm) e)
    (informed : Informed bootstrap voters (l.log i ++ [e])) (distinct : voters.Nodup) (voter : i ∈ voters) :
    Reaches bootstrap scope l i { n.appendOwn e with voters := voters } := by
  have node := view.node
  obtain ⟨⟨b, won⟩, current, _, matched, next, reached⟩ := node.leader role
  have term := node.term
  rw [← term] at won current own
  have last := node.log.lastIndex
  have evolves : Evolves i l (l.become (l.toState.appended i e)) :=
    Evolves.appended view.inv won current own (fun change => term ▸ disciplined change)
  have inv := (append_sound view.inv won current own (fun change => term ▸ disciplined change)).preserves view.inv
  have log : (l.toState.appended i e).log i = l.log i ++ [e] := by simp [State.appended, current]
  have lead : (l.toState.appended i e).lead (l.term i) = l.log i ++ [e] := by simp [State.appended, current]
  have indexed : Indexed (l.log i ++ [e]) := node.log.indexed.concat (by omega)
  have kept : ∀ c, (l.log i).take c <+: l.log i ++ [e] :=
    fun c => ( take_prefix c _).trans (prefix_append _ _)
  have regular : Regular scope (l.log i ++ [e]) := by
    refine ⟨indexed, fun fixed x member => ?_⟩
    rcases mem_append.mp member with old | new
    · exact view.regular_log.normal fixed x old
    · exact mem_singleton.mp new ▸ normal fixed
  refine ⟨_, evolves, inv, ?_, view.idle, ?_, ?_⟩
  · intro T
    by_cases here : T = l.term i
    · subst here
      exact lead ▸ regular
    · have same : (l.toState.appended i e).lead T = l.lead T := Function.update_of_ne here _ _
      exact same ▸ view.regular T
  · refine ⟨node.id, node.hard, node.term, node.vote, ?_, ⟨node.recorded.boot, ?_⟩, ?_, ?_, distinct, ?_, ?_,
      node.applied, ?_, ?_⟩
    · change Holds (n.storage.append [e]) ((l.toState.appended i e).log i)
      rw [log]
      exact node.log.append indexed
    · intro snap found
      change Informed bootstrap snap.confState (((l.toState.appended i e).log i).take _)
      have base : n.storage.base = snap.lastIncludedIndex := by
        simp [MemStorage.base, show n.storage.snap = some snap from found]
      rw [log, take_append_of_le_length (base ▸ node.log.base_le)]
      exact node.recorded.snap snap found
    · intro snap found
      change scope.image (((l.toState.appended i e).log i).take _) snap.data
      have base : n.storage.base = snap.lastIncludedIndex := by
        simp [MemStorage.base, show n.storage.snap = some snap from found]
      rw [log, take_append_of_le_length (base ▸ node.log.base_le)]
      exact node.image snap found
    · change Informed bootstrap voters ((l.toState.appended i e).log i)
      rw [log]
      exact informed
    · refine (node.commit.mono evolves.extend evolves.reached).of_take (Nat.le_refl _) ?_
      exact log ▸ kept _
    · refine (node.base.mono evolves.extend evolves.reached).of_take (Nat.le_refl _) ?_
      exact log ▸ kept _
    · intro bad
      rw [show n.role = .candidate from bad] at role
      cases role
    · intro _
      refine ⟨⟨b, term ▸ won⟩, ?_, voter, ?_, ?_, reached⟩
      · exact log.trans (lead.symm.trans (by rw [term]; rfl))
      · intro v m found
        change Function.update n.matchIndex n.id (some e.index) v = some m at found
        by_cases self : v = n.id
        · subst self
          rw [Function.update_self] at found
          cases found
          refine .inr (.inr ⟨node.id, term.symm, ?_⟩)
          rw [← current]
          omega
        · rw [Function.update_of_ne self] at found
          exact (matched v m found).imp_right .inl
      · intro v x found
        change Function.update n.nextIndex n.id (some (e.index + 1)) v = some x at found
        change 0 < x ∧ x ≤ ((l.toState.appended i e).log i).length + 1
        rw [log, length_append, length_singleton]
        by_cases self : v = n.id
        · rw [self, Function.update_self] at found
          cases found
          omega
        · rw [Function.update_of_ne self] at found
          have := next v x found
          omega
  · exact fun msg member => (view.sent msg member).mono evolves.extend evolves.reached

variable {leader : NodeId}

theorem settled_adopted {c k : Nat} {log b : List Entry}
    (inv : Invariant (raftRules bootstrap) l.toState) (won : l.winner n.currentTerm = some (leader, b))
    (adopted : ((l.lead n.currentTerm).take k <+: l.log i ∧ log = l.log i) ∨
      (¬ (l.lead n.currentTerm).take k <+: l.log i ∧ log = (l.lead n.currentTerm).take k))
    (settled : (raftRules bootstrap).Settled l n.currentTerm (l.log i) c) :
    (raftRules bootstrap).Settled l n.currentTerm log c := by
  rcases adopted with ⟨_, rfl⟩ | ⟨diverged, rfl⟩
  · exact settled
  · have shared := (settled.shared inv (Nat.le_refl _) won).2
    rcases prefix_or_prefix_of_prefix (shared ▸ take_prefix c _) ( take_prefix k _) with short | long
    · exact settled.of_take (Nat.le_refl _) short
    · exact absurd (long.trans ( take_prefix _ _)) diverged

variable {b : List Entry}

theorem View.accept (view : View bootstrap scope l i n) (role : n.role = .follower)
    {k commit applied : Nat} {log : List Entry} {storage : MemStorage}
    (won : l.winner n.currentTerm = some (leader, b)) (bound : k ≤ (l.lead n.currentTerm).length)
    (adopted : ((l.lead n.currentTerm).take k <+: l.log i ∧ log = l.log i) ∨
      (¬ (l.lead n.currentTerm).take k <+: l.log i ∧ log = (l.lead n.currentTerm).take k))
    (hard : storage.hard = n.storage.hard) (holds : Holds storage log)
    (snaps : ∀ snap, storage.snap = some snap → Informed bootstrap snap.confState (log.take snap.lastIncludedIndex) ∧
      scope.image (log.take snap.lastIncludedIndex) snap.data)
    (informed : Informed bootstrap voters log) (distinct : voters.Nodup)
    (settled : (raftRules bootstrap).Settled l n.currentTerm log commit)
    (base : (raftRules bootstrap).Settled l n.currentTerm log storage.base) (done : applied ≤ commit) :
    ∃ l', Evolves i l l' ∧ l'.acked i n.currentTerm k ∧ View bootstrap scope l' i
      { n with storage := storage, voters := voters, commitIndex := commit, lastApplied := applied } := by
  have node := view.node
  have term := node.term
  rw [← term] at won bound adopted
  have evolves : Evolves i l (l.become (l.toState.accepted i k log)) := Evolves.accepted view.inv won bound adopted
  have inv := (accept_sound view.inv won bound adopted).preserves view.inv
  have log' : (l.toState.accepted i k log).log i = log := by simp [State.accepted]
  refine ⟨_, evolves, .inr ⟨rfl, term.symm, Nat.le_refl _⟩, inv, view.regular, view.idle, ?_, ?_⟩
  · refine ⟨node.id, hard.trans node.hard, term, node.vote, ?_, ⟨node.recorded.boot, ?_⟩, ?_, ?_, distinct, ?_, ?_,
      done, ?_, ?_⟩
    · change Holds storage ((l.toState.accepted i k log).log i)
      rw [log']
      exact holds
    · change ∀ snap, storage.snap = some snap →
        Informed bootstrap snap.confState (((l.toState.accepted i k log).log i).take _)
      rw [log']
      exact fun snap found => (snaps snap found).1
    · change ∀ snap, storage.snap = some snap → scope.image (((l.toState.accepted i k log).log i).take _) snap.data
      rw [log']
      exact fun snap found => (snaps snap found).2
    · change Informed bootstrap voters ((l.toState.accepted i k log).log i)
      rw [log']
      exact informed
    · refine (settled.mono evolves.extend evolves.reached).of_take (Nat.le_refl _) ?_
      change _ <+: (l.toState.accepted i k log).log i
      rw [log']
      exact take_prefix _ _
    · refine (base.mono evolves.extend evolves.reached).of_take (Nat.le_refl _) ?_
      change _ <+: (l.toState.accepted i k log).log i
      rw [log']
      exact take_prefix _ _
    · intro bad
      rw [show n.role = .candidate from bad] at role
      cases role
    · intro bad
      rw [show n.role = .leader from bad] at role
      cases role
  · exact fun msg member => (view.sent msg member).mono evolves.extend evolves.reached

structure Splices (storage : MemStorage) (log lead : List Entry) (index k : Nat) (entries : List Entry) : Prop where
  holds : Holds storage log
  based : lead.take storage.base <+: log
  matched : ∀ m e e', log[m]? = some e → lead[m]? = some e' → e.term = e'.term → log.take (m + 1) = lead.take (m + 1)
  indexed : Indexed lead
  positive : 0 < index
  bound : k ≤ lead.length
  size : index - 1 + entries.length = k
  slice : entries = (lead.drop (index - 1)).take entries.length
  held : lead.take (index - 1) <+: log

namespace Splices

variable {storage : MemStorage} {log lead rest : List Entry} {index k : Nat} {e : Entry}

section

variable (splices : Splices storage log lead index k (e :: rest))

include splices

theorem head : lead[index - 1]? = some e := by
  have slice := splices.slice
  have first : (e :: rest)[0]? = lead[index - 1]? := by
    rw [slice, length_cons, getElem?_take_of_lt (by omega), getElem?_drop, Nat.add_zero]
  rw [← first]
  rfl

theorem next (held : lead.take index <+: log) : Splices storage log lead (index + 1) k rest := by
  have positive := splices.positive
  refine ⟨splices.holds, splices.based, splices.matched, splices.indexed, by omega, splices.bound, ?_, ?_, held⟩
  · have := splices.size
    simp only [length_cons] at this
    omega
  · have slice := splices.slice
    rw [length_cons, drop_eq_getElem?_toList_append, splices.head] at slice
    simp only [Option.toList_some, singleton_append, take_succ_cons, cons.injEq, true_and] at slice
    rw [Nat.sub_add_cancel positive] at slice
    simpa using slice

theorem joined : lead.take (index - 1) ++ (e :: rest) = lead.take k := by
  have size := splices.size
  conv_lhs => rw [splices.slice]
  rw [← take_add, size]

end

end Splices

/-- The splice leaves the storage alone if the append brings nothing new, and otherwise ends in
exactly the leader's first `k` entries. -/
theorem splice_spec {storage : MemStorage} {log lead entries : List Entry} {index k : Nat}
    (splices : Splices storage log lead index k entries) :
    (RaftNode.splice storage storage.base index entries = (storage, none) ∧ lead.take k <+: log) ∨
    ∃ cut fresh, RaftNode.splice storage storage.base index entries = (cut, some fresh) ∧ ¬ lead.take k <+: log ∧
      Holds (cut.append fresh) (lead.take k) ∧ cut.hard = storage.hard ∧ cut.snap = storage.snap := by
  induction entries generalizing index with
  | nil =>
    refine .inl ⟨rfl, ?_⟩
    rw [← splices.size]
    exact splices.held
  | cons e rest ih =>
    have positive := splices.positive
    have size := splices.size
    have last := splices.holds.lastIndex
    have known : termAt lead index = some e.term := by
      rw [termAt, if_neg (by omega), splices.head, Option.map_some]
    simp only [length_cons] at size
    have indexed : Indexed (lead.take k) := splices.indexed.of_part ( take_prefix _ _)
    rw [RaftNode.splice]
    split
    · rename_i covered
      exact ih (splices.next ((take_prefix_take_left covered).trans splices.based))
    rename_i above
    have heldLength := splices.held.length_le
    rw [length_take, Nat.min_eq_left (by have := splices.bound; omega)] at heldLength
    split
    · rename_i inside
      rw [splices.holds.term (by omega)]
      split
      · rename_i conflict
        refine .inr ⟨_, _, rfl, ?_, ?_, ?_, ?_⟩
        · intro agreed
          have same := termAt_of_part (k := index) agreed (by rw [length_take]; have := splices.bound; omega)
          rw [termAt_take _ (by omega), known] at same
          exact conflict same
        · have cut : Holds (storage.truncateSuffix index) (log.take (index - 1)) :=
            splices.holds.truncateSuffix (by omega)
          have kept : log.take (index - 1) = lead.take (index - 1) := by
            have := prefix_iff_eq_take.mp splices.held
            rw [length_take, Nat.min_eq_left (by have := splices.bound; omega)] at this
            exact this.symm
          rw [kept] at cut
          rw [← splices.joined] at indexed ⊢
          exact cut.append indexed
        · unfold MemStorage.truncateSuffix
          split <;> rfl
        · unfold MemStorage.truncateSuffix
          split <;> rfl
      · rename_i agreed
        rw [not_not] at agreed
        refine ih (splices.next ?_)
        rw [termAt, if_neg (by omega), Option.map_eq_some_iff] at agreed
        obtain ⟨e', found, same⟩ := agreed
        have equal := splices.matched (index - 1) e' e found splices.head same
        rw [Nat.sub_add_cancel positive] at equal
        rw [← equal]
        exact take_prefix _ _
    · rename_i past
      have whole : log = lead.take (index - 1) := by
        refine (splices.held.eq_of_length ?_).symm
        rw [length_take]
        have := splices.bound
        omega
      refine .inr ⟨_, _, rfl, ?_, ?_, rfl, rfl⟩
      · intro agreed
        have := agreed.length_le
        rw [length_take] at this
        have := splices.bound
        omega
      · rw [← splices.joined, ← whole]
        refine splices.holds.append ?_
        rw [whole, splices.joined]
        exact indexed

theorem View.follower (view : View bootstrap scope l i n) : View bootstrap scope l i { n with role := .follower } := by
  have node := view.node
  refine { view with node := ?_ }
  exact ⟨node.id, node.hard, node.term, node.vote, node.log, ⟨node.recorded.boot, node.recorded.snap⟩, node.image,
    node.voters, node.distinct, node.commit, node.base, node.applied, nofun, nofun⟩

theorem View.follow (view : View bootstrap scope l i n) (leader : NodeId) :
    View bootstrap scope l i (n.follow leader) :=
  view.follower.congr rfl rfl

namespace RaftNode

theorem recomputeConf_core (follower : n.role = .follower) :
    n.recomputeConf.core = { n with voters := (n.confAt n.storage.lastIndex).1 }.core := by
  have checked := (n.adoptConf (n.confAt n.storage.lastIndex)).checkTransfer_core
  have role : (n.adoptConf (n.confAt n.storage.lastIndex)).checkTransfer.role = .follower :=
    (congrArg Core.role checked).trans follower
  rw [recomputeConf, if_neg (by simp [role])]
  exact checked

theorem recomputeConf_messages (n : RaftNode) : n.recomputeConf.messages = n.messages := by
  simp only [recomputeConf, becomeFollower, Nat.lt_irrefl, if_false]
  split <;> exact checkTransfer_messages _

theorem recomputeConf_currentTerm (n : RaftNode) : n.recomputeConf.currentTerm = n.currentTerm := by
  simp only [recomputeConf, becomeFollower, Nat.lt_irrefl, if_false]
  split <;> exact congrArg Core.currentTerm (checkTransfer_core _)

end RaftNode

section

variable (view : View bootstrap scope l i n)

include view

theorem View.matched (T m : Nat) (e e' : Entry) (found : (l.log i)[m]? = some e) (found' : (l.lead T)[m]? = some e')
    (same : e.term = e'.term) : (l.log i).take (m + 1) = (l.lead T).take (m + 1) :=
  (view.inv.logChained i).take_eq (view.inv.leadChained T) found found' same

variable {entries : List Entry} {prevLogIndex prevLogTerm leaderCommit readRound : Nat}

theorem View.splices {leader dest : NodeId}
    (justified : Justified bootstrap scope l
      ⟨leader, dest, n.currentTerm, .appendEntries prevLogIndex prevLogTerm entries leaderCommit readRound⟩)
    (checked : ¬ (n.storage.base ≤ prevLogIndex ∧ n.storage.term prevLogIndex ≠ some prevLogTerm)) :
    Splices n.storage (l.log i) (l.lead n.currentTerm) (prevLogIndex + 1) (prevLogIndex + entries.length) entries := by
  obtain ⟨⟨b, won⟩, bound, slice, previous, _, _⟩ := justified
  have holds := view.node.log
  have based : (l.lead n.currentTerm).take n.storage.base <+: l.log i :=
    (view.node.base.shared view.inv (Nat.le_refl _) won).2 ▸ take_prefix _ _
  refine ⟨holds, based, view.matched n.currentTerm, (view.regular _).indexed, Nat.succ_pos _, bound, by simp, by simpa using slice, ?_⟩
  rw [Nat.add_sub_cancel]
  rcases Nat.lt_or_ge prevLogIndex n.storage.base with below | above
  · exact (take_prefix_take_left below.le).trans based
  · have agrees : n.storage.term prevLogIndex = some prevLogTerm := by
      by_contra differs
      exact checked ⟨above, differs⟩
    rw [holds.term above] at agrees
    simp only at previous
    cases prevLogIndex with
    | zero => simp
    | succ p =>
      rw [termAt_succ, Option.map_eq_some_iff] at agrees previous
      obtain ⟨e, found, rfl⟩ := agrees
      obtain ⟨e', found', same⟩ := previous
      rw [← view.matched n.currentTerm p e e' found found' same.symm]
      exact take_prefix _ _

omit view in
theorem Justified.append_refused (dest : NodeId) (term matchIndex readRound : Nat) :
    Justified bootstrap scope l ⟨i, dest, term, .appendEntriesResp false matchIndex readRound⟩ := nofun

omit view in
theorem Justified.install_refused (dest : NodeId) (term : Nat) :
    Justified bootstrap scope l ⟨i, dest, term, .installSnapshotResp 0⟩ := Or.inl rfl

variable {k commit : Nat}

theorem View.acknowledge (role : n.role = .follower) (won : l.winner n.currentTerm = some (leader, b))
    (bound : k ≤ (l.lead n.currentTerm).length) (held : (l.lead n.currentTerm).take k <+: l.log i)
    (settled : (raftRules bootstrap).Settled l n.currentTerm (l.log i) commit) (grown : n.commitIndex ≤ commit) :
    ∃ l', Evolves i l l' ∧ l'.acked i n.currentTerm k ∧ View bootstrap scope l' i { n with commitIndex := commit } :=
  have node := view.node
  view.accept role won bound (.inl ⟨held, rfl⟩) rfl node.log
    (fun snap found => ⟨node.recorded.snap snap found, node.image snap found⟩) node.voters node.distinct settled
    node.base (node.applied.trans grown)

theorem View.adopt (role : n.role = .follower) {storage : MemStorage}
    (won : l.winner n.currentTerm = some (leader, b)) (bound : k ≤ (l.lead n.currentTerm).length)
    (diverged : ¬ (l.lead n.currentTerm).take k <+: l.log i) (above : n.storage.base ≤ k)
    (hard : storage.hard = n.storage.hard) (snap : storage.snap = n.storage.snap)
    (holds : Holds storage ((l.lead n.currentTerm).take k))
    (settled : (raftRules bootstrap).Settled l n.currentTerm ((l.lead n.currentTerm).take k) commit)
    (grown : n.commitIndex ≤ commit) :
    ∃ l', Evolves i l l' ∧ l'.acked i n.currentTerm k ∧ View bootstrap scope l' i
      { { n with storage := storage }.recomputeConf with commitIndex := commit } := by
  have node := view.node
  have adopted : ((l.lead n.currentTerm).take k <+: l.log i ∧ (l.lead n.currentTerm).take k = l.log i) ∨
      (¬ (l.lead n.currentTerm).take k <+: l.log i ∧ (l.lead n.currentTerm).take k = (l.lead n.currentTerm).take k) :=
    .inr ⟨diverged, rfl⟩
  have base : storage.base = n.storage.base := by simp only [MemStorage.base, snap]
  have covered : ∀ s, storage.snap = some s →
      ((l.lead n.currentTerm).take k).take s.lastIncludedIndex = (l.log i).take s.lastIncludedIndex := by
    intro s found
    have same : n.storage.base = s.lastIncludedIndex := by simp [MemStorage.base, ← snap, found]
    rw [← same, take_take, Nat.min_eq_left above, (node.base.shared view.inv (Nat.le_refl _) won).2]
  have recorded : Recorded bootstrap { n with storage := storage } ((l.lead n.currentTerm).take k) :=
    ⟨node.recorded.boot, fun s found => covered s found ▸ node.recorded.snap s (snap ▸ found)⟩
  have informed := recorded.confAt holds storage.lastIndex (holds.lastIndex ▸ holds.base_le)
  rw [holds.lastIndex, take_length, ← holds.lastIndex] at informed
  obtain ⟨l', evolves, acked, view'⟩ := view.accept role won bound adopted hard holds
    (fun s found => ⟨recorded.snap s found, covered s found ▸ node.image s (snap ▸ found)⟩) informed
    (confAt_nodup _ _) settled (base ▸ settled_adopted view.inv won adopted node.base) (node.applied.trans grown)
  refine ⟨l', evolves, acked, view'.congr ?_ (RaftNode.recomputeConf_messages _)⟩
  have recomputed := RaftNode.recomputeConf_core (n := { n with storage := storage }) role
  simp only [RaftNode.core, Core.mk.injEq] at recomputed ⊢
  simp only [recomputed, and_self]

theorem View.spliceEntries (role : n.role = .follower) {leader dest : NodeId}
    (justified : Justified bootstrap scope l
      ⟨leader, dest, n.currentTerm, .appendEntries prevLogIndex prevLogTerm entries leaderCommit readRound⟩)
    (above : n.storage.base < prevLogIndex + entries.length)
    (checked : ¬ (n.storage.base ≤ prevLogIndex ∧ n.storage.term prevLogIndex ≠ some prevLogTerm)) :
    ∃ l', Evolves i l l' ∧ l'.acked i n.currentTerm (prevLogIndex + entries.length) ∧
      View bootstrap scope l' i
        ((n.spliceEntries prevLogIndex entries).learnCommit leaderCommit (prevLogIndex + entries.length)) := by
  have splices := view.splices justified checked
  obtain ⟨⟨b, won⟩, bound, _, _, within, leaderSettled⟩ := justified
  simp only at won bound within leaderSettled
  have commit : (raftRules bootstrap).Settled l n.currentTerm
      ((l.lead n.currentTerm).take (prevLogIndex + entries.length)) leaderCommit :=
    leaderSettled.of_take (Nat.le_refl _) (take_prefix_take_left within)
  have grown : n.commitIndex ≤ if n.commitIndex < leaderCommit then leaderCommit else n.commitIndex := by
    split <;> omega
  unfold RaftNode.spliceEntries RaftNode.learnCommit
  rw [Nat.min_eq_left within]
  rcases splice_spec splices with ⟨same, held⟩ | ⟨cut, tail, cutAt, diverged, holds, hard, snap⟩
  · rw [same]
    have settled : (raftRules bootstrap).Settled l n.currentTerm (l.log i)
        (if n.commitIndex < leaderCommit then leaderCommit else n.commitIndex) := by
      split
      · exact commit.of_take (Nat.le_refl _) (( take_prefix _ _).trans held)
      · exact view.node.commit
    exact view.acknowledge role won bound held settled grown
  · rw [cutAt]
    have settled : (raftRules bootstrap).Settled l n.currentTerm
        ((l.lead n.currentTerm).take (prevLogIndex + entries.length))
        (if n.commitIndex < leaderCommit then leaderCommit else n.commitIndex) := by
      split
      · exact commit
      · exact settled_adopted view.inv won (.inr ⟨diverged, rfl⟩) view.node.commit
    have recomputed : { n with storage := cut.append tail }.recomputeConf.commitIndex = n.commitIndex :=
      congrArg Core.commitIndex (RaftNode.recomputeConf_core (n := { n with storage := cut.append tail }) role)
    simp only [recomputed]
    exact view.adopt role won bound diverged (by omega) hard snap holds settled grown

theorem View.handleAppendEntries {sender dest : NodeId}
    {term prevLogIndex prevLogTerm leaderCommit readRound : Nat}
    (justified : Justified bootstrap scope l
      ⟨sender, dest, term, .appendEntries prevLogIndex prevLogTerm entries leaderCommit readRound⟩)
    (current : term ≤ n.currentTerm) :
    Reaches bootstrap scope l i
      (n.handleAppendEntries sender term prevLogIndex prevLogTerm entries leaderCommit readRound) := by
  unfold RaftNode.handleAppendEntries
  split
  · exact (view.send (Justified.append_refused _ _ _ _)).reaches
  rename_i fresh
  obtain rfl : term = n.currentTerm := by omega
  have followed := view.follow sender
  have base : (n.follow sender).storage.firstIndex - 1 = (n.follow sender).storage.base := rfl
  simp only [base]
  split
  · -- The snapshot covers the append: what it holds is the leader's prefix already.
    obtain ⟨⟨b, won⟩, _⟩ := justified
    obtain ⟨short, held⟩ := followed.node.base.shared followed.inv (Nat.le_refl _) won
    obtain ⟨l', evolves, acked, view'⟩ := followed.acknowledge rfl won short (held ▸ take_prefix _ _)
      followed.node.commit (Nat.le_refl _)
    exact ⟨l', evolves, view'.send (fun _ => acked)⟩
  rename_i above
  split
  · exact (followed.send (Justified.append_refused _ _ _ _)).reaches
  rename_i checked
  obtain ⟨l', evolves, acked, view'⟩ := followed.spliceEntries rfl justified (by omega) checked
  refine ⟨l', evolves, view'.send (fun _ => ?_)⟩
  have term : ((n.follow sender).spliceEntries prevLogIndex entries).currentTerm = n.currentTerm := by
    unfold RaftNode.spliceEntries
    split
    · exact RaftNode.recomputeConf_currentTerm _
    · rfl
  exact term.symm ▸ acked

theorem View.install (role : n.role = .follower) {snap : Snapshot} (won : l.winner n.currentTerm = some (leader, b))
    (positive : 0 < snap.lastIncludedIndex)
    (boundary : termAt (l.lead n.currentTerm) snap.lastIncludedIndex = some snap.lastIncludedTerm)
    (settled : (raftRules bootstrap).Settled l n.currentTerm (l.lead n.currentTerm) snap.lastIncludedIndex)
    (informed : Informed bootstrap snap.confState ((l.lead n.currentTerm).take snap.lastIncludedIndex))
    (faithful : scope.image ((l.lead n.currentTerm).take snap.lastIncludedIndex) snap.data)
    (supersedes : (l.log i).length ≤ snap.lastIncludedIndex ∨
      termAt (l.log i) snap.lastIncludedIndex ≠ some snap.lastIncludedTerm) :
    ∃ l', Evolves i l l' ∧ l'.acked i n.currentTerm snap.lastIncludedIndex ∧
      View bootstrap scope l' i (n.installSnapshot snap) := by
  have bound := settled.le_length
  generalize taken : (l.lead n.currentTerm).take snap.lastIncludedIndex = log at informed faithful
  have size : log.length = snap.lastIncludedIndex := by rw [← taken, length_take, Nat.min_eq_left bound]
  have itself : log.take snap.lastIncludedIndex = log := by rw [← size, take_length]
  have adopted : ((l.lead n.currentTerm).take snap.lastIncludedIndex <+: l.log i ∧ log = l.log i) ∨
      (¬ (l.lead n.currentTerm).take snap.lastIncludedIndex <+: l.log i ∧
        log = (l.lead n.currentTerm).take snap.lastIncludedIndex) := by
    by_cases held : (l.lead n.currentTerm).take snap.lastIncludedIndex <+: l.log i
    · refine .inl ⟨held, ?_⟩
      rw [taken] at held
      rcases supersedes with short | parts
      · exact held.eq_of_length_le (by omega)
      · refine absurd ?_ parts
        rw [termAt_of_part held size.ge, ← taken, termAt_take _ (Nat.le_refl _), boundary]
    · exact .inr ⟨held, taken.symm⟩
  have holds : Holds (n.storage.applySnapshot snap) log := by
    refine Holds.applySnapshot (taken ▸ (view.regular _).indexed.of_part ( take_prefix _ _)) positive size ?_
    rw [← boundary, ← taken, termAt_take _ (Nat.le_refl _)]
  have hard : (n.storage.applySnapshot snap).hard = n.storage.hard := rfl
  have committed : (raftRules bootstrap).Settled l n.currentTerm log snap.lastIncludedIndex :=
    settled.of_take (Nat.le_refl _) (taken ▸ prefix_refl _)
  have recorded : Recorded bootstrap { n with storage := n.storage.applySnapshot snap } log := by
    refine ⟨view.node.recorded.boot, ?_⟩
    rintro _ ⟨⟩
    rw [itself]
    exact informed
  have voters := recorded.confAt holds (n.storage.applySnapshot snap).lastIndex (holds.lastIndex ▸ holds.base_le)
  rw [holds.lastIndex, take_length, ← holds.lastIndex] at voters
  obtain ⟨l', evolves, acked, view'⟩ := view.accept role won bound adopted hard holds
    (by rintro _ ⟨⟩; rw [itself]; exact ⟨informed, faithful⟩) voters (confAt_nodup _ _) committed committed
    (Nat.le_refl _)
  refine ⟨l', evolves, acked, view'.congr ?_ (RaftNode.recomputeConf_messages _)⟩
  exact RaftNode.recomputeConf_core role

end

/-- Installing a snapshot loses nothing: it covers the whole log, or the log parts from it before its end. -/
def MemStorage.supersededBy (storage : MemStorage) (lastIncludedIndex lastIncludedTerm : Nat) : Bool :=
  storage.lastIndex ≤ lastIncludedIndex ∨
    (storage.base ≤ lastIncludedIndex ∧ storage.term lastIncludedIndex ≠ some lastIncludedTerm)

theorem View.handleInstallSnapshot (view : View bootstrap scope l i n) {sender dest : NodeId} {term : Nat}
    (snap : Snapshot)
    (justified : Justified bootstrap scope l ⟨sender, dest, term, .installSnapshot snap.lastIncludedIndex
      snap.lastIncludedTerm snap.confState snap.learners snap.data⟩)
    (current : term ≤ n.currentTerm)
    (safe : n.currentTerm ≤ term → n.commitIndex < snap.lastIncludedIndex →
      n.storage.supersededBy snap.lastIncludedIndex snap.lastIncludedTerm) :
    Reaches bootstrap scope l i (n.handleInstallSnapshot sender term snap) := by
  unfold RaftNode.handleInstallSnapshot
  split
  · exact (view.send (Justified.install_refused _ _)).reaches
  rename_i fresh
  obtain rfl : term = n.currentTerm := by omega
  have followed := view.follow sender
  obtain ⟨⟨b, won⟩, positive, boundary, settled, informed, faithful⟩ := justified
  simp only at won boundary settled informed faithful
  simp only
  split
  · -- The commit index is settled, so the leader has the same entries up to it.
    obtain ⟨short, held⟩ := followed.node.commit.shared followed.inv (Nat.le_refl _) won
    obtain ⟨l', evolves, acked, view'⟩ := followed.acknowledge rfl won short (held ▸ take_prefix _ _)
      followed.node.commit (Nat.le_refl _)
    exact ⟨l', evolves, view'.send (Or.inr acked)⟩
  · rename_i newer
    have supersedes : (l.log i).length ≤ snap.lastIncludedIndex ∨
        termAt (l.log i) snap.lastIncludedIndex ≠ some snap.lastIncludedTerm := by
      have safe := safe (Nat.le_refl _) (Nat.lt_of_not_le newer)
      simp only [MemStorage.supersededBy, decide_eq_true_eq] at safe
      rcases safe with short | ⟨above, parts⟩
      · exact .inl (view.node.log.lastIndex ▸ short)
      · exact .inr (view.node.log.term above ▸ parts)
    obtain ⟨l', evolves, acked, view'⟩ := followed.install rfl won positive boundary settled informed faithful
      supersedes
    refine ⟨l', evolves, view'.send (Or.inr ?_)⟩
    have term : ((n.follow sender).installSnapshot snap).currentTerm = n.currentTerm :=
      RaftNode.recomputeConf_currentTerm _
    exact term.symm ▸ acked

end Arcux.Raft
