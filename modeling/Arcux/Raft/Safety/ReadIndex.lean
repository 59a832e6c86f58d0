import Arcux.Raft.Safety.Reads

namespace Arcux.Raft

open Consensus List

section

variable {voters : List NodeId} {l l' : Ledger NodeId Entry} {s s' : Cluster}

theorem Holds.beyond {storage : MemStorage} {log base : List Entry} {T index : Nat} (holds : Holds storage log)
    (part : base <+: log) (older : ∀ e ∈ base, e.term < T) (own : storage.term index = some T) (positive : 0 < T) :
    base.length < index := by
  rcases Nat.eq_zero_or_pos index with rfl | above
  · simp only [MemStorage.term, if_true, Option.some.injEq] at own
    omega
  by_contra inside
  rw [holds.term (Holds.base_le_of_term above own), termAt_of_part part (by omega), termAt, if_neg (by omega),
    Option.map_eq_some_iff] at own
  obtain ⟨e, found, term⟩ := own
  exact absurd (older e (mem_of_getElem? found)) (by omega)

variable {log : List Entry}

theorem Simulates.config_eq (sim : Simulates voters (.uncompacted True) l s) {T : Nat}
    (part : log <+: l.lead T) : (raftRules voters).config log = voters.toFinset := by
  have quiet : ∀ e ∈ log, ¬ (raftRules voters).reconfigures e := by
    intro e member change
    have normal := (sim.regular T).normal trivial e (part.subset member)
    exact absurd (normal.symm.trans change) nofun
  exact (raftRules voters).config_unchanged [] log quiet

/-- When a majority was no further than term `T` at an earlier time, no leader of a later term had been
elected then, so an index in the leader's own term is past all that was committed. -/
theorem Simulates.read_floor (sim : Simulates voters (.uncompacted True) l s)
    (sim' : Simulates voters (.uncompacted True) l' s') (continues : Continues l l') {i : NodeId}
    (leads : (s'.nodes i).role = .leader) {quorum : Finset NodeId} (majority : Majority voters.toFinset quorum)
    (behind : ∀ v ∈ quorum, (s.nodes v).currentTerm ≤ (s'.nodes i).currentTerm) {bound c index : Nat}
    (settled : (raftRules voters).Settled l bound log c) (above : (s'.nodes i).commitIndex ≤ index)
    (beyond : ∀ b, l'.winner (s'.nodes i).currentTerm = some (i, b) → b.length < index) : c ≤ index := by
  rcases settled with rfl | ⟨U, k, n, _, committed, reached, below, _⟩
  · exact Nat.zero_le _
  obtain ⟨⟨b, won⟩, _, _, _, _, got⟩ := (sim'.nodes i).leader leads
  obtain ⟨w, bw, elected⟩ := committed.winner sim.inv
  have older : U ≤ (s'.nodes i).currentTerm := by
    by_contra newer
    obtain ⟨votes, voted, cast⟩ := sim.inv.electedVotes U w bw elected
    rw [sim.config_eq (sim.inv.base_part elected)] at voted
    obtain ⟨v, member, member'⟩ := Overlap.refl _ quorum votes majority voted
    have late := sim.inv.voteBound v U w (cast v member').1
    have early := behind v member
    rw [(sim.nodes v).term] at late
    omega
  refine below.trans ?_
  rcases Nat.lt_or_eq_of_le older with less | rfl
  · have held := sim'.inv.complete won U k n less (committed.mono continues.extend)
    have size := held.length_le
    rw [length_take, Nat.min_eq_left (committed.mono continues.extend).le_length] at size
    exact size.trans (beyond b won).le
  · exact reached.trans ((continues.reached _).trans (got.trans above))

end

def Cluster.answersAsker (s : Cluster) : Action → Bool
  | .deliver envelope =>
    envelope.message.body.isResponse → envelope.incarnation = s.incarnation envelope.message.dest
  | _ => true

def Cluster.direct (s : Cluster) (action : Action) : Bool := action.plain && s.answersAsker action

def Message.asks (msg : Message) : Option (NodeId × Nat) :=
  match msg.body with
  | .appendEntries _ _ _ _ readRound => some (msg.sender, readRound)
  | .appendEntriesResp _ _ readRound => some (msg.dest, readRound)
  | _ => none

theorem Message.asks_quiet {msg : Message} (quiet : msg.body.rounded = false) : msg.asks = none := by
  obtain ⟨sender, dest, term, body⟩ := msg
  cases body <;> first | rfl | cases quiet

def Mails (n : RaftNode) (round : Nat) (action : Action) (msg : Message) : Prop :=
  ∀ i r, msg.asks = some (i, r) →
    (msg.body.isResponse = false ∧ i = n.id ∧ r = round) ∨
    (msg.body.isResponse = true ∧ msg.sender = n.id ∧ n.currentTerm ≤ msg.term ∧
      ∃ envelope, action = .deliver envelope ∧ envelope.message.asks = some (i, r))

def Watch.mail (n : RaftNode) (round : Nat) (action : Action) : Watch where
  node := n.id
  round := round
  heard _ a _ := a ≤ round
  waits _ _ := True
  answers _ := True
  sends := Mails n round action
  quiet msg quiet i r asks := by
    rw [Message.asks_quiet quiet] at asks
    cases asks
  append dest term prevLogIndex prevLogTerm entries leaderCommit i r asks := by
    cases asks
    exact .inl ⟨rfl, rfl, rfl⟩

variable {n : RaftNode}

theorem Action.perform_mail {action : Action} (drained : n.messages = []) (plain : action.plain)
    (known : n.role = .leader → ∀ v a, n.ackedRound v = some a → a ≤ n.readRound)
    (heard : ∀ envelope success matchIndex readRound, action = .deliver envelope →
      envelope.message.body = .appendEntriesResp success matchIndex readRound → readRound ≤ n.readRound) :
    Reading (.mail n (action.perform n).readRound action) (action.perform n) ∧
      ((∀ i cfg, action ≠ .restart i cfg) → n.readRound ≤ (action.perform n).readRound) := by
  have serves : ∀ {n' : RaftNode} {round : Nat}, n'.id = n.id → n'.readRound = round → n'.messages = [] →
      (n'.role = .leader → ∀ v a, n'.ackedRound v = some a → a ≤ round) → Serves (.mail n round action) n' :=
    fun id same drained known => ⟨⟨id, same, known, fun _ _ _ => trivial, fun _ _ => trivial, by simp [drained]⟩,
      fun _ _ _ _ _ _ _ _ _ => trivial⟩
  refine Serves.act (fun round => .mail n round action) (fun _ => rfl) (fun _ => rfl) (serves rfl rfl drained known)
    plain ?_ (fun _ _ _ => serves rfl rfl drained known) ⟨?_, fun called => heard _ _ _ _ called rfl⟩
  · exact fun _ _ _ _ => serves rfl rfl drained (fun leads v a acked => (known leads v a acked).trans (Nat.le_succ _))
  · rintro sender dest t prevLogIndex prevLogTerm entries leaderCommit readRound incarnation rfl T onward _ _ i r asks
    cases asks
    exact .inr ⟨rfl, rfl, onward, _, rfl, rfl⟩

structure Rounds (s : Cluster) : Prop where
  heard : ∀ i, (s.nodes i).role = .leader → ∀ v a, (s.nodes i).ackedRound v = some a → a ≤ (s.nodes i).readRound
  asked : ∀ envelope ∈ s.net, ∀ i r, envelope.message.asks = some (i, r) → envelope.incarnation ≤ s.incarnation i ∧
    (envelope.incarnation = s.incarnation i → r ≤ (s.nodes i).readRound)

section

variable {s : Cluster} {action : Action}

theorem Cluster.direct_plain (direct : s.direct action) : action.plain := by
  rw [Cluster.direct, Bool.and_eq_true] at direct
  exact direct.1

variable {envelope : Envelope}

theorem Cluster.direct_response (direct : s.direct (.deliver envelope))
    (response : envelope.message.body.isResponse) : envelope.incarnation = s.incarnation envelope.message.dest := by
  rw [Cluster.direct, Bool.and_eq_true, Cluster.answersAsker, decide_eq_true_eq] at direct
  exact direct.2 response

theorem Rounds.start (cfg : NodeId → Config) : Rounds (Cluster.start cfg) := by
  refine ⟨?_, nofun⟩
  intro i leads v a acked
  have fresh := Reading.new (.mail (.recover { cfg i with id := i } {}) 0 (.tick i)) { cfg i with id := i } {} rfl rfl
  exact (fresh.heard leads v a acked).trans (Nat.zero_le _)

theorem Rounds.answered (rounds : Rounds s) (direct : s.direct action) (enabled : s.enabled action) {success : Bool}
    {matchIndex readRound : Nat} (here : action = .deliver envelope)
    (body : envelope.message.body = .appendEntriesResp success matchIndex readRound) :
    readRound ≤ (s.nodes envelope.message.dest).readRound := by
  subst here
  rw [Cluster.enabled, decide_eq_true_eq] at enabled
  have asks : envelope.message.asks = some (envelope.message.dest, readRound) := by
    simp only [Message.asks, body]
  refine (rounds.asked envelope enabled _ _ asks).2 (Cluster.direct_response direct ?_)
  rw [body]
  rfl

theorem Rounds.perform_mail (rounds : Rounds s) (drained : ∀ i, (s.nodes i).messages = [])
    (enabled : s.enabled action) (direct : s.direct action) :
    Reading (.mail (s.nodes action.node) (action.perform (s.nodes action.node)).readRound action)
        (action.perform (s.nodes action.node)) ∧
      ((∀ i cfg, action ≠ .restart i cfg) →
        (s.nodes action.node).readRound ≤ (action.perform (s.nodes action.node)).readRound) := by
  refine Action.perform_mail (drained action.node) (Cluster.direct_plain direct) (rounds.heard action.node) ?_
  intro envelope success matchIndex readRound here body
  have bound := rounds.answered direct enabled here body
  subst here
  exact bound

theorem Rounds.exec (rounds : Rounds s) (ids : ∀ i, (s.nodes i).id = i) (drained : ∀ i, (s.nodes i).messages = [])
    (direct : s.direct action) : Rounds (s.exec action) := by
  by_cases enabled : s.enabled action
  swap
  · rw [Cluster.exec_disabled enabled]
    exact rounds
  obtain ⟨reading, grows⟩ := rounds.perform_mail drained enabled direct
  have node := Cluster.exec_node enabled
  have grown : ∀ i, (s.exec action).incarnation i = s.incarnation i →
      (s.nodes i).readRound ≤ ((s.exec action).nodes i).readRound := by
    intro i same
    by_cases here : i = action.node
    · subst here
      rw [node]
      exact grows (Cluster.running_of_incarnation same)
    · rw [Cluster.exec_other here]
  refine ⟨?_, ?_⟩
  · intro i leads v a acked
    by_cases here : i = action.node
    · subst here
      rw [node] at leads acked ⊢
      exact reading.heard leads v a acked
    · rw [Cluster.exec_other here] at leads acked ⊢
      exact rounds.heard i leads v a acked
  · intro envelope member i r asks
    rw [Cluster.exec_net] at member
    have later := s.exec_incarnation_le action i
    have kept : ∀ {incarnation : Nat}, incarnation ≤ s.incarnation i →
        (incarnation = s.incarnation i → r ≤ (s.nodes i).readRound) →
        incarnation ≤ (s.exec action).incarnation i ∧
          (incarnation = (s.exec action).incarnation i → r ≤ ((s.exec action).nodes i).readRound) :=
      fun born bound => ⟨born.trans later, fun same => (bound (by omega)).trans (grown i (by omega))⟩
    rcases mem_append.mp member with old | new
    · obtain ⟨born, bound⟩ := rounds.asked envelope old i r asks
      exact kept born bound
    obtain ⟨msg, mailed, rfl⟩ := Cluster.exists_of_mem_sends new
    rw [Cluster.tag_message] at asks
    rcases reading.sent msg mailed i r asks with ⟨request, rfl, rfl⟩ | ⟨response, _, _, origin, here, asked⟩
    · have mine : (s.tag action msg).incarnation = s.incarnation action.node := by
        unfold Cluster.tag
        split
        · simp only [request, Bool.false_eq_true, if_false]
        · rfl
      rw [ids, mine] at *
      exact ⟨later, fun _ => by rw [node]; exact Nat.le_refl _⟩
    · subst here
      rw [Cluster.enabled, decide_eq_true_eq] at enabled
      obtain ⟨born, bound⟩ := rounds.asked origin enabled i r asked
      have echoed : (s.tag (.deliver origin) msg).incarnation = origin.incarnation := by
        simp only [Cluster.tag, response, if_true]
      rw [echoed]
      exact kept born bound

end

/-- A read that was registered: on which process, in which round and term, in which terms the nodes were
then, and an index that was committed by then. -/
structure Query where
  node : NodeId
  incarnation : Nat
  ctx : Nat
  round : Nat
  term : Nat
  seen : NodeId → Nat
  target : Nat

/-- While the process that registered the read runs, an answer in the round of the read or a later one
comes from a node that had not left the term of the read when it was registered. -/
def Query.watch (q : Query) (alive : Prop) (round : Nat) : Watch where
  node := q.node
  round := round
  heard v a T := alive → q.round ≤ a → q.seen v ≤ T
  waits read T := read.1 = q.ctx → alive ∧ q.round ≤ read.2 ∧ T = q.term
  answers read := read.1 = q.ctx → q.target ≤ read.2
  sends _ := True
  quiet _ _ := trivial
  append _ _ _ _ _ _ := trivial

structure Asked (voters : List NodeId) (l : Ledger NodeId Entry) (s : Cluster) (q : Query) : Prop where
  sim : Simulates voters (.uncompacted True) l s
  seen : ∀ v, q.seen v = (s.nodes v).currentTerm
  term : q.term = (s.nodes q.node).currentTerm
  settled : ∃ bound log, (raftRules voters).Settled l bound log q.target

structure Awaited (q : Query) (s : Cluster) : Prop where
  born : q.incarnation ≤ s.incarnation q.node
  replies : ∀ envelope ∈ s.net, ∀ success matchIndex readRound,
    envelope.message.body = .appendEntriesResp success matchIndex readRound → envelope.message.dest = q.node →
    envelope.incarnation = q.incarnation → q.round ≤ readRound → q.seen envelope.message.sender ≤ envelope.message.term
  serving : Reading (q.watch (s.incarnation q.node = q.incarnation) (s.nodes q.node).readRound) (s.nodes q.node)

section

variable {voters : List NodeId} {l l' : Ledger NodeId Entry} {s s' : Cluster} {q : Query} {alive : Prop} {round : Nat}

theorem Asked.confirms (asked : Asked voters l s q) (sim : Simulates voters (.uncompacted True) l' s')
    (continues : Continues l l') (n : RaftNode) {log : List Entry}
    (same : (n.id, n.voters, n.role, n.currentTerm, n.commitIndex) =
      ((s'.nodes q.node).id, (s'.nodes q.node).voters, (s'.nodes q.node).role, (s'.nodes q.node).currentTerm,
        (s'.nodes q.node).commitIndex))
    (holds : Holds n.storage log) (part : l'.log q.node <+: log)
    (waiting : n.role = .leader → ∀ read ∈ n.pendingReads, (q.watch alive round).waits read n.currentTerm) :
    Confirms (q.watch alive round) n := by
  simp only [Prod.mk.injEq] at same
  obtain ⟨id, config, role, term, commit⟩ := same
  intro leads read member index above own heard acks majority here
  obtain ⟨living, rounds, current⟩ := waiting leads read member here
  have tracks := sim.nodes q.node
  obtain ⟨⟨b, won⟩, lead, voter, _⟩ := tracks.leader (role ▸ leads)
  rw [term] at own acks current
  rw [RaftNode.majority, config, id, tracks.id] at majority
  have quorum := majority_of_countP tracks.distinct majority
  rw [tracks.voters.config voter, lead, sim.config_eq (prefix_refl _)] at quorum
  obtain ⟨bound, settledLog, settled⟩ := asked.settled
  refine asked.sim.read_floor sim continues (role ▸ leads) quorum ?_ settled (commit ▸ above) ?_
  · intro v member
    rw [Finset.mem_filter, decide_eq_true_eq] at member
    rw [← asked.seen]
    rcases member.2 with rfl | answered
    · rw [asked.seen, current, asked.term]
    · obtain ⟨a, later, known⟩ := acks v answered
      exact known living (rounds.trans later)
  · intro b' won'
    obtain ⟨positive, _, _, older⟩ := sim.inv.campaignLog _ _ _ (sim.inv.electedLog _ _ _ won').1
    exact holds.beyond ((sim.inv.base_part won').trans (lead ▸ part)) older own positive

theorem Query.watch_serves (reading : Reading (q.watch alive round) n)
    (n' : RaftNode) (same : (n'.id, n'.role, n'.currentTerm, n'.ackedRound, n'.readyReads) =
      (n.id, n.role, n.currentTerm, n.ackedRound, n.readyReads))
    (waiting : n'.role = .leader → ∀ read ∈ n'.pendingReads, (q.watch alive n'.readRound).waits read n'.currentTerm)
    (confirms : Confirms (q.watch alive n'.readRound) n') : Serves (q.watch alive n'.readRound) n' := by
  simp only [Prod.mk.injEq] at same
  obtain ⟨id, role, term, acked, ready⟩ := same
  refine ⟨⟨id.trans reading.id, rfl, ?_, waiting, ?_, fun _ _ => trivial⟩, confirms⟩
  · intro leads v a found
    rw [acked] at found
    rw [term]
    exact reading.heard (role ▸ leads) v a found
  · rw [ready]
    exact reading.answered

variable {action : Action}

structure Follows (voters : List NodeId) (l : Ledger NodeId Entry) (q : Query) (s : Cluster) : Prop where
  history : ∃ l', Continues l l' ∧ Simulates voters (.uncompacted True) l' s
  rounds : Rounds s
  awaited : Awaited q s

theorem Simulates.direct_exec (sim : Simulates voters (.uncompacted True) l s)
    (direct : s.direct action) : ∃ l', Continues l l' ∧ Simulates voters (.uncompacted True) l' (s.exec action) := by
  have along : ∀ a ∈ [action], a.plain := by
    intro a member
    rw [mem_singleton.mp member]
    exact Cluster.direct_plain direct
  exact sim.plain_run along

section

variable (asked : Asked voters l s q) (direct : s'.direct action)
  (registers : action = .readIndex q.node q.ctx → s'.incarnation q.node = q.incarnation ∧
    q.round ≤ (s'.nodes q.node).readRound + 1 ∧ (s'.nodes q.node).currentTerm = q.term)

include asked direct registers

theorem Awaited.perform (awaited : Awaited q s') (sim : Simulates voters (.uncompacted True) l' s')
    (continues : Continues l l') (enabled : s'.enabled action) (here : action.node = q.node) :
    Reading (q.watch (s'.incarnation q.node = q.incarnation) (action.perform (s'.nodes q.node)).readRound)
      (action.perform (s'.nodes q.node)) := by
  have reading := awaited.serving
  have tracks := sim.nodes q.node
  have holds := tracks.log
  have serves := Query.watch_serves reading _ rfl reading.waiting
    (asked.confirms sim continues _ rfl holds (prefix_refl _) reading.waiting)
  refine (Serves.act (fun round => q.watch (s'.incarnation q.node = q.incarnation) round) (fun _ => reading.id.symm)
    (fun _ => rfl) serves (Cluster.direct_plain direct) ?_ ?_ ⟨fun _ _ _ _ _ => trivial, ?_⟩).1
  · intro i ctx same leads
    have target : i = q.node := by rw [← here, same]; rfl
    have waiting : ((s'.nodes q.node).registerRead ctx).role = .leader →
        ∀ read ∈ ((s'.nodes q.node).registerRead ctx).pendingReads,
        (q.watch (s'.incarnation q.node = q.incarnation) ((s'.nodes q.node).readRound + 1)).waits read
          ((s'.nodes q.node).registerRead ctx).currentTerm := by
      intro leads read member
      rcases mem_append.mp member with old | new
      · exact reading.waiting leads read old
      · rw [mem_singleton.mp new]
        rintro rfl
        exact registers (target ▸ same)
    exact Query.watch_serves reading (RaftNode.registerRead _ ctx) rfl waiting
      (asked.confirms sim continues _ rfl holds (prefix_refl _) waiting)
  · intro i data same
    have indexed : Indexed (l'.log q.node ++ [.normal (s'.nodes q.node).currentTerm
        ((s'.nodes q.node).storage.lastIndex + 1) data]) := holds.indexed.concat (by rw [holds.lastIndex]; rfl)
    exact Query.watch_serves reading (RaftNode.appendOwn _ _) rfl reading.waiting
      (asked.confirms sim continues _ rfl (holds.append indexed) (prefix_append _ _)
        reading.waiting)
  · rintro sender dest t success matchIndex readRound incarnation rfl living later
    have delivered := Cluster.direct_response direct rfl
    rw [Cluster.enabled, decide_eq_true_eq] at enabled
    refine awaited.replies _ enabled _ _ _ rfl here ?_ later
    rw [delivered, show dest = q.node from here, living]

theorem Awaited.exec (awaited : Awaited q s') (sim : Simulates voters (.uncompacted True) l' s')
    (continues : Continues l l') (rounds : Rounds s') : Awaited q (s'.exec action) := by
  by_cases enabled : s'.enabled action
  swap
  · rw [Cluster.exec_disabled enabled]
    exact awaited
  refine ⟨awaited.born.trans (s'.exec_incarnation_le action q.node), ?_, ?_⟩
  · intro envelope member success matchIndex readRound body dest process later
    rw [Cluster.exec_net] at member
    rcases mem_append.mp member with old | new
    · exact awaited.replies envelope old _ _ _ body dest process later
    -- A new answer is sent in the current term of its sender, which is no earlier than the term it had.
    obtain ⟨msg, mailed, rfl⟩ := Cluster.exists_of_mem_sends new
    rw [Cluster.tag_message] at body ⊢
    have asks : msg.asks = some (msg.dest, readRound) := by simp only [Message.asks, body]
    rcases (rounds.perform_mail sim.drained enabled direct).1.sent msg mailed _ _ asks with
      ⟨request, _⟩ | ⟨_, sender, term, _⟩
    · rw [body] at request
      cases request
    · rw [sender, (sim.nodes _).id, asked.seen]
      refine Nat.le_trans ?_ term
      rw [← (asked.sim.nodes _).term, ← (sim.nodes _).term]
      exact continues.extend.term _
  · by_cases here : action.node = q.node
    · have node : (s'.exec action).nodes q.node = (action.perform (s'.nodes q.node)).takeMessages.1 :=
        here ▸ Cluster.exec_node enabled
      rw [node]
      refine Reading.takeMessages ?_
      by_cases restarts : ∃ i cfg, action = .restart i cfg
      · obtain ⟨i, cfg, rfl⟩ := restarts
        have fresh := Reading.new (q.watch ((s'.exec (.restart i cfg)).incarnation q.node = q.incarnation) 0)
          { cfg with id := (s'.nodes q.node).id, voters := (s'.nodes q.node).bootstrapConf } (s'.nodes q.node).storage
          (sim.nodes q.node).id rfl
        exact (fresh.settle (fun round => q.watch _ round) (fun _ => rfl)).2
      · rw [Cluster.exec_incarnation (fun i cfg same => restarts ⟨i, cfg, same⟩)]
        exact awaited.perform asked direct registers sim continues enabled here
    · rw [Cluster.exec_other (Ne.symm here), Cluster.exec_incarnation_other (Ne.symm here)]
      exact awaited.serving

theorem Follows.exec (follows : Follows voters l q s') : Follows voters l q (s'.exec action) := by
  obtain ⟨⟨l', continues, sim⟩, rounds, awaited⟩ := follows
  obtain ⟨l'', continues', sim'⟩ := sim.direct_exec direct
  exact ⟨⟨l'', continues.trans continues', sim'⟩, rounds.exec (fun i => (sim.nodes i).id) sim.drained direct,
    awaited.exec asked direct registers sim continues rounds⟩

end

theorem Follows.run (follows : Follows voters l q s') (asked : Asked voters l s q) {actions : List Action}
    (direct : Cluster.Along (fun s action => s.direct action) s' actions)
    (once : .readIndex q.node q.ctx ∉ actions) : Follows voters l q (s'.run actions) := by
  induction actions generalizing s' with
  | nil => exact follows
  | cons action rest ih =>
    rw [mem_cons, not_or] at once
    exact ih (follows.exec asked direct.1 (fun same => absurd same.symm once.1)) direct.2 once.2

theorem Awaited.initial (rounds : Rounds s) (sim : Simulates voters (.uncompacted True) l s) {i : NodeId}
    {ctx target : Nat} (fresh : ∀ read ∈ (s.nodes i).pendingReads ++ (s.nodes i).readyReads, read.1 ≠ ctx) :
    Awaited ⟨i, s.incarnation i, ctx, (s.nodes i).readRound + 1, (s.nodes i).currentTerm,
      fun v => (s.nodes v).currentTerm, target⟩ s := by
  refine ⟨Nat.le_refl _, ?_, (sim.nodes i).id, rfl, ?_, ?_, ?_, fun _ _ => trivial⟩
  · intro envelope member success matchIndex readRound body dest process later
    have asks : envelope.message.asks = some (i, readRound) := by simp only [Message.asks, body, dest]
    have bound := (rounds.asked envelope member i readRound asks).2 process
    simp only at later
    omega
  · intro leads v a acked _ later
    have bound := rounds.heard i leads v a acked
    simp only at later
    omega
  · exact fun _ read member same => absurd same (fresh read (mem_append_left _ member))
  · exact fun read member same => absurd same (fresh read (mem_append_right _ member))

end

theorem Simulates.direct_run {voters : List NodeId} {l : Ledger NodeId Entry} {s : Cluster}
    (sim : Simulates voters (.uncompacted True) l s) (rounds : Rounds s) {actions : List Action}
    (direct : Cluster.Along (fun s action => s.direct action) s actions) :
    ∃ l', Continues l l' ∧ Simulates voters (.uncompacted True) l' (s.run actions) ∧ Rounds (s.run actions) := by
  refine direct.preserves (fun s' => ∃ l', Continues l l' ∧ Simulates voters (.uncompacted True) l' s' ∧ Rounds s') ?_
    ⟨l, Continues.refl l, sim, rounds⟩
  rintro s' action direct ⟨l', continues, sim', rounds'⟩
  obtain ⟨l'', continues', sim''⟩ := sim'.direct_exec direct
  exact ⟨l'', continues.trans continues', sim'', rounds'.exec (fun i => (sim'.nodes i).id) sim'.drained direct⟩

/-- A read that is answered is answered with an index no lower than any commit index that any node had
reached when the read was registered. -/
theorem read_index_linearizable {voters : List NodeId} {cfg : NodeId → Config} (shared : ∀ i, (cfg i).voters = voters)
    {before after : List Action} {i : NodeId} {ctx : Nat}
    (direct : Cluster.Along (fun s action => s.direct action) (Cluster.start cfg) (before ++ .readIndex i ctx :: after))
    (fresh : ∀ read ∈ (((Cluster.start cfg).run before).nodes i).pendingReads ++
      (((Cluster.start cfg).run before).nodes i).readyReads, read.1 ≠ ctx)
    (once : .readIndex i ctx ∉ after) {index : Nat}
    (answered : (ctx, index) ∈
      (((Cluster.start cfg).run (before ++ .readIndex i ctx :: after)).nodes i).takeReadStates.2)
    {earlier : List Action} (part : earlier <+: before) (j : NodeId) :
    (((Cluster.start cfg).run earlier).nodes j).commitIndex ≤ index := by
  obtain ⟨rest, rfl⟩ := part
  have start : Simulates voters (.uncompacted True) Ledger.initial (Cluster.start cfg) :=
    Simulates.start (fun i => .inl (shared i))
  obtain ⟨along, registering, along'⟩ := Cluster.Along.append.mp direct
  obtain ⟨first, second⟩ := Cluster.Along.append.mp along
  obtain ⟨l, _, sim, rounds⟩ := start.direct_run (Rounds.start cfg) first
  obtain ⟨l', continues, sim', rounds'⟩ := sim.direct_run rounds second
  rw [← Cluster.run_append] at sim' rounds'
  rw [Cluster.run_append] at answered
  generalize (Cluster.start cfg).run (earlier ++ rest) = s at *
  let q : Query := ⟨i, s.incarnation i, ctx, (s.nodes i).readRound + 1, (s.nodes i).currentTerm,
    fun v => (s.nodes v).currentTerm, (((Cluster.start cfg).run earlier).nodes j).commitIndex⟩
  have asked : Asked voters l' s q :=
    ⟨sim', fun _ => rfl, rfl, _, _, (sim.nodes j).commit.mono continues.extend continues.reached⟩
  have follows : Follows voters l' q s := ⟨⟨l', Continues.refl l', sim'⟩, rounds', Awaited.initial rounds' sim' fresh⟩
  have done := (follows.exec asked registering (fun _ => ⟨rfl, Nat.le_refl _, rfl⟩)).run asked along' once
  exact done.awaited.serving.answered (ctx, index) answered rfl

def confirming : List Action :=
  [.receive 1 2 1 (.appendEntries 1 1 [] 1 1), .receive 2 1 1 (.appendEntriesResp true 1 1)]

theorem read_index_linearizable_trio :
    (9, 1) ∈ (((Cluster.start trio).run (committing ++ .readIndex 1 9 :: confirming)).nodes 1).takeReadStates.2 ∧
    (((Cluster.start trio).run committing).nodes 1).commitIndex ≤ 1 := by
  have direct : Cluster.Along (fun s action => s.direct action) (Cluster.start trio)
      (committing ++ .readIndex 1 9 :: confirming) := by decide +kernel
  have fresh : ∀ read ∈ (((Cluster.start trio).run committing).nodes 1).pendingReads ++
      (((Cluster.start trio).run committing).nodes 1).readyReads, read.1 ≠ 9 := by decide +kernel
  have answered : (9, 1) ∈
      (((Cluster.start trio).run (committing ++ .readIndex 1 9 :: confirming)).nodes 1).takeReadStates.2 := by
    decide +kernel
  exact ⟨answered, read_index_linearizable trio_voters direct fresh (by decide) answered (prefix_refl _) 1⟩

end Arcux.Raft
