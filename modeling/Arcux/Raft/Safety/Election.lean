import Arcux.Raft.Moves
import Arcux.Raft.Refinement.Run

namespace Arcux.Raft

open Codec Consensus List

abbrev Votes := NodeId → Nat → Option NodeId

structure Stable (voters : List NodeId) (storage : MemStorage) : Prop where
  log : ∀ e ∈ storage.log, e.entryType = .normal
  snap : ∀ snap, storage.snap = some snap → snap.confState.toFinset = voters.toFinset

/-- The configured voters, and whether they stay the voters. -/
structure Roll where
  voters : List NodeId
  fixed : Prop

structure Enrolled (voters : List NodeId) (votes : Votes) (i : NodeId) (n : RaftNode) : Prop where
  boot : n.bootstrapConf = voters
  stable : Stable voters n.storage
  config : n.voters.toFinset = voters.toFinset
  distinct : n.voters.Nodup
  candidate : n.role = .candidate → n.votes ⊆ voters.toFinset ∧ ∀ v ∈ n.votes, votes v n.currentTerm = some i
  leader : n.role = .leader → ∃ q, Majority voters.toFinset q ∧ ∀ v ∈ q, votes v n.currentTerm = some i

section

variable (roll : Roll) (votes : Votes)

structure Polls (i : NodeId) (n : RaftNode) : Prop where
  id : n.id = i
  saved : n.storage.hard = ⟨n.currentTerm, n.votedFor⟩
  vote : votes i n.currentTerm = n.votedFor
  later : ∀ T, n.currentTerm < T → votes i T = none
  enrolled : roll.fixed → Enrolled roll.voters votes i n

def Cast (msg : Message) : Prop :=
  match msg.body with
  | .requestVoteResp granted => granted = true → votes msg.sender msg.term = some msg.dest
  | .appendEntries _ _ entries _ _ => roll.fixed → ∀ e ∈ entries, e.entryType = .normal
  | .installSnapshot _ _ confState _ _ => roll.fixed → confState.toFinset = roll.voters.toFinset
  | _ => True

structure Poll (i : NodeId) (n : RaftNode) : Prop where
  node : Polls roll votes i n
  sent : ∀ msg ∈ n.messages, Cast roll votes msg

structure Grows (i : NodeId) (votes votes' : Votes) : Prop where
  kept : ∀ j T c, votes j T = some c → votes' j T = some c
  others : ∀ j, j ≠ i → votes' j = votes j

def Polled (i : NodeId) (n : RaftNode) : Prop := ∃ votes', Grows i votes votes' ∧ Poll roll votes' i n

end

theorem Grows.refl (i : NodeId) (votes : Votes) : Grows i votes votes := ⟨fun _ _ _ h => h, fun _ _ => rfl⟩

theorem Grows.trans {i : NodeId} {votes votes' votes'' : Votes} (first : Grows i votes votes')
    (second : Grows i votes' votes'') : Grows i votes votes'' :=
  ⟨fun j T c found => second.kept j T c (first.kept j T c found),
    fun j other => (second.others j other).trans (first.others j other)⟩

namespace Stable

variable {voters : List NodeId} {storage : MemStorage}

theorem entries (stable : Stable voters storage) {low high : Nat} {e : Entry} (member : e ∈ storage.entries low high) :
    e.entryType = .normal := by
  unfold MemStorage.entries at member
  simp only at member
  split at member
  · cases member
  split at member
  · cases member
  · exact stable.log e (mem_of_mem_take (mem_of_mem_drop member))

variable {entries : List Entry}

theorem append (stable : Stable voters storage) (plain : ∀ e ∈ entries, e.entryType = .normal) :
    Stable voters (storage.append entries) :=
  ⟨fun e member => (mem_append.mp member).elim (stable.log e) (plain e), stable.snap⟩

theorem truncateSuffix (stable : Stable voters storage) (cut : Nat) : Stable voters (storage.truncateSuffix cut) := by
  unfold MemStorage.truncateSuffix
  split
  · exact ⟨nofun, stable.snap⟩
  · exact ⟨fun e member => stable.log e (mem_of_mem_take member), stable.snap⟩

theorem splice (stable : Stable voters storage) (base index : Nat) (plain : ∀ e ∈ entries, e.entryType = .normal) :
    Stable voters (RaftNode.splice storage base index entries).1 ∧
      ∀ fresh, (RaftNode.splice storage base index entries).2 = some fresh → ∀ e ∈ fresh, e.entryType = .normal := by
  induction entries generalizing index with
  | nil => exact ⟨stable, nofun⟩
  | cons e rest ih =>
    have later := ih (index + 1) (fun x member => plain x (mem_cons_of_mem _ member))
    unfold RaftNode.splice
    split
    · exact later
    split
    · split
      · exact ⟨stable.truncateSuffix index, fun fresh same => Option.some.inj same ▸ plain⟩
      · exact later
    · exact ⟨stable, fun fresh same => Option.some.inj same ▸ plain⟩

theorem foldConf {start : List NodeId × List NodeId}
    (plain : ∀ e ∈ entries, e.entryType = .normal) : foldConf start entries = start := by
  induction entries with
  | nil => rfl
  | cons e rest ih =>
    have normal := plain e (mem_cons_self ..)
    have rest := ih (fun x member => plain x (mem_cons_of_mem _ member))
    simpa [Raft.foldConf, normal] using rest

theorem confAt {n : RaftNode} (stable : Stable voters n.storage) (boot : n.bootstrapConf = voters) (index : Nat) :
    (n.confAt index).1.toFinset = voters.toFinset := by
  simp only [RaftNode.confAt, foldConf (fun e member => stable.entries member), sortDedup_toFinset]
  cases found : n.storage.snap with
  | none => simp [boot]
  | some snap => exact stable.snap snap found

end Stable

def Votes.cast (votes : Votes) (i : NodeId) (T : Nat) (c : NodeId) : Votes :=
  Function.update votes i (Function.update (votes i) T (some c))

@[simp] theorem Votes.cast_self (votes : Votes) (i : NodeId) (T : Nat) (c : NodeId) :
    votes.cast i T c i T = some c := by
  simp [Votes.cast]

theorem Votes.cast_later (votes : Votes) (i : NodeId) {T U : Nat} (c : NodeId) (other : U ≠ T) :
    votes.cast i T c i U = votes i U := by
  simp [Votes.cast, Function.update_of_ne other]

section

variable {roll : Roll} {votes votes' : Votes} {i : NodeId} {n n' : RaftNode}

theorem Grows.cast {T : Nat} {c : NodeId} (free : votes i T = none ∨ votes i T = some c) :
    Grows i votes (votes.cast i T c) := by
  refine ⟨?_, fun j other => Function.update_of_ne other _ _⟩
  intro j U x found
  by_cases here : j = i
  · subst here
    by_cases same : U = T
    · subst same
      rcases free with none | mine
      · rw [none] at found
        cases found
      · rw [Votes.cast_self, ← mine, found]
    · rw [votes.cast_later j c same, found]
  · rw [Votes.cast, Function.update_of_ne here]
    exact found

theorem Cast.grow {msg : Message} (cast : Cast roll votes msg) (grows : Grows i votes votes') :
    Cast roll votes' msg := by
  unfold Cast at cast ⊢
  split
  · rename_i granted body
    rw [body] at cast
    exact fun yes => grows.kept _ _ _ (cast yes)
  all_goals simp_all

theorem Enrolled.grow {j : NodeId} (enrolled : Enrolled roll.voters votes j n) (grows : Grows i votes votes') :
    Enrolled roll.voters votes' j n where
  __ := enrolled
  candidate role := (enrolled.candidate role).imp_right fun cast v member => grows.kept v _ _ (cast v member)
  leader role := by
    obtain ⟨q, majority, cast⟩ := enrolled.leader role
    exact ⟨q, majority, fun v member => grows.kept v _ _ (cast v member)⟩

theorem Polls.frame {j : NodeId} (polls : Polls roll votes j n) (grows : Grows i votes votes') (other : j ≠ i) :
    Polls roll votes' j n := by
  have same := grows.others j other
  exact ⟨polls.id, polls.saved, same ▸ polls.vote, same ▸ polls.later, fun fixed => (polls.enrolled fixed).grow grows⟩

/-- What the election turns on. -/
def RaftNode.electoral (n : RaftNode) : NodeId × List NodeId × List NodeId × MemStorage × Role × Nat × Option NodeId ×
    Finset NodeId :=
  (n.id, n.bootstrapConf, n.voters, n.storage, n.role, n.currentTerm, n.votedFor, n.votes)

theorem RaftNode.electoral_of_core (same : n'.core = n.core) : n'.electoral = n.electoral :=
  congrArg (fun c : Core => (c.id, c.bootstrapConf, c.voters, c.storage, c.role, c.currentTerm, c.votedFor, c.votes)) same

theorem Polls.congr (polls : Polls roll votes i n) (same : n'.electoral = n.electoral) : Polls roll votes i n' := by
  cases n
  cases n'
  simp only [RaftNode.electoral, Prod.mk.injEq] at same
  obtain ⟨rfl, rfl, rfl, rfl, rfl, rfl, rfl, rfl⟩ := same
  exact { polls with enrolled := fun fixed => { polls.enrolled fixed with } }

namespace Poll

variable (poll : Poll roll votes i n)

include poll

theorem polled : Polled roll votes i n := ⟨votes, Grows.refl i votes, poll⟩

theorem congr (same : n'.electoral = n.electoral) (messages : n'.messages = n.messages) : Poll roll votes i n' :=
  ⟨poll.node.congr same, messages ▸ poll.sent⟩

theorem kept (same : n'.electoral = n.electoral) (messages : n'.messages = n.messages) : Polled roll votes i n' :=
  (poll.congr same messages).polled

theorem store (storage : MemStorage) (hard : storage.hard = n.storage.hard)
    (stable : roll.fixed → Stable roll.voters storage) : Poll roll votes i { n with storage := storage } :=
  have node := poll.node
  ⟨⟨node.id, hard.trans node.saved, node.vote, node.later,
    fun fixed => { node.enrolled fixed with stable := stable fixed }⟩, poll.sent⟩

theorem follower : Poll roll votes i { n with role := .follower } :=
  have node := poll.node
  ⟨{ node with enrolled := fun fixed => { node.enrolled fixed with candidate := nofun, leader := nofun } }, poll.sent⟩

theorem send {dest : NodeId} {term : Nat} {body : MessageBody} (cast : Cast roll votes ⟨i, dest, term, body⟩) :
    Poll roll votes i (n.send dest term body) := by
  refine ⟨poll.node.congr rfl, ?_⟩
  intro msg member
  rcases mem_append.mp member with old | new
  · exact poll.sent msg old
  · rw [mem_singleton.mp new, poll.node.id]
    exact cast

theorem becomeFollower (term : Nat) (leader : Option NodeId) : Poll roll votes i (n.becomeFollower term leader) := by
  rw [RaftNode.becomeFollower]
  split
  · rename_i newer
    have node := poll.node
    refine ⟨⟨node.id, rfl, node.later term newer, fun T above => node.later T (newer.trans above), fun fixed => ?_⟩, poll.sent⟩
    have enrolled := node.enrolled fixed
    exact ⟨enrolled.boot, ⟨enrolled.stable.log, enrolled.stable.snap⟩, enrolled.config, enrolled.distinct,
      by rintro ⟨⟩, by rintro ⟨⟩⟩
  · exact congr poll.follower rfl rfl

theorem recomputeConf : Poll roll votes i n.recomputeConf := by
  have node := poll.node
  have adopted : Poll roll votes i (n.adoptConf (n.confAt n.storage.lastIndex)) := by
    refine ⟨{ node with enrolled := fun fixed => ?_ }, poll.sent⟩
    have enrolled := node.enrolled fixed
    exact { enrolled with config := enrolled.stable.confAt enrolled.boot _, distinct := confAt_nodup _ _ }
  have checked := adopted.congr (RaftNode.electoral_of_core (RaftNode.checkTransfer_core _)) (RaftNode.checkTransfer_messages _)
  unfold RaftNode.recomputeConf
  simp only
  split
  · exact checked.becomeFollower _ _
  · exact checked

theorem sendAppend (dest : NodeId) : Poll roll votes i (n.sendAppend dest) := by
  unfold RaftNode.sendAppend
  simp only
  split
  · unfold RaftNode.sendSnapshot
    split
    · exact poll
    · rename_i snap found
      exact poll.send fun fixed => (poll.node.enrolled fixed).stable.snap snap found
  · exact poll.send fun fixed e member => (poll.node.enrolled fixed).stable.entries member

/-- A vote that is saved, in a new term or for the candidate that the node may still vote for. -/
theorem cast {T : Nat} {c : NodeId} (newer : n.currentTerm ≤ T)
    (free : T = n.currentTerm → n.votedFor = none ∨ n.votedFor = some c) (id : n'.id = n.id) (term : n'.currentTerm = T)
    (voted : n'.votedFor = some c) (saved : n'.storage.hard = ⟨T, some c⟩) (messages : n'.messages = n.messages)
    (enrolled : roll.fixed → Grows i votes (votes.cast i T c) → Enrolled roll.voters (votes.cast i T c) i n') :
    Polled roll votes i n' := by
  have node := poll.node
  have grows : Grows i votes (votes.cast i T c) := by
    refine Grows.cast ?_
    rcases newer.lt_or_eq with above | rfl
    · exact .inl (node.later T above)
    · rw [node.vote]
      exact free rfl
  refine ⟨_, grows, ⟨id.trans node.id, ?_, ?_, ?_, fun fixed => enrolled fixed grows⟩, ?_⟩
  · rw [saved, term, voted]
  · rw [term, voted, Votes.cast_self]
  · intro U above
    rw [votes.cast_later i c (by omega)]
    exact node.later U (by omega)
  · exact fun msg member => (poll.sent msg (messages ▸ member)).grow grows

theorem campaign (voter : n.isVoter) : Polled roll votes i n.campaign := by
  have id := poll.node.id
  refine poll.cast (Nat.le_succ _) (fun same => absurd same (Nat.succ_ne_self _)) rfl rfl (congrArg some id) ?_ rfl ?_
  · rw [← id]
    rfl
  intro fixed grows
  have enrolled := poll.node.enrolled fixed
  have self : n.id ∈ roll.voters.toFinset := by
    rw [← enrolled.config, mem_toFinset]
    simpa [RaftNode.isVoter] using voter
  refine ⟨enrolled.boot, ⟨enrolled.stable.log, enrolled.stable.snap⟩, enrolled.config, enrolled.distinct, fun _ => ?_,
    by rintro ⟨⟩⟩
  refine ⟨Finset.singleton_subset_iff.mpr self, fun v member => ?_⟩
  have only : v = i := (Finset.mem_singleton.mp member).trans id
  exact only ▸ votes.cast_self i _ i

theorem assumeLeadership (role : n.role = .candidate) (elected : n.majority ≤ n.votes.card) :
    Poll roll votes i n.assumeLeadership := by
  have node := poll.node
  refine ⟨{ node with enrolled := fun fixed => ?_ }, poll.sent⟩
  have enrolled := node.enrolled fixed
  obtain ⟨members, cast⟩ := enrolled.candidate role
  have majority : Majority roll.voters.toFinset n.votes :=
    enrolled.config ▸ majority_of_card enrolled.distinct (enrolled.config ▸ members) elected
  exact { enrolled with candidate := nofun, leader := fun _ => ⟨n.votes, majority, cast⟩ }

theorem grant {sender : NodeId} (free : n.votedFor = none ∨ n.votedFor = some sender) :
    Polled roll votes i { n with votedFor := some sender }.persistHardState.resetElectionTimer := by
  refine poll.cast le_rfl (fun _ => free) rfl rfl rfl rfl rfl fun fixed grows => ?_
  have enrolled := (poll.node.enrolled fixed).grow grows
  exact ⟨enrolled.boot, ⟨enrolled.stable.log, enrolled.stable.snap⟩, enrolled.config, enrolled.distinct,
    enrolled.candidate, enrolled.leader⟩

theorem tally {sender : NodeId} (role : n.role = .candidate) (member : sender ∈ n.voters)
    (cast : votes sender n.currentTerm = some i) : Poll roll votes i { n with votes := insert sender n.votes } := by
  have node := poll.node
  refine ⟨{ node with enrolled := fun fixed => ?_ }, poll.sent⟩
  have enrolled := node.enrolled fixed
  obtain ⟨members, earlier⟩ := enrolled.candidate role
  refine { enrolled with candidate := fun _ => ⟨?_, fun v among => ?_⟩ }
  · exact Finset.insert_subset (enrolled.config ▸ mem_toFinset.mpr member) members
  · rcases Finset.mem_insert.mp among with rfl | old
    · exact cast
    · exact earlier v old

theorem spliceEntries (prevLogIndex : Nat) {entries : List Entry}
    (plain : roll.fixed → ∀ e ∈ entries, e.entryType = .normal) : Poll roll votes i (n.spliceEntries prevLogIndex entries) := by
  obtain ⟨log, cut⟩ := RaftNode.splice_log n.storage n.storage.base (prevLogIndex + 1) entries
  have spliced (fixed : roll.fixed) :=
    (poll.node.enrolled fixed).stable.splice n.storage.base (prevLogIndex + 1) (plain fixed)
  unfold RaftNode.spliceEntries
  split
  · rename_i storage tail found
    rw [found] at cut spliced
    have hard : storage.hard = n.storage.hard := (congrArg MemStorage.hard cut).trans rfl
    exact (poll.store (storage.append tail) hard fun fixed =>
      (spliced fixed).1.append ((spliced fixed).2 tail rfl)).recomputeConf
  · rename_i storage found
    rw [found] at cut spliced
    have hard : storage.hard = n.storage.hard := (congrArg MemStorage.hard cut).trans rfl
    exact poll.store storage hard fun fixed => (spliced fixed).1

theorem installSnapshot {snap : Snapshot} (config : roll.fixed → snap.confState.toFinset = roll.voters.toFinset) :
    Poll roll votes i (n.installSnapshot snap) := by
  have stored := poll.store (n.storage.applySnapshot snap) rfl fun fixed =>
    ⟨nofun, fun _ same => Option.some.inj same ▸ config fixed⟩
  exact recomputeConf (stored.congr rfl rfl)

theorem compact {index : Nat} {data : Bytes} (done : n.compact index data = some n') : Poll roll votes i n' := by
  rcases RaftNode.compact_cases done with rfl | ⟨term, above, -, -, rfl⟩
  · exact poll
  rw [MemStorage.compact_of_lt above]
  refine poll.store _ rfl fun fixed => ?_
  have enrolled := poll.node.enrolled fixed
  exact ⟨fun e member => enrolled.stable.log e (mem_of_mem_drop member),
    fun _ same => Option.some.inj same ▸ enrolled.stable.confAt enrolled.boot index⟩

omit poll in
theorem new {cfg : Config} {storage : MemStorage} (id : cfg.id = i) (boot : roll.fixed → cfg.voters = roll.voters)
    (vote : votes i storage.hard.currentTerm = storage.hard.votedFor)
    (later : ∀ T, storage.hard.currentTerm < T → votes i T = none) (stable : roll.fixed → Stable roll.voters storage) :
    Poll roll votes i (RaftNode.new cfg storage) := by
  -- The configured voters may repeat; the membership read off the log does not.
  have recovered : Poll roll votes i ((RaftNode.recover cfg storage).resetElectionTimer.adoptConf
      ((RaftNode.recover cfg storage).confAt storage.lastIndex)) := by
    refine ⟨⟨id, rfl, vote, later, fun fixed => ⟨boot fixed, stable fixed, ?_, confAt_nodup _ _, nofun, nofun⟩⟩, nofun⟩
    exact (stable fixed).confAt (n := RaftNode.recover cfg storage) (boot fixed) _
  exact recovered.congr (RaftNode.electoral_of_core (RaftNode.recomputeConf_core rfl)) (RaftNode.recomputeConf_messages _)

variable {action : Action}
  (heard : ∀ envelope, action = .deliver envelope → Cast roll votes envelope.message ∧ envelope.message.dest = i)

include heard

theorem turn (turn : Turn action n n') : Polled roll votes i n' := by
  cases turn with
  | idle | aim | progress | commit | learnCommit | registerRead | acknowledge | takeReadStates =>
    exact poll.kept rfl rfl
  | becomeFollower leader newer => exact (poll.becomeFollower _ leader).polled
  | follow leader => exact poll.follower.kept rfl rfl
  | campaign voter => exact poll.campaign voter
  | assumeLeadership role elected => exact (poll.assumeLeadership role elected).polled
  | grant free => exact poll.grant free
  | tally role called member =>
    obtain ⟨cast, rfl⟩ := heard _ called
    exact (poll.tally role member (cast rfl)).polled
  | advanceReads =>
    exact poll.kept (RaftNode.electoral_of_core n.advanceReads_core) n.advanceReads_messages

theorem move (fixed : roll.fixed → action.reconfigures = false) (move : Move action n n') : Polled roll votes i n' := by
  have node := poll.node
  cases move with
  | quiet turn => exact poll.turn heard turn
  | @answer dest term body answers =>
    have cast : Cast roll votes ⟨i, dest, term, body⟩ := by
      cases body with
      | requestVoteResp granted =>
        intro yes
        obtain ⟨rfl, voted⟩ := answers yes
        exact node.vote.trans voted
      | appendEntries | installSnapshot => cases answers
      | _ => trivial
    exact (poll.send cast).polled
  | sendAppend dest => exact (poll.sendAppend dest).polled
  | @appendOwn entry next proposed =>
    have stored := poll.store (n.storage.append [entry]) rfl fun unchanged => by
      refine (node.enrolled unchanged).stable.append fun e member => ?_
      rcases proposed with ⟨_, _, -, plain⟩ | ⟨_, _, rfl⟩
      · exact mem_singleton.mp member ▸ plain
      · cases fixed unchanged
    exact stored.kept rfl rfl
  | recomputeConf => exact poll.recomputeConf.polled
  | splice role called => exact (poll.spliceEntries _ (heard _ called).1).polled
  | install role called => exact (poll.installSnapshot (heard _ called).1).polled
  | takeCommitted =>
    unfold RaftNode.takeCommitted
    split
    · exact poll.polled
    · exact poll.kept rfl rfl
  | takeSnapshot => exact poll.kept rfl rfl
  | compact called done => exact (poll.compact done).polled
  | restart =>
    have term : n.storage.hard.currentTerm = n.currentTerm := congrArg HardState.currentTerm node.saved
    have voted : n.storage.hard.votedFor = n.votedFor := congrArg HardState.votedFor node.saved
    refine (Poll.new node.id (fun fixed => (node.enrolled fixed).boot) ?_ ?_ fun fixed => (node.enrolled fixed).stable).polled
    · rw [term, voted, node.vote]
    · rw [term]
      exact node.later

theorem perform (fixed : roll.fixed → action.reconfigures = false) :
    n.currentTerm ≤ (action.perform n).currentTerm ∧ Polled roll votes i (action.perform n) := by
  refine (Moves.perform n action).preserves (fun m => n.currentTerm ≤ m.currentTerm ∧ Polled roll votes i m) ?_
    ⟨le_rfl, poll.polled⟩
  rintro m m' move ⟨onward, votes', grows, poll'⟩
  obtain ⟨votes'', grows', poll''⟩ :=
    poll'.move (fun envelope same => (heard envelope same).imp_left (·.grow grows)) fixed move
  have saved : m.storage.hard.currentTerm = m.currentTerm := congrArg HardState.currentTerm poll'.node.saved
  exact ⟨onward.trans (move.term_le fun _ _ _ => saved), votes'', grows.trans grows', poll''⟩

end Poll

end

structure Accounts (roll : Roll) (votes : Votes) (s : Cluster) : Prop where
  nodes : ∀ i, Polls roll votes i (s.nodes i)
  drained : ∀ i, (s.nodes i).messages = []
  sent : ∀ envelope ∈ s.net, Cast roll votes envelope.message

/-- The votes cast stay cast, and no term falls. -/
structure Advances (votes : Votes) (s : Cluster) (votes' : Votes) (s' : Cluster) : Prop where
  kept : ∀ j T c, votes j T = some c → votes' j T = some c
  terms : ∀ j, (s.nodes j).currentTerm ≤ (s'.nodes j).currentTerm

namespace Accounts

variable {roll : Roll} {votes : Votes} {s : Cluster}

theorem start {cfg : NodeId → Config} (shared : roll.fixed → ∀ i, (cfg i).voters = roll.voters) :
    Accounts roll (fun _ _ => none) (Cluster.start cfg) := by
  have poll : ∀ i, Poll roll (fun _ _ => none) i ((Cluster.start cfg).nodes i) := fun i =>
    Poll.new rfl (fun fixed => shared fixed i) rfl (fun _ _ => rfl) fun _ => ⟨nofun, nofun⟩
  exact ⟨fun i => (poll i).node, fun i => RaftNode.recomputeConf_messages _, nofun⟩

variable {action : Action}

theorem exec (accounts : Accounts roll votes s) (fixed : roll.fixed → action.reconfigures = false) :
    ∃ votes', Advances votes s votes' (s.exec action) ∧ Accounts roll votes' (s.exec action) := by
  by_cases enabled : s.enabled action
  · have poll : Poll roll votes action.node (s.nodes action.node) :=
      ⟨accounts.nodes action.node, by simp [accounts.drained action.node]⟩
    obtain ⟨onward, votes', grows, poll⟩ := poll.perform (fun envelope same => by
      subst same
      exact ⟨accounts.sent envelope (of_decide_eq_true enabled), rfl⟩) fixed
    have acting := Cluster.exec_node enabled
    refine ⟨votes', ⟨grows.kept, fun j => ?_⟩, fun j => ?_, fun j => ?_, fun envelope member => ?_⟩
    · rcases eq_or_ne j action.node with rfl | other
      · rw [acting]
        exact onward
      · rw [Cluster.exec_other other]
    · rcases eq_or_ne j action.node with rfl | other
      · rw [acting]
        exact poll.node.congr rfl
      · rw [Cluster.exec_other other]
        exact (accounts.nodes j).frame grows other
    · rcases eq_or_ne j action.node with rfl | other
      · rw [acting]
        rfl
      · rw [Cluster.exec_other other]
        exact accounts.drained j
    · rw [Cluster.exec_net] at member
      rcases mem_append.mp member with old | new
      · exact (accounts.sent envelope old).grow grows
      · exact poll.sent _ (Cluster.mem_sends new)
  · rw [Cluster.exec_disabled enabled]
    exact ⟨votes, ⟨fun _ _ _ found => found, fun _ => le_rfl⟩, accounts⟩

theorem run (accounts : Accounts roll votes s) (actions : List Action)
    (fixed : roll.fixed → ∀ action ∈ actions, action.reconfigures = false) :
    ∃ votes', Advances votes s votes' (s.run actions) ∧ Accounts roll votes' (s.run actions) := by
  induction actions generalizing s votes with
  | nil => exact ⟨votes, ⟨fun _ _ _ found => found, fun _ => le_rfl⟩, accounts⟩
  | cons action rest ih =>
    obtain ⟨votes', first, accounts'⟩ := accounts.exec fun unchanged => fixed unchanged action mem_cons_self
    obtain ⟨votes'', later, accounts''⟩ := ih accounts' fun unchanged a member => fixed unchanged a (mem_cons_of_mem _ member)
    exact ⟨votes'', ⟨fun j T c found => later.kept j T c (first.kept j T c found),
      fun j => (first.terms j).trans (later.terms j)⟩, accounts''⟩

end Accounts

/-- Terms never go back, and a vote stays for its term. -/
theorem hard_state_kept (cfg : NodeId → Config) (before after : List Action) (i : NodeId) :
    let n := ((Cluster.start cfg).run before).nodes i
    let n' := (((Cluster.start cfg).run before).run after).nodes i
    n.currentTerm ≤ n'.currentTerm ∧
      (n'.currentTerm = n.currentTerm → ∀ c, n.votedFor = some c → n'.votedFor = some c) := by
  intro n n'
  have start : Accounts ⟨[], False⟩ (fun _ _ => none) (Cluster.start cfg) := .start nofun
  obtain ⟨votes, -, accounts⟩ := start.run before nofun
  obtain ⟨votes', onward, accounts'⟩ := accounts.run after nofun
  refine ⟨onward.terms i, fun same c voted => ?_⟩
  rw [← (accounts.nodes i).vote] at voted
  rw [← (accounts'.nodes i).vote, same]
  exact onward.kept i _ c voted

/-- A node votes for one candidate of a term, also when it restarts in between. -/
theorem votes_once (cfg : NodeId → Config) (actions : List Action) {x y : Envelope}
    (sent : x ∈ ((Cluster.start cfg).run actions).net) (sent' : y ∈ ((Cluster.start cfg).run actions).net)
    (granted : x.message.body = .requestVoteResp true) (granted' : y.message.body = .requestVoteResp true)
    (sender : x.message.sender = y.message.sender) (term : x.message.term = y.message.term) :
    x.message.dest = y.message.dest := by
  have start : Accounts ⟨[], False⟩ (fun _ _ => none) (Cluster.start cfg) := .start nofun
  obtain ⟨votes, -, accounts⟩ := start.run actions nofun
  have cast (z : Envelope) (sent : z ∈ ((Cluster.start cfg).run actions).net)
      (granted : z.message.body = .requestVoteResp true) : votes z.message.sender z.message.term = some z.message.dest := by
    have cast := accounts.sent z sent
    rw [Cast, granted] at cast
    exact cast rfl
  have mine := cast x sent granted
  rw [sender, term, cast y sent' granted'] at mine
  exact (Option.some.inj mine).symm

def revoting : List Action := firstElection ++ [.restart 2 (trio 2), .receive 1 2 1 (.requestVote 0 0)]

def revoted : Cluster := (Cluster.start trio).run revoting

theorem votes_once_restarted : ⟨⟨2, 1, 1, .requestVoteResp true⟩, 0⟩ ∈ revoted.net ∧
    ∀ y ∈ revoted.net, y.message.body = .requestVoteResp true → 2 = y.message.sender → 1 = y.message.term →
      1 = y.message.dest := by
  have sent : ⟨⟨2, 1, 1, .requestVoteResp true⟩, 0⟩ ∈ revoted.net := by decide +kernel
  exact ⟨sent, fun _ sent' => votes_once trio revoting sent sent' rfl⟩

/-- Election safety: no term has two leaders, at any two times of a run. -/
theorem election_safety {voters : List NodeId} {cfg : NodeId → Config} (shared : ∀ i, (cfg i).voters = voters)
    (first rest : List Action) (fixed : ∀ action ∈ first ++ rest, action.reconfigures = false) {i j : NodeId}
    (leads : (((Cluster.start cfg).run first).nodes i).role = .leader)
    (leads' : (((Cluster.start cfg).run (first ++ rest)).nodes j).role = .leader)
    (sameTerm : (((Cluster.start cfg).run first).nodes i).currentTerm =
      (((Cluster.start cfg).run (first ++ rest)).nodes j).currentTerm) : i = j := by
  have start : Accounts ⟨voters, True⟩ (fun _ _ => none) (Cluster.start cfg) := .start fun _ => shared
  obtain ⟨votes, _, accounts⟩ := start.run first fun _ action member => fixed action (mem_append_left rest member)
  obtain ⟨votes', onward, accounts'⟩ := accounts.run rest fun _ action member => fixed action (mem_append_right first member)
  rw [Cluster.run_append] at leads' sameTerm
  obtain ⟨q, majority, cast⟩ := ((accounts.nodes i).enrolled trivial).leader leads
  obtain ⟨q', majority', cast'⟩ := ((accounts'.nodes j).enrolled trivial).leader leads'
  obtain ⟨v, member, member'⟩ := Overlap.refl _ q q' majority majority'
  have mine := onward.kept v _ _ (cast v member)
  rw [sameTerm, cast' v member'] at mine
  exact (Option.some.inj mine).symm

theorem election_safety_trio :
    (((Cluster.start trio).run firstElection).nodes 1).role = .leader ∧
    (((Cluster.start trio).run (firstElection ++ [.restart 2 (trio 2), .tick 1])).nodes 1).role = .leader ∧
    (1 : NodeId) = 1 := by
  have leads : (((Cluster.start trio).run firstElection).nodes 1).role = .leader := by decide +kernel
  have leads' : (((Cluster.start trio).run (firstElection ++ [.restart 2 (trio 2), .tick 1])).nodes 1).role = .leader := by
    decide +kernel
  exact ⟨leads, leads', election_safety trio_voters _ _ (by decide) leads leads' (by decide +kernel)⟩

end Arcux.Raft
