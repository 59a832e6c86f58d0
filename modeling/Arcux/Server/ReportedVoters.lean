import Arcux.Concurrency.Runs
import Arcux.Pd.Founding
import Arcux.Raft.Safety.Configurations

namespace Arcux.Server.Reporting

open Concurrency List Pd Raft
open scoped Codec.ByteOrder Engine

/-- What the actor of a Raft group publishes after each round for others to read. `pending` is not part of it: it says
whether a membership change was pending in that round. -/
structure Observable where
  role : Role := .follower
  voters : List NodeId := []
  pending : Bool := false

/-- What `reported_regions` learns of a group. It takes the lock twice, so the two need not be of one round. -/
structure GroupReads where
  isLeader : Bool
  voters : List NodeId

structure Host where
  regions : List Region
  hostsAp : UInt64 → Bool := fun _ => false
  raftGroup : UInt64 → Option GroupReads := fun _ => none
  address : String := ""
  now : UInt64 := 0
  storeId : String := ""

def reportedVoters (group : Option GroupReads) : List NodeId :=
  ((group.filter (·.isLeader)).map fun g => g.voters.insertionSort (· ≤ ·)).getD []

def Host.reportedRegions (host : Host) : List ReplicaSet :=
  host.regions.map fun r => ⟨r, if host.hostsAp r.id then .ap else .cp, reportedVoters (host.raftGroup r.id), []⟩

/-- The Raft group of one region, what its replicas have published, the reports for which a replica has been asked whether
it leads, every heartbeat that was sent, and PD. A heartbeat can reach PD at any later time, any number of times, or
never. -/
structure Watched where
  group : Cluster
  obs : NodeId → Observable
  asked : List (NodeId × Bool)
  sent : List PdCmd
  pd : PdFsm

inductive Event where
  | raft (action : Action)
  | publish (i : NodeId)
  | isLeader (i : NodeId)
  -- the report asked for under the ticket: the node reads the voters of the region, and whatever else it hosts
  | heartbeat (ticket : Nat) (host : Host)
  | apply (ticket : Nat)
  | reserveTs (upper : UInt64)
  | declareTable (name : String) (regime : Regime)
  | sweep (now timeoutMs : UInt64)

def Event.actor : Event → Option NodeId
  | raft action => some action.node
  | _ => none

def Observable.of (n : RaftNode) : Observable := ⟨n.role, n.voters, n.hasPendingConfChange⟩

namespace Watched

def start (cfg : NodeId → Config) (pd : PdFsm) : Watched := ⟨.start cfg, fun _ => {}, [], [], pd⟩

def heartbeat (region : UInt64) (s : Watched) (i : NodeId) (isLeader : Bool) (host : Host) : PdCmd :=
  let host := { host with raftGroup := Function.update host.raftGroup region (some ⟨isLeader, (s.obs i).voters⟩) }
  .heartbeat i host.address host.reportedRegions host.now host.storeId

def exec (region : UInt64) (s : Watched) : Event → Watched
  | .raft action => { s with
      group := s.group.exec action
      obs := match action with
        | .restart i _ => Function.update s.obs i {}
        | _ => s.obs }
  | .publish i => { s with obs := Function.update s.obs i (.of (s.group.nodes i)) }
  | .isLeader i => { s with asked := s.asked ++ [(i, decide ((s.obs i).role = .leader))] }
  | .heartbeat ticket host => match s.asked[ticket]? with
    | some (i, isLeader) => { s with sent := s.sent ++ [s.heartbeat region i isLeader host] }
    | none => s
  | .apply ticket => match s.sent[ticket]? with
    | some cmd => { s with pd := s.pd.applyCmd cmd }
    | none => s
  | .reserveTs upper => { s with pd := s.pd.applyCmd (.reserveTs upper) }
  | .declareTable name regime => { s with pd := s.pd.applyCmd (.declareTable name regime) }
  | .sweep now timeoutMs => { s with pd := s.pd.sweep now timeoutMs }

def run (region : UInt64) (s : Watched) (events : List Event) : Watched := events.foldl (exec region) s

/-- The voters that are read for a report were published while no membership change was pending, and nodes compact only
what is committed. -/
def steady (s : Watched) : Event → Bool
  | .raft (.compact i index _) => index ≤ (s.group.nodes i).commitIndex
  | .heartbeat ticket _ => s.asked[ticket]?.all fun (i, isLeader) => !isLeader || !(s.obs i).pending
  | _ => true

structure Sound (region : UInt64) (known : NodeId → Prop) (s : Watched) : Prop where
  tidy : s.group.Tidy
  backed : s.group.Backed known
  observed : ∀ i, (s.obs i).pending = false → ∀ v ∈ (s.obs i).voters, known v
  sent : ∀ cmd ∈ s.sent, cmd.Vouched region known
  members : PdFsm.Registered region known s.pd.regionMembers

namespace Sound

variable {region : UInt64} {known : NodeId → Prop} {s : Watched}

theorem heartbeat (sound : s.Sound region known) {i : NodeId} {isLeader : Bool} {host : Host}
    (steady : !isLeader || !(s.obs i).pending) : (s.heartbeat region i isLeader host).Vouched region known := by
  intro rs reported here v member
  obtain ⟨r, _, rfl⟩ := mem_map.mp reported
  have own : Function.update host.raftGroup region (some ⟨isLeader, (s.obs i).voters⟩) r.id =
      some ⟨isLeader, (s.obs i).voters⟩ := by
    rw [show r.id = region from here, Function.update_self]
  simp only [own, reportedVoters, Option.filter_some] at member
  split at member
  · rename_i leads
    simp only [leads, Bool.not_true, Bool.false_or, Bool.not_eq_true'] at steady
    rw [Option.map_some, Option.getD_some, mem_insertionSort] at member
    exact sound.observed i steady v member
  · cases member

theorem exec (sound : s.Sound region known) (settled : ∀ v, s.group.CommitsVoter v → known v) {event : Event}
    (steady : s.steady event) : (s.exec region event).Sound region known := by
  obtain ⟨tidy, backed, observed, sent, members⟩ := sound
  cases event with
  | raft action =>
    refine ⟨tidy.exec action, backed.exec ?_ settled, ?_, sent, members⟩
    · rintro i index data rfl
      exact of_decide_eq_true steady
    · cases action with
      | restart i cfg =>
        intro j
        simp only [Watched.exec, Function.update_apply]
        split_ifs
        · exact nofun
        · exact observed j
      | _ => exact observed
  | publish i =>
    refine ⟨tidy, backed, fun j => ?_, sent, members⟩
    simp only [Watched.exec, Function.update_apply]
    split_ifs
    · exact fun quiet => (backed.nodes i).voters_known (tidy.nodes i).contiguous
        (fun e committed v voter => settled v ⟨i, e, committed, voter⟩) quiet
    · exact observed j
  | isLeader i => exact ⟨tidy, backed, observed, sent, members⟩
  | heartbeat ticket host =>
    unfold Watched.exec
    simp only
    split
    · rename_i i isLeader asked
      have quiet : !isLeader || !(s.obs i).pending := by simpa [Watched.steady, asked] using steady
      refine ⟨tidy, backed, observed, ?_, members⟩
      intro cmd member
      rcases mem_append.mp member with old | new
      · exact sent cmd old
      · rw [mem_singleton.mp new]
        exact heartbeat ⟨tidy, backed, observed, sent, members⟩ quiet
    · exact ⟨tidy, backed, observed, sent, members⟩
  | apply ticket =>
    unfold Watched.exec
    simp only
    split
    · rename_i cmd found
      exact ⟨tidy, backed, observed, sent, members.applyCmd (sent cmd (mem_of_getElem? found))⟩
    · exact ⟨tidy, backed, observed, sent, members⟩
  | reserveTs upper => exact ⟨tidy, backed, observed, sent, members⟩
  | declareTable name regime => exact ⟨tidy, backed, observed, sent, members.applyCmd trivial⟩
  | sweep now timeoutMs => exact ⟨tidy, backed, observed, sent, members⟩

end Sound

end Watched

/-- Where only settled memberships are reported, PD records no voter but the founding ones and those of committed
configurations. -/
theorem registered_voters_committed {region : UInt64} {founding : List NodeId} {cfg : NodeId → Config} {pd : PdFsm}
    (boot : ∀ i, ∀ v ∈ (cfg i).voters, v ∈ founding) (founded : founding ≠ [])
    (placed : PdFsm.membersOf pd.regionMembers region = founding) {events : List Event}
    (steady : Admitted (Watched.exec region) (fun s event => s.steady event) (.start cfg pd) events) {v : NodeId}
    (recorded : v ∈ PdFsm.membersOf ((Watched.start cfg pd).run region events).pd.regionMembers region) :
    v ∈ founding ∨ ∃ before, before <+: events ∧ ((Watched.start cfg pd).run region before).group.CommitsVoter v := by
  let known (v : NodeId) : Prop :=
    v ∈ founding ∨ ∃ before, before <+: events ∧ ((Watched.start cfg pd).run region before).group.CommitsVoter v
  have start : (Watched.start cfg pd).Sound region known := by
    refine ⟨.start cfg, .start fun i v voter => .inl (boot i v voter), nofun, nofun, ?_, ?_⟩
    · exact placed ▸ founded
    · exact fun v member => .inl (placed ▸ member)
  have settled : Throughout (Watched.exec region) (fun s => ∀ v, s.group.CommitsVoter v → known v) (.start cfg pd) events :=
    throughout_iff.mpr fun before part v commits => .inr ⟨before, part, commits⟩
  have sound : ((Watched.start cfg pd).run region events).Sound region known :=
    steady.keeps (fun s event steady settled sound => sound.exec settled steady) settled start
  exact sound.members.known v recorded

/-! Runs of a group of three. -/

namespace Watched

theorem run_append (region : UInt64) (s : Watched) (first rest : List Event) :
    s.run region (first ++ rest) = (s.run region first).run region rest :=
  foldl_append

theorem run_raft (region : UInt64) (s : Watched) (actions : List Action) :
    ∃ obs, s.run region (actions.map .raft) = { s with group := s.group.run actions, obs } := by
  induction actions generalizing s with
  | nil => exact ⟨s.obs, rfl⟩
  | cons action rest ih => exact ih (s.exec region (.raft action))

variable {events : List Event} {region : UInt64}

theorem run_idle {s : Watched} {i : NodeId}
    (idle : ∀ event ∈ events, event.actor ≠ some i) : (s.run region events).group.nodes i = s.group.nodes i := by
  induction events generalizing s with
  | nil => rfl
  | cons event rest ih =>
    obtain ⟨here, later⟩ := forall_mem_cons.mp idle
    refine (ih later).trans ?_
    cases event with
    | raft action => exact Cluster.exec_other fun same => here (congrArg some same.symm)
    | apply ticket | heartbeat ticket host =>
      simp only [exec]
      split <;> rfl
    | publish | isLeader | reserveTs | declareTable | sweep => rfl

theorem never_commits {pd : PdFsm} {v : NodeId} (nodes : List NodeId)
    (among : events.all fun event => event.actor.all (· ∈ nodes))
    (never : Throughout (exec region) (fun s => nodes.all fun i => (s.group.nodes i).committed.all (v ∉ ·.voters))
      (.start trio pd) events) :
    ∀ before, before <+: events → ¬ ((start trio pd).run region before).group.CommitsVoter v := by
  rintro before part ⟨i, e, committed, voter⟩
  by_cases member : i ∈ nodes
  · have quiet := all_eq_true.mp (throughout_iff.mp never before part) i member
    exact of_decide_eq_true (all_eq_true.mp quiet e committed) voter
  · have idle : ∀ event ∈ before, event.actor ≠ some i := by
      intro event taken acts
      have inside := all_eq_true.mp among event (part.mem taken)
      rw [acts, Option.all_some] at inside
      exact member (of_decide_eq_true inside)
    rw [run_idle idle] at committed
    have empty : ((start trio pd).group.nodes i).storage = {} := RaftNode.recomputeConf_storage _
    simp [RaftNode.committed, empty, MemStorage.entries] at committed

end Watched

def tablePlaced : PdFsm :=
  [.heartbeat 1 "" [] 0 "", .heartbeat 2 "" [] 0 "", .heartbeat 3 "" [] 0 "", .declareTable "t" .cp].foldl PdFsm.applyCmd
    (.fresh 3)

def tableRegion : Region := ⟨2, tablePrefix 1, [], 2⟩

theorem tablePlaced_members : PdFsm.membersOf tablePlaced.regionMembers 2 = [1, 2, 3] := by decide +kernel

def reporting (actions : List Action) : List Event :=
  actions.map .raft ++ [.publish 1, .isLeader 1, .heartbeat 0 { regions := [tableRegion] }, .apply 0]

def published (n : RaftNode) : GroupReads := ⟨n.role = .leader, n.voters⟩

theorem reporting_pd (actions : List Action) : ((Watched.start trio tablePlaced).run 2 (reporting actions)).pd =
    tablePlaced.applyCmd (.heartbeat 1 ""
      [⟨tableRegion, .cp, reportedVoters (some (published (((Cluster.start trio).run actions).nodes 1))), []⟩] 0 "") := by
  obtain ⟨obs, ran⟩ := Watched.run_raft 2 (.start trio tablePlaced) actions
  rw [reporting, Watched.run_append, ran]
  simp [Watched.run, Watched.exec, Watched.start, Watched.heartbeat, Host.reportedRegions, Observable.of, published,
    tableRegion]

theorem reporting_recorded (actions : List Action)
    (reported : reportedVoters (some (published (((Cluster.start trio).run actions).nodes 1))) = [1, 2, 3, 4]) :
    4 ∈ PdFsm.membersOf ((Watched.start trio tablePlaced).run 2 (reporting actions)).pd.regionMembers 2 := by
  have placed : tableRegion.id ∈ tablePlaced.regions.regions.map Region.id := by decide +kernel
  have members : PdFsm.membersOf tablePlaced.regionMembers tableRegion.id = [1, 2, 3] := tablePlaced_members
  let report : ReplicaSet := ⟨tableRegion, .cp, [1, 2, 3, 4], []⟩
  have grown : PdFsm.membersOf (tablePlaced.applyCmd (.heartbeat 1 "" [report] 0 "")).regionMembers tableRegion.id =
      report.voters.mergeSort (· ≤ ·) :=
    PdFsm.heartbeat_grows (by decide) placed (members ▸ by decide) fun v member =>
      mem_append_left [4] (members ▸ member)
  rw [reporting_pd, reported]
  change 4 ∈ PdFsm.membersOf _ tableRegion.id
  rw [grown, mem_mergeSort]
  decide

def admission : Entry := ⟨1, 1, .confChange, ConfChange.encode (.addNode 4) [1, 2, 3, 4] []⟩

def admitting : List Action := firstElection ++
  [.proposeConfChange 1 (.addNode 4), .receive 1 2 1 (.appendEntries 0 0 [admission] 0 0),
    .receive 1 3 1 (.appendEntries 0 0 [admission] 0 0), .receive 2 1 1 (.appendEntriesResp true 1 0),
    .receive 3 1 1 (.appendEntriesResp true 1 0)]

theorem registered_voters_committed_admitted :
    4 ∈ PdFsm.membersOf ((Watched.start trio tablePlaced).run 2 (reporting admitting)).pd.regionMembers 2 ∧
      ((4 : NodeId) ∈ ([1, 2, 3] : List NodeId) ∨ ∃ before, before <+: reporting admitting ∧
        ((Watched.start trio tablePlaced).run 2 before).group.CommitsVoter 4) := by
  have recorded := reporting_recorded admitting (by decide +kernel)
  have boot : ∀ i, ∀ v ∈ (trio i).voters, v ∈ ([1, 2, 3] : List NodeId) := fun i v member => trio_voters i ▸ member
  exact ⟨recorded, registered_voters_committed boot (by decide) tablePlaced_members (by decide +kernel) recorded⟩

def proposing : List Action := firstElection ++ [.proposeConfChange 1 (.addNode 4)]

def replacing : List Action := replicate 14 (.tick 2) ++
  [.receive 2 3 2 (.requestVote 0 0), .receive 3 2 2 (.requestVoteResp true), .propose 2 [8],
    .receive 2 3 2 (.appendEntries 0 0 [.normal 2 1 [8]] 0 0), .receive 3 2 2 (.appendEntriesResp true 1 0),
    .receive 2 1 2 (.appendEntries 0 0 [.normal 2 1 [8]] 0 0)]

def forgetting : List Event := reporting proposing ++ replacing.map .raft

/-- PD keeps the voter of a change that was never committed and is in no log any more. -/
theorem uncommitted_voter_recorded :
    4 ∈ PdFsm.membersOf ((Watched.start trio tablePlaced).run 2 forgetting).pd.regionMembers 2 ∧
    (4 : NodeId) ∉ ([1, 2, 3] : List NodeId) ∧
    (∀ before, before <+: forgetting → ¬ ((Watched.start trio tablePlaced).run 2 before).group.CommitsVoter 4) ∧
    [1, 2, 3].map (fun i => (((Watched.start trio tablePlaced).run 2 forgetting).group.nodes i).voters) =
      replicate 3 [1, 2, 3] := by
  have recorded := reporting_recorded proposing (by decide +kernel)
  refine ⟨?_, by decide, ?_, by decide +kernel⟩
  · obtain ⟨obs, ran⟩ := Watched.run_raft 2 ((Watched.start trio tablePlaced).run 2 (reporting proposing)) replacing
    rw [forgetting, Watched.run_append, ran]
    exact recorded
  · exact Watched.never_commits [1, 2, 3] (by decide +kernel) (by decide +kernel)

end Arcux.Server.Reporting
