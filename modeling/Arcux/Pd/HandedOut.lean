import Arcux.Pd.Tiling

namespace Arcux.Pd

open Codec Data List
open scoped Codec.ByteOrder Engine

structure HandedOut where
  assignment : List ReplicaSet
  catalog : List Table
  nodeAddrs : List (UInt64 × String)

def PdFsm.handedOut (fsm : PdFsm) : HandedOut := ⟨fsm.assignment, fsm.sortedCatalog, fsm.members.nodeAddrs⟩

namespace PdFsm

variable {fsm : PdFsm} {founding : List UInt64} {acc : OrdMap UInt64 (List UInt64) × Bool} {nodeId : UInt64}
  {known : List UInt64}

theorem foldl_foundRegion_unfounded {regions : List Region} (unfounded : ∃ r ∈ regions, membersOf acc.1 r.id = []) :
    (regions.foldl (foundRegion founding) acc).2 = true := by
  have raised (regions : List Region) (acc : OrdMap UInt64 (List UInt64) × Bool) (raised : acc.2 = true) :
      (regions.foldl (foundRegion founding) acc).2 = true := by
    refine foldlRecOn (motive := fun acc : OrdMap UInt64 (List UInt64) × Bool => acc.2 = true) _ _ raised ?_
    intro acc raised r _
    unfold foundRegion
    split
    · rfl
    · exact raised
  induction regions with
  | nil => simp at unfounded
  | cons r rest ih =>
    rw [foldl_cons, foundRegion]
    split
    case isTrue => exact raised _ _ rfl
    case isFalse here => exact ih ((exists_mem_cons_iff .. |>.mp unfounded).resolve_left here)

theorem foundUnfoundedRegions_cases (live : fsm.members.liveNodes ≠ []) :
    ((∃ r ∈ fsm.regions.regions, membersOf fsm.regionMembers r.id = []) ∧ fsm.foundUnfoundedRegions.2 = true) ∨
      ((¬∃ r ∈ fsm.regions.regions, membersOf fsm.regionMembers r.id = []) ∧
        fsm.foundUnfoundedRegions = (fsm, false)) := by
  unfold foundUnfoundedRegions
  dsimp only
  rw [if_neg live]
  by_cases unfounded : ∃ r ∈ fsm.regions.regions, membersOf fsm.regionMembers r.id = []
  · exact .inl ⟨unfounded, foldl_foundRegion_unfounded unfounded⟩
  · refine .inr ⟨unfounded, ?_⟩
    push Not at unfounded
    rw [foldl_foundRegion_of_founded unfounded]

/-- A report of the node's that is adopted: all the voters on record of a region that there is, and more. -/
def Outgrows (nodeId : UInt64) (known : List UInt64) (members : UInt64 → List UInt64) (rs : ReplicaSet) : Prop :=
  nodeId ∈ rs.voters ∧ rs.region.id ∈ known ∧
    (members rs.region.id).length < rs.voters.length ∧ members rs.region.id ⊆ rs.voters
  deriving Decidable

theorem adoptReport_cases (nodeId : UInt64) (known : List UInt64) (acc : OrdMap UInt64 (List UInt64) × Bool)
    (rs : ReplicaSet) :
    (Outgrows nodeId known (membersOf acc.1) rs ∧ (adoptReport nodeId known acc rs).2 = true) ∨
      (¬Outgrows nodeId known (membersOf acc.1) rs ∧ (adoptReport nodeId known acc rs).2 = acc.2 ∧
        membersOf (adoptReport nodeId known acc rs).1 = membersOf acc.1) := by
  unfold adoptReport
  dsimp only
  split_ifs with ignored grown
  · exact .inr ⟨fun grows => ignored.elim (· grows.1) (· grows.2.1), rfl, rfl⟩
  · rw [not_or, not_not, not_not] at ignored
    exact .inl ⟨⟨ignored.1, ignored.2, grown⟩, rfl⟩
  · refine .inr ⟨fun grows => grown grows.2.2, rfl, funext fun region => ?_⟩
    rw [membersOf_insert]
    split_ifs with here
    · rw [here]
    · rfl

theorem foldl_adoptReport_cases (nodeId : UInt64) (known : List UInt64) (acc : OrdMap UInt64 (List UInt64) × Bool)
    (reported : List ReplicaSet) :
    ((∃ rs ∈ reported, Outgrows nodeId known (membersOf acc.1) rs) ∧
        (reported.foldl (adoptReport nodeId known) acc).2 = true) ∨
      ((¬∃ rs ∈ reported, Outgrows nodeId known (membersOf acc.1) rs) ∧
        (reported.foldl (adoptReport nodeId known) acc).2 = acc.2 ∧
        membersOf (reported.foldl (adoptReport nodeId known) acc).1 = membersOf acc.1) := by
  induction reported generalizing acc with
  | nil => exact .inr ⟨by simp, rfl, rfl⟩
  | cons rs rest ih =>
    rw [foldl_cons, exists_mem_cons_iff]
    rcases adoptReport_cases nodeId known acc rs with ⟨grows, raised⟩ | ⟨ignored, flag, same⟩
    · refine .inl ⟨.inl grows, ?_⟩
      rcases ih (adoptReport nodeId known acc rs) with ⟨-, later⟩ | ⟨-, later, -⟩
      · exact later
      · exact later.trans raised
    · rw [or_iff_right ignored, ← flag, ← same]
      exact ih _

section Desired

variable {members live front back : List UInt64}

theorem subset_desired : members ⊆ fsm.desired members live := by
  refine foldlRecOn (motive := (members ⊆ ·)) _ _ (Subset.refl _) fun desired kept id _ => ?_
  split
  · exact kept
  · exact subset_append_of_subset_left _ kept

theorem mem_desired {id : UInt64} (member : id ∈ fsm.desired members live) : id ∈ members ∨ id ∈ live := by
  revert member
  refine foldlRecOn (motive := fun desired => id ∈ desired → id ∈ members ∨ id ∈ live) _ _ .inl ?_
  intro desired known other placed member
  split at member
  · exact known member
  · rcases mem_append.mp member with old | new
    · exact known old
    · exact .inr (mem_singleton.mp new ▸ placed)

theorem length_desired_lt_iff (distinct : live.Nodup) : (fsm.desired members live).length < fsm.replicas ↔
    members.length + (live.filter (· ∉ members)).length < fsm.replicas := by
  induction live generalizing members with
  | nil => rfl
  | cons id rest ih =>
    obtain ⟨new, distinct⟩ := nodup_cons.mp distinct
    rw [desired, foldl_cons]
    split
    case isTrue passed =>
      refine (ih distinct).trans ?_
      rcases passed with full | held
      · omega
      · rw [filter_cons_of_neg (by simpa using held)]
    case isFalse taken =>
      obtain ⟨-, free⟩ := not_or.mp taken
      refine (ih distinct).trans ?_
      have same : rest.filter (· ∉ members ++ [id]) = rest.filter (· ∉ members) := by
        refine filter_congr fun other member => ?_
        have differs : other ≠ id := fun here => new (here ▸ member)
        simp [differs]
      rw [same, filter_cons_of_pos (by simpa using free), length_append, length_singleton, length_cons]
      omega

theorem desired_joined_iff (joined : nodeId ∉ front ∧ nodeId ∉ back) :
    fsm.desired members (front ++ nodeId :: back) = fsm.desired members (front ++ back) ↔
      ¬(nodeId ∉ members ∧ (fsm.desired members front).length < fsm.replicas) := by
  have split (rest : List UInt64) :
      fsm.desired members (front ++ rest) = fsm.desired (fsm.desired members front) rest := foldl_append
  have next : fsm.desired (fsm.desired members front) (nodeId :: back) = fsm.desired
      (if (fsm.desired members front).length ≥ fsm.replicas ∨ nodeId ∈ fsm.desired members front then
        fsm.desired members front else fsm.desired members front ++ [nodeId]) back := rfl
  rw [split, split, next]
  split_ifs with passed
  · refine iff_of_true rfl fun ⟨free, room⟩ => ?_
    rcases passed with full | held
    · exact room.not_ge full
    · exact (mem_desired held).elim free joined.1
  · obtain ⟨room, free⟩ := not_or.mp passed
    refine iff_of_false (fun same => ?_) (not_not.mpr ⟨fun held => free (subset_desired held), Nat.lt_of_not_le room⟩)
    have held : nodeId ∈ fsm.desired (fsm.desired members front ++ [nodeId]) back :=
      subset_desired (mem_append_right _ (mem_singleton_self _))
    exact (mem_desired (same ▸ held)).elim free joined.2

end Desired

theorem assignment_congr {a b : PdFsm} (regions : b.regions = a.regions) (catalog : b.catalog = a.catalog)
    (replicas : b.replicas = a.replicas) (live : b.members.liveNodes = a.members.liveNodes)
    (members : ∀ region, membersOf b.regionMembers region = membersOf a.regionMembers region) :
    b.assignment = a.assignment := by
  simp only [assignment, regimeFor, desired, regions, catalog, replicas, live, members]

end PdFsm

namespace Membership

variable {m : Membership} {nodeId : UInt64} {n : NodeState}

theorem nodeAddrs_heartbeat (known : m.nodes.find? nodeId = some n) (address : String) (reported : List ReplicaSet)
    (now : UInt64) : (m.heartbeat nodeId address reported now).1.nodeAddrs = m.nodeAddrs ↔ n.address = address := by
  obtain ⟨front, back, before, after⟩ := OrdMap.insert_known known ⟨address, now, false, m.assigned nodeId reported⟩
  simp [heartbeat, nodeAddrs, before, after, eq_comm]

theorem liveNodes_heartbeat (known : m.nodes.find? nodeId = some n) (address : String) (reported : List ReplicaSet)
    (now : UInt64) : ∃ front back, (m.heartbeat nodeId address reported now).1.liveNodes = front ++ nodeId :: back ∧
      m.liveNodes = front ++ (if n.down then back else nodeId :: back) ∧
      (∀ id ∈ front, id < nodeId) ∧ ∀ id ∈ back, nodeId < id := by
  obtain ⟨front, back, before, after⟩ := OrdMap.insert_known known ⟨address, now, false, m.assigned nodeId reported⟩
  have sorted := m.nodes.sorted
  rw [before] at sorted
  obtain ⟨-, later, earlier⟩ := pairwise_append.mp sorted
  refine ⟨(front.filter fun e => !e.2.down).map Prod.fst, (back.filter fun e => !e.2.down).map Prod.fst, ?_, ?_, ?_, ?_⟩
  · simp [heartbeat, liveNodes, liveStates, after]
  · cases down : n.down <;> simp [liveNodes, liveStates, before, down]
  · intro id member
    obtain ⟨e, held, rfl⟩ := mem_map.mp member
    exact earlier e (mem_filter.mp held).1 _ (mem_cons_self ..)
  · intro id member
    obtain ⟨e, held, rfl⟩ := mem_map.mp member
    exact (pairwise_cons.mp later).1 e (mem_filter.mp held).1

theorem liveNodes_sweep (now timeoutMs : UInt64) : (m.sweep now timeoutMs).1.liveNodes ⊆ m.liveNodes := by
  intro id member
  simp only [liveNodes, liveStates, sweep, OrdMap.mapValues, mem_map, mem_filter] at member ⊢
  obtain ⟨e, ⟨⟨e', there, rfl⟩, up⟩, rfl⟩ := member
  refine ⟨e', ⟨there, ?_⟩, rfl⟩
  dsimp only at up
  split at up
  · cases up
  · exact up

end Membership

namespace PdFsm

variable {fsm : PdFsm} {nodeId : UInt64} {n : NodeState} {region : Region}

/-- A place of the region's that the node would take if it were up: it is no voter, and the voters and the live nodes
before it are too few. -/
def Awaits (fsm : PdFsm) (nodeId : UInt64) (region : Region) : Prop :=
  nodeId ∉ membersOf fsm.regionMembers region.id ∧
    (membersOf fsm.regionMembers region.id).length + (fsm.members.liveNodes.filter fun id =>
      id < nodeId && !(membersOf fsm.regionMembers region.id).contains id).length < fsm.replicas
  deriving Decidable

theorem desired_heartbeat_iff (known : fsm.members.nodes.find? nodeId = some n) (address : String)
    (reported : List ReplicaSet) (now : UInt64) :
    fsm.desired (membersOf fsm.regionMembers region.id)
        (fsm.members.heartbeat nodeId address reported now).1.liveNodes =
      fsm.desired (membersOf fsm.regionMembers region.id) fsm.members.liveNodes ↔
    (n.down = true → ¬fsm.Awaits nodeId region) := by
  obtain ⟨front, back, after, before, below, above⟩ :=
    Membership.liveNodes_heartbeat known address reported now
  have sorted : (front ++ back).Nodup := by
    have nodup : fsm.members.liveNodes.Nodup :=
      pairwise_map.mpr ((fsm.members.nodes.sorted.filter _).imp ne_of_lt)
    rw [before] at nodup
    split at nodup
    · exact nodup
    · exact (nodup_middle.mp nodup).of_cons
  cases down : n.down with
  | false => simp [after, before, down]
  | true =>
    rw [down, if_pos rfl] at before
    have earlier : fsm.members.liveNodes.filter (fun id => id < nodeId && !(membersOf fsm.regionMembers region.id).contains id) =
        front.filter (· ∉ membersOf fsm.regionMembers region.id) := by
      have none : back.filter (fun id => id < nodeId && !(membersOf fsm.regionMembers region.id).contains id) = [] :=
        filter_eq_nil_iff.mpr fun id member => by simp [(above id member).not_gt]
      rw [before, filter_append, none, append_nil]
      exact filter_congr fun id member => by simp [below id member]
    have apart : nodeId ∉ front ∧ nodeId ∉ back :=
      ⟨fun member => lt_irrefl _ (below _ member), fun member => lt_irrefl _ (above _ member)⟩
    rw [after, before, desired_joined_iff apart, length_desired_lt_iff (nodup_append.mp sorted).1,
      forall_prop_of_true rfl, Awaits, earlier]

end PdFsm

/-- A heartbeat of a known node that changes its address, or brings it back where a region awaits it, also brings grown
voters or finds a region to found. -/
def PdCmd.Steady (fsm : PdFsm) : PdCmd → Prop
  | .heartbeat nodeId address reported .. => ∀ n ∈ fsm.members.nodes.find? nodeId,
      ((∃ rs ∈ reported, PdFsm.Outgrows nodeId (fsm.regions.regions.map Region.id) (PdFsm.membersOf fsm.regionMembers) rs) ∨
        ∃ r ∈ fsm.regions.regions, PdFsm.membersOf fsm.regionMembers r.id = []) ∨
      (n.address = address ∧ (n.down = true → ∀ r ∈ fsm.regions.regions, ¬fsm.Awaits nodeId r))
  | _ => True

namespace PdFsm

def Noticed (fsm : PdFsm) (cmd : PdCmd) : Prop :=
  (cmd.Steady fsm ∧ (fsm.applyCmd cmd).version = fsm.version + 1) ∨
    ((fsm.applyCmd cmd).version = fsm.version ∧ (cmd.Steady fsm ↔ (fsm.applyCmd cmd).handedOut = fsm.handedOut))

variable {fsm : PdFsm}

theorem noticed_declareTable (settled : fsm.Settled) (name : String) (regime : Regime) :
    fsm.Noticed (.declareTable name regime) := by
  rw [Noticed, applyCmd, prepare]
  rcases fsm.declareTable_cases name regime with same | ⟨regions, table, -, declared⟩
  · rw [same, settled.foundUnfoundedRegions]
    exact .inr ⟨rfl, iff_of_true trivial rfl⟩
  · rw [declared]
    refine .inl ⟨trivial, ?_⟩
    unfold foundUnfoundedRegions
    dsimp only
    split <;> rfl

theorem handedOut_heartbeat_iff {nodeId : UInt64} {n : NodeState} (known : fsm.members.nodes.find? nodeId = some n)
    (address : String) (reported : List ReplicaSet) (now : UInt64) {fsm' : PdFsm} (regions : fsm'.regions = fsm.regions)
    (catalog : fsm'.catalog = fsm.catalog) (replicas : fsm'.replicas = fsm.replicas)
    (voters : membersOf fsm'.regionMembers = membersOf fsm.regionMembers)
    (members : fsm'.members = (fsm.members.heartbeat nodeId address reported now).1) :
    fsm'.handedOut = fsm.handedOut ↔
      n.address = address ∧ (n.down = true → ∀ r ∈ fsm.regions.regions, ¬fsm.Awaits nodeId r) := by
  have wished : fsm'.assignment = fsm.assignment ↔ (n.down = true → ∀ r ∈ fsm.regions.regions, ¬fsm.Awaits nodeId r) := by
    have each (region : Region) := @desired_heartbeat_iff fsm nodeId n region known address reported now
    simp only [assignment, regimeFor, regions, catalog, voters, members, map_inj_left, ReplicaSet.mk.injEq, true_and]
    simp only [desired, replicas] at each ⊢
    simp only [each]
    tauto
  have addresses := Membership.nodeAddrs_heartbeat known address reported now
  rw [handedOut, handedOut, HandedOut.mk.injEq, wished, sortedCatalog, catalog, members, addresses]
  simp [sortedCatalog, and_comm]

theorem noticed_heartbeat (fsm : PdFsm) (nodeId : UInt64) (address : String) (reported : List ReplicaSet)
    (now : UInt64) (storeId : String) : fsm.Noticed (.heartbeat nodeId address reported now storeId) := by
  obtain ⟨stores, bound⟩ := fsm.bindStore_eq nodeId storeId
  have raised (fsm : PdFsm) : fsm.foundUnfoundedRegions.1.bumpVersion.version = fsm.version + 1 := by
    rw [foundUnfoundedRegions]
    split <;> rfl
  have live : (fsm.members.heartbeat nodeId address reported now).1.liveNodes ≠ [] := by
    have here : (nodeId, _) ∈ (fsm.members.heartbeat nodeId address reported now).1.nodes.entries :=
      OrdMap.find?_eq_some.mp ((OrdMap.find?_insert ..).trans (if_pos rfl))
    exact ne_nil_of_mem (mem_map_of_mem (mem_filter.mpr ⟨here, rfl⟩))
  have adopted := foldl_adoptReport_cases nodeId (fsm.regions.regions.map Region.id) (fsm.regionMembers, false) reported
  simp only [Noticed, applyCmd, prepare, bound, any_nodeAddrs, adoptGrownVoters]
  generalize reported.foldl (adoptReport nodeId (fsm.regions.regions.map Region.id)) (fsm.regionMembers, false) = grown
    at adopted ⊢
  cases known : fsm.members.nodes.find? nodeId with
  | none =>
    exact .inl ⟨fun n held => absurd (held.symm.trans known) (Option.some_ne_none n), raised _⟩
  | some n =>
    rcases adopted with ⟨grows, raised'⟩ | ⟨same, flag, voters⟩
    · refine .inl ⟨fun _ _ => .inl (.inl grows), ?_⟩
      rw [raised']
      exact raised _
    · have found := @foundUnfoundedRegions_cases { fsm with
        stores, regionMembers := grown.1, members := (fsm.members.heartbeat nodeId address reported now).1 } live
      simp only [voters] at found
      rcases found with ⟨unfounded, raised'⟩ | ⟨founded, silent⟩
      · refine .inl ⟨fun _ _ => .inl (.inr unfounded), ?_⟩
        rw [raised', Bool.or_true]
        exact raised _
      · rw [flag, silent]
        have outcome := @handedOut_heartbeat_iff fsm nodeId n known address reported now { fsm with
          stores, regionMembers := grown.1, members := (fsm.members.heartbeat nodeId address reported now).1 }
          rfl rfl rfl voters rfl
        refine .inr ⟨rfl, .trans ?_ outcome.symm⟩
        refine ⟨fun steady => (steady n known).resolve_left (not_or.mpr ⟨same, founded⟩), fun kept m held => ?_⟩
        obtain rfl := Option.some.inj (known.symm.trans held)
        exact .inr kept

theorem noticed_applyCmd (settled : fsm.Settled) (cmd : PdCmd) : fsm.Noticed cmd := by
  cases cmd with
  | reserveTs upper => exact .inr ⟨rfl, iff_of_true trivial rfl⟩
  | declareTable name regime => exact noticed_declareTable settled name regime
  | heartbeat => exact noticed_heartbeat ..

theorem Settled.sweep (settled : fsm.Settled) (now timeoutMs : UInt64) : (fsm.sweep now timeoutMs).Settled := by
  refine settled.imp_left fun down => subset_nil.mp ?_
  rw [← down]
  exact Membership.liveNodes_sweep now timeoutMs

end PdFsm

inductive Input where
  | apply (payload : Bytes)
  | sweep (now timeoutMs : UInt64)

namespace Input

def exec (fsm : PdFsm) : Input → PdFsm
  | apply payload => fsm.apply payload
  | sweep now timeoutMs => fsm.sweep now timeoutMs

def run (replicas : Nat) (inputs : List Input) : PdFsm := inputs.foldl exec (.fresh replicas)

end Input

structure PdFsm.Sound (fsm : PdFsm) : Prop where
  settled : fsm.Settled
  positive : 0 < fsm.replicas

theorem PdFsm.Sound.apply {fsm : PdFsm} (sound : fsm.Sound) (payload : Bytes) : (fsm.apply payload).Sound := by
  unfold PdFsm.apply
  split
  case h_1 => exact sound
  case h_2 cmd _ =>
    exact ⟨sound.settled.applyCmd sound.positive cmd, (advances_applyCmd sound.positive cmd).replicas ▸ sound.positive⟩

theorem PdFsm.Sound.exec {fsm : PdFsm} (sound : fsm.Sound) (input : Input) : (input.exec fsm).Sound := by
  cases input with
  | apply payload => exact sound.apply payload
  | sweep now timeoutMs => exact ⟨sound.settled.sweep now timeoutMs, sound.positive⟩

theorem sound_run (replicas : Nat) (inputs : List Input) : (Input.run replicas inputs).Sound := by
  have start : (PdFsm.fresh replicas).Sound := ⟨.inl rfl, Nat.le_max_right replicas 1⟩
  unfold Input.run
  generalize PdFsm.fresh replicas = fsm at start ⊢
  induction inputs generalizing fsm with
  | nil => exact start
  | cons input rest ih => exact ih _ (start.exec input)

def heard (nodeId : UInt64) (address : String) (now : UInt64) : PdCmd := .heartbeat nodeId address [] now ""

def fallingSilent : List Input :=
  [.apply (heard 1 "a" 0).encode, .apply (heard 2 "b" 0).encode, .apply (heard 1 "a" 100).encode, .sweep 100 10]

def fallenSilent : PdFsm := Input.run 3 fallingSilent

/-- A known node at a new address is handed out under the old version, and so is the wish for one that is up again. -/
theorem moved_or_back_unnoticed :
    ((fallenSilent.applyCmd (heard 1 "c" 101)).handedOut.nodeAddrs ≠ fallenSilent.handedOut.nodeAddrs ∧
      (fallenSilent.applyCmd (heard 1 "c" 101)).version = fallenSilent.version) ∧
    (fallenSilent.applyCmd (heard 2 "b" 101)).handedOut.assignment ≠ fallenSilent.handedOut.assignment ∧
      (fallenSilent.applyCmd (heard 2 "b" 101)).version = fallenSilent.version := by
  decide +kernel

/-- A command that changes what is handed out makes a higher version exactly if it is steady. -/
theorem version_rises (replicas : Nat) (inputs : List Input) (cmd : PdCmd)
    (room : (Input.run replicas inputs).version.toNat + 1 < 2 ^ 64) :
    cmd.Steady (Input.run replicas inputs) ↔
      (((Input.run replicas inputs).applyCmd cmd).handedOut ≠ (Input.run replicas inputs).handedOut →
        (Input.run replicas inputs).version < ((Input.run replicas inputs).applyCmd cmd).version) := by
  rcases PdFsm.noticed_applyCmd (sound_run replicas inputs).settled cmd with ⟨steady, next⟩ | ⟨same, exact⟩
  · refine iff_of_true steady fun _ => ?_
    rw [next, UInt64.lt_iff_toNat_lt, UInt64.toNat_add, UInt64.toNat_one, Nat.mod_eq_of_lt room]
    exact Nat.lt_succ_self _
  · rw [exact, same, imp_iff_not (lt_irrefl _), not_not]

theorem version_rises_third : fallenSilent.version < (fallenSilent.applyCmd (heard 3 "c" 101)).version :=
  (version_rises 3 fallingSilent (heard 3 "c" 101) (by decide +kernel)).mp (fun _ known => nomatch known)
    fun same => absurd (congrArg HandedOut.nodeAddrs same) (by decide +kernel)

end Arcux.Pd
