import Arcux.Pd.Founding

namespace Arcux.Pd

open Codec Data
open scoped Codec.ByteOrder Engine

namespace PdFsm

def Unfounded (fsm : PdFsm) : Prop := ∃ r ∈ fsm.regions.regions, membersOf fsm.regionMembers r.id = []
  deriving Decidable

def founding (fsm : PdFsm) : List UInt64 := fsm.members.liveNodes.take fsm.replicas

def withMembers (fsm : PdFsm) (regionMembers : OrdMap UInt64 (List UInt64)) : PdFsm := { fsm with regionMembers }

variable {fsm : PdFsm}

theorem foundUnfoundedRegions_eq (positive : 0 < fsm.replicas) : fsm.foundUnfoundedRegions =
    if fsm.founding = [] then (fsm, false)
    else
      (fsm.withMembers (fsm.regions.regions.foldl (foundRegion fsm.founding) (fsm.regionMembers, false)).1,
        (fsm.regions.regions.foldl (foundRegion fsm.founding) (fsm.regionMembers, false)).2) := by
  have up : fsm.founding = [] ↔ fsm.members.liveNodes = [] := by
    rw [founding, List.take_eq_nil_iff]
    exact or_iff_right positive.ne'
  rw [foundUnfoundedRegions]
  simp only [up]
  rfl

theorem foundUnfoundedRegions_of_founded (founded : ¬ fsm.Unfounded) : fsm.foundUnfoundedRegions = (fsm, false) := by
  have all : ∀ r ∈ fsm.regions.regions, membersOf fsm.regionMembers r.id ≠ [] :=
    fun r member empty => founded ⟨r, member, empty⟩
  unfold foundUnfoundedRegions
  dsimp only
  split
  · rfl
  · rw [foldl_foundRegion_of_founded all]

end PdFsm

def NodeState.revive (n : NodeState) : NodeState := { n with down := false }

namespace Membership

def revive (m : Membership) : Membership := { m with nodes := m.nodes.mapValues fun _ => NodeState.revive }

variable (m : Membership)

theorem revive_sweep (now timeoutMs : UInt64) : (m.sweep now timeoutMs).1.revive = m.revive := by
  have down (n : NodeState) : NodeState.revive (if NodeState.Silent now timeoutMs n then { n with down := true } else n) =
      n.revive := by
    split <;> rfl
  simp only [revive, sweep, OrdMap.mapValues_mapValues, down]

theorem nodeAddrs_revive : m.revive.nodeAddrs = m.nodeAddrs := by
  simp [revive, nodeAddrs, OrdMap.mapValues, NodeState.revive]

theorem assigned_revive (nodeId : UInt64) (reported : List ReplicaSet) :
    m.revive.assigned nodeId reported = m.assigned nodeId reported := by
  have existing : (m.revive.nodes.find? nodeId).map NodeState.regions = (m.nodes.find? nodeId).map NodeState.regions := by
    rw [revive, OrdMap.find?_mapValues, Option.map_map]
    rfl
  have assigned : assign m.revive nodeId = assign m nodeId := by
    simp only [assign, revive, OrdMap.mapValues, List.any_map]
    rfl
  rw [Membership.assigned, Membership.assigned, existing, assigned]

theorem heartbeat_revive (nodeId : UInt64) (address : String) (reported : List ReplicaSet) (now : UInt64) :
    (m.revive.heartbeat nodeId address reported now).1 = (m.heartbeat nodeId address reported now).1.revive := by
  rw [heartbeat, heartbeat, assigned_revive, revive, revive, OrdMap.mapValues_insert]
  rfl

end Membership

namespace PdFsm

def revive (fsm : PdFsm) : PdFsm := { fsm with members := fsm.members.revive }

variable (fsm : PdFsm)

theorem revive_sweep (now timeoutMs : UInt64) : (fsm.sweep now timeoutMs).revive = fsm.revive := by
  rw [revive, sweep, revive, Membership.revive_sweep]

theorem bindStore_revive (nodeId : UInt64) (storeId : String) :
    fsm.revive.bindStore nodeId storeId = (fsm.bindStore nodeId storeId).revive := by
  unfold bindStore
  split_ifs with bound bound' bound'
  · rfl
  · exact absurd bound bound'
  · exact absurd bound' bound
  · rfl

theorem declareTable_revive (name : String) (regime : Regime) :
    fsm.revive.declareTable name regime = (fsm.declareTable name regime).revive := by
  simp only [declareTable, apply_ite revive]
  rfl

theorem prepare_revive (cmd : PdCmd) : fsm.revive.prepare cmd = ((fsm.prepare cmd).1.revive, (fsm.prepare cmd).2) := by
  cases cmd with
  | reserveTs upper => rfl
  | declareTable name regime => exact Prod.ext (declareTable_revive fsm name regime) rfl
  | heartbeat nodeId address regions now storeId =>
    have adopted (fsm : PdFsm) : fsm.revive.adoptGrownVoters nodeId regions =
        ((fsm.adoptGrownVoters nodeId regions).1.revive, (fsm.adoptGrownVoters nodeId regions).2) := rfl
    simp only [prepare, bindStore_revive, adopted]
    generalize fsm.bindStore nodeId storeId = bound
    refine Prod.ext ?_ ?_
    · simp only [revive, Membership.heartbeat_revive]
    · simp only [revive, Membership.nodeAddrs_revive]

theorem foundUnfoundedRegions_revive {a b : PdFsm} (same : a.revive = b.revive) (positive : 0 < a.replicas)
    (agreed : a.Unfounded → a.founding = b.founding) :
    a.foundUnfoundedRegions.1.revive = b.foundUnfoundedRegions.1.revive ∧
      a.foundUnfoundedRegions.2 = b.foundUnfoundedRegions.2 := by
  have regions : a.regions = b.regions := by simpa [revive] using congrArg PdFsm.regions same
  have members : a.regionMembers = b.regionMembers := by simpa [revive] using congrArg PdFsm.regionMembers same
  by_cases unfounded : a.Unfounded
  · have replicas : a.replicas = b.replicas := by simpa [revive] using congrArg PdFsm.replicas same
    rw [foundUnfoundedRegions_eq positive, foundUnfoundedRegions_eq (replicas ▸ positive), agreed unfounded, regions,
      members]
    split
    · exact ⟨same, rfl⟩
    · exact ⟨congrArg (withMembers · _) same, rfl⟩
  · have founded : ¬ b.Unfounded := by
      unfold Unfounded at unfounded ⊢
      rwa [← regions, ← members]
    rw [foundUnfoundedRegions_of_founded unfounded, foundUnfoundedRegions_of_founded founded]
    exact ⟨same, rfl⟩

end PdFsm

inductive Event where
  | apply (payload : Bytes)
  | sweep (second : Bool) (now timeoutMs : UInt64)

namespace Event

def exec : Event → PdFsm × PdFsm → PdFsm × PdFsm
  | apply payload, (a, b) => (a.apply payload, b.apply payload)
  | sweep false now timeoutMs, (a, b) => (a.sweep now timeoutMs, b)
  | sweep true now timeoutMs, (a, b) => (a, b.sweep now timeoutMs)

/-- When an entry founds regions, both replicas see the same nodes up, as far as they count for the founding. -/
def Guard : Event → PdFsm × PdFsm → Prop
  | apply payload, (a, b) => ∀ cmd ∈ PdCmd.decode payload,
      (a.prepare cmd).1.Unfounded → (a.prepare cmd).1.founding = (b.prepare cmd).1.founding
  | sweep .., _ => True

instance (event : Event) (pair : PdFsm × PdFsm) : Decidable (event.Guard pair) := by
  unfold Guard
  split <;> infer_instance

def run (events : List Event) (pair : PdFsm × PdFsm) : PdFsm × PdFsm := events.foldl (fun pair event => event.exec pair) pair

def Guarded : List Event → PdFsm × PdFsm → Prop
  | [], _ => True
  | event :: rest, pair => event.Guard pair ∧ Guarded rest (event.exec pair)

instance decideGuarded : (events : List Event) → (pair : PdFsm × PdFsm) → Decidable (Guarded events pair)
  | [], _ => .isTrue trivial
  | event :: rest, pair =>
    have := decideGuarded rest (event.exec pair)
    inferInstanceAs (Decidable (_ ∧ _))

end Event

namespace PdFsm

theorem replicas_prepare (fsm : PdFsm) (cmd : PdCmd) : (fsm.prepare cmd).1.replicas = fsm.replicas := by
  cases cmd with
  | reserveTs upper => rfl
  | declareTable name regime =>
    simp only [prepare, declareTable]
    split_ifs <;> rfl
  | heartbeat nodeId address regions now storeId =>
    change (fsm.bindStore nodeId storeId).replicas = fsm.replicas
    unfold bindStore
    split <;> rfl

theorem replicas_applyCmd (fsm : PdFsm) (cmd : PdCmd) : (fsm.applyCmd cmd).replicas = fsm.replicas := by
  have founded (fsm : PdFsm) : fsm.foundUnfoundedRegions.1.replicas = fsm.replicas := by
    rw [foundUnfoundedRegions]
    split <;> rfl
  have prepared := replicas_prepare fsm cmd
  cases cmd with
  | reserveTs upper => exact prepared
  | declareTable name regime => exact (founded _).trans prepared
  | heartbeat nodeId address regions now storeId =>
    rw [applyCmd]
    generalize fsm.prepare (.heartbeat nodeId address regions now storeId) = done at prepared ⊢
    split <;> exact (founded _).trans prepared

end PdFsm

structure Agree (pair : PdFsm × PdFsm) : Prop where
  same : pair.1.revive = pair.2.revive
  positive : 0 < pair.1.replicas

variable {a b : PdFsm}

theorem Agree.applyCmd (agree : Agree (a, b)) {cmd : PdCmd}
    (guarded : (a.prepare cmd).1.Unfounded → (a.prepare cmd).1.founding = (b.prepare cmd).1.founding) :
    Agree (a.applyCmd cmd, b.applyCmd cmd) := by
  refine ⟨?_, PdFsm.replicas_applyCmd a cmd ▸ agree.positive⟩
  have prepared : ((a.prepare cmd).1.revive, (a.prepare cmd).2) = ((b.prepare cmd).1.revive, (b.prepare cmd).2) := by
    rw [← PdFsm.prepare_revive, ← PdFsm.prepare_revive]
    exact congrArg (PdFsm.prepare · cmd) agree.same
  obtain ⟨same, flags⟩ := Prod.mk.inj prepared
  have positive : 0 < (a.prepare cmd).1.replicas := PdFsm.replicas_prepare a cmd ▸ agree.positive
  obtain ⟨founded, found⟩ := PdFsm.foundUnfoundedRegions_revive same positive guarded
  cases cmd with
  | reserveTs upper => exact same
  | declareTable name regime => exact founded
  | heartbeat nodeId address regions now storeId =>
    simp only [PdFsm.applyCmd, flags, found]
    split
    · exact congrArg PdFsm.bumpVersion founded
    · exact founded

variable {pair : PdFsm × PdFsm}

theorem Agree.exec (agree : Agree pair) {event : Event} (guarded : event.Guard pair) : Agree (event.exec pair) := by
  obtain ⟨a, b⟩ := pair
  cases event with
  | sweep second now timeoutMs =>
    cases second with
    | false => exact ⟨(a.revive_sweep now timeoutMs).trans agree.same, agree.positive⟩
    | true => exact ⟨agree.same.trans (b.revive_sweep now timeoutMs).symm, agree.positive⟩
  | apply payload =>
    change Agree (a.apply payload, b.apply payload)
    unfold PdFsm.apply
    cases decoded : PdCmd.decode payload with
    | none => exact agree
    | some cmd => exact agree.applyCmd (guarded cmd decoded)

theorem Agree.run {events : List Event} (agree : Agree pair)
    (guarded : Event.Guarded events pair) : Agree (Event.run events pair) := by
  induction events generalizing pair with
  | nil => exact agree
  | cons event rest ih => exact ih (agree.exec guarded.1) guarded.2

structure SameState (a b : PdFsm) : Prop where
  catalog : a.catalog = b.catalog
  regions : a.regions = b.regions
  nextTableId : a.nextTableId = b.nextTableId
  regionMembers : a.regionMembers = b.regionMembers
  stores : a.stores = b.stores
  version : a.version = b.version

theorem Agree.sameState (agree : Agree (a, b)) : SameState a b := by
  have revived : a.revive = b.revive := agree.same
  have same : SameState a.revive b.revive := revived ▸ ⟨rfl, rfl, rfl, rfl, rfl, rfl⟩
  exact ⟨same.catalog, same.regions, same.nextTableId, same.regionMembers, same.stores, same.version⟩

def seen (nodeId now : UInt64) : Event := .apply (PdCmd.heartbeat nodeId "" [] now "").encode

def declaredTable : Event := .apply (PdCmd.declareTable "t" .cp).encode

def sweptBefore : List Event := [seen 1 0, seen 2 95, .sweep false 100 10, declaredTable]

def heardAgain : List Event := [seen 1 0, seen 2 95, .sweep false 100 10, seen 1 101, declaredTable]

theorem swept_replica_differs : ¬ SameState (Event.run sweptBefore (.fresh 3, .fresh 3)).1
    (Event.run sweptBefore (.fresh 3, .fresh 3)).2 := by
  intro same
  have members := congrArg (·.find? 2) same.regionMembers
  revert members
  decide

/-- Replicas that have applied the same entries are in the same state, if they founded regions on the same nodes. -/
theorem replicas_agree (replicas : Nat) (events : List Event)
    (guarded : Event.Guarded events (.fresh replicas, .fresh replicas)) :
    SameState (Event.run events (.fresh replicas, .fresh replicas)).1
      (Event.run events (.fresh replicas, .fresh replicas)).2 := by
  have start : Agree (PdFsm.fresh replicas, PdFsm.fresh replicas) := ⟨rfl, Nat.le_max_right ..⟩
  exact (start.run guarded).sameState

theorem replicas_agree_heardAgain : SameState (Event.run heardAgain (.fresh 3, .fresh 3)).1
    (Event.run heardAgain (.fresh 3, .fresh 3)).2 :=
  replicas_agree 3 heardAgain (by decide)

end Arcux.Pd
