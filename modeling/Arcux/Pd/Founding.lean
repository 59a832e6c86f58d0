import Arcux.Pd.Fsm

namespace Arcux.Pd

open Data List
open scoped Codec.ByteOrder Engine

namespace PdFsm

variable {region : UInt64} {known : UInt64 → Prop} {fsm : PdFsm}

theorem membersOf_insert (members : OrdMap UInt64 (List UInt64)) (id region : UInt64) (voters : List UInt64) :
    membersOf (members.insert id voters) region = if region = id then voters else membersOf members region := by
  rw [membersOf, OrdMap.find?_insert]
  split <;> rfl

variable {acc : OrdMap UInt64 (List UInt64) × Bool}

theorem foldl_foundRegion_of_founded {founding : List UInt64} {regions : List Region}
    (founded : ∀ r ∈ regions, membersOf acc.1 r.id ≠ []) : regions.foldl (foundRegion founding) acc = acc := by
  induction regions with
  | nil => rfl
  | cons r rest ih =>
    obtain ⟨here, later⟩ := forall_mem_cons.mp founded
    rw [foldl_cons, foundRegion, if_neg here]
    exact ih later

theorem membersOf_foundUnfoundedRegions (founded : membersOf fsm.regionMembers region ≠ []) :
    membersOf fsm.foundUnfoundedRegions.1.regionMembers region = membersOf fsm.regionMembers region := by
  have kept (founding : List UInt64) (acc : OrdMap UInt64 (List UInt64) × Bool) (r : Region)
      (founded : membersOf acc.1 region ≠ []) :
      membersOf (foundRegion founding acc r).1 region = membersOf acc.1 region := by
    unfold foundRegion
    split
    · rename_i unfounded
      have other : region ≠ r.id := fun here => founded (here ▸ unfounded)
      rw [membersOf_insert, if_neg other]
    · rfl
  unfold foundUnfoundedRegions
  simp only
  split
  · rfl
  · refine foldlRecOn (motive := fun (acc : OrdMap UInt64 (List UInt64) × Bool) =>
      membersOf acc.1 region = membersOf fsm.regionMembers region) _ _ rfl ?_
    exact fun acc same r _ => (kept _ acc r (same ▸ founded)).trans same

structure Registered (region : UInt64) (known : UInt64 → Prop) (members : OrdMap UInt64 (List UInt64)) : Prop where
  founded : membersOf members region ≠ []
  known : ∀ v ∈ membersOf members region, known v

def Vouched (region : UInt64) (known : UInt64 → Prop) (reported : List ReplicaSet) : Prop :=
  ∀ rs ∈ reported, rs.region.id = region → ∀ v ∈ rs.voters, known v

variable {id : UInt64}

theorem Registered.insert {members : OrdMap UInt64 (List UInt64)} (registered : Registered region known members)
    {voters : List UInt64} (fits : id = region → voters ≠ [] ∧ ∀ v ∈ voters, known v) :
    Registered region known (members.insert id voters) := by
  by_cases here : id = region
  · obtain ⟨nonempty, all⟩ := fits here
    constructor
    · rwa [membersOf_insert, if_pos here.symm]
    · rwa [membersOf_insert, if_pos here.symm]
  · constructor
    · rw [membersOf_insert, if_neg (Ne.symm here)]
      exact registered.founded
    · rw [membersOf_insert, if_neg (Ne.symm here)]
      exact registered.known

variable {ids : List UInt64}

theorem mergeSort_ne_nil (member : id ∈ ids) : ids.mergeSort (· ≤ ·) ≠ [] :=
  ne_nil_of_mem (mem_mergeSort.mpr member)

theorem Registered.foundUnfoundedRegions (registered : Registered region known fsm.regionMembers) :
    Registered region known fsm.foundUnfoundedRegions.1.regionMembers := by
  have same := membersOf_foundUnfoundedRegions registered.founded
  exact ⟨same ▸ registered.founded, same ▸ registered.known⟩

variable {nodeId : UInt64} {rs : ReplicaSet}

theorem Registered.adoptReport (registered : Registered region known acc.1)
    (vouched : rs.region.id = region → ∀ v ∈ rs.voters, known v) :
    Registered region known (adoptReport nodeId ids acc rs).1 := by
  unfold PdFsm.adoptReport
  simp only
  split_ifs with ignored grown
  · exact registered
  · refine registered.insert fun here => ⟨?_, fun v member => vouched here v (mem_mergeSort.mp member)⟩
    rw [not_or, not_not] at ignored
    exact mergeSort_ne_nil ignored.1
  · refine registered.insert fun here => ?_
    rw [here]
    exact ⟨registered.founded, registered.known⟩

theorem Registered.adoptGrownVoters {reported : List ReplicaSet}
    (registered : Registered region known fsm.regionMembers) (vouched : Vouched region known reported) :
    Registered region known (fsm.adoptGrownVoters nodeId reported).1.regionMembers := by
  refine foldlRecOn (motive := fun (acc : OrdMap UInt64 (List UInt64) × Bool) => Registered region known acc.1)
    _ _ registered ?_
  exact fun _ each rs member => each.adoptReport (vouched rs member)

theorem declareTable_regionMembers (fsm : PdFsm) (name : String) (regime : Regime) :
    (fsm.declareTable name regime).regionMembers = fsm.regionMembers := by
  simp only [declareTable]
  split_ifs <;> rfl

theorem bindStore_regions (fsm : PdFsm) (nodeId : UInt64) (storeId : String) :
    (fsm.bindStore nodeId storeId).regions = fsm.regions ∧
      (fsm.bindStore nodeId storeId).regionMembers = fsm.regionMembers := by
  unfold bindStore
  split <;> exact ⟨rfl, rfl⟩

theorem heartbeat_regionMembers (fsm : PdFsm) (nodeId : UInt64) (address : String) (regions : List ReplicaSet)
    (now : UInt64) (storeId : String) :
    (fsm.applyCmd (.heartbeat nodeId address regions now storeId)).regionMembers =
      (fsm.prepare (.heartbeat nodeId address regions now storeId)).1.foundUnfoundedRegions.1.regionMembers := by
  simp only [applyCmd]
  split <;> rfl

theorem heartbeat_grows {nodeId now : UInt64} {address storeId : String} (own : nodeId ∈ rs.voters)
    (placed : rs.region.id ∈ fsm.regions.regions.map Region.id)
    (longer : (membersOf fsm.regionMembers rs.region.id).length < rs.voters.length)
    (grown : membersOf fsm.regionMembers rs.region.id ⊆ rs.voters) :
    membersOf (fsm.applyCmd (.heartbeat nodeId address [rs] now storeId)).regionMembers rs.region.id =
      rs.voters.mergeSort (· ≤ ·) := by
  obtain ⟨regions, members⟩ := bindStore_regions fsm nodeId storeId
  have adopted : membersOf ((fsm.bindStore nodeId storeId).adoptGrownVoters nodeId [rs]).1.regionMembers rs.region.id =
      rs.voters.mergeSort (· ≤ ·) := by
    have heard : ¬ (nodeId ∉ rs.voters ∨ rs.region.id ∉ fsm.regions.regions.map Region.id) := by
      rw [not_or, not_not, not_not]
      exact ⟨own, placed⟩
    simp only [adoptGrownVoters, foldl_cons, foldl_nil, adoptReport, regions, members, if_neg heard,
      if_pos (And.intro longer grown), membersOf_insert, if_true]
  have founded := mergeSort_ne_nil own
  rw [heartbeat_regionMembers, membersOf_foundUnfoundedRegions]
  · exact adopted
  · exact adopted ▸ founded

end PdFsm

def PdCmd.Vouched (region : UInt64) (known : UInt64 → Prop) : PdCmd → Prop
  | heartbeat _ _ regions _ _ => PdFsm.Vouched region known regions
  | _ => True

theorem PdFsm.Registered.applyCmd {region : UInt64} {known : UInt64 → Prop} {fsm : PdFsm}
    (registered : Registered region known fsm.regionMembers) {cmd : PdCmd} (vouched : cmd.Vouched region known) :
    Registered region known (fsm.applyCmd cmd).regionMembers := by
  cases cmd with
  | reserveTs upper => exact registered
  | declareTable name regime =>
    refine Registered.foundUnfoundedRegions ?_
    rw [← declareTable_regionMembers fsm name regime] at registered
    exact registered
  | heartbeat nodeId address regions now storeId =>
    rw [heartbeat_regionMembers]
    refine Registered.foundUnfoundedRegions ?_
    rw [← (bindStore_regions fsm nodeId storeId).2] at registered
    exact Registered.adoptGrownVoters registered vouched

end Arcux.Pd
