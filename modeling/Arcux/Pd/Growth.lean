import Arcux.Pd.HandedOut

namespace Arcux.Pd

open Data List
open scoped Codec.ByteOrder Engine

namespace PdFsm

def Keeps (before after : OrdMap UInt64 (List UInt64)) : Prop :=
  ∀ region, membersOf before region ⊆ membersOf after region

variable {members : OrdMap UInt64 (List UInt64)} {region : UInt64} {acc : OrdMap UInt64 (List UInt64) × Bool}
  {rs : ReplicaSet}

theorem Keeps.refl (members : OrdMap UInt64 (List UInt64)) : Keeps members members := fun _ => Subset.refl _

theorem Keeps.trans {a b c : OrdMap UInt64 (List UInt64)} (first : Keeps a b) (second : Keeps b c) : Keeps a c :=
  fun region => Subset.trans (first region) (second region)

theorem Keeps.insert {voters : List UInt64} (grown : membersOf members region ⊆ voters) :
    Keeps members (members.insert region voters) := by
  intro other
  rw [membersOf_insert]
  split
  case isTrue here => rwa [here]
  case isFalse => exact Subset.refl _

theorem Keeps.foldl {β : Type} {f : OrdMap UInt64 (List UInt64) × Bool → β → OrdMap UInt64 (List UInt64) × Bool}
    (step : ∀ acc b, Keeps acc.1 (f acc b).1) (l : List β) (acc : OrdMap UInt64 (List UInt64) × Bool) :
    Keeps acc.1 (l.foldl f acc).1 := by
  induction l generalizing acc with
  | nil => exact .refl _
  | cons b rest ih => exact (step acc b).trans (ih (f acc b))

theorem keeps_foundRegion (founding : List UInt64) (acc : OrdMap UInt64 (List UInt64) × Bool) (r : Region) :
    Keeps acc.1 (foundRegion founding acc r).1 := by
  unfold foundRegion
  split
  case isTrue unfounded =>
    refine .insert ?_
    rw [unfounded]
    exact nil_subset _
  case isFalse => exact .refl _

theorem keeps_foundUnfoundedRegions (fsm : PdFsm) :
    Keeps fsm.regionMembers fsm.foundUnfoundedRegions.1.regionMembers := by
  unfold foundUnfoundedRegions
  dsimp only
  split
  · exact .refl _
  · exact Keeps.foldl (keeps_foundRegion _) fsm.regions.regions (fsm.regionMembers, false)

theorem keeps_adoptReport (nodeId : UInt64) (known : List UInt64) (acc : OrdMap UInt64 (List UInt64) × Bool)
    (rs : ReplicaSet) : Keeps acc.1 (adoptReport nodeId known acc rs).1 := by
  unfold adoptReport
  dsimp only
  split_ifs with ignored grown
  · exact .refl _
  · exact .insert fun v member => mem_mergeSort.mpr (grown.2 member)
  · exact .insert (Subset.refl _)

def Omits (members : OrdMap UInt64 (List UInt64)) (rs : ReplicaSet) : Prop :=
  ∃ v ∈ membersOf members rs.region.id, v ∉ rs.voters

theorem Omits.later {later : OrdMap UInt64 (List UInt64)} (omits : Omits members rs) (keeps : Keeps members later) :
    Omits later rs :=
  have ⟨v, member, omitted⟩ := omits
  ⟨v, keeps _ member, omitted⟩

theorem Omits.adoptReport (omits : Omits acc.1 rs) (nodeId : UInt64) (known : List UInt64) :
    adoptReport nodeId known acc rs = acc := by
  obtain ⟨v, member, omitted⟩ := omits
  have held : acc.1.find? rs.region.id = some (membersOf acc.1 rs.region.id) := by
    unfold membersOf at member ⊢
    cases found : acc.1.find? rs.region.id with
    | none => simp [found] at member
    | some voters => rfl
  have refused : ¬ ((membersOf acc.1 rs.region.id).length < rs.voters.length ∧
      membersOf acc.1 rs.region.id ⊆ rs.voters) := fun grown => omitted (grown.2 member)
  unfold PdFsm.adoptReport
  dsimp only
  rw [if_neg refused, OrdMap.insert_same held]
  exact ite_self _

theorem Omits.adoptGrownVoters {fsm : PdFsm} (omits : Omits fsm.regionMembers rs) (nodeId : UInt64)
    (front back : List ReplicaSet) :
    fsm.adoptGrownVoters nodeId (front ++ rs :: back) = fsm.adoptGrownVoters nodeId (front ++ back) := by
  unfold PdFsm.adoptGrownVoters
  dsimp only
  rw [foldl_append, foldl_append, foldl_cons]
  have still := omits.later (Keeps.foldl (keeps_adoptReport nodeId (fsm.regions.regions.map Region.id)) front
    (fsm.regionMembers, false))
  rw [still.adoptReport]

end PdFsm

namespace Membership

theorem liveNodes_eq (m : Membership) :
    m.liveNodes = ((m.nodes.mapValues fun _ n => n.down).entries.filter fun e => !e.2).map Prod.fst := by
  rw [liveNodes, liveStates, OrdMap.mapValues, filter_map, map_map]
  rfl

theorem liveNodes_heartbeat_report (m : Membership) (nodeId : UInt64) (address : String) (one other : List ReplicaSet)
    (now : UInt64) :
    (m.heartbeat nodeId address one now).1.liveNodes = (m.heartbeat nodeId address other now).1.liveNodes := by
  rw [liveNodes_eq, liveNodes_eq, heartbeat, heartbeat, OrdMap.mapValues_insert, OrdMap.mapValues_insert]

end Membership

namespace PdFsm

variable {fsm : PdFsm} {rs : ReplicaSet}

def conclude (fsm : PdFsm) (changed : Bool) (members : Membership) : PdFsm :=
  let founded := ({ fsm with members } : PdFsm).foundUnfoundedRegions
  if changed || founded.2 then founded.1.bumpVersion else founded.1

theorem conclude_members (fsm : PdFsm) (changed : Bool) {one other : Membership}
    (live : one.liveNodes = other.liveNodes) :
    fsm.conclude changed other = { fsm.conclude changed one with members := other } := by
  have founded : ({ fsm with members := other } : PdFsm).foundUnfoundedRegions =
      ({ ({ fsm with members := one } : PdFsm).foundUnfoundedRegions.1 with members := other },
        ({ fsm with members := one } : PdFsm).foundUnfoundedRegions.2) := by
    unfold foundUnfoundedRegions
    dsimp only
    rw [live]
    split <;> rfl
  unfold conclude
  dsimp only
  rw [founded]
  split <;> rfl

theorem members_conclude (fsm : PdFsm) (changed : Bool) (members : Membership) :
    (fsm.conclude changed members).members = members := by
  have founded := members_foundUnfoundedRegions { fsm with members }
  unfold conclude
  dsimp only
  split <;> exact founded

theorem Omits.heartbeat (omits : Omits fsm.regionMembers rs) (nodeId : UInt64) (address : String)
    (front back : List ReplicaSet) (now : UInt64) (storeId : String) :
    (fsm.applyCmd (.heartbeat nodeId address (front ++ rs :: back) now storeId)).assignment =
        (fsm.applyCmd (.heartbeat nodeId address (front ++ back) now storeId)).assignment ∧
      (fsm.applyCmd (.heartbeat nodeId address (front ++ rs :: back) now storeId)).version =
        (fsm.applyCmd (.heartbeat nodeId address (front ++ back) now storeId)).version := by
  have held : Omits (fsm.bindStore nodeId storeId).regionMembers rs := by
    rwa [(bindStore_regions fsm nodeId storeId).2]
  have concluded (reported : List ReplicaSet) : fsm.applyCmd (.heartbeat nodeId address reported now storeId) =
      ((fsm.bindStore nodeId storeId).adoptGrownVoters nodeId reported).1.conclude
        ((!(fsm.bindStore nodeId storeId).members.nodeAddrs.any fun e => e.1 = nodeId) ||
          ((fsm.bindStore nodeId storeId).adoptGrownVoters nodeId reported).2)
        ((fsm.bindStore nodeId storeId).members.heartbeat nodeId address reported now).1 := rfl
  have live := (fsm.bindStore nodeId storeId).members.liveNodes_heartbeat_report nodeId address (front ++ back)
    (front ++ rs :: back) now
  rw [concluded, concluded, held.adoptGrownVoters nodeId front back, conclude_members _ _ live]
  refine ⟨assignment_congr rfl rfl rfl ?_ fun _ => rfl, rfl⟩
  rw [members_conclude]
  exact live.symm

structure Retains (a b : PdFsm) : Prop where
  members : Keeps a.regionMembers b.regionMembers
  stores : ∀ node store, a.stores.find? node = some store → b.stores.find? node = some store

theorem Retains.refl (fsm : PdFsm) : Retains fsm fsm := ⟨.refl _, fun _ _ bound => bound⟩

theorem Retains.trans {a b c : PdFsm} (first : Retains a b) (second : Retains b c) : Retains a c where
  members := first.members.trans second.members
  stores node store bound := second.stores node store (first.stores node store bound)

theorem retains_bindStore (fsm : PdFsm) (nodeId : UInt64) (storeId : String) :
    Retains fsm (fsm.bindStore nodeId storeId) := by
  unfold bindStore
  split
  case isTrue => exact .refl fsm
  case isFalse free =>
    refine ⟨.refl _, fun node store bound => ?_⟩
    have other : node ≠ nodeId := by
      rintro rfl
      exact free (.inr (Option.isSome_of_eq_some bound))
    change (fsm.stores.insert nodeId storeId).find? node = some store
    rwa [OrdMap.find?_insert, if_neg other]

theorem retains_foundUnfoundedRegions (fsm : PdFsm) : Retains fsm fsm.foundUnfoundedRegions.1 := by
  refine ⟨keeps_foundUnfoundedRegions fsm, fun node store bound => ?_⟩
  unfold foundUnfoundedRegions
  dsimp only
  split <;> exact bound

theorem retains_declareTable (fsm : PdFsm) (name : String) (regime : Regime) :
    Retains fsm (fsm.declareTable name regime) := by
  rcases fsm.declareTable_cases name regime with same | ⟨regions, table, -, declared⟩
  · rw [same]
    exact .refl fsm
  · rw [declared]
    exact ⟨.refl _, fun _ _ bound => bound⟩

theorem retains_prepare (fsm : PdFsm) (cmd : PdCmd) : Retains fsm (fsm.prepare cmd).1 := by
  cases cmd with
  | reserveTs upper => exact ⟨.refl _, fun _ _ bound => bound⟩
  | declareTable name regime => exact retains_declareTable fsm name regime
  | heartbeat nodeId address regions now storeId =>
    refine (retains_bindStore fsm nodeId storeId).trans ⟨?_, fun _ _ bound => bound⟩
    exact Keeps.foldl (keeps_adoptReport nodeId _) regions ((fsm.bindStore nodeId storeId).regionMembers, false)

theorem retains_applyCmd (fsm : PdFsm) (cmd : PdCmd) : Retains fsm (fsm.applyCmd cmd) := by
  have prepared := retains_prepare fsm cmd
  have founded := prepared.trans (retains_foundUnfoundedRegions _)
  cases cmd with
  | reserveTs upper => exact prepared
  | declareTable name regime => exact founded
  | heartbeat nodeId address regions now storeId =>
    simp only [applyCmd]
    split
    · exact ⟨founded.members, founded.stores⟩
    · exact founded

theorem retains_exec (fsm : PdFsm) (input : Input) : Retains fsm (input.exec fsm) := by
  cases input with
  | apply payload =>
    simp only [Input.exec, apply]
    split
    · exact .refl fsm
    · exact retains_applyCmd fsm _
  | sweep now timeoutMs => exact ⟨.refl _, fun _ _ bound => bound⟩

theorem retains_run (fsm : PdFsm) (inputs : List Input) : Retains fsm (inputs.foldl Input.exec fsm) := by
  induction inputs generalizing fsm with
  | nil => exact .refl fsm
  | cons input rest ih => exact (retains_exec fsm input).trans (ih _)

/-- Regions never lose a member and nodes never change their store; a report that omits a member changes neither the
assignment nor its version, and all members are wished for. -/
theorem members_only_grow (fsm : PdFsm) (inputs : List Input) :
    let later := inputs.foldl Input.exec fsm
    (∀ region, membersOf fsm.regionMembers region ≠ [] →
      membersOf later.regionMembers region ≠ [] ∧
        membersOf fsm.regionMembers region ⊆ membersOf later.regionMembers region) ∧
    (∀ nodeId address front rs back now storeId, Omits later.regionMembers rs →
      (later.applyCmd (.heartbeat nodeId address (front ++ rs :: back) now storeId)).assignment =
          (later.applyCmd (.heartbeat nodeId address (front ++ back) now storeId)).assignment ∧
        (later.applyCmd (.heartbeat nodeId address (front ++ rs :: back) now storeId)).version =
          (later.applyCmd (.heartbeat nodeId address (front ++ back) now storeId)).version) ∧
    (∀ rs ∈ later.assignment, rs.voters ⊆ rs.desired) ∧
    ∀ node store, fsm.stores.find? node = some store → later.stores.find? node = some store := by
  intro later
  have retained := retains_run fsm inputs
  refine ⟨fun region founded => ?_, fun _ _ _ _ _ _ _ omits => omits.heartbeat .., fun rs member => ?_, retained.stores⟩
  · obtain ⟨v, member⟩ := exists_mem_of_ne_nil _ founded
    exact ⟨ne_nil_of_mem (retained.members region member), retained.members region⟩
  · obtain ⟨region, -, rfl⟩ := mem_map.mp member
    exact subset_desired

end PdFsm

end Arcux.Pd
