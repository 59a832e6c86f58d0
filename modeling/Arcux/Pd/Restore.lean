import Mathlib.Algebra.Order.BigOperators.Group.List
import Arcux.Pd.Image

namespace Arcux.Pd

open Codec Data List Reader
open scoped Codec.ByteOrder Engine

theorem yields_getReplicaSet : Yields getReplicaSet fun rs => rs.desired = [] :=
  (Yields.anything _).bind fun _ _ => (Yields.anything _).bind fun _ _ => (Yields.anything _).bind fun _ _ =>
    Yields.pure rfl

def PdCmd.Reported : PdCmd → Prop
  | heartbeat _ _ regions _ _ => ∀ rs ∈ regions, rs.desired = []
  | _ => True

variable {cmd : PdCmd}

theorem PdCmd.reported_decode {payload : Bytes} (decoded : PdCmd.decode payload = some cmd) : cmd.Reported := by
  have reported : Yields PdCmd.read PdCmd.Reported := by
    refine (Yields.anything _).bind fun tag _ => ?_
    split
    · exact (Yields.anything _).bind fun _ _ => Yields.pure trivial
    · split
      · exact (Yields.anything _).bind fun _ _ => (Yields.anything _).bind fun _ _ => Yields.pure trivial
      · split
        · refine (Yields.anything _).bind fun _ _ => (Yields.anything _).bind fun _ _ =>
            (Yields.anything _).bind fun _ _ => yields_getReplicaSet.list.bind fun _ reported =>
              (Yields.anything _).bind fun _ _ => Yields.pure reported
        · rintro bytes a rest ⟨⟩
  obtain ⟨⟨cmd', rest⟩, ran, rfl⟩ := Option.map_eq_some_iff.mp decoded
  exact reported payload cmd' rest ran

namespace PdFsm

def Reported (fsm : PdFsm) : Prop := ∀ e ∈ fsm.members.nodes.entries, ∀ rs ∈ e.2.regions, rs.desired = []

def votes (members : OrdMap UInt64 (List UInt64)) : Nat := (members.entries.map fun e => e.2.length).sum

theorem votes_insert (members : OrdMap UInt64 (List UInt64)) (region : UInt64) (voters : List UInt64) :
    votes (members.insert region voters) + (membersOf members region).length = votes members + voters.length := by
  have sum := members.sum_insert length region voters
  rwa [show ((members.find? region).map length).getD 0 = (membersOf members region).length by
    rw [membersOf]; cases members.find? region <;> rfl] at sum

def Grows (before after : OrdMap UInt64 (List UInt64) × Bool) : Prop :=
  votes before.1 ≤ votes after.1 ∧ (after.2 = true → before.2 = true ∨ votes before.1 < votes after.1)

theorem grows_foldl {α : Type} {f : OrdMap UInt64 (List UInt64) × Bool → α → OrdMap UInt64 (List UInt64) × Bool}
    (step : ∀ acc a, Grows acc (f acc a)) (items : List α) (acc : OrdMap UInt64 (List UInt64) × Bool) :
    Grows acc (items.foldl f acc) := by
  induction items generalizing acc with
  | nil => exact ⟨Nat.le_refl _, .inl⟩
  | cons a rest ih =>
    obtain ⟨more, raised⟩ := step acc a
    obtain ⟨more', raised'⟩ := ih (f acc a)
    refine ⟨more.trans more', fun flag => ?_⟩
    rcases raised' flag with before | grown
    · exact (raised before).imp_right fun grown => grown.trans_le more'
    · exact .inr (more.trans_lt grown)

theorem grows_foundRegion {founding : List UInt64} (some : founding ≠ []) (acc : OrdMap UInt64 (List UInt64) × Bool)
    (region : Region) : Grows acc (foundRegion founding acc region) := by
  unfold foundRegion
  split
  case isTrue empty =>
    have sum := votes_insert acc.1 region.id founding
    rw [empty, length_nil, Nat.add_zero] at sum
    have grown : votes acc.1 < votes (acc.1.insert region.id founding) := by
      rw [sum]
      exact Nat.lt_add_of_pos_right (length_pos_iff.mpr some)
    exact ⟨grown.le, fun _ => .inr grown⟩
  case isFalse => exact ⟨Nat.le_refl _, .inl⟩

theorem grows_adoptReport (nodeId : UInt64) (known : List UInt64) (acc : OrdMap UInt64 (List UInt64) × Bool)
    (rs : ReplicaSet) : Grows acc (adoptReport nodeId known acc rs) := by
  unfold adoptReport
  split
  case isTrue => exact ⟨Nat.le_refl _, .inl⟩
  case isFalse =>
    dsimp only
    split
    case isTrue more =>
      have sum := votes_insert acc.1 rs.region.id (rs.voters.mergeSort (· ≤ ·))
      rw [length_mergeSort] at sum
      have grown : votes acc.1 < votes (acc.1.insert rs.region.id (rs.voters.mergeSort (· ≤ ·))) := by
        have := more.1
        omega
      exact ⟨grown.le, fun _ => .inr grown⟩
    case isFalse =>
      have sum := votes_insert acc.1 rs.region.id (membersOf acc.1 rs.region.id)
      exact ⟨(Nat.add_right_cancel sum).ge, .inl⟩

def weight (fsm : PdFsm) : Nat := fsm.members.nodes.entries.length + fsm.catalog.length + votes fsm.regionMembers

variable {fsm : PdFsm}

theorem founding_ne_nil (positive : 0 < fsm.replicas) (up : fsm.members.liveNodes ≠ []) :
    fsm.members.liveNodes.take fsm.replicas ≠ [] := by
  rw [ne_eq, take_eq_nil_iff]
  exact not_or.mpr ⟨positive.ne', up⟩

theorem foundUnfoundedRegions_grows (fsm : PdFsm) (positive : 0 < fsm.replicas) : ∃ founded : _ × Bool,
    fsm.foundUnfoundedRegions = ({ fsm with regionMembers := founded.1 }, founded.2) ∧
      Grows (fsm.regionMembers, false) founded := by
  unfold foundUnfoundedRegions
  dsimp only
  split
  case isTrue => exact ⟨(fsm.regionMembers, false), rfl, Nat.le_refl _, .inl⟩
  case isFalse up =>
    exact ⟨_, rfl, grows_foldl (grows_foundRegion (founding_ne_nil positive up)) _ _⟩

theorem adoptGrownVoters_grows (fsm : PdFsm) (nodeId : UInt64) (reported : List ReplicaSet) : ∃ adopted : _ × Bool,
    fsm.adoptGrownVoters nodeId reported = ({ fsm with regionMembers := adopted.1 }, adopted.2) ∧
      Grows (fsm.regionMembers, false) adopted :=
  ⟨_, rfl, grows_foldl (grows_adoptReport nodeId _) _ _⟩

theorem bindStore_eq (fsm : PdFsm) (nodeId : UInt64) (storeId : String) :
    ∃ stores, fsm.bindStore nodeId storeId = { fsm with stores } := by
  unfold bindStore
  split
  · exact ⟨fsm.stores, rfl⟩
  · exact ⟨_, rfl⟩

theorem room_of_ne_last {id : TableId} (room : id ≠ .ofNat (2 ^ 32 - 1)) : id.toNat + 1 < 2 ^ 32 := by
  have := id.toNat_lt
  have last : id.toNat ≠ 2 ^ 32 - 1 := fun last => room (UInt32.toNat_inj.mp (by simpa using last))
  omega

theorem declareTable_cases (fsm : PdFsm) (name : String) (regime : Regime) :
    fsm.declareTable name regime = fsm ∨
      ∃ regions table, fsm.nextTableId.toNat + 1 < 2 ^ 32 ∧ fsm.declareTable name regime =
        { fsm with
          nextTableId := fsm.nextTableId + 1
          catalog := fsm.catalog ++ [table]
          regions
          version := fsm.version + 1 } := by
  unfold declareTable
  split
  · exact .inl rfl
  · split
    · exact .inl rfl
    · dsimp only
      split
      · exact .inl rfl
      · rename_i room
        exact .inr ⟨_, _, room_of_ne_last room, rfl⟩

theorem any_nodeAddrs (m : Membership) (nodeId : UInt64) :
    (m.nodeAddrs.any fun e => e.1 = nodeId) = (m.nodes.find? nodeId).isSome := by
  rw [Bool.eq_iff_iff, Option.isSome_iff_exists]
  simp only [Membership.nodeAddrs, OrdMap.find?_eq_some, any_map, any_eq_true, Function.comp_apply,
    decide_eq_true_eq, Prod.exists]
  constructor
  · rintro ⟨id, n, member, rfl⟩
    exact ⟨n, member⟩
  · rintro ⟨n, member⟩
    exact ⟨nodeId, n, member, rfl⟩

theorem length_heartbeat (m : Membership) (nodeId : UInt64) (address : String) (reported : List ReplicaSet)
    (now : UInt64) : (m.heartbeat nodeId address reported now).1.nodes.entries.length =
      m.nodes.entries.length + if m.nodeAddrs.any (fun e => e.1 = nodeId) then 0 else 1 := by
  have sum := m.nodes.sum_insert (fun _ => 1) nodeId ⟨address, now, false, m.assigned nodeId reported⟩
  simp only [map_const', sum_replicate_nat, Nat.mul_one] at sum
  rw [any_nodeAddrs]
  change (m.nodes.insert ..).entries.length = _
  cases found : m.nodes.find? nodeId with
  | none => simpa [found] using sum
  | some n => simpa [found] using sum

structure Advances (a b : PdFsm) : Prop where
  replicas : b.replicas = a.replicas
  seed : b.members.seed = a.members.seed
  tsoUpper : a.tsoUpper ≤ b.tsoUpper
  nextTableId : a.nextTableId ≤ b.nextTableId
  weight : a.weight ≤ b.weight
  bounded : a.version.toNat ≤ a.weight → b.version.toNat ≤ b.weight
  version : a.version.toNat ≤ a.weight → b.weight < 2 ^ 64 → a.version ≤ b.version

theorem Advances.refl (a : PdFsm) : Advances a a :=
  ⟨rfl, rfl, UInt64.le_refl _, UInt32.le_refl _, Nat.le_refl _, id, fun _ _ => UInt64.le_refl _⟩

theorem Advances.trans {a b c : PdFsm} (first : Advances a b) (second : Advances b c) : Advances a c where
  replicas := second.replicas.trans first.replicas
  seed := second.seed.trans first.seed
  tsoUpper := UInt64.le_trans first.tsoUpper second.tsoUpper
  nextTableId := UInt32.le_trans first.nextTableId second.nextTableId
  weight := first.weight.trans second.weight
  bounded small := second.bounded (first.bounded small)
  version small room :=
    UInt64.le_trans (first.version small (second.weight.trans_lt room)) (second.version (first.bounded small) room)

theorem Advances.step {a b : PdFsm} (replicas : b.replicas = a.replicas) (seed : b.members.seed = a.members.seed)
    (tsoUpper : a.tsoUpper ≤ b.tsoUpper) (nextTableId : a.nextTableId ≤ b.nextTableId) (weight : a.weight ≤ b.weight)
    (version : b.version = a.version ∨ b.version = a.version + 1 ∧ a.weight < b.weight) : Advances a b := by
  refine ⟨replicas, seed, tsoUpper, nextTableId, weight, fun small => ?_, fun small room => ?_⟩
  · rcases version with same | ⟨next, more⟩
    · rw [same]
      exact small.trans weight
    · rw [next, UInt64.toNat_add, UInt64.toNat_one]
      exact (Nat.mod_le _ _).trans (by omega)
  · rcases version with same | ⟨next, more⟩
    · exact same ▸ UInt64.le_refl _
    · rw [next, UInt64.le_iff_toNat_le, UInt64.toNat_add, UInt64.toNat_one, Nat.mod_eq_of_lt (by omega)]
      omega

theorem advances_declareTable (fsm : PdFsm) (name : String) (regime : Regime) :
    Advances fsm (fsm.declareTable name regime) := by
  rcases fsm.declareTable_cases name regime with same | ⟨regions, table, room, declared⟩
  · rw [same]
    exact Advances.refl fsm
  · rw [declared]
    have more : fsm.weight < weight { fsm with
        nextTableId := fsm.nextTableId + 1
        catalog := fsm.catalog ++ [table]
        regions
        version := fsm.version + 1 } := by
      simp only [weight, length_append, length_singleton]
      omega
    refine Advances.step rfl rfl (UInt64.le_refl _) ?_ more.le (.inr ⟨rfl, more⟩)
    rw [UInt32.le_iff_toNat_le, UInt32.toNat_add, UInt32.toNat_one, Nat.mod_eq_of_lt room]
    omega

theorem le_max (a b : UInt64) : a ≤ max a b := by
  change a ≤ if a ≤ b then b else a
  split
  case isTrue le => exact le
  case isFalse => exact UInt64.le_refl a

theorem advances_heartbeat (positive : 0 < fsm.replicas) (nodeId : UInt64) (address : String)
    (reported : List ReplicaSet) (now : UInt64) (storeId : String) :
    Advances fsm (fsm.applyCmd (.heartbeat nodeId address reported now storeId)) := by
  obtain ⟨stores, bound⟩ := fsm.bindStore_eq nodeId storeId
  obtain ⟨adopted, adopt, moreAdopted, raisedAdopted⟩ := adoptGrownVoters_grows { fsm with stores } nodeId reported
  have length := length_heartbeat fsm.members nodeId address reported now
  obtain ⟨founded, found, moreFounded, raisedFounded⟩ := foundUnfoundedRegions_grows
    { fsm with stores, regionMembers := adopted.1, members := (fsm.members.heartbeat nodeId address reported now).1 } positive
  dsimp only at moreAdopted raisedAdopted moreFounded raisedFounded
  have weight : fsm.weight ≤ weight { fsm with
      stores, regionMembers := founded.1, members := (fsm.members.heartbeat nodeId address reported now).1 } := by
    simp only [weight]
    omega
  simp only [applyCmd, prepare, bound, adopt, found]
  split
  case isTrue changed =>
    refine Advances.step rfl rfl (UInt64.le_refl _) (UInt32.le_refl _) weight (.inr ⟨rfl, ?_⟩)
    simp only [PdFsm.weight, bumpVersion]
    rw [Bool.or_eq_true, Bool.or_eq_true] at changed
    rcases changed with (isNew | raised) | raised
    · rw [Bool.not_eq_true'] at isNew
      rw [isNew, if_neg Bool.false_ne_true] at length
      omega
    · have := (raisedAdopted raised).resolve_left Bool.false_ne_true
      omega
    · have := (raisedFounded raised).resolve_left Bool.false_ne_true
      omega
  case isFalse => exact Advances.step rfl rfl (UInt64.le_refl _) (UInt32.le_refl _) weight (.inl rfl)

theorem advances_applyCmd (positive : 0 < fsm.replicas) (cmd : PdCmd) : Advances fsm (fsm.applyCmd cmd) := by
  cases cmd with
  | reserveTs upper => exact Advances.step rfl rfl (le_max _ _) (UInt32.le_refl _) (Nat.le_refl _) (.inl rfl)
  | declareTable name regime =>
    have declared := advances_declareTable fsm name regime
    obtain ⟨founded, found, more, -⟩ := foundUnfoundedRegions_grows _ (declared.replicas ▸ positive)
    refine declared.trans ?_
    rw [applyCmd, prepare, found]
    exact Advances.step rfl rfl (UInt64.le_refl _) (UInt32.le_refl _) (Nat.add_le_add_left more _) (.inl rfl)
  | heartbeat nodeId address regions now storeId => exact advances_heartbeat positive nodeId address regions now storeId

theorem advances_applyAll (positive : 0 < fsm.replicas) (log : List Bytes) : Advances fsm (fsm.applyAll log) := by
  induction log generalizing fsm with
  | nil => exact Advances.refl fsm
  | cons payload rest ih =>
    have step : Advances fsm (fsm.apply payload) := by
      unfold apply
      split
      · exact Advances.refl fsm
      · exact advances_applyCmd positive _
    exact step.trans (ih (step.replicas ▸ positive))

theorem reported_assigned (held : fsm.Reported) (nodeId : UInt64) {reported : List ReplicaSet}
    (bare : ∀ rs ∈ reported, rs.desired = []) : ∀ rs ∈ fsm.members.assigned nodeId reported, rs.desired = [] := by
  unfold Membership.assigned
  split
  · exact bare
  · dsimp only
    split
    · cases found : fsm.members.nodes.find? nodeId with
      | none => exact forall_mem_nil _
      | some n => exact held (nodeId, n) (OrdMap.find?_eq_some.mp found)
    · rintro rs member
      obtain ⟨region, -, rfl⟩ := mem_map.mp member
      rfl

theorem members_foundUnfoundedRegions (fsm : PdFsm) : fsm.foundUnfoundedRegions.1.members = fsm.members := by
  unfold foundUnfoundedRegions
  dsimp only
  split <;> rfl

theorem reported_applyCmd (held : fsm.Reported) (bare : cmd.Reported) : (fsm.applyCmd cmd).Reported := by
  cases cmd with
  | reserveTs upper => exact held
  | declareTable name regime =>
    have members : (fsm.applyCmd (.declareTable name regime)).members = fsm.members := by
      rw [applyCmd, members_foundUnfoundedRegions]
      rcases fsm.declareTable_cases name regime with same | ⟨regions, table, -, declared⟩
      · rw [prepare, same]
      · rw [prepare, declared]
    rw [Reported, members]
    exact held
  | heartbeat nodeId address reported now storeId =>
    have members : (fsm.applyCmd (.heartbeat nodeId address reported now storeId)).members =
        (fsm.members.heartbeat nodeId address reported now).1 := by
      obtain ⟨stores, bound⟩ := fsm.bindStore_eq nodeId storeId
      simp only [applyCmd, prepare, bound]
      split
      · exact members_foundUnfoundedRegions _
      · exact members_foundUnfoundedRegions _
    rw [Reported, members]
    intro e member
    rcases OrdMap.mem_insertEntry member with rfl | before
    · exact reported_assigned held nodeId bare
    · exact held e before

theorem reported_applyAll (held : fsm.Reported) (log : List Bytes) : (fsm.applyAll log).Reported := by
  induction log generalizing fsm with
  | nil => exact held
  | cons payload rest ih =>
    refine ih ?_
    unfold apply
    split
    · exact held
    case _ cmd decoded => exact reported_applyCmd held (PdCmd.reported_decode decoded)

theorem Fits.weight (fits : fsm.Fits) : fsm.weight < 2 ^ 64 := by
  have each : ∀ n ∈ fsm.regionMembers.entries.map fun e => e.2.length, n ≤ 2 ^ 32 - 1 := by
    intro n member
    obtain ⟨e, held, rfl⟩ := mem_map.mp member
    exact Nat.le_sub_one_of_lt (fits.image.voters e held)
  have nodes := fits.members.nodes
  have catalog : fsm.catalog.length < 2 ^ 32 := fits.image.catalog
  have regions : fsm.regionMembers.entries.length ≤ 2 ^ 32 - 1 := Nat.le_sub_one_of_lt fits.image.regionMembers
  have few : votes fsm.regionMembers ≤ (2 ^ 32 - 1) * (2 ^ 32 - 1) :=
    calc votes fsm.regionMembers
      _ ≤ (fsm.regionMembers.entries.map fun e => e.2.length).length • (2 ^ 32 - 1) := sum_le_card_nsmul _ _ each
      _ ≤ (2 ^ 32 - 1) * (2 ^ 32 - 1) := by
        rw [length_map]
        exact Nat.mul_le_mul_right _ regions
  simp only [PdFsm.weight]
  omega

theorem restore_eq (fsm : PdFsm) {later : PdFsm} (fits : later.Fits) (reported : later.Reported) :
    fsm.restore later.snapshot = ({ later with
      members := { fsm.members with nodes := later.members.nodes }
      tsoUpper := max fsm.tsoUpper later.tsoUpper
      nextTableId := max fsm.nextTableId later.nextTableId
      version := max fsm.version later.version
      replicas := fsm.replicas }, true) := by
  have upper := reads_u64 later.tsoUpper (later.members.encode ++ later.image.encode)
  have nodes := reads_readNodes fits.members reported later.image.encode
  have image := reads_readImage fits.image []
  rw [append_nil] at image
  unfold restore snapshot
  rw [append_assoc, upper]
  dsimp only
  rw [nodes]
  dsimp only
  rw [image]
  rfl

theorem restore_snapshot {fsm later : PdFsm} (small : fsm.version.toNat ≤ fsm.weight) (advances : Advances fsm later)
    (fits : later.Fits) (reported : later.Reported) : fsm.restore later.snapshot = (later, true) := by
  have tsoUpper : max fsm.tsoUpper later.tsoUpper = later.tsoUpper := if_pos advances.tsoUpper
  have nextTableId : max fsm.nextTableId later.nextTableId = later.nextTableId := if_pos advances.nextTableId
  have version : max fsm.version later.version = later.version := if_pos (advances.version small fits.weight)
  simp only [fsm.restore_eq fits reported, tsoUpper, nextTableId, version, ← advances.seed, ← advances.replicas]

theorem small_fresh (replicas : Nat) : (fresh replicas).version.toNat ≤ (fresh replicas).weight := by
  change (1 : UInt64).toNat ≤ 1
  decide

/-- Whatever part of the log a replica has applied, the snapshot brings it to where replay brings it. -/
theorem restore_eq_replay (replicas : Nat) {seen taken : List Bytes} (part : seen <+: taken)
    (fits : ((fresh replicas).applyAll taken).Fits) (rest : List Bytes) :
    ∃ restored, ((fresh replicas).applyAll seen).restore ((fresh replicas).applyAll taken).snapshot = (restored, true) ∧
      (restored.applyAll rest).observe = ((fresh replicas).applyAll (taken ++ rest)).observe := by
  obtain ⟨unseen, rfl⟩ := part
  have positive : 0 < (fresh replicas).replicas := Nat.le_max_right replicas 1
  have bare : (fresh replicas).Reported := forall_mem_nil _
  have first := advances_applyAll positive seen
  have later : ((fresh replicas).applyAll seen).applyAll unseen = (fresh replicas).applyAll (seen ++ unseen) :=
    (foldl_append ..).symm
  have advances : Advances ((fresh replicas).applyAll seen) ((fresh replicas).applyAll (seen ++ unseen)) :=
    later ▸ advances_applyAll (first.replicas ▸ positive) unseen
  refine ⟨_, restore_snapshot (first.bounded (small_fresh replicas)) advances fits (reported_applyAll bare _), ?_⟩
  exact congrArg observe (foldl_append ..).symm

theorem restore_eq_replay_of_declared :
    let first := (PdCmd.heartbeat 1 "a" [] 0 "x").encode
    let second := (PdCmd.heartbeat 2 "b" [] 1 "").encode
    let declared := (PdCmd.declareTable "t" .ap).encode
    let reserved := (PdCmd.reserveTs 7).encode
    ∃ restored, ((fresh 1).applyAll [first]).restore ((fresh 1).applyAll [first, second, declared]).snapshot =
      (restored, true) ∧
        (restored.applyAll [reserved]).observe = ((fresh 1).applyAll [first, second, declared, reserved]).observe :=
  restore_eq_replay 1 ⟨_, rfl⟩ (by decide) _

variable {fsm : PdFsm}

def withNodes (fsm : PdFsm) (nodes : OrdMap UInt64 NodeState) : PdFsm :=
  { fsm with members := { fsm.members with nodes } }

/-- A table of nodes that shows what the one on record does: the addresses, the regions by key and by node, and the
desired set that the live nodes give every region. -/
structure Unnoticed (fsm : PdFsm) (nodes : OrdMap UInt64 NodeState) : Prop where
  nodeAddrs : (fsm.withNodes nodes).members.nodeAddrs = fsm.members.nodeAddrs
  route : (fsm.withNodes nodes).members.route = fsm.members.route
  list : (fsm.withNodes nodes).members.list = fsm.members.list
  desired : ∀ region ∈ fsm.regions.regions,
    fsm.desired (membersOf fsm.regionMembers region.id) (fsm.withNodes nodes).members.liveNodes =
      fsm.desired (membersOf fsm.regionMembers region.id) fsm.members.liveNodes

theorem observe_withNodes (fsm : PdFsm) (nodes : OrdMap UInt64 NodeState) :
    (fsm.withNodes nodes).observe = fsm.observe ↔ fsm.Unnoticed nodes := by
  constructor
  · intro same
    have assigned : (fsm.withNodes nodes).assignment = fsm.assignment := congrArg Observations.assignment same
    refine ⟨congrArg Observations.nodeAddrs same, congrArg Observations.route same, congrArg Observations.list same, ?_⟩
    intro region listed
    exact congrArg ReplicaSet.desired (map_inj_left.mp assigned region listed)
  · intro unnoticed
    have assigned : (fsm.withNodes nodes).assignment = fsm.assignment :=
      map_inj_left.mpr fun region listed => congrArg (ReplicaSet.mk _ _ _) (unnoticed.desired region listed)
    have own : (fsm.withNodes nodes).assignmentFor = fsm.assignmentFor := by
      funext nodeId
      rw [assignmentFor, assignmentFor, regionsOf, regionsOf, assigned, unnoticed.list]
      rfl
    rw [observe, observe, assigned, own, unnoticed.nodeAddrs, unnoticed.route, unnoticed.list]
    rfl

/-- The bytes break off behind a section of nodes that is read. -/
def CutAfter (bytes : Bytes) (nodes : OrdMap UInt64 NodeState) : Prop :=
  ∃ upper rest tail, u64.run bytes = some (upper, rest) ∧ readNodes.run rest = some (nodes, tail) ∧ readImage.run tail = none

theorem restore_of_cut {bytes : Bytes} {nodes : OrdMap UInt64 NodeState} (cut : CutAfter bytes nodes) :
    fsm.restore bytes = (fsm.withNodes nodes, false) := by
  obtain ⟨upper, rest, tail, begun, read, broken⟩ := cut
  simp only [restore, begun, read, broken]
  rfl

theorem restore_rejected {bytes : Bytes} (rejected : (fsm.restore bytes).2 = false) :
    (fsm.restore bytes).1 = fsm ∨ ∃ nodes, CutAfter bytes nodes := by
  unfold restore at rejected ⊢
  split at rejected
  case h_1 => exact .inl rfl
  case h_2 upper rest begun =>
    split at rejected
    case h_1 => exact .inl rfl
    case h_2 nodes tail read =>
      dsimp only at rejected ⊢
      split at rejected
      case h_1 broken => exact .inr ⟨nodes, upper, rest, tail, begun, read, broken⟩
      case h_2 => cases rejected

def heardOf : PdFsm := (fresh 3).applyCmd (.heartbeat 1 "a" [] 0 "x")

end PdFsm

end Arcux.Pd
