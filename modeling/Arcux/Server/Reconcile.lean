import Arcux.Pd.HeartbeatResponse
import Arcux.Pd.RegionTable
import Mathlib.Data.String.Basic

namespace Arcux.Server.Reconcile

open Concurrency Data List Pd
open scoped Codec.ByteOrder Engine

scoped instance : LinearOrder TableId where
  le_refl _ := UInt32.le_refl _
  le_trans _ _ _ := UInt32.le_trans
  lt_iff_le_not_ge _ _ := by grind
  le_antisymm _ _ := UInt32.le_antisymm
  le_total := UInt32.le_total
  toDecidableLE := inferInstance
  toDecidableEq := inferInstance
  toDecidableLT := inferInstance

def defaultTable : Table := ⟨defaultTableId, defaultTableName, .cp⟩

structure Tables where
  byName : OrdMap String TableId
  byId : OrdMap TableId Table

def Tables.ofList (tables : List Table) : Tables :=
  let byId := OrdMap.ofList (tables.map fun t => (t.id, t))
  let byId := if (byId.find? defaultTableId).isNone then byId.insert defaultTableId defaultTable else byId
  ⟨OrdMap.ofList (byId.entries.map fun e => (e.2.name, e.2.id)), byId⟩

/-- A Raft group as it is started: the voters it is founded with, none for a replica that joins, and its peers. -/
structure Group where
  voters : List UInt64
  peers : OrdMap UInt64 String

/-- `ap` and `raft` are there in the modes that replicate; an AP region is kept as the addresses of its other
replicas. -/
structure AppState where
  nodeId : UInt64
  hasPd : Bool
  appliedCatalogVersion : UInt64
  tables : Tables
  peers : OrdMap UInt64 String
  desired : OrdMap UInt64 (List UInt64)
  ap : Option (OrdMap UInt64 (List String))
  raft : Option (OrdMap UInt64 Group)
  regions : RegionDir

/-- What a call meets: the answer of PD, which addresses are URIs, the regions whose log cannot be opened, and how the
writes of the region table end, when a region is hosted and at the end. -/
structure Surroundings where
  response : Except String HeartbeatResponse
  isUri : String → Bool := fun _ => true
  walError : UInt64 → Option String := fun _ => none
  hosting : UInt64 → AtomicWrite := fun _ => .done
  installing : AtomicWrite := .done

namespace AppState

def group (s : AppState) (id : UInt64) : Option Group := s.raft.bind (·.find? id)

def adoptTopology (s : AppState) (addrs : OrdMap UInt64 String) : AppState :=
  if addrs.entries = [] then s
  else
    let others := addrs.entries.filter (·.1 ≠ s.nodeId)
    let addPeers (g : Group) : Group := { g with peers := others.foldl (fun m e => m.insert e.1 e.2) g.peers }
    { s with raft := s.raft.map fun groups => groups.mapValues fun _ => addPeers, peers := addrs }

def peersAmong (s : AppState) (ids : List UInt64) : OrdMap UInt64 String :=
  .ofList ((ids.filter (· ≠ s.nodeId)).filterMap fun id => (s.peers.find? id).map (id, ·))

def insertAp (s : AppState) (isUri : String → Bool) (id : UInt64) (peers : OrdMap UInt64 String) : AppState :=
  { s with ap := s.ap.map (·.insert id ((peers.entries.map Prod.snd).filter isUri)) }

def startCpGroup (s : AppState) (walError : Option String) (id : UInt64) (voters : List UInt64)
    (peers : OrdMap UInt64 String) : AppState × Except String Unit :=
  match s.raft with
  | none => (s, .error "node is not in replicated (multiraft) mode")
  | some groups =>
    if (groups.find? id).isSome then (s, .ok ())
    else match walError with
      | some e => (s, .error e)
      | none => ({ s with raft := some (groups.insert id ⟨voters, peers⟩) }, .ok ())

def hostRegion (s : AppState) (env : Surroundings) (region : Region) (peers : OrdMap UInt64 String) :
    AppState × Except String Unit :=
  if (s.group region.id).isSome then (s, .ok ())
  else
    let adopted := s.regions.adopt (s.regions.registry.regions ++ [region]) (env.hosting region.id)
    let s := { s with regions := adopted.1 }
    match adopted.2 with
    | .error e => (s, .error e)
    | .ok () => s.startCpGroup (env.walError region.id) region.id [] peers

def hostAssigned (s : AppState) (env : Surroundings) (rs : ReplicaSet) : AppState × Except String Bool :=
  match rs.regime with
  | .ap => (s.insertAp env.isUri rs.region.id (s.peersAmong rs.desired), .ok false)
  | .cp =>
    if (s.group rs.region.id).isSome then (s, .ok false)
    else if rs.voters.contains s.nodeId then
      let started := s.startCpGroup (env.walError rs.region.id) rs.region.id rs.voters s.peers
      (started.1, started.2.map fun _ => true)
    else if rs.desired.contains s.nodeId then
      let hosted := s.hostRegion env rs.region s.peers
      (hosted.1, hosted.2.map fun _ => false)
    else (s, .ok false)

def hostAll (env : Surroundings) : AppState → List UInt64 → List ReplicaSet → AppState × Except String (List UInt64)
  | s, founded, [] => (s, .ok founded)
  | s, founded, rs :: rest =>
    match s.hostAssigned env rs with
    | (s, .error e) => (s, .error e)
    | (s, .ok true) => hostAll env s (founded ++ [rs.region.id]) rest
    | (s, .ok false) => hostAll env s founded rest

def desiredOf (regions : List ReplicaSet) : OrdMap UInt64 (List UInt64) :=
  .ofList (regions.map fun rs => (rs.region.id, rs.desired))

def announce (s : AppState) (response : HeartbeatResponse) : AppState :=
  let s := { s with tables := .ofList response.tables }
  let s := s.adoptTopology (.ofList response.nodes)
  { s with desired := desiredOf response.regions }

/-- What follows the answer of PD up to the next await: the groups founded, once everything is installed. -/
def install (s : AppState) (env : Surroundings) (response : HeartbeatResponse) :
    AppState × Except String (List UInt64) :=
  match hostAll env (s.announce response) [] response.regions with
  | (s, .error e) => (s, .error e)
  | (s, .ok founded) =>
    let adopted := s.regions.adopt (response.regions.map (·.region)) env.installing
    let s := { s with regions := adopted.1 }
    match adopted.2 with
    | .error e => (s, .error e)
    | .ok () => ({ s with appliedCatalogVersion := response.catalogVersion }, .ok founded)

end AppState

structure Node where
  app : AppState
  -- the responses whose installation was begun: nothing reads them but what is said of the calls
  installed : List HeartbeatResponse

/-- A call that has loaded `applied` remembers how many responses had been installed by then. -/
inductive Op where
  | load
  | apply (applied : UInt64) (since : Nat) (env : Surroundings) (response : HeartbeatResponse)
  | campaign (id : UInt64)

def Op.Reply : Op → Type
  | load => UInt64 × Bool × Nat
  | apply .. => Except String (UInt64 × List UInt64)
  | campaign _ => Unit

def Node.exec : (op : Op) → Node → Node × op.Reply
  | .load, node => (node, (node.app.appliedCatalogVersion, node.app.hasPd, node.installed.length))
  | .apply applied _ env response, node =>
    if response.catalogVersion = 0 ∨ response.catalogVersion ≤ applied then (node, .ok (applied, []))
    else
      let done := node.app.install env response
      (⟨done.1, node.installed ++ [response]⟩, done.2.map fun founded => (response.catalogVersion, founded))
  -- the group's own actor holds the election
  | .campaign _, node => (node, ())

abbrev Script := Prog Op Op.Reply

def load : Script (UInt64 × Bool × Nat) := Prog.perform Op.load

def apply (applied : UInt64) (since : Nat) (env : Surroundings) (response : HeartbeatResponse) :
    Script (Except String (UInt64 × List UInt64)) :=
  Prog.perform (Op.apply applied since env response)

def campaign (id : UInt64) : Script Unit := Prog.perform (Op.campaign id)

def isFirstVoter (nodeId : UInt64) (assigned : List ReplicaSet) (id : UInt64) : Bool :=
  match assigned.find? (·.region.id = id) with
  | some rs => rs.voters.min? = some nodeId
  | none => false

def reconcile (nodeId : UInt64) (env : Surroundings) : Script (Except String UInt64) := do
  let (applied, hasPd, since) ← load
  if !hasPd then return .ok applied
  match env.response with
  | .error e => return .error e
  | .ok response =>
    match ← apply applied since env response with
    | .error e => return .error e
    | .ok (version, founded) =>
      for id in founded do
        if isFirstVoter nodeId response.regions id then campaign id
      return .ok version

def routingOf (regions : List ReplicaSet) : List Region :=
  (regions.map ReplicaSet.region).mergeSort fun a b => a.start ≤ b.start

namespace AppState

structure Shows (s : AppState) (response : HeartbeatResponse) : Prop where
  version : s.appliedCatalogVersion = response.catalogVersion
  tables : s.tables = .ofList response.tables
  desired : s.desired = desiredOf response.regions
  regions : s.regions.registry.regions = routingOf response.regions

structure Keeps (s s' : AppState) : Prop where
  tables : s'.tables = s.tables
  desired : s'.desired = s.desired

variable {s : AppState} {env : Surroundings}

theorem Keeps.refl (s : AppState) : s.Keeps s := ⟨rfl, rfl⟩

theorem Keeps.trans {s' s'' : AppState} (first : s.Keeps s') (second : s'.Keeps s'') : s.Keeps s'' :=
  ⟨second.tables.trans first.tables, second.desired.trans first.desired⟩

variable {peers : OrdMap UInt64 String}

theorem keeps_startCpGroup {walError : Option String} {id : UInt64} {voters : List UInt64} :
    s.Keeps (s.startCpGroup walError id voters peers).1 := by
  unfold startCpGroup
  split
  · exact .refl s
  · split_ifs
    · exact .refl s
    · split
      · exact .refl s
      · exact ⟨rfl, rfl⟩

theorem keeps_hostRegion {region : Region} : s.Keeps (s.hostRegion env region peers).1 := by
  unfold hostRegion
  split_ifs
  · exact .refl s
  · simp only
    split
    · exact ⟨rfl, rfl⟩
    · exact ⟨keeps_startCpGroup.tables, keeps_startCpGroup.desired⟩

theorem keeps_hostAssigned {rs : ReplicaSet} : s.Keeps (s.hostAssigned env rs).1 := by
  unfold hostAssigned
  split
  · exact ⟨rfl, rfl⟩
  · split_ifs
    · exact .refl s
    · exact keeps_startCpGroup
    · exact keeps_hostRegion
    · exact .refl s

theorem keeps_hostAll {founded : List UInt64} {regions : List ReplicaSet} :
    s.Keeps (hostAll env s founded regions).1 := by
  induction regions generalizing s founded with
  | nil => exact .refl s
  | cons rs rest ih =>
    have one : s.Keeps (s.hostAssigned env rs).1 := keeps_hostAssigned
    unfold hostAll
    split
    next failed =>
      rw [failed] at one
      exact one
    next hosted =>
      rw [hosted] at one
      exact one.trans ih
    next hosted =>
      rw [hosted] at one
      exact one.trans ih

theorem announce_tables (response : HeartbeatResponse) : (s.announce response).tables = .ofList response.tables := by
  unfold announce adoptTopology
  simp only
  split_ifs <;> rfl

theorem install_shows {response : HeartbeatResponse} (done : (s.install env response).2.isOk) :
    (s.install env response).1.Shows response := by
  have kept : (s.announce response).Keeps (hostAll env (s.announce response) [] response.regions).1 := keeps_hostAll
  unfold install at done ⊢
  split at done
  next failed => cases done
  next hosted founded all =>
    rw [all] at kept
    simp only at done ⊢
    split at done
    next => cases done
    next written =>
      exact ⟨rfl, kept.tables.trans (announce_tables response), kept.desired, rfl⟩

/-- Nothing that a response asks of the node fails: it replicates, the log opens of every group it is to start, and the
region table is written wherever it is. -/
def Installs (s : AppState) (env : Surroundings) (response : HeartbeatResponse) : Prop :=
  (∀ rs ∈ response.regions, rs.regime = .cp → s.group rs.region.id = none →
    rs.voters.contains s.nodeId ∨ rs.desired.contains s.nodeId → s.raft.isSome ∧ env.walError rs.region.id = none ∧
      (rs.voters.contains s.nodeId ∨ env.hosting rs.region.id = .done)) ∧
  env.installing = .done
  deriving Decidable

/-- Groups are only added while a response is installed. -/
structure Onward (s s' : AppState) : Prop where
  nodeId : s'.nodeId = s.nodeId
  raft : s.raft.isSome → s'.raft.isSome
  group : ∀ id, s'.group id = none → s.group id = none

theorem Onward.refl (s : AppState) : s.Onward s := ⟨rfl, id, fun _ => id⟩

theorem Installs.onward {s' : AppState} {response : HeartbeatResponse} (installs : s.Installs env response)
    (onward : s.Onward s') : s'.Installs env response := by
  refine ⟨fun rs member regime none assigned => ?_, installs.2⟩
  rw [onward.nodeId] at assigned ⊢
  obtain ⟨raft, opens, written⟩ := installs.1 rs member regime (onward.group _ none) assigned
  exact ⟨onward.raft raft, opens, written⟩

theorem startCpGroup_done (id : UInt64) (voters : List UInt64) (peers : OrdMap UInt64 String) (raft : s.raft.isSome) :
    (s.startCpGroup none id voters peers).2 = .ok () ∧ s.Onward (s.startCpGroup none id voters peers).1 := by
  obtain ⟨groups, replicated⟩ := Option.isSome_iff_exists.mp raft
  unfold startCpGroup
  simp only [replicated]
  split_ifs with known
  · exact ⟨rfl, .refl s⟩
  · refine ⟨rfl, rfl, fun _ => rfl, fun id' none => ?_⟩
    simp only [group, replicated, Option.bind_some, OrdMap.find?_insert] at none ⊢
    split_ifs at none
    exact none

theorem hostRegion_done {region : Region} (peers : OrdMap UInt64 String) (raft : s.raft.isSome) (opens : env.walError region.id = none)
    (written : env.hosting region.id = .done) :
    (s.hostRegion env region peers).2 = .ok () ∧ s.Onward (s.hostRegion env region peers).1 := by
  unfold hostRegion
  rw [written, opens]
  split_ifs
  · exact ⟨rfl, .refl s⟩
  · let adopted : AppState := { s with regions := (s.regions.adopt (s.regions.registry.regions ++ [region]) .done).1 }
    obtain ⟨done, onward⟩ := adopted.startCpGroup_done region.id [] peers raft
    exact ⟨done, onward.nodeId, onward.raft, onward.group⟩

theorem hostAssigned_done {response : HeartbeatResponse} (installs : s.Installs env response) {rs : ReplicaSet}
    (member : rs ∈ response.regions) :
    (∃ founded, (s.hostAssigned env rs).2 = .ok founded) ∧ s.Onward (s.hostAssigned env rs).1 := by
  unfold hostAssigned
  split
  · exact ⟨⟨false, rfl⟩, rfl, id, fun _ => id⟩
  · rename_i regime
    split_ifs with known voter desired
    · exact ⟨⟨false, rfl⟩, .refl s⟩
    · obtain ⟨raft, opens, -⟩ := installs.1 rs member regime (by simpa using known) (.inl voter)
      obtain ⟨done, onward⟩ := s.startCpGroup_done rs.region.id rs.voters s.peers raft
      simp only [opens, done]
      exact ⟨⟨true, rfl⟩, onward⟩
    · obtain ⟨raft, opens, written⟩ := installs.1 rs member regime (by simpa using known) (.inr desired)
      obtain ⟨done, onward⟩ := hostRegion_done s.peers raft opens (written.resolve_left voter)
      simp only [done]
      exact ⟨⟨false, rfl⟩, onward⟩
    · exact ⟨⟨false, rfl⟩, .refl s⟩

theorem hostAll_done {response : HeartbeatResponse} (founded : List UInt64) {regions : List ReplicaSet}
    (installs : s.Installs env response) (part : regions ⊆ response.regions) :
    ∃ s' founded', hostAll env s founded regions = (s', .ok founded') := by
  induction regions generalizing s founded with
  | nil => exact ⟨s, founded, rfl⟩
  | cons rs rest ih =>
    rw [cons_subset] at part
    obtain ⟨⟨new, done⟩, onward⟩ := hostAssigned_done installs part.1
    have hosted : s.hostAssigned env rs = ((s.hostAssigned env rs).1, .ok new) := Prod.ext rfl done
    rw [hostAll, hosted]
    cases new <;> exact ih _ (installs.onward onward) part.2

theorem announce_onward (response : HeartbeatResponse) : s.Onward (s.announce response) := by
  unfold announce adoptTopology
  simp only
  split_ifs
  · exact ⟨rfl, id, fun _ => id⟩
  · refine ⟨rfl, fun some => by simpa using some, fun id none => ?_⟩
    cases replicated : s.raft with
    | none => simp [group, replicated]
    | some groups => simpa [group, replicated, OrdMap.find?_mapValues] using none

theorem install_done {response : HeartbeatResponse} (installs : s.Installs env response) :
    (s.install env response).2.isOk := by
  obtain ⟨s', founded, hosted⟩ := hostAll_done [] (installs.onward (s.announce_onward response)) (Subset.refl _)
  rw [install, hosted, installs.2]
  rfl

end AppState

/-- No call has installed a newer response since this one loaded the applied version, and nothing fails when its own
response is installed. -/
def Timely : Op → Node → Prop
  | .apply applied since env response, node => applied < response.catalogVersion →
      (∀ other ∈ node.installed.drop since, other.catalogVersion ≤ response.catalogVersion) ∧
        node.app.Installs env response
  | _, _ => True

instance (op : Op) (node : Node) : Decidable (Timely op node) := by
  unfold Timely
  split <;> infer_instance

/-- The node is as the response it has installed last says, and no response it has installed is newer. -/
structure Current (start : AppState) (node : Node) : Prop where
  untouched : node.installed = [] → node.app = start
  above : start.appliedCatalogVersion ≤ node.app.appliedCatalogVersion
  applied : ∀ response ∈ node.installed, response.catalogVersion ≤ node.app.appliedCatalogVersion
  newest : ∀ response ∈ node.installed.getLast?, node.app.Shows response

/-- The world of a run is what has been installed, which only grows. -/
def discipline (start : AppState) : Discipline Op Op.Reply Node (List HeartbeatResponse) where
  exec := Node.exec
  guard := Timely
  inv w node := node.installed = w ∧ Current start node
  grows := (· <+: ·)
  rely _ := (· <+: ·)
  grows_refl := prefix_refl
  grows_trans := List.IsPrefix.trans
  rely_refl _ := prefix_refl
  rely_trans := List.IsPrefix.trans
  rely_grows := id

variable {start : AppState} {w : List HeartbeatResponse} {i : Nat}

theorem current_install {node : Node} {env : Surroundings} {response : HeartbeatResponse}
    (newest : ∀ other ∈ node.installed, other.catalogVersion ≤ response.catalogVersion)
    (above : start.appliedCatalogVersion ≤ response.catalogVersion) (installs : node.app.Installs env response) :
    Current start ⟨(node.app.install env response).1, node.installed ++ [response]⟩ := by
  have shows := AppState.install_shows (AppState.install_done installs)
  refine ⟨fun none => absurd none (append_ne_nil_of_right_ne_nil _ (cons_ne_nil _ _)), ?_, ?_, ?_⟩
  · exact above.trans_eq shows.version.symm
  · intro other member
    rw [shows.version]
    rcases mem_append.mp member with earlier | new
    · exact newest other earlier
    · exact (congrArg _ (mem_singleton.mp new)).le
  · intro other last
    rw [getLast?_concat] at last
    exact Option.some.inj last ▸ shows

/-- What a call knows from its load on: all that had been installed by then is no newer than what it loaded. -/
structure Loaded (start : AppState) (w : List HeartbeatResponse) (applied : UInt64) (since : Nat) : Prop where
  above : start.appliedCatalogVersion ≤ applied
  length : since ≤ w.length
  older : ∀ other ∈ w.take since, other.catalogVersion ≤ applied

theorem Loaded.mono {w' : List HeartbeatResponse} {applied : UInt64} {since : Nat} (loaded : Loaded start w applied since)
    (grown : w <+: w') : Loaded start w' applied since := by
  obtain ⟨more, rfl⟩ := grown
  refine ⟨loaded.above, loaded.length.trans (by simp), ?_⟩
  rw [take_append_of_le_length loaded.length]
  exact loaded.older

theorem load_safe : (discipline start).Safe i load w fun w' (applied, _, since) => Loaded start w' applied since := by
  rintro w' - node ⟨rfl, current⟩ -
  refine ⟨node.installed, prefix_refl _, fun _ _ => prefix_refl _, ⟨rfl, current⟩, fun w'' grown => ?_⟩
  refine Loaded.mono ⟨current.above, le_rfl, fun other member => ?_⟩ grown
  exact current.applied other (mem_of_mem_take member)

theorem apply_safe {applied : UInt64} {since : Nat} (loaded : Loaded start w applied since) (env : Surroundings)
    (response : HeartbeatResponse) : (discipline start).Safe i (apply applied since env response) w fun _ _ => True := by
  rintro w' grown node ⟨rfl, current⟩ timely
  have known := loaded.mono grown
  change ∃ w'', _ ∧ _ ∧ (discipline start).inv w'' (Node.exec (.apply applied since env response) node).1 ∧ _
  simp only [Node.exec]
  split_ifs with old
  · exact ⟨_, prefix_refl _, fun _ _ => prefix_refl _, ⟨rfl, current⟩, fun _ _ => trivial⟩
  · have newer : applied < response.catalogVersion := not_le.mp (not_or.mp old).2
    obtain ⟨since, installs⟩ := timely newer
    refine ⟨_, prefix_append _ _, fun _ _ => prefix_append _ _, ⟨rfl, ?_⟩, fun _ _ => trivial⟩
    refine current_install (fun other member => ?_) (known.above.trans newer.le) installs
    rw [← take_append_drop _ node.installed] at member
    rcases mem_append.mp member with earlier | later
    · exact (known.older other earlier).trans newer.le
    · exact since other later

theorem campaign_safe (id : UInt64) : (discipline start).Safe i (campaign id) w fun _ _ => True := by
  rintro w' - node inv -
  exact ⟨w', prefix_refl _, fun _ _ => prefix_refl _, inv, fun _ _ => trivial⟩

theorem campaigns_safe (founded : List UInt64) (first : UInt64 → Bool) :
    (discipline start).Safe i (forIn founded PUnit.unit fun id _ =>
      if first id then do
        campaign id
        pure (ForInStep.yield PUnit.unit)
      else pure (ForInStep.yield PUnit.unit)) w fun _ _ => True := by
  induction founded generalizing w with
  | nil => exact fun _ _ => trivial
  | cons id rest ih =>
    have one : (discipline start).Safe i (if first id then do
        campaign id
        pure (ForInStep.yield PUnit.unit)
      else pure (ForInStep.yield PUnit.unit)) w fun _ step => step = .yield PUnit.unit := by
      split_ifs
      · exact Discipline.Safe.bind (campaign_safe id) fun _ _ _ _ _ _ => rfl
      · exact fun _ _ => rfl
    rw [forIn_cons]
    refine Discipline.Safe.bind one fun w' step _ yielded => ?_
    rw [yielded]
    exact ih

theorem reconcile_safe (nodeId : UInt64) (env : Surroundings) :
    (discipline start).Safe i (reconcile nodeId env) w fun _ _ => True := by
  have ret {w : List HeartbeatResponse} (answer : Except String UInt64) :
      (discipline start).Safe i (pure answer : Script _) w fun _ _ => True := fun _ _ => trivial
  refine Discipline.Safe.bind load_safe fun w₁ (applied, hasPd, since) _ loaded => ?_
  dsimp only
  split_ifs
  · exact ret _
  split
  · exact ret _
  · refine Discipline.Safe.bind (apply_safe loaded env _) fun w₂ result _ _ => ?_
    split
    · exact ret _
    · exact Discipline.Safe.bind (campaigns_safe _ _) fun w₃ _ _ _ => ret _

def pool (start : AppState) (calls : List Surroundings) : Pool Node Op Op.Reply (Except String UInt64) :=
  ⟨⟨start, []⟩, calls.map (reconcile start.nodeId)⟩

theorem never_walks_back (start : AppState) (calls : List Surroundings) (before after : List Nat)
    (timely : (pool start calls).Guarded Node.exec Timely (before ++ after)) :
    ((pool start calls).run Node.exec before).state.app.appliedCatalogVersion ≤
        ((pool start calls).run Node.exec (before ++ after)).state.app.appliedCatalogVersion ∧
      Current start ((pool start calls).run Node.exec (before ++ after)).state := by
  have sound : (discipline start).Sound (fun _ _ _ => True) [] (pool start calls) := by
    refine ⟨⟨rfl, fun _ => rfl, le_rfl, nofun, nofun⟩, fun i p task => ?_⟩
    simp only [pool, getElem?_map, Option.map_eq_some_iff] at task
    obtain ⟨env, -, rfl⟩ := task
    exact reconcile_safe start.nodeId env
  obtain ⟨first, second⟩ := (Pool.guarded_append Node.exec).mp timely
  obtain ⟨w, -, sound'⟩ := sound.run first
  obtain ⟨w', grown, sound''⟩ := sound'.run second
  rw [Pool.run_append]
  have here : ((pool start calls).run Node.exec before).state.installed = w := sound'.1.1
  have current : Current start ((pool start calls).run Node.exec before).state := sound'.1.2
  obtain ⟨there, current'⟩ := sound''.1
  refine ⟨?_, current'⟩
  cases last : w.getLast? with
  | none =>
    rw [current.untouched (here.trans (getLast?_eq_none_iff.mp last))]
    exact current'.above
  | some response =>
    rw [(current.newest response (here ▸ last)).version]
    exact current'.applied response (there ▸ grown.subset (mem_of_getLast? last))

def joined : AppState where
  nodeId := 1
  hasPd := true
  appliedCatalogVersion := 0
  tables := .ofList []
  peers := .empty
  desired := .empty
  ap := none
  raft := some .empty
  regions := .fresh

def assigning (version : UInt64) (name : String) : Surroundings where
  response := .ok ⟨[⟨wholeKeyspace 1, .cp, [1], [1]⟩], version, [⟨1, name, .cp⟩], [(1, "http://a")], 3⟩

def older : Surroundings := assigning 3 "a"

def newer : Surroundings := assigning 5 "b"

theorem never_walks_back_ascending :
    ((pool joined [older, newer]).run Node.exec [0, 1, 0, 0]).result 0 = some (.ok 3) ∧
      ((pool joined [older, newer]).run Node.exec [0, 1, 0, 0]).state.app.appliedCatalogVersion ≤
        ((pool joined [older, newer]).run Node.exec ([0, 1, 0, 0] ++ [1])).state.app.appliedCatalogVersion ∧
      Current joined ((pool joined [older, newer]).run Node.exec ([0, 1, 0, 0] ++ [1])).state :=
  ⟨by decide +kernel, never_walks_back joined [older, newer] [0, 1, 0, 0] [1] (by decide +kernel)⟩

/-- The same with the responses the other way round: the second call compared its version with one loaded before the
first call had installed anything. -/
theorem older_assignment_installed :
    ((pool joined [newer, older]).run Node.exec [0, 1, 0, 0]).result 0 = some (.ok 5) ∧
      ((pool joined [newer, older]).run Node.exec [0, 1, 0, 0]).state.app.appliedCatalogVersion = 5 ∧
      ((pool joined [newer, older]).run Node.exec [0, 1, 0, 0, 1]).result 1 = some (.ok 3) ∧
      ((pool joined [newer, older]).run Node.exec [0, 1, 0, 0, 1]).state.app.appliedCatalogVersion = 3 ∧
      ((pool joined [newer, older]).run Node.exec [0, 1, 0, 0, 1]).state.installed.map (·.catalogVersion) = [5, 3] ∧
      ((pool joined [newer, older]).run Node.exec [0, 1, 0, 0, 1]).state.app.tables.byId.entries =
        [(0, defaultTable), (1, ⟨1, "a", .cp⟩)] := by
  decide +kernel

end Arcux.Server.Reconcile
