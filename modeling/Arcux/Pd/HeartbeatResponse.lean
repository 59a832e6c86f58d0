import Arcux.Concurrency.Interleaving
import Arcux.Pd.HandedOut
import Arcux.Pd.Replicas

namespace Arcux.Pd

open Codec Concurrency List
open scoped Codec.ByteOrder Engine

structure HeartbeatRequest where
  nodeId : UInt64
  address : String
  regions : List ReplicaSet
  now : UInt64
  storeId : String

structure HeartbeatResponse where
  regions : List ReplicaSet
  catalogVersion : UInt64
  tables : List Table
  nodes : List (UInt64 × String)
  replicas : UInt32

inductive Status where
  | identityConflict (nodeId : UInt64) (bound : String)
  | notLeader

def PdFsm.heartbeatResponse (fsm : PdFsm) (nodeId : UInt64) : HeartbeatResponse where
  regions := fsm.assignmentFor nodeId
  catalogVersion := fsm.version
  tables := fsm.sortedCatalog
  nodes := fsm.members.nodeAddrs
  replicas := .ofNat fsm.replicas

structure Service where
  fsm : PdFsm
  -- the heartbeats that handlers have handed to the actor
  parked : List (Nat × UInt64) := []
  replies : List (Nat × Option (List ReplicaSet)) := []
  -- the handlers that were given their regions and have not answered yet
  reading : List Nat := []
  -- the states between two entries, the latest first
  points : List PdFsm := [fsm]

def PdFsm.allocate (fsm : PdFsm) (name : String) (regime : Regime) : Option (PdFsm × TableId) :=
  if fsm.catalog.any (·.name = name) ∨ fsm.nextTableId = .ofNat (2 ^ 32 - 1) then none
  else
    some ({ fsm with
      nextTableId := fsm.nextTableId + 1
      catalog := fsm.catalog ++ [⟨fsm.nextTableId, name, regime⟩] }, fsm.nextTableId)

def PdFsm.found (fsm : PdFsm) (live : List UInt64) : PdFsm × Bool :=
  let founded := fsm.regions.regions.foldl (foundRegion (live.take fsm.replicas)) (fsm.regionMembers, false)
  ({ fsm with regionMembers := founded.1 }, founded.2)

namespace Service

inductive Call where
  | storeConflict (nodeId : UInt64) (storeId : String)
  | propose (task : Nat) (request : HeartbeatRequest)
  | receive (task : Nat)
  | catalogVersion
  | catalog
  | nodeAddrs
  | replicas
  | reply (task : Nat)
  | reserveTs (upper : UInt64)
  | bindStore (nodeId : UInt64) (storeId : String)
  | adoptGrownVoters (nodeId : UInt64) (reported : List ReplicaSet)
  | heartbeat (nodeId : UInt64) (address : String) (reported : List ReplicaSet) (now : UInt64)
  | liveNodes
  | found (live : List UInt64)
  | allocate (name : String) (regime : Regime)
  | split (id : TableId)
  | bumpVersion
  -- all of an entry is applied
  | applied
  | resolve (task : Nat)
  | refuse (task : Nat)
  | sweep (now timeoutMs : UInt64)

namespace Call

abbrev Reply : Call → Type
  | storeConflict .. => Option String
  | receive _ => Option (Option (List ReplicaSet))
  | catalogVersion => UInt64
  | catalog => List Table
  | nodeAddrs => List (UInt64 × String)
  | replicas => Nat
  | liveNodes => List UInt64
  | adoptGrownVoters .. | found _ => Bool
  | allocate .. => Option TableId
  | _ => Unit

def exec : (call : Call) → Service → Service × call.Reply
  | storeConflict nodeId storeId, s => (s, s.fsm.storeConflict nodeId storeId)
  | propose task request, s => ({ s with parked := (task, request.nodeId) :: s.parked }, ())
  | receive task, s => (s, s.replies.lookup task)
  | catalogVersion, s => (s, s.fsm.version)
  | catalog, s => (s, s.fsm.sortedCatalog)
  | nodeAddrs, s => (s, s.fsm.members.nodeAddrs)
  | replicas, s => (s, s.fsm.replicas)
  | reply task, s => ({ s with reading := s.reading.filter (· ≠ task) }, ())
  | reserveTs upper, s => ({ s with fsm := { s.fsm with tsoUpper := max s.fsm.tsoUpper upper } }, ())
  | bindStore nodeId storeId, s => ({ s with fsm := s.fsm.bindStore nodeId storeId }, ())
  | adoptGrownVoters nodeId reported, s =>
    ({ s with fsm := (s.fsm.adoptGrownVoters nodeId reported).1 }, (s.fsm.adoptGrownVoters nodeId reported).2)
  | heartbeat nodeId address reported now, s =>
    ({ s with fsm := { s.fsm with members := (s.fsm.members.heartbeat nodeId address reported now).1 } }, ())
  | liveNodes, s => (s, s.fsm.members.liveNodes)
  | found live, s => ({ s with fsm := (s.fsm.found live).1 }, (s.fsm.found live).2)
  | allocate name regime, s =>
    match s.fsm.allocate name regime with
    | none => (s, none)
    | some (fsm, id) => ({ s with fsm }, some id)
  | split id, s => ({ s with fsm := { s.fsm with regions := (s.fsm.regions.split (tablePrefix id)).1 } }, ())
  | bumpVersion, s => ({ s with fsm := s.fsm.bumpVersion }, ())
  | applied, s => ({ s with points := s.fsm :: s.points }, ())
  | resolve task, s =>
    match s.parked.lookup task, s.replies.lookup task with
    | some nodeId, none =>
      ({ s with
        replies := (task, some (s.fsm.assignmentFor nodeId)) :: s.replies
        reading := task :: s.reading
        points := s.fsm :: s.points }, ())
    | _, _ => (s, ())
  | refuse task, s =>
    match s.replies.lookup task with
    | none => ({ s with replies := (task, none) :: s.replies }, ())
    | some _ => (s, ())
  | sweep now timeoutMs, s => ({ s with fsm := s.fsm.sweep now timeoutMs }, ())

end Call

abbrev Script := Prog Call Call.Reply

def perform (call : Call) : Script call.Reply := Prog.perform call

def awaitRegions (task : Nat) : Nat → Script (Option (List ReplicaSet))
  | 0 => .halt
  | polls + 1 => do
    match ← perform (.receive task) with
    | some answer => return answer
    | none => awaitRegions task polls

def readResponse (task : Nat) (regions : List ReplicaSet) : Script (Except Status HeartbeatResponse) := do
  let catalogVersion ← perform .catalogVersion
  let tables ← perform .catalog
  let nodes ← perform .nodeAddrs
  let replicas ← perform .replicas
  perform (.reply task)
  return .ok ⟨regions, catalogVersion, tables, nodes, .ofNat replicas⟩

def heartbeat (polls task : Nat) (request : HeartbeatRequest) : Script (Except Status HeartbeatResponse) := do
  match ← perform (.storeConflict request.nodeId request.storeId) with
  | some bound => return .error (.identityConflict request.nodeId bound)
  | none =>
    perform (.propose task request)
    match ← awaitRegions task polls with
    | none => return .error .notLeader
    | some regions =>
      -- two first heartbeats can both have passed the check above
      match ← perform (.storeConflict request.nodeId request.storeId) with
      | some _ =>
        let bound ← perform (.storeConflict request.nodeId request.storeId)
        perform (.reply task)
        return .error (.identityConflict request.nodeId (bound.getD ""))
      | none => readResponse task regions

def foundUnfoundedRegions : Script Bool := do
  let live ← perform .liveNodes
  if live = [] then return false else perform (.found live)

def declareTable (name : String) (regime : Regime) : Script Unit := do
  if name = "" ∨ name = defaultTableName then return
  else
    match ← perform (.allocate name regime) with
    | none => return
    | some id =>
      perform (.split id)
      perform .bumpVersion

def applyCmd : PdCmd → Script Unit
  | .reserveTs upper => perform (.reserveTs upper)
  | .heartbeat nodeId address regions now storeId => do
    perform (.bindStore nodeId storeId)
    let isNew := !(← perform .nodeAddrs).any fun e => e.1 = nodeId
    let grown ← perform (.adoptGrownVoters nodeId regions)
    perform (.heartbeat nodeId address regions now)
    let founded ← foundUnfoundedRegions
    if isNew || grown || founded then perform .bumpVersion else return
  | .declareTable name regime => do
    declareTable name regime
    let _ ← foundUnfoundedRegions
    return

def apply (payload : Bytes) : Script Unit :=
  match PdCmd.decode payload with
  | none => return
  | some cmd => applyCmd cmd

/-- What Raft gives the actor to do: a batch of committed entries, each with the handler that is parked on it, or a
heartbeat that was not accepted or whose leader lost its term. -/
inductive Turn where
  | ready (entries : List (Bytes × Option Nat))
  | refuse (task : Nat)

def applyAll : List (Bytes × Option Nat) → Script Unit
  | [] => return
  | (payload, _) :: rest => do
    apply payload
    perform .applied
    applyAll rest

def resolveAll : List Nat → Script Unit
  | [] => return
  | task :: rest => do
    perform (.resolve task)
    resolveAll rest

def actor : List Turn → Script Unit
  | [] => return
  | .ready entries :: rest => do
    applyAll entries
    resolveAll (entries.filterMap Prod.snd)
    actor rest
  | .refuse task :: rest => do
    perform (.refuse task)
    actor rest

def sweeper : List (UInt64 × UInt64) → Script Unit
  | [] => return
  | (now, timeoutMs) :: rest => do
    perform (.sweep now timeoutMs)
    sweeper rest

abbrev Outcome := Option (Except Status HeartbeatResponse)

def start (replicas : Nat) (turns : List Turn) (sweeps : List (UInt64 × UInt64))
    (requests : List (Nat × HeartbeatRequest)) : Pool Service Call Call.Reply Outcome where
  state := ⟨.fresh replicas, [], [], [], [.fresh replicas]⟩
  tasks := (do actor turns; return none) :: (do sweeper sweeps; return none) ::
    requests.mapIdx fun i r => do return some (← heartbeat r.1 (i + 2) r.2)

theorem foundUnfoundedRegions_eval (s : Service) :
    foundUnfoundedRegions.eval Call.exec s =
      ({ s with fsm := s.fsm.foundUnfoundedRegions.1 }, some s.fsm.foundUnfoundedRegions.2) := by
  change Prog.eval Call.exec (if s.fsm.members.liveNodes = [] then _ else _) s = _
  unfold PdFsm.foundUnfoundedRegions
  dsimp only
  split
  · rfl
  · rfl

theorem declareTable_eval (s : Service) (name : String) (regime : Regime) :
    (declareTable name regime).eval Call.exec s = ({ s with fsm := s.fsm.declareTable name regime }, some ()) := by
  unfold declareTable PdFsm.declareTable
  split
  · rfl
  · simp only [perform, Prog.bind_perform, Prog.eval, Call.exec, PdFsm.allocate]
    by_cases taken : s.fsm.catalog.any (·.name = name) = true
    · rw [if_pos (.inl taken), if_pos taken]
      rfl
    · by_cases last : s.fsm.nextTableId = .ofNat (2 ^ 32 - 1)
      · rw [if_pos (.inr last), if_neg taken, if_pos last]
        rfl
      · rw [if_neg (not_or.mpr ⟨taken, last⟩), if_neg taken, if_neg last]
        rfl

theorem bumpVersion_eval (s : Service) (raised : Bool) :
    Prog.eval Call.exec (if raised then perform .bumpVersion else return : Script Unit) s =
      ({ s with fsm := if raised then s.fsm.bumpVersion else s.fsm }, some ()) := by
  cases raised <;> rfl

theorem apply_eval (s : Service) (payload : Bytes) :
    (apply payload).eval Call.exec s = ({ s with fsm := s.fsm.apply payload }, some ()) := by
  unfold apply PdFsm.apply
  cases PdCmd.decode payload with
  | none => rfl
  | some cmd =>
    cases cmd with
    | reserveTs upper => rfl
    | declareTable name regime =>
      simp only [applyCmd, Prog.eval_bind, declareTable_eval, foundUnfoundedRegions_eval]
      rfl
    | heartbeat nodeId address regions now storeId =>
      simp only [applyCmd, perform, Prog.bind_perform, Prog.eval, Call.exec, Prog.eval_bind, foundUnfoundedRegions_eval]
      exact bumpVersion_eval _ _

structure Alike (a b : PdFsm) : Prop where
  version : a.version = b.version
  catalog : a.catalog = b.catalog
  nodeAddrs : a.members.nodeAddrs = b.members.nodeAddrs
  replicas : a.replicas = b.replicas

theorem Alike.refl (a : PdFsm) : Alike a a := ⟨rfl, rfl, rfl, rfl⟩

theorem Alike.trans {a b c : PdFsm} (first : Alike a b) (second : Alike b c) : Alike a c :=
  ⟨first.version.trans second.version, first.catalog.trans second.catalog, first.nodeAddrs.trans second.nodeAddrs,
    first.replicas.trans second.replicas⟩

def Call.Guard : Call → Service → Prop
  | heartbeat nodeId address _ _, s => s.reading = [] ∨ ∃ n ∈ s.fsm.members.nodes.find? nodeId, n.address = address
  | allocate name regime, s => s.reading = [] ∨ s.fsm.allocate name regime = none
  | bumpVersion, s => s.reading = []
  | _, _ => True

instance (call : Call) (s : Service) : Decidable (call.Guard s) := by
  have (name : String) (regime : Regime) : Decidable (s.fsm.allocate name regime = none) :=
    decidable_of_iff _ Option.isNone_iff_eq_none
  unfold Call.Guard
  split <;> infer_instance

def Call.Plain : Call → Prop
  | propose .. | reply _ | resolve _ | refuse _ => False
  | _ => True

structure Kept (s s' : Service) : Prop where
  parked : s'.parked = s.parked
  replies : s'.replies = s.replies
  reading : s'.reading = s.reading
  points : s.points ⊆ s'.points
  alike : s.reading = [] ∨ Alike s'.fsm s.fsm

theorem Kept.of_alike {s : Service} {fsm : PdFsm} (alike : s.reading = [] ∨ Alike fsm s.fsm) : Kept s { s with fsm } :=
  ⟨rfl, rfl, rfl, Subset.refl _, alike⟩

theorem alike_bindStore (fsm : PdFsm) (nodeId : UInt64) (storeId : String) :
    Alike (fsm.bindStore nodeId storeId) fsm := by
  obtain ⟨stores, bound⟩ := fsm.bindStore_eq nodeId storeId
  rw [bound]
  exact ⟨rfl, rfl, rfl, rfl⟩

theorem nodeAddrs_sweep (m : Membership) (now timeoutMs : UInt64) :
    (m.sweep now timeoutMs).1.nodeAddrs = m.nodeAddrs := by
  rw [← Membership.nodeAddrs_revive, Membership.revive_sweep, Membership.nodeAddrs_revive]

variable {call : Call}

theorem Call.Plain.kept (plain : call.Plain) {s : Service} (guarded : call.Guard s) : Kept s (call.exec s).1 := by
  cases call with
  | propose | reply | resolve | refuse => exact plain.elim
  | storeConflict | receive | catalogVersion | catalog | nodeAddrs | replicas | liveNodes =>
    exact .of_alike (.inr (.refl _))
  | reserveTs | adoptGrownVoters | found | split => exact .of_alike (.inr ⟨rfl, rfl, rfl, rfl⟩)
  | bindStore nodeId storeId => exact .of_alike (.inr (alike_bindStore s.fsm nodeId storeId))
  | sweep now timeoutMs => exact .of_alike (.inr ⟨rfl, rfl, nodeAddrs_sweep s.fsm.members now timeoutMs, rfl⟩)
  | bumpVersion => exact .of_alike (.inl guarded)
  | applied => exact ⟨rfl, rfl, rfl, subset_cons_self .., .inr (.refl _)⟩
  | allocate name regime =>
    rw [Call.exec]
    split
    case h_1 => exact .of_alike (.inr (.refl _))
    case h_2 fsm id taken =>
      rcases guarded with idle | none
      · exact .of_alike (.inl idle)
      · cases none.symm.trans taken
  | heartbeat nodeId address reported now =>
    refine .of_alike (guarded.imp_right ?_)
    rintro ⟨n, known, rfl⟩
    exact ⟨rfl, rfl, (Membership.nodeAddrs_heartbeat known _ reported now).mpr rfl, rfl⟩

/-- What the proof follows: the node that each handler asks for, the state that its regions are from, whether it has
answered, and the states between entries. -/
structure World where
  node : Nat → Option UInt64
  held : Nat → Option PdFsm
  left : Nat → Prop
  points : PdFsm → Prop

namespace World

def ask (w : World) (i : Nat) (nodeId : UInt64) : World := { w with node := Function.update w.node i (some nodeId) }

def hold (w : World) (i : Nat) (fsm : PdFsm) : World :=
  { w with held := Function.update w.held i (some fsm), points := fun p => w.points p ∨ p = fsm }

def leave (w : World) (i : Nat) : World := { w with left := Function.update w.left i True }

variable (w : World) (i j : Nat)

theorem node_ask (nodeId : UInt64) : (w.ask i nodeId).node j = if j = i then some nodeId else w.node j :=
  Function.update_apply ..

theorem held_hold (fsm : PdFsm) :
    (w.hold i fsm).held j = if j = i then some fsm else w.held j := Function.update_apply ..

theorem left_leave : (w.leave i).left j = if j = i then True else w.left j := Function.update_apply ..

end World

structure Inv (w : World) (s : Service) : Prop where
  points : ∀ p, w.points p → p ∈ s.points
  parked : ∀ i n, s.parked.lookup i = some n → w.node i = some n
  point : ∀ i p, w.held i = some p → w.points p
  once : ∀ i, (w.held i).isSome → (s.replies.lookup i).isSome
  reading : ∀ i p, w.held i = some p → ¬ w.left i → i ∈ s.reading ∧ Alike s.fsm p
  answered : ∀ i regions, s.replies.lookup i = some (some regions) →
    ∃ p n, w.held i = some p ∧ w.node i = some n ∧ regions = p.assignmentFor n

def World.Grows (w w' : World) : Prop := ∀ p, w.points p → w'.points p

structure Rely (i : Nat) (w w' : World) : Prop where
  grows : w.Grows w'
  node : w'.node i = w.node i
  left : w'.left i = w.left i
  held : ∀ p, w.held i = some p → w'.held i = some p

def discipline : Discipline Call Call.Reply Service World where
  exec := Call.exec
  guard := Call.Guard
  inv := Inv
  grows := World.Grows
  rely := Rely
  grows_refl _ _ := id
  grows_trans first second p passed := second p (first p passed)
  rely_refl _ _ := ⟨fun _ => id, rfl, rfl, fun _ => id⟩
  rely_trans first second := ⟨fun p passed => second.grows p (first.grows p passed), second.node.trans first.node,
    second.left.trans first.left, fun p held => second.held p (first.held p held)⟩
  rely_grows relied := relied.grows

section

variable {w : World} {s s' : Service} {i : Nat} {α : Type} {post : World → α → Prop}

theorem Inv.kept (inv : Inv w s) (kept : Kept s s') : Inv w s' where
  points p passed := kept.points (inv.points p passed)
  parked i n found := inv.parked i n (kept.parked ▸ found)
  point := inv.point
  once i held := kept.replies ▸ inv.once i held
  reading i p held stays := by
    obtain ⟨member, alike⟩ := inv.reading i p held stays
    refine ⟨kept.reading ▸ member, ?_⟩
    rcases kept.alike with idle | same
    · rw [idle] at member
      cases member
    · exact same.trans alike
  answered i regions found := inv.answered i regions (kept.replies ▸ found)

theorem safe_plain {next : call.Reply → Script α} (plain : call.Plain)
    (rest : ∀ w' s, Rely i w w' → Inv w' s → discipline.Safe i (next (call.exec s).2) w' post) :
    discipline.Safe i (.call call next) w post := by
  intro w' relied s inv guarded
  exact ⟨w', discipline.grows_refl w', fun j _ => discipline.rely_refl j w', inv.kept (plain.kept guarded),
    rest w' s relied inv⟩

theorem safe_of_performs {p : Script α} (plain : p.Performs Call.Plain) : discipline.Safe i p w fun _ _ => True := by
  induction p generalizing w with
  | ret a => exact fun _ _ => trivial
  | halt => trivial
  | call call next ih => exact safe_plain plain.1 fun w' s _ _ => ih _ (plain.2 _)

theorem Rely.refl (j : Nat) (w : World) : Rely j w w := discipline.rely_refl j w

variable {j : Nat}

theorem Rely.ask (other : j ≠ i) (nodeId : UInt64) : Rely j w (w.ask i nodeId) :=
  ⟨fun _ => id, Function.update_of_ne other .., rfl, fun _ => id⟩

theorem Rely.leave (other : j ≠ i) : Rely j w (w.leave i) :=
  ⟨fun _ => id, rfl, Function.update_of_ne other .., fun _ => id⟩

variable {task : Nat}

theorem Rely.hold (free : w.held task = none) (j : Nat) (fsm : PdFsm) : Rely j w (w.hold task fsm) where
  grows _ := .inl
  node := rfl
  left := rfl
  held p held := by
    have other : j ≠ task := by
      rintro rfl
      cases free.symm.trans held
    exact (Function.update_of_ne other ..).trans held

theorem safe_own {next : call.Reply → Script α}
    (step : ∀ w' s, Rely i w w' → Inv w' s → ∃ w'', w'.Grows w'' ∧ (∀ j, j ≠ i → Rely j w' w'') ∧
      Inv w'' (call.exec s).1 ∧ discipline.Safe i (next (call.exec s).2) w'' post) :
    discipline.Safe i (.call call next) w post :=
  fun w' relied s inv _ => step w' s relied inv

theorem Inv.propose (inv : Inv w s) (unasked : w.node i = none) (request : HeartbeatRequest) :
    Inv (w.ask i request.nodeId) { s with parked := (i, request.nodeId) :: s.parked } where
  __ := inv
  parked j n found := by
    rw [lookup_cons] at found
    rw [World.node_ask]
    split at found
    case h_1 same =>
      rw [if_pos (eq_of_beq same)]
      exact found
    case h_2 other =>
      rw [if_neg (ne_of_beq_false other)]
      exact inv.parked j n found
  answered j regions found := by
    obtain ⟨p, n, held, asked, rfl⟩ := inv.answered j regions found
    have other : j ≠ i := by
      rintro rfl
      cases unasked.symm.trans asked
    exact ⟨p, n, held, (Function.update_of_ne other ..).trans asked, rfl⟩

theorem Inv.resolve (inv : Inv w s) {nodeId : UInt64} (parked : s.parked.lookup task = some nodeId) :
    Inv (w.hold task s.fsm)
      { s with
        replies := (task, some (s.fsm.assignmentFor nodeId)) :: s.replies
        reading := task :: s.reading
        points := s.fsm :: s.points } where
  points p passed := by
    rcases passed with passed | rfl
    · exact mem_cons_of_mem _ (inv.points p passed)
    · exact mem_cons_self ..
  parked := inv.parked
  point j p held := by
    rw [World.held_hold] at held
    split at held
    · cases held
      exact .inr rfl
    · exact .inl (inv.point j p held)
  once j held := by
    rw [lookup_cons]
    split
    case h_1 => rfl
    case h_2 other =>
      rw [World.held_hold, if_neg (ne_of_beq_false other)] at held
      exact inv.once j held
  reading j p held stays := by
    rw [World.held_hold] at held
    split at held
    case isTrue same =>
      cases held
      exact ⟨same ▸ mem_cons_self .., .refl _⟩
    case isFalse =>
      obtain ⟨member, alike⟩ := inv.reading j p held stays
      exact ⟨mem_cons_of_mem _ member, alike⟩
  answered j regions found := by
    rw [lookup_cons] at found
    split at found
    case h_1 same =>
      obtain rfl := eq_of_beq same
      cases found
      exact ⟨s.fsm, nodeId, Function.update_self .., inv.parked j nodeId parked, rfl⟩
    case h_2 other =>
      obtain ⟨p, n, held, asked, rfl⟩ := inv.answered j regions found
      exact ⟨p, n, (Function.update_of_ne (ne_of_beq_false other) ..).trans held, asked, rfl⟩

theorem Inv.refuse (inv : Inv w s) (task : Nat) : Inv w { s with replies := (task, none) :: s.replies } where
  __ := inv
  once j held := by
    rw [lookup_cons]
    split
    · rfl
    · exact inv.once j held
  answered j regions found := by
    rw [lookup_cons] at found
    split at found
    · cases found
    · exact inv.answered j regions found

theorem Inv.reply (inv : Inv w s) : Inv (w.leave i) { s with reading := s.reading.filter (· ≠ i) } where
  __ := inv
  reading j p held stays := by
    have other : j ≠ i := by
      rintro rfl
      rw [World.left_leave, if_pos rfl] at stays
      exact stays trivial
    rw [World.left_leave, if_neg other] at stays
    obtain ⟨member, alike⟩ := inv.reading j p held stays
    exact ⟨mem_filter.mpr ⟨member, decide_eq_true other⟩, alike⟩

variable {next : Unit → Script α}

theorem safe_resolve
    (rest : ∀ w', discipline.Safe i (next ()) w' post) : discipline.Safe i (.call (.resolve task) next) w post := by
  refine safe_own fun w' s _ inv => ?_
  rw [Call.exec]
  split
  case h_1 nodeId parked unanswered =>
    have free : w'.held task = none := by
      by_contra held
      have answered := inv.once task (Option.isSome_iff_ne_none.mpr held)
      rw [unanswered] at answered
      cases answered
    exact ⟨w'.hold task s.fsm, fun _ => .inl, fun j _ => .hold free j s.fsm, inv.resolve parked, rest _⟩
  case h_2 => exact ⟨w', fun _ => id, fun j _ => .refl j w', inv, rest w'⟩

theorem safe_refuse
    (rest : ∀ w', discipline.Safe i (next ()) w' post) : discipline.Safe i (.call (.refuse task) next) w post := by
  refine safe_own fun w' s _ inv => ⟨w', fun _ => id, fun j _ => .refl j w', ?_, rest w'⟩
  rw [Call.exec]
  split
  · exact inv.refuse task
  · exact inv

theorem safe_reply (rest : ∀ w', w.Grows w' → discipline.Safe i (next ()) w' post) :
    discipline.Safe i (.call (.reply i) next) w post :=
  safe_own fun w' _ relied inv => ⟨w'.leave i, fun _ => id, fun _ => .leave, inv.reply, rest _ relied.grows⟩

end

variable {w : World} {i : Nat}

theorem performs_foundUnfoundedRegions : foundUnfoundedRegions.Performs Call.Plain := by
  refine ⟨trivial, fun live => ?_⟩
  change Prog.Performs Call.Plain (if live = [] then _ else _)
  split
  · trivial
  · exact ⟨trivial, fun _ => trivial⟩

theorem performs_declareTable (name : String) (regime : Regime) : (declareTable name regime).Performs Call.Plain := by
  unfold declareTable
  split
  · trivial
  · refine ⟨trivial, fun id => ?_⟩
    cases id with
    | none => trivial
    | some id => exact ⟨trivial, fun _ => ⟨trivial, fun _ => trivial⟩⟩

theorem performs_apply (payload : Bytes) : (apply payload).Performs Call.Plain := by
  unfold apply
  cases PdCmd.decode payload with
  | none => trivial
  | some cmd =>
    cases cmd with
    | reserveTs upper => exact ⟨trivial, fun _ => trivial⟩
    | declareTable name regime =>
      exact (performs_declareTable name regime).bind fun _ => performs_foundUnfoundedRegions.bind fun _ => trivial
    | heartbeat nodeId address regions now storeId =>
      refine ⟨trivial, fun _ => ⟨trivial, fun _ => ⟨trivial, fun _ => ⟨trivial, fun _ => ?_⟩⟩⟩⟩
      refine performs_foundUnfoundedRegions.bind fun founded => ?_
      split
      · exact ⟨trivial, fun _ => trivial⟩
      · trivial

theorem applyAll_safe (entries : List (Bytes × Option Nat)) :
    discipline.Safe i (applyAll entries) w fun _ _ => True := by
  refine safe_of_performs ?_
  induction entries with
  | nil => trivial
  | cons entry rest ih => exact (performs_apply entry.1).bind fun _ => ⟨trivial, fun _ => ih⟩

theorem resolveAll_safe (tasks : List Nat) : discipline.Safe i (resolveAll tasks) w fun _ _ => True := by
  induction tasks generalizing w with
  | nil => exact fun _ _ => trivial
  | cons task rest ih => exact safe_resolve fun _ => ih

theorem actor_safe (turns : List Turn) : discipline.Safe i (actor turns) w fun _ _ => True := by
  induction turns generalizing w with
  | nil => exact fun _ _ => trivial
  | cons turn rest ih =>
    cases turn with
    | ready entries => exact (applyAll_safe entries).bind fun _ _ _ _ => (resolveAll_safe _).bind fun _ _ _ _ => ih
    | refuse task => exact safe_refuse fun _ => ih

theorem sweeper_safe (sweeps : List (UInt64 × UInt64)) : discipline.Safe i (sweeper sweeps) w fun _ _ => True := by
  refine safe_of_performs ?_
  induction sweeps with
  | nil => trivial
  | cons sweep rest ih => exact ⟨trivial, fun _ => ih⟩

variable {nodeId : UInt64}

theorem awaitRegions_safe (asked : w.node i = some nodeId) (stays : ¬ w.left i) (polls : Nat) :
    discipline.Safe i (awaitRegions i polls) w fun w' answer => ¬ w'.left i ∧
      ∀ regions ∈ answer, ∃ p, w'.held i = some p ∧ regions = p.assignmentFor nodeId := by
  induction polls generalizing w with
  | zero => trivial
  | succ polls ih =>
    refine safe_plain trivial fun w' s relied inv => ?_
    have asked' := relied.node.trans asked
    have stays' : ¬ w'.left i := relied.left ▸ stays
    cases found : s.replies.lookup i with
    | none =>
      simp only [Call.exec, found]
      exact ih asked' stays'
    | some answer =>
      simp only [Call.exec, found]
      intro w'' later
      refine ⟨later.left ▸ stays', fun regions member => ?_⟩
      obtain ⟨p, n, held, asks, rfl⟩ := inv.answered i regions (found.trans (congrArg some member))
      cases asks.symm.trans asked'
      exact ⟨p, later.held p held, rfl⟩

def Consistent (nodeId : UInt64) (w : World) (result : Except Status HeartbeatResponse) : Prop :=
  ∀ response, result = .ok response → ∃ p, w.points p ∧ response = p.heartbeatResponse nodeId

variable {p : PdFsm}

theorem safe_read {α : Type} {post : World → α → Prop} {next : call.Reply → Script α}
    (plain : call.Plain) (held : w.held i = some p) (stays : ¬ w.left i)
    (rest : ∀ w' s, w'.held i = some p → ¬ w'.left i → w'.points p → Alike s.fsm p →
      discipline.Safe i (next (call.exec s).2) w' post) :
    discipline.Safe i (.call call next) w post := by
  refine safe_plain plain fun w' s relied inv => ?_
  have held' := relied.held p held
  have stays' : ¬ w'.left i := relied.left ▸ stays
  exact rest w' s held' stays' (inv.point i p held') (inv.reading i p held' stays').2

theorem reads_safe (held : w.held i = some p) (stays : ¬ w.left i) :
    discipline.Safe i (readResponse i (p.assignmentFor nodeId)) w (Consistent nodeId) := by
  refine safe_read trivial held stays fun w first held stays _ version => ?_
  refine safe_read trivial held stays fun w second held stays _ catalog => ?_
  refine safe_read trivial held stays fun w third held stays _ nodeAddrs => ?_
  refine safe_read trivial held stays fun w fourth held stays passed replicas => ?_
  refine safe_reply fun w' grown v relied response answered => ?_
  refine ⟨p, relied.grows p (grown p passed), ?_⟩
  cases answered
  simp only [Call.exec, version.version, nodeAddrs.nodeAddrs, replicas.replicas, PdFsm.sortedCatalog, catalog.catalog]
  rfl

theorem heartbeat_safe (polls : Nat) (request : HeartbeatRequest) (unasked : w.node i = none) (stays : ¬ w.left i) :
    discipline.Safe i (heartbeat polls i request) w (Consistent request.nodeId) := by
  refine safe_plain trivial fun w s relied _ => ?_
  replace unasked := relied.node.trans unasked
  replace stays : ¬ w.left i := relied.left ▸ stays
  rw [Call.exec]
  cases s.fsm.storeConflict request.nodeId request.storeId with
  | some bound => exact fun _ _ => nofun
  | none =>
    refine safe_own fun w s relied inv => ⟨w.ask i request.nodeId, fun _ => id, fun _ other => .ask other _,
      inv.propose (relied.node.trans unasked) request, ?_⟩
    have asked : (w.ask i request.nodeId).node i = some request.nodeId := Function.update_self ..
    replace stays : ¬ (w.ask i request.nodeId).left i := relied.left ▸ stays
    refine (awaitRegions_safe asked stays polls).bind fun w answer _ received => ?_
    obtain ⟨stays, received⟩ := received
    cases answer with
    | none => exact fun _ _ => nofun
    | some regions =>
      obtain ⟨p, held, rfl⟩ := received regions rfl
      refine safe_plain trivial fun w s relied _ => ?_
      replace held := relied.held p held
      replace stays : ¬ w.left i := relied.left ▸ stays
      rw [Call.exec]
      cases s.fsm.storeConflict request.nodeId request.storeId with
      | some _ => exact safe_plain trivial fun _ _ _ _ => safe_reply fun _ _ _ _ => nofun
      | none => exact reads_safe held stays

variable (replicas : Nat) (turns : List Turn) (sweeps : List (UInt64 × UInt64)) (requests : List (Nat × HeartbeatRequest))

def posts (i : Nat) (w : World) (outcome : Outcome) : Prop :=
  ∀ r, 2 ≤ i → requests[i - 2]? = some r → ∀ result, outcome = some result → Consistent r.2.nodeId w result

theorem start_sound : discipline.Sound (posts requests) ⟨fun _ => none, fun _ => none, fun _ => False, fun _ => False⟩
    (start replicas turns sweeps requests) := by
  refine ⟨⟨nofun, nofun, nofun, nofun, nofun, nofun⟩, fun i p found => ?_⟩
  match i with
  | 0 =>
    cases found
    exact (actor_safe turns).bind fun _ _ _ _ _ _ _ impossible => absurd impossible (by decide)
  | 1 =>
    cases found
    exact (sweeper_safe sweeps).bind fun _ _ _ _ _ _ _ impossible => absurd impossible (by decide)
  | i + 2 =>
    simp only [start, getElem?_cons_succ, getElem?_mapIdx, Option.map_eq_some_iff] at found
    obtain ⟨r, request, rfl⟩ := found
    refine (heartbeat_safe r.1 r.2 rfl id).bind fun w result _ consistent w' relied r' _ same result' returned => ?_
    cases Option.some.inj (request.symm.trans same)
    cases returned
    intro response answered
    obtain ⟨p, passed, equal⟩ := consistent response answered
    exact ⟨p, relied.grows p passed, equal⟩

def OfOneState (pool : Pool Service Call Call.Reply Outcome) (i : Nat) (nodeId : UInt64) : Prop :=
  ∀ response, pool.result i = some (some (.ok response)) →
    ∃ p ∈ pool.state.points, response = p.heartbeatResponse nodeId

def registration : HeartbeatRequest := ⟨1, "a", [], 0, "s"⟩

def registered : Bytes × Option Nat := ((PdCmd.heartbeat 1 "a" [] 0 "s").encode, some 2)

def declared : Bytes × Option Nat := ((PdCmd.declareTable "t" .cp).encode, none)

def declaring : Pool Service Call Call.Reply Outcome :=
  start 3 [.ready [registered], .ready [declared]] [] [(1, registration)]

def asked : List Nat := replicate 2 2 ++ replicate 9 0

def overtaken : List Nat := asked ++ replicate 6 0 ++ replicate 7 2

/-- The handler answers the one region of version 2 with version 3. -/
theorem response_overtaken : ¬ OfOneState (declaring.run Call.exec overtaken) 2 1 := by
  intro consistent
  obtain ⟨response, answered, regions, version⟩ : ∃ response, (declaring.run Call.exec overtaken).result 2 =
      some (some (.ok response)) ∧ response.regions.length = 1 ∧ response.catalogVersion = 3 :=
    ⟨_, rfl, by decide +kernel, by decide +kernel⟩
  obtain ⟨p, member, same⟩ := consistent response answered
  have carved : ∀ p ∈ (declaring.run Call.exec overtaken).state.points, p.version = 3 → (p.assignmentFor 1).length ≠ 1 := by
    decide +kernel
  rw [same] at regions version
  exact carved p member version regions

/-- A heartbeat is answered with the response of one state between two entries, in every run in which nothing that a
handler reads changes while one is reading. -/
theorem response_of_one_state (schedule : List Nat)
    (guarded : (start replicas turns sweeps requests).Guarded Call.exec Call.Guard schedule) (i : Nat)
    (r : Nat × HeartbeatRequest) (request : requests[i]? = some r) :
    OfOneState ((start replicas turns sweeps requests).run Call.exec schedule) (i + 2) r.2.nodeId := by
  intro response answered
  obtain ⟨w, -, sound⟩ := (start_sound replicas turns sweeps requests).run guarded
  obtain ⟨p, passed, same⟩ := sound.result answered r (Nat.le_add_left 2 i) request _ rfl response rfl
  exact ⟨p, sound.1.points p passed, same⟩

def inTime : List Nat := asked ++ replicate 7 2 ++ replicate 6 0

theorem response_of_one_state_inTime :
    ∃ response, (declaring.run Call.exec inTime).result 2 = some (some (.ok response)) ∧ response.regions.length = 1 ∧
      response.catalogVersion = 2 ∧ OfOneState (declaring.run Call.exec inTime) 2 1 := by
  refine ⟨_, rfl, by decide +kernel, by decide +kernel, ?_⟩
  exact response_of_one_state 3 [.ready [registered], .ready [declared]] [] [(1, registration)] inTime
    (by decide +kernel) 0 (1, registration) rfl

end Service

end Arcux.Pd
