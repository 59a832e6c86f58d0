import Arcux.Pd.Image
import Arcux.Raft.Cluster

namespace Arcux.Pd

open Data Raft
open scoped Codec.ByteOrder Engine

def reserveWindow : UInt64 := (1 : UInt64) <<< (16 : UInt64)

def compactThreshold : Nat := 64

/-- A Raft node that drives the state machine, and the cursor of the timestamps it hands out. `pendingReset` is the index
of the entry that a new leader appends, while it is not applied. -/
structure PdReplica where
  node : RaftNode
  fsm : PdFsm
  served : UInt64 := 0
  wasLeader : Bool := false
  pendingReset : Option Nat := none

namespace PdReplica

def recover (r : PdReplica) : PdReplica :=
  match r.node.storage.snap with
  | none => r
  | some snap =>
    let fsm := (r.fsm.restore snap.data).1
    { r with fsm := fsm, served := fsm.tsoUpper }

def withStorage (id : NodeId) (voters : List NodeId) (storage : MemStorage) : PdReplica :=
  recover { node := .new (.new id voters) storage, fsm := {} }

def isLeader (r : PdReplica) : Bool := r.node.isLeader

def tick (r : PdReplica) : PdReplica := { r with node := r.node.tick }

def step (r : PdReplica) (m : Message) : PdReplica := { r with node := r.node.step m }

def propose (r : PdReplica) (cmd : PdCmd) : Except ProposeError (PdReplica × Nat) :=
  (r.node.propose cmd.encode).map fun accepted => ({ r with node := accepted.1 }, accepted.2)

/-! The parts of `ready`. -/

def announce (r : PdReplica) : PdReplica :=
  let leaderNow := r.isLeader
  let r := if leaderNow ∧ ¬ r.wasLeader then
      match r.node.propose [] with
      | .ok (node, index) => { r with node := node, pendingReset := some index }
      | .error _ => { r with pendingReset := none }
    else r
  let r := if leaderNow then r else { r with pendingReset := none }
  { r with wasLeader := leaderNow }

def adoptSnapshot (r : PdReplica) : PdReplica :=
  let (node, snapshot) := r.node.takeSnapshot
  match snapshot with
  | some (_, data) =>
    let fsm := (r.fsm.restore data).1
    { r with node := node, fsm := fsm, served := max r.served fsm.tsoUpper }
  | none => { r with node := node }

def applyEntry (fsm : PdFsm) (e : Entry) : PdFsm :=
  if e.entryType = .normal ∧ e.data ≠ [] then fsm.apply e.data else fsm

def applyCommitted (r : PdReplica) : PdReplica × List Nat :=
  let (node, entries) := r.node.takeCommitted
  ({ r with node := node, fsm := entries.foldl applyEntry r.fsm }, entries.map Entry.index)

def resetCursor (r : PdReplica) : PdReplica :=
  match r.pendingReset with
  | some index =>
    if index ≤ r.node.lastApplied then { r with served := r.fsm.tsoUpper, pendingReset := none } else r
  | none => r

def boundLog (r : PdReplica) : PdReplica :=
  if r.node.storage.firstIndex + compactThreshold ≤ r.node.lastApplied + 1 then
    { r with node := (r.node.compact r.node.lastApplied r.fsm.snapshot).getD r.node }
  else r

def ready (r : PdReplica) : PdReplica × List Message × List Nat :=
  let (r, committed) := r.announce.adoptSnapshot.applyCommitted
  let r := r.resetCursor.boundLog
  let (node, messages) := r.node.takeMessages
  ({ r with node := node }, messages, committed)

theorem boundLog_fsm (r : PdReplica) : r.boundLog.fsm = r.fsm := by
  unfold boundLog
  split <;> rfl

theorem ready_eq (r : PdReplica) : r.ready = let done := r.announce.adoptSnapshot.applyCommitted
    let bounded := done.1.resetCursor.boundLog
    ({ bounded with node := bounded.node.takeMessages.1 }, bounded.node.messages, done.2) := rfl

def handOut (r : PdReplica) (count : UInt64) : PdReplica × Option UInt64 :=
  let count := max count 1
  if r.isLeader ∧ r.served + count ≤ r.fsm.tsoUpper then ({ r with served := r.served + count }, some r.served)
  else (r, none)

def reserveTsCmd (r : PdReplica) (count : UInt64) : PdCmd :=
  let need := r.served + max count 1
  .reserveTs (max need r.fsm.tsoUpper + reserveWindow)

end PdReplica

structure Handed where
  node : NodeId
  term : Nat
  first : UInt64
  count : UInt64
  deriving DecidableEq

namespace Actor

abbrev Ticket := Nat

inductive Cmd where
  | tick
  | step (m : Envelope)
  | stepReply (m : Envelope) (tx : Ticket)
  | heartbeat (nodeId : UInt64) (address : String) (regions : List ReplicaSet) (now : UInt64) (storeId : String)
      (tx : Ticket)
  | allocTs (count : UInt64) (tx : Ticket)
  | declareTable (name : String) (regime : Regime) (tx : Ticket)
  deriving DecidableEq

def Cmd.brings : Cmd → Option Envelope
  | .step m | .stepReply m _ => some m
  | _ => none

inductive Answer where
  | heartbeat (tx : Ticket) (assignment : Option (List ReplicaSet))
  | allocTs (tx : Ticket) (range : Option (UInt64 × UInt64))
  | declareTable (tx : Ticket) (declared : Option (TableId × ReplicaSet × UInt64))
  | reply (tx : Ticket) (message : Option Message)
  deriving DecidableEq

end Actor

open Actor in
structure Actor where
  replica : PdReplica
  pendingHb : OrdMap Nat (UInt64 × Ticket) := .empty
  pendingDecl : OrdMap Nat (String × Ticket) := .empty
  pendingTs : OrdMap Nat (UInt64 × Ticket) := .empty

namespace Actor

structure Turn where
  actor : Actor
  messages : List Message := []
  answers : List Answer := []
  handed : List Handed := []

def Turn.answer (t : Turn) (a : Answer) : Turn := { t with answers := t.answers ++ [a] }

def Turn.handOut (t : Turn) (count : UInt64) : Turn × Option UInt64 :=
  match t.actor.replica.handOut count with
  | (replica, some first) =>
    let handed : Handed := ⟨replica.node.id, replica.node.currentTerm, first, max count 1⟩
    ({ t with actor.replica := replica, handed := t.handed ++ [handed] }, some first)
  | (_, none) => (t, none)

def Turn.submit (t : Turn) (cmd : PdCmd) (park : Actor → Nat → Actor) (refusal : Answer) : Turn :=
  match t.actor.replica.propose cmd with
  | .ok (replica, index) => { t with actor := park { t.actor with replica := replica } index }
  | .error _ => t.answer refusal

def Turn.execute (t : Turn) : Cmd → Turn
  | .tick => { t with actor.replica := t.actor.replica.tick }
  | .step m | .stepReply m _ => { t with actor.replica := t.actor.replica.step m.message }
  | .heartbeat nodeId address regions now storeId tx =>
    if ¬ t.actor.replica.isLeader then t.answer (.heartbeat tx none)
    else t.submit (.heartbeat nodeId address regions now storeId)
      (fun a index => { a with pendingHb := a.pendingHb.insert index (nodeId, tx) }) (.heartbeat tx none)
  | .declareTable name regime tx =>
    if ¬ t.actor.replica.isLeader then t.answer (.declareTable tx none)
    else t.submit (.declareTable name regime)
      (fun a index => { a with pendingDecl := a.pendingDecl.insert index (name, tx) }) (.declareTable tx none)
  | .allocTs count tx =>
    if ¬ t.actor.replica.isLeader then t.answer (.allocTs tx none)
    else
      match t.handOut count with
      | (t, some first) => t.answer (.allocTs tx (some (first, count)))
      | (t, none) => t.submit (t.actor.replica.reserveTsCmd count)
          (fun a index => { a with pendingTs := a.pendingTs.insert index (count, tx) }) (.allocTs tx none)

def Turn.route (t : Turn) (cmd : Cmd) (messages : List Message) : Turn :=
  let t := { t with messages := messages }
  match cmd with
  | .stepReply m tx =>
    t.answer (.reply tx (messages.find? fun reply => reply.dest = m.message.sender ∧ reply.body.isResponse))
  | _ => t

theorem Turn.route_frame (t : Turn) (cmd : Cmd) (messages : List Message) :
    (t.route cmd messages).actor = t.actor ∧ (t.route cmd messages).handed = t.handed ∧
      (t.route cmd messages).messages = messages := by
  cases cmd <;> exact ⟨rfl, rfl, rfl⟩

def Turn.resolveHb (t : Turn) (index : Nat) : Turn :=
  match t.actor.pendingHb.find? index with
  | some (nodeId, tx) =>
    { t with actor.pendingHb := t.actor.pendingHb.erase index }.answer
      (.heartbeat tx (some (t.actor.replica.fsm.assignmentFor nodeId)))
  | none => t

def declared (fsm : PdFsm) (name : String) : Option (TableId × ReplicaSet × UInt64) := do
  let id ← fsm.tableId name
  let rs ← fsm.assignment.find? fun rs => rs.region.start = tablePrefix id
  return (id, rs, fsm.version)

def Turn.resolveDecl (t : Turn) (index : Nat) : Turn :=
  match t.actor.pendingDecl.find? index with
  | some (name, tx) =>
    { t with actor.pendingDecl := t.actor.pendingDecl.erase index }.answer
      (.declareTable tx (declared t.actor.replica.fsm name))
  | none => t

def Turn.resolveTs (t : Turn) (index : Nat) : Turn :=
  match t.actor.pendingTs.find? index with
  | some (count, tx) =>
    let (t, first) := { t with actor.pendingTs := t.actor.pendingTs.erase index }.handOut count
    t.answer (.allocTs tx (first.map fun first => (first, count)))
  | none => t

def Turn.resolve (t : Turn) (index : Nat) : Turn := ((t.resolveHb index).resolveDecl index).resolveTs index

theorem Turn.resolveDecl_frame (t : Turn) (index : Nat) :
    ((t.resolveHb index).resolveDecl index).actor.replica = t.actor.replica ∧
    ((t.resolveHb index).resolveDecl index).actor.pendingTs = t.actor.pendingTs ∧
    ((t.resolveHb index).resolveDecl index).handed = t.handed ∧
    ((t.resolveHb index).resolveDecl index).messages = t.messages := by
  unfold Turn.resolveDecl Turn.resolveHb
  cases t.actor.pendingHb.find? index <;> split <;> exact ⟨rfl, rfl, rfl, rfl⟩

def Turn.failParked (t : Turn) : Turn :=
  if ¬ t.actor.replica.isLeader then
    { t with
      actor := { replica := t.actor.replica }
      answers := t.answers ++ t.actor.pendingHb.entries.map (fun e => .heartbeat e.2.2 none) ++
        t.actor.pendingTs.entries.map (fun e => .allocTs e.2.2 none) ++
        t.actor.pendingDecl.entries.map (fun e => .declareTable e.2.2 none) }
  else t

def turn (a : Actor) (cmd : Cmd) : Turn :=
  let t := { actor := a : Turn }.execute cmd
  let (replica, messages, committed) := t.actor.replica.ready
  let t := { t with actor.replica := replica }.route cmd messages
  (committed.foldl Turn.resolve t).failParked

end Actor

structure PdCluster where
  actors : NodeId → Actor
  incarnation : NodeId → Nat
  net : List Envelope

inductive GroupEvent where
  | command (i : NodeId) (cmd : Actor.Cmd)
  | restart (i : NodeId)
  | sweep (i : NodeId) (now timeoutMs : UInt64)
  deriving DecidableEq

namespace PdCluster

def launch (replicas : Nat) (id : NodeId) (voters : List NodeId) (storage : MemStorage) : Actor :=
  let replica := PdReplica.withStorage id voters storage
  { replica := { replica with fsm := replica.fsm.setReplicas replicas } }

def start (replicas : Nat) (voters : List NodeId) : PdCluster where
  actors := fun i => launch replicas i voters {}
  incarnation := fun _ => 0
  net := []

def cluster (g : PdCluster) : Cluster := ⟨fun i => (g.actors i).replica.node, g.incarnation, g.net⟩

def enabled (g : PdCluster) : GroupEvent → Bool
  | .command i cmd => cmd.brings.all fun m => m ∈ g.net ∧ m.message.dest = i
  | _ => true

def tag (g : PdCluster) (i : NodeId) (cmd : Actor.Cmd) (msg : Message) : Envelope :=
  match cmd.brings with
  | some m => ⟨msg, if msg.body.isResponse then m.incarnation else g.incarnation i⟩
  | none => ⟨msg, g.incarnation i⟩

def exec (replicas : Nat) (g : PdCluster) (event : GroupEvent) : PdCluster :=
  if g.enabled event then
    match event with
    | .command i cmd =>
      let t := (g.actors i).turn cmd
      { g with actors := Function.update g.actors i t.actor, net := g.net ++ t.messages.map (g.tag i cmd) }
    | .restart i =>
      let node := (g.actors i).replica.node
      { g with
        actors := Function.update g.actors i (launch replicas node.id node.bootstrapConf node.storage)
        incarnation := Function.update g.incarnation i (g.incarnation i + 1) }
    | .sweep i now timeoutMs =>
      let a := g.actors i
      { g with actors := Function.update g.actors i { a with replica.fsm := a.replica.fsm.sweep now timeoutMs } }
  else g

def run (replicas : Nat) (g : PdCluster) (events : List GroupEvent) : PdCluster := events.foldl (exec replicas) g

def hands (g : PdCluster) (event : GroupEvent) : List Handed :=
  if g.enabled event then
    match event with
    | .command i cmd => ((g.actors i).turn cmd).handed
    | _ => []
  else []

def handed (replicas : Nat) : PdCluster → List GroupEvent → List Handed
  | _, [] => []
  | g, event :: rest => g.hands event ++ handed replicas (g.exec replicas event) rest

end PdCluster

end Arcux.Pd
