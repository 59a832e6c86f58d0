import Arcux.Raft.Cluster

namespace Arcux.Region

open Codec Raft

instance decidableEqExcept {ε α : Type} [DecidableEq ε] [DecidableEq α] : DecidableEq (Except ε α)
  | .error a, .error b => decidable_of_iff (a = b) (Except.error.injEq a b).symm.to_iff
  | .ok a, .ok b => decidable_of_iff (a = b) (Except.ok.injEq a b).symm.to_iff
  | .error _, .ok _ => .isFalse nofun
  | .ok _, .error _ => .isFalse nofun

structure Machine (σ ε : Type) where
  apply : σ → Bytes → σ × Except ε Unit
  snapshot : σ → Bytes
  restore : σ → Bytes → σ

abbrev Ticket := Nat

inductive ProposeResult (ε : Type) where
  | applied (outcome : Except ε Unit)
  | notLeader (leaderHint : Option NodeId)
  | undetermined
  deriving DecidableEq

inductive ReadResult where
  | ready
  | notLeader (leaderHint : Option NodeId)
  deriving DecidableEq

inductive Answer (ε : Type) where
  | proposal (tx : Ticket) (result : ProposeResult ε)
  | read (tx : Ticket) (result : ReadResult)
  | transfer (tx : Ticket) (accepted : Bool)
  | reply (tx : Ticket) (message : Option Message)
  deriving DecidableEq

inductive Cmd where
  | tick
  | step (m : Envelope)
  | stepReply (m : Envelope) (tx : Ticket)
  | propose (data : Bytes) (tx : Ticket)
  | proposeConf (cc : ConfChange) (tx : Ticket)
  | readIndex (tx : Ticket)
  | transferLeader (target : NodeId) (tx : Ticket)
  deriving DecidableEq

structure Waiter where
  index : Nat
  tx : Ticket
  parked : Nat
  deriving DecidableEq

structure PendingRead where
  ctx : Nat
  tx : Ticket
  index : Option Nat
  deriving DecidableEq

def PendingRead.isReady (read : PendingRead) (applied : Nat) : Bool := read.index.any (· ≤ applied)

structure Driver (σ : Type) where
  engine : σ
  pending : List Waiter := []
  reads : List PendingRead := []
  nextReadCtx : Nat := 0
  wasLeader : Bool := false

def Cmd.action {σ : Type} (i : NodeId) (driver : Driver σ) : Cmd → Action
  | tick => .tick i
  | step m | stepReply m _ => .deliver m
  | propose data _ => .propose i data
  | proposeConf cc _ => .proposeConfChange i cc
  | readIndex _ => .readIndex i (driver.nextReadCtx + 1)
  | transferLeader target _ => .transferLeadership i target

def Driver.isElected {σ : Type} (driver : Driver σ) (node : RaftNode) : Bool := node.role = .leader ∧ ¬ driver.wasLeader

def Driver.call {σ : Type} (driver : Driver σ) (i : NodeId) (node : RaftNode) (cmd : Cmd) : RaftNode :=
  let called := (cmd.action i driver).perform node
  if driver.isElected called then (Action.propose i []).perform called else called

structure Applied (σ ε : Type) where
  entry : Entry
  before : σ
  outcome : Except ε Unit
  deriving DecidableEq

structure Turn (σ ε : Type) where
  node : RaftNode
  driver : Driver σ
  messages : List Message := []
  answers : List (Answer ε) := []
  applied : List (Applied σ ε) := []

def compactThreshold : Nat := 64

def proposalTimeout : Nat := 5000

/-- A change of membership took effect in the core already, so the state machine has nothing to run for it. -/
def Machine.run {σ ε : Type} (machine : Machine σ ε) (engine : σ) (e : Entry) : σ × Except ε Unit :=
  if e.entryType = .confChange then (engine, .ok ()) else machine.apply engine e.data

namespace Turn

variable {σ ε : Type}

def answer (t : Turn σ ε) (a : Answer ε) : Turn σ ε := { t with answers := t.answers ++ [a] }

def park (t : Turn σ ε) (index : Nat) (tx : Ticket) : Turn σ ε :=
  { t with driver.pending := t.driver.pending.filter (·.index ≠ index) ++ [⟨index, tx, 0⟩] }

def execute (t : Turn σ ε) : Cmd → Turn σ ε
  | .tick => { t with node := t.node.tick }
  | .step m | .stepReply m _ => { t with node := t.node.step m.message }
  | .readIndex tx =>
    let ctx := t.driver.nextReadCtx + 1
    let t := { t with driver.nextReadCtx := ctx }
    match t.node.readIndex ctx with
    | .ok node => { t with node := node, driver.reads := t.driver.reads.filter (·.ctx ≠ ctx) ++ [⟨ctx, tx, none⟩] }
    | .error _ => t.answer (.read tx (.notLeader t.node.leaderId))
  | .propose data tx => match t.node.propose data with
    | .ok (node, index) => { t with node := node }.park index tx
    | .error _ => t.answer (.proposal tx (.notLeader t.node.leaderId))
  | .proposeConf cc tx => match t.node.proposeConfChange cc with
    | .ok (node, index) => { t with node := node }.park index tx
    | .error _ => t.answer (.proposal tx (.notLeader t.node.leaderId))
  | .transferLeader target tx => match t.node.transferLeadership target with
    | .ok node => { t with node := node }.answer (.transfer tx true)
    | .error _ => t.answer (.transfer tx false)

def announce (t : Turn σ ε) : Turn σ ε :=
  let node := if t.driver.isElected t.node then
      match t.node.propose [] with
      | .ok (node, _) => node
      | .error _ => t.node
    else t.node
  { t with node := node, driver.wasLeader := node.role = .leader }

def route (t : Turn σ ε) (cmd : Cmd) : Turn σ ε :=
  let (node, messages) := t.node.takeMessages
  let t := { t with node := node, messages := messages }
  match cmd with
  | .stepReply m tx =>
    t.answer (.reply tx (messages.find? (fun reply => reply.dest = m.message.sender ∧ reply.body.isResponse)))
  | _ => t

def load (machine : Machine σ ε) (t : Turn σ ε) : Turn σ ε :=
  let (node, snapshot) := t.node.takeSnapshot
  match snapshot with
  | some (_, data) => { t with node := node, driver.engine := machine.restore t.driver.engine data }
  | none => { t with node := node }

def applyEntry (machine : Machine σ ε) (t : Turn σ ε) (e : Entry) : Turn σ ε :=
  let (engine, outcome) := machine.run t.driver.engine e
  let waiter := t.driver.pending.find? (·.index = e.index)
  let t := { t with
    driver.engine := engine
    driver.pending := t.driver.pending.filter (·.index ≠ e.index)
    applied := t.applied ++ [⟨e, t.driver.engine, outcome⟩] }
  match waiter with
  | some w => t.answer (.proposal w.tx (.applied outcome))
  | none => t

def applyCommitted (machine : Machine σ ε) (t : Turn σ ε) : Turn σ ε :=
  t.node.takeCommitted.2.foldl (applyEntry machine) { t with node := t.node.takeCommitted.1 }

def isLong (t : Turn σ ε) : Bool := t.node.storage.firstIndex + compactThreshold ≤ t.node.lastApplied + 1

def boundLog (machine : Machine σ ε) (t : Turn σ ε) : Turn σ ε :=
  if t.isLong then
    { t with node := (t.node.compact t.node.lastApplied (machine.snapshot t.driver.engine)).getD t.node }
  else t

def confirmReads (t : Turn σ ε) : Turn σ ε :=
  let (node, states) := t.node.takeReadStates
  let reads := states.foldl (fun reads state =>
    reads.map (fun read => if read.ctx = state.1 then { read with index := some state.2 } else read)) t.driver.reads
  let ready := fun read : PendingRead => read.isReady node.lastApplied
  { t with
    node := node
    driver.reads := reads.filter (fun read => ¬ ready read)
    answers := t.answers ++ (reads.filter ready).map (fun read => .read read.tx .ready) }

def sweep (t : Turn σ ε) : Turn σ ε :=
  if t.node.role ≠ .leader then
    { t with
      driver.pending := []
      driver.reads := []
      answers := t.answers ++ t.driver.pending.map (fun w => .proposal w.tx .undetermined) ++
        t.driver.reads.map (fun read => .read read.tx (.notLeader t.node.leaderId)) }
  else t

def expire (tickMs : Nat) (t : Turn σ ε) (cmd : Cmd) : Turn σ ε :=
  if cmd = .tick then
    let waiting := t.driver.pending.map (fun w => { w with parked := w.parked + 1 })
    let expired := fun w : Waiter => proposalTimeout / max tickMs 1 ≤ w.parked
    { t with
      driver.pending := waiting.filter (fun w => ¬ expired w)
      answers := t.answers ++ (waiting.filter expired).map (fun w => .proposal w.tx .undetermined) }
  else t

/-! What each part of the loop does to the node. -/

section

variable (t : Turn σ ε) (cmd : Cmd) (machine : Machine σ ε) (i : NodeId)

theorem execute_node : (t.execute cmd).node = (cmd.action i t.driver).perform t.node := by
  cases cmd with
  | tick | step | stepReply => rfl
  | readIndex tx =>
    simp only [execute, Cmd.action, Action.perform]
    cases t.node.readIndex (t.driver.nextReadCtx + 1) <;> rfl
  | propose data tx =>
    simp only [execute, Cmd.action, Action.perform]
    cases t.node.propose data <;> rfl
  | proposeConf cc tx =>
    simp only [execute, Cmd.action, Action.perform]
    cases t.node.proposeConfChange cc <;> rfl
  | transferLeader target tx =>
    simp only [execute, Cmd.action, Action.perform]
    cases t.node.transferLeadership target <;> rfl

theorem execute_wasLeader : (t.execute cmd).driver.wasLeader = t.driver.wasLeader := by
  cases cmd <;> simp only [execute] <;> split <;> rfl

theorem announce_node : (t.execute cmd).announce.node = t.driver.call i t.node cmd := by
  have same : ∀ node, (t.execute cmd).driver.isElected node = t.driver.isElected node := by
    intro node
    rw [Driver.isElected, Driver.isElected, execute_wasLeader]
  unfold announce Driver.call
  simp only [same, execute_node t cmd i]
  rfl

@[simp] theorem route_node : (t.route cmd).node = t.node.takeMessages.1 := by
  unfold route
  cases cmd <;> rfl

@[simp] theorem route_messages : (t.route cmd).messages = t.node.messages := by
  unfold route
  cases cmd <;> rfl

@[simp] theorem load_node : (t.load machine).node = t.node.takeSnapshot.1 := by
  unfold load
  simp only
  split <;> rfl

@[simp] theorem load_messages : (t.load machine).messages = t.messages := by
  unfold load
  simp only
  split <;> rfl

theorem applyEntry_node (e : Entry) : (t.applyEntry machine e).node = t.node := by
  unfold applyEntry
  simp only
  split <;> rfl

theorem applyEntry_messages (e : Entry) : (t.applyEntry machine e).messages = t.messages := by
  unfold applyEntry
  simp only
  split <;> rfl

theorem foldl_kept {α : Type} {f : Turn σ ε → α} (kept : ∀ t e, f (applyEntry machine t e) = f t)
    (entries : List Entry) : f (entries.foldl (applyEntry machine) t) = f t := by
  induction entries generalizing t with
  | nil => rfl
  | cons e rest ih => exact (ih _).trans (kept t e)

@[simp] theorem applyCommitted_node : (t.applyCommitted machine).node = t.node.takeCommitted.1 :=
  foldl_kept _ machine (fun t e => t.applyEntry_node machine e) _

@[simp] theorem applyCommitted_messages : (t.applyCommitted machine).messages = t.messages :=
  foldl_kept _ machine (fun t e => t.applyEntry_messages machine e) _

theorem boundLog_node : (t.boundLog machine).node =
    if t.isLong then (Action.compact i t.node.lastApplied (machine.snapshot t.driver.engine)).perform t.node
    else t.node := by
  unfold boundLog
  split <;> rfl

@[simp] theorem boundLog_messages : (t.boundLog machine).messages = t.messages := by
  unfold boundLog
  split <;> rfl

@[simp] theorem confirmReads_node : t.confirmReads.node = t.node.takeReadStates.1 := rfl

@[simp] theorem confirmReads_messages : t.confirmReads.messages = t.messages := rfl

@[simp] theorem sweep_node : t.sweep.node = t.node := by
  unfold sweep
  split <;> rfl

@[simp] theorem sweep_messages : t.sweep.messages = t.messages := by
  unfold sweep
  split <;> rfl

@[simp] theorem expire_node (tickMs : Nat) : (t.expire tickMs cmd).node = t.node := by
  unfold expire
  split <;> rfl

@[simp] theorem expire_messages (tickMs : Nat) : (t.expire tickMs cmd).messages = t.messages := by
  unfold expire
  split <;> rfl

end

end Turn

section

variable {σ ε : Type} (machine : Machine σ ε)

def serve (node : RaftNode) (driver : Driver σ) (cmd : Cmd) : Turn σ ε :=
  let t : Turn σ ε := ⟨node, driver, [], [], []⟩
  (((t.execute cmd).announce.route cmd).load machine).applyCommitted machine

def turn (tickMs : Nat) (node : RaftNode) (driver : Driver σ) (cmd : Cmd) : Turn σ ε :=
  (((serve machine node driver cmd).boundLog machine).confirmReads.sweep).expire tickMs cmd

theorem serve_node (i : NodeId) (node : RaftNode) (driver : Driver σ) (cmd : Cmd) :
    (serve machine node driver cmd).node = (driver.call i node cmd).takeMessages.1.takeSnapshot.1.takeCommitted.1 := by
  simp only [serve, Turn.applyCommitted_node, Turn.load_node, Turn.route_node, Turn.announce_node _ cmd i]

theorem turn_node (tickMs : Nat) (node : RaftNode) (driver : Driver σ) (cmd : Cmd) :
    (turn machine tickMs node driver cmd).node =
      ((serve machine node driver cmd).boundLog machine).node.takeReadStates.1 := by
  simp only [turn, Turn.expire_node, Turn.sweep_node, Turn.confirmReads_node]

theorem turn_messages (i : NodeId) (tickMs : Nat) (node : RaftNode) (driver : Driver σ) (cmd : Cmd) :
    (turn machine tickMs node driver cmd).messages = (driver.call i node cmd).messages := by
  simp only [turn, serve, Turn.expire_messages, Turn.sweep_messages, Turn.confirmReads_messages, Turn.boundLog_messages,
    Turn.applyCommitted_messages, Turn.load_messages, Turn.route_messages, Turn.announce_node _ cmd i]

end

end Arcux.Region
