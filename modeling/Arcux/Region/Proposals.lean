import Arcux.Raft.Retention
import Arcux.Region.Group

namespace Arcux.Region

open Codec List Raft

variable {σ ε : Type}

structure Recorded (machine : Machine σ ε) (pending : List Waiter) (entries : List Entry) (t : Turn σ ε) : Prop where
  sound : ∀ a ∈ t.applied, a.entry ∈ entries ∧ a.outcome = (machine.run a.before a.entry).2
  backed : ∀ tx r, Answer.proposal tx (.applied r) ∈ t.answers →
    ∃ a ∈ t.applied, a.outcome = r ∧ ∃ w ∈ pending, w.tx = tx ∧ w.index = a.entry.index
  parked : ∀ w ∈ t.driver.pending, ∃ w' ∈ pending, w'.tx = w.tx ∧ w'.index = w.index

namespace Recorded

variable {machine : Machine σ ε} {pending : List Waiter} {entries : List Entry} {t t' : Turn σ ε}

section

variable (recorded : Recorded machine pending entries t)

include recorded

theorem keep (applied : t'.applied = t.applied)
    (answers : ∀ tx r, Answer.proposal tx (.applied r) ∈ t'.answers → Answer.proposal tx (.applied r) ∈ t.answers)
    (parked : ∀ w ∈ t'.driver.pending, ∃ w' ∈ t.driver.pending, w'.tx = w.tx ∧ w'.index = w.index) :
    Recorded machine pending entries t' := by
  refine ⟨applied ▸ recorded.sound, ?_, ?_⟩
  · rw [applied]
    exact fun tx r member => recorded.backed tx r (answers tx r member)
  · intro w member
    obtain ⟨w', member', tx, index⟩ := parked w member
    obtain ⟨w'', member'', tx', index'⟩ := recorded.parked w' member'
    exact ⟨w'', member'', tx'.trans tx, index'.trans index⟩

theorem applyEntry {e : Entry} (member : e ∈ entries) :
    Recorded machine pending entries (t.applyEntry machine e) := by
  obtain ⟨sound, backed, parked⟩ := recorded
  have sound' : ∀ a ∈ t.applied ++ [⟨e, t.driver.engine, (machine.run t.driver.engine e).2⟩],
      a.entry ∈ entries ∧ a.outcome = (machine.run a.before a.entry).2 := by
    intro a applied
    rcases mem_append.mp applied with old | new
    · exact sound a old
    · rw [mem_singleton.mp new]
      exact ⟨member, rfl⟩
  have backed' : ∀ tx r, Answer.proposal tx (.applied r) ∈ t.answers →
      ∃ a ∈ t.applied ++ [⟨e, t.driver.engine, (machine.run t.driver.engine e).2⟩], a.outcome = r ∧
        ∃ w ∈ pending, w.tx = tx ∧ w.index = a.entry.index := by
    intro tx r answered
    obtain ⟨a, applied, found⟩ := backed tx r answered
    exact ⟨a, mem_append_left _ applied, found⟩
  have parked' : ∀ w ∈ t.driver.pending.filter (·.index ≠ e.index), ∃ w' ∈ pending, w'.tx = w.tx ∧ w'.index = w.index :=
    fun w kept => parked w (mem_of_mem_filter kept)
  unfold Turn.applyEntry
  simp only
  split
  · rename_i w found
    refine ⟨sound', ?_, parked'⟩
    intro tx r answered
    rcases mem_append.mp answered with old | new
    · exact backed' tx r old
    · cases mem_singleton.mp new
      obtain ⟨w', waiting, tx, index⟩ := parked w (mem_of_find?_eq_some found)
      have here := find?_some found
      rw [decide_eq_true_eq] at here
      exact ⟨_, mem_append_right _ (mem_singleton_self _), rfl, w', waiting, tx, index.trans here⟩
  · exact ⟨sound', backed', parked'⟩

theorem applyCommitted (same : t.node.takeCommitted.2 = entries) :
    Recorded machine pending entries (t.applyCommitted machine) := by
  have each : ∀ (taken : List Entry) (t : Turn σ ε), taken ⊆ entries → Recorded machine pending entries t →
      Recorded machine pending entries (taken.foldl (Turn.applyEntry machine) t) := by
    intro taken
    induction taken with
    | nil => exact fun _ _ recorded => recorded
    | cons e rest ih =>
      intro t inside recorded
      rw [cons_subset] at inside
      exact ih _ inside.2 (recorded.applyEntry inside.1)
  refine each _ _ (same ▸ Subset.refl _) ?_
  exact recorded.keep rfl (fun _ _ => id) (fun w member => ⟨w, member, rfl, rfl⟩)

theorem boundLog : Recorded machine pending entries (t.boundLog machine) := by
  unfold Turn.boundLog
  split
  · exact recorded.keep rfl (fun _ _ => id) (fun w member => ⟨w, member, rfl, rfl⟩)
  · exact recorded

theorem confirmReads : Recorded machine pending entries t.confirmReads := by
  refine recorded.keep rfl ?_ (fun w member => ⟨w, member, rfl, rfl⟩)
  intro tx r answered
  rcases mem_append.mp answered with old | new
  · exact old
  · simp at new

theorem sweep : Recorded machine pending entries t.sweep := by
  unfold Turn.sweep
  split
  · refine recorded.keep rfl ?_ nofun
    intro tx r answered
    simpa using answered
  · exact recorded

theorem expire (tickMs : Nat) (cmd : Cmd) : Recorded machine pending entries (t.expire tickMs cmd) := by
  unfold Turn.expire
  split
  · refine recorded.keep rfl ?_ ?_
    · intro tx r answered
      simpa using answered
    · intro w member
      obtain ⟨w', waiting, rfl⟩ := mem_map.mp (mem_of_mem_filter member)
      exact ⟨w', waiting, rfl, rfl⟩
  · exact recorded

end

end Recorded

def Cmd.submits (node : RaftNode) : Cmd → Option (Ticket × Entry)
  | propose data tx => match node.propose data with
    | .ok (_, index) => some (tx, .normal node.currentTerm index data)
    | .error _ => none
  | proposeConf cc tx => match node.proposeConfChange cc with
    | .ok _ => some (tx, node.changeEntry cc)
    | .error _ => none
  | _ => none

def Cmd.proposer : Cmd → Option Ticket
  | propose _ tx | proposeConf _ tx => some tx
  | _ => none

namespace Turn

variable {t : Turn σ ε} {cmd : Cmd}

theorem execute_applied : (t.execute cmd).applied = t.applied := by
  cases cmd <;> simp only [execute] <;> split <;> rfl

theorem execute_answers {tx : Ticket} {r : Except ε Unit}
    (answered : Answer.proposal tx (.applied r) ∈ (t.execute cmd).answers) :
    Answer.proposal tx (.applied r) ∈ t.answers := by
  cases cmd <;> simp only [execute] at answered
  case tick | step | stepReply => exact answered
  all_goals split at answered <;> simpa [answer, park] using answered

theorem execute_pending {w : Waiter} (waiting : w ∈ (t.execute cmd).driver.pending) :
    w ∈ t.driver.pending ∨ ∃ entry, cmd.submits t.node = some (w.tx, entry) ∧ w.index = entry.index := by
  have park : ∀ (t' : Turn σ ε) (index : Nat) (tx : Ticket), t'.driver.pending = t.driver.pending →
      w ∈ (t'.park index tx).driver.pending → w ∈ t.driver.pending ∨ (w.tx = tx ∧ w.index = index) := by
    intro t' index tx same member
    rcases mem_append.mp member with old | new
    · exact .inl (same ▸ mem_of_mem_filter old)
    · rw [mem_singleton.mp new]
      exact .inr ⟨rfl, rfl⟩
  cases cmd with
  | tick | step | stepReply => exact .inl waiting
  | readIndex tx | transferLeader target tx =>
    simp only [execute] at waiting
    split at waiting <;> exact .inl waiting
  | propose data tx =>
    simp only [execute] at waiting
    split at waiting
    · rename_i node index accepted
      refine (park _ index tx rfl waiting).imp_right fun new => ?_
      exact ⟨.normal t.node.currentTerm index data, by rw [Cmd.submits, accepted, new.1], new.2⟩
    · exact .inl waiting
  | proposeConf cc tx =>
    simp only [execute] at waiting
    split at waiting
    · rename_i node index accepted
      obtain ⟨_, _, _, place, _⟩ := RaftNode.proposeConfChange_ok accepted
      refine (park _ index tx rfl waiting).imp_right fun new => ?_
      exact ⟨t.node.changeEntry cc, by rw [Cmd.submits, accepted, new.1], new.2.trans place⟩
    · exact .inl waiting

end Turn

theorem takeCommitted_entries (n : RaftNode) : n.takeCommitted.2 =
    if n.commitIndex ≤ n.lastApplied then [] else n.storage.entries (n.lastApplied + 1) n.commitIndex := by
  unfold RaftNode.takeCommitted
  split <;> rfl

theorem drained (n : RaftNode) : n.takeMessages.1.takeSnapshot.1.takeCommitted.2 = n.takeCommitted.2 ∧
    n.takeMessages.1.takeSnapshot.1.takeCommitted.1.storage.body = n.storage.body ∧
    n.takeMessages.1.takeSnapshot.1.takeCommitted.1.role = n.role := by
  refine ⟨?_, ?_⟩
  · rw [takeCommitted_entries, takeCommitted_entries]
    rfl
  · unfold RaftNode.takeCommitted
    split <;> exact ⟨rfl, rfl⟩

theorem turn_recorded (machine : Machine σ ε) (tickMs : Nat) (i : NodeId) (node : RaftNode) (driver : Driver σ)
    (cmd : Cmd) :
    Recorded machine ((⟨node, driver, [], [], []⟩ : Turn σ ε).execute cmd).driver.pending
      (driver.call i node cmd).takeCommitted.2 (turn machine tickMs node driver cmd) := by
  generalize starts : (⟨node, driver, [], [], []⟩ : Turn σ ε) = t
  have fresh : Recorded machine (t.execute cmd).driver.pending (driver.call i node cmd).takeCommitted.2
      (t.execute cmd) := by
    refine ⟨?_, ?_, fun w member => ⟨w, member, rfl, rfl⟩⟩
    · rw [Turn.execute_applied, ← starts]
      nofun
    · intro tx r answered
      have earlier := Turn.execute_answers answered
      rw [← starts] at earlier
      cases earlier
  have announced : Recorded machine (t.execute cmd).driver.pending (driver.call i node cmd).takeCommitted.2
      (t.execute cmd).announce :=
    fresh.keep rfl (fun _ _ => id) (fun w member => ⟨w, member, rfl, rfl⟩)
  have routed : Recorded machine (t.execute cmd).driver.pending (driver.call i node cmd).takeCommitted.2
      ((t.execute cmd).announce.route cmd) := by
    cases cmd with
    | stepReply m tx =>
      refine announced.keep rfl ?_ (fun w member => ⟨w, member, rfl, rfl⟩)
      intro tx r answered
      simpa [Turn.route, Turn.answer] using answered
    | _ => exact announced.keep rfl (fun _ _ => id) (fun w member => ⟨w, member, rfl, rfl⟩)
  have loaded : Recorded machine (t.execute cmd).driver.pending (driver.call i node cmd).takeCommitted.2
      (((t.execute cmd).announce.route cmd).load machine) := by
    unfold Turn.load
    simp only
    split <;> exact routed.keep rfl (fun _ _ => id) (fun w member => ⟨w, member, rfl, rfl⟩)
  have taken : (((t.execute cmd).announce.route cmd).load machine).node.takeCommitted.2 =
      (driver.call i node cmd).takeCommitted.2 := by
    rw [Turn.load_node, Turn.route_node, Turn.announce_node t cmd i, ← starts]
    exact (drained _).1
  have served := loaded.applyCommitted taken
  subst starts
  exact served.boundLog.confirmReads.sweep.expire tickMs cmd

structure Owned (n : RaftNode) (entry : Entry) : Prop where
  below : entry.index ≤ n.storage.lastIndex
  held : ∀ e, n.storage.At entry.index e → e = entry

theorem Owned.keeps {n n' : RaftNode} {entry : Entry} (owned : Owned n entry) (keeps : Keeps n n') : Owned n' entry :=
  ⟨owned.below.trans keeps.last, fun e held => owned.held e (keeps.held _ e owned.below held)⟩

variable {n : RaftNode}

theorem Owned.appendOwn (contiguous : n.storage.Contiguous) {entry : Entry}
    (next : entry.index = n.storage.lastIndex + 1) : Owned (n.appendOwn entry) entry := by
  have last := contiguous.lastIndex
  have last' : (n.appendOwn entry).storage.lastIndex = entry.index := by
    simp [RaftNode.appendOwn, MemStorage.append, MemStorage.lastIndex]
  refine ⟨last'.ge, ?_⟩
  intro e held
  rcases MemStorage.at_append.mp held with old | ⟨_, found⟩
  · have := old.le
    omega
  · rw [show entry.index - n.storage.base - n.storage.log.length - 1 = 0 by omega] at found
    exact (Option.some.inj found).symm

theorem Cmd.submits_owned (contiguous : n.storage.Contiguous) {cmd : Cmd} {tx : Ticket} {entry : Entry}
    (submits : cmd.submits n = some (tx, entry)) (i : NodeId) (driver : Driver σ) :
    Owned ((cmd.action i driver).perform n) entry := by
  cases cmd with
  | propose data tx =>
    simp only [Cmd.submits] at submits
    split at submits
    · rename_i node index accepted
      cases submits
      simp only [Cmd.action, Action.perform, accepted]
      exact (Owned.appendOwn contiguous (RaftNode.propose_ok accepted).2.1).keeps (.of_proposal accepted)
    · cases submits
  | proposeConf cc tx =>
    simp only [Cmd.submits] at submits
    split at submits
    · rename_i result accepted
      cases submits
      simp only [Cmd.action, Action.perform, accepted]
      exact (Owned.appendOwn contiguous rfl).keeps (.of_change accepted)
    · cases submits
  | _ => cases submits

def Turn.Tells (machine : Machine σ ε) (tx : Ticket) (entry : Entry) (t : Turn σ ε) : Prop :=
  ∀ r, Answer.proposal tx (.applied r) ∈ t.answers →
    ∃ before, ⟨entry, before, r⟩ ∈ t.applied ∧ r = (machine.run before entry).2

def Owns (tx : Ticket) (entry : Entry) (node : RaftNode) (driver : Driver σ) : Prop :=
  ∀ w ∈ driver.pending, w.tx = tx → w.index = entry.index ∧ Owned node entry

/-- No append that a command brings, and the node takes, commits another entry at an index that a proposer is parked at. -/
def Driver.spares (driver : Driver σ) (node : RaftNode) : Cmd → Bool
  | .step m | .stepReply m _ => match m.message.body with
    | .appendEntries prevLogIndex prevLogTerm entries leaderCommit _ => driver.pending.all (fun w =>
        (node.commitIndex < w.index ∧
            (node.refuses m.message.term prevLogIndex prevLogTerm ∨ leaderCommit < w.index)) ∨
          entries.all (fun e => e.index = w.index → node.storage.entries w.index w.index = [e]))
    | _ => true
  | _ => true

variable {i : NodeId} {w : Waiter} {e : Entry}

theorem Driver.spares_carried {driver : Driver σ} {node : RaftNode} {cmd : Cmd} (spares : driver.spares node cmd)
    (waiting : w ∈ driver.pending) (committed : w.index ≤ ((cmd.action i driver).perform node).commitIndex)
    (carried : (cmd.action i driver).carries w.index e) : node.storage.At w.index e := by
  cases cmd with
  | step m | stepReply m =>
    obtain ⟨⟨sender, dest, term, body⟩, incarnation⟩ := m
    cases body with
    | appendEntries =>
      rcases of_decide_eq_true (all_eq_true.mp spares w waiting) with ⟨new, later⟩ | same
      · obtain ⟨taken, reached⟩ := RaftNode.step_commits new committed
        rcases later with refused | later
        · exact absurd refused taken
        · exact absurd reached later.not_ge
      · have kept := of_decide_eq_true (all_eq_true.mp same e carried.1)
        exact MemStorage.entries_self.mp (kept carried.2)
    | _ => cases carried
  | _ => cases carried

section Turn

variable {machine : Machine σ ε} {tickMs : Nat} {node : RaftNode} {driver : Driver σ} {cmd : Cmd}

theorem call_keeps (i : NodeId) (contiguous : ((cmd.action i driver).perform node).storage.Contiguous) :
    Keeps ((cmd.action i driver).perform node) (driver.call i node cmd) := by
  unfold Driver.call
  simp only
  split
  · exact .perform_propose contiguous i []
  · exact .refl _

theorem call_follower (i : NodeId) (role : ((cmd.action i driver).perform node).role ≠ .leader) :
    driver.call i node cmd = (cmd.action i driver).perform node := by
  unfold Driver.call
  simp [Driver.isElected, role]

theorem turn_keeps (i : NodeId) (contiguous : (driver.call i node cmd).storage.Contiguous) :
    Keeps (driver.call i node cmd) (turn machine tickMs node driver cmd).node := by
  have served : Keeps (driver.call i node cmd) (serve machine node driver cmd).node := by
    rw [serve_node machine i]
    exact .of_body (drained _).2.1
  have contiguous' : (serve machine node driver cmd).node.storage.Contiguous := by
    rw [serve_node machine i]
    exact contiguous.of_body (drained _).2.1
  have bounded : Keeps (serve machine node driver cmd).node ((serve machine node driver cmd).boundLog machine).node := by
    rw [Turn.boundLog_node _ _ i]
    split
    · exact .perform_compact contiguous' i _ _
    · exact .refl _
  have taken : ∀ n : RaftNode, Keeps n n.takeReadStates.1 := fun _ => .of_body rfl
  rw [turn_node]
  exact (served.trans bounded).trans (taken _)

theorem turn_role (i : NodeId) : (turn machine tickMs node driver cmd).node.role = (driver.call i node cmd).role := by
  have compacted : ∀ (n : RaftNode) index data, ((Action.compact i index data).perform n).role = n.role := by
    intro n index data
    obtain ⟨storage, same⟩ := n.compact_frame index data
    rw [Action.perform, same]
  have served : (serve machine node driver cmd).node.role = (driver.call i node cmd).role := by
    rw [serve_node machine i]
    exact (drained _).2.2
  have read : ∀ n : RaftNode, n.takeReadStates.1.role = n.role := fun _ => rfl
  rw [turn_node, read, Turn.boundLog_node _ _ i]
  split
  · rw [compacted, served]
  · exact served

theorem turn_swept (role : (turn machine tickMs node driver cmd).node.role ≠ .leader) :
    (turn machine tickMs node driver cmd).driver.pending = [] := by
  have swept : ∀ t : Turn σ ε, t.node.role ≠ .leader → (t.sweep.expire tickMs cmd).driver.pending = [] := by
    intro t role
    unfold Turn.sweep
    rw [if_pos role]
    unfold Turn.expire
    split <;> rfl
  refine swept _ ?_
  rw [turn, Turn.expire_node, Turn.sweep_node] at role
  exact role

theorem mem_takeCommitted (contiguous : n.storage.Contiguous)
    (taken : e ∈ n.takeCommitted.2) : e.index ≤ n.commitIndex ∧ n.storage.At e.index e := by
  rw [takeCommitted_entries] at taken
  split at taken
  · cases taken
  · obtain ⟨i, _, below, held⟩ := MemStorage.at_of_mem_entries taken
    rw [contiguous i e held]
    exact ⟨below, held⟩

variable {entry : Entry} {tx : Ticket}

theorem executed_waiter (contiguous : node.storage.Contiguous)
    (own : cmd.proposer = some tx → cmd.submits node = some (tx, entry))
    (waiting : w ∈ ((⟨node, driver, [], [], []⟩ : Turn σ ε).execute cmd).driver.pending) (on : w.tx = tx) :
    w ∈ driver.pending ∨ (w.index = entry.index ∧ Owned ((cmd.action i driver).perform node) entry) := by
  rcases Turn.execute_pending waiting with old | ⟨entry', submits, place⟩
  · exact .inl old
  · rw [on] at submits
    have named : cmd.proposer = some tx := by
      cases cmd with
      | propose data tx' | proposeConf cc tx' =>
        simp only [Cmd.submits] at submits
        split at submits
        · cases submits
          rfl
        · cases submits
      | _ => cases submits
    have same : entry' = entry := by
      have := submits.symm.trans (own named)
      simpa using this
    subst same
    exact .inr ⟨place, Cmd.submits_owned contiguous submits i driver⟩

/-- One turn: the proposer on the ticket is told only about its own entry, and what still waits on the
ticket is still held. -/
theorem turn_owns (tidy : node.Tidy)
    (numbered : ∀ envelope, cmd.action i driver = .deliver envelope → envelope.message.body.Numbered)
    (owns : Owns tx entry node driver) (own : cmd.proposer = some tx → cmd.submits node = some (tx, entry))
    (spares : driver.spares node cmd) :
    (turn machine tickMs node driver cmd).Tells machine tx entry ∧
      Owns tx entry (turn machine tickMs node driver cmd).node (turn machine tickMs node driver cmd).driver := by
  have recorded := turn_recorded machine tickMs i node driver cmd
  have performed := tidy.perform numbered
  have called : (driver.call i node cmd).Tidy := by
    unfold Driver.call
    simp only
    split
    · exact performed.perform (by rintro _ ⟨⟩)
    · exact performed
  have waiter : ∀ w ∈ ((⟨node, driver, [], [], []⟩ : Turn σ ε).execute cmd).driver.pending, w.tx = tx →
      w ∈ driver.pending ∨ (w.index = entry.index ∧ Owned ((cmd.action i driver).perform node) entry) :=
    fun w => executed_waiter tidy.contiguous own
  have answers : (∀ w ∈ ((⟨node, driver, [], [], []⟩ : Turn σ ε).execute cmd).driver.pending, w.tx = tx →
      ∀ e, w.index ≤ (driver.call i node cmd).commitIndex → (driver.call i node cmd).storage.At w.index e →
        e = entry) → (turn machine tickMs node driver cmd).Tells machine tx entry := by
    intro only r answered
    obtain ⟨a, applied, rfl, w, waiting, on, place⟩ := recorded.backed tx r answered
    obtain ⟨committed, outcome⟩ := recorded.sound a applied
    obtain ⟨below, held⟩ := mem_takeCommitted called.contiguous committed
    have same : a.entry = entry := only w waiting on a.entry (place ▸ below) (place ▸ held)
    subst same
    exact ⟨a.before, applied, outcome⟩
  rcases perform_effect tidy numbered with keeps | ⟨role, taken⟩
  · have owned : ∀ w ∈ ((⟨node, driver, [], [], []⟩ : Turn σ ε).execute cmd).driver.pending, w.tx = tx →
        w.index = entry.index ∧ Owned (driver.call i node cmd) entry := by
      intro w waiting on
      have kept : Keeps ((cmd.action i driver).perform node) (driver.call i node cmd) :=
        call_keeps i performed.contiguous
      rcases waiter w waiting on with old | ⟨place, owned⟩
      · obtain ⟨place, owned⟩ := owns w old on
        exact ⟨place, (owned.keeps keeps).keeps kept⟩
      · exact ⟨place, owned.keeps kept⟩
    refine ⟨answers ?_, ?_⟩
    · intro w waiting on e _ held
      obtain ⟨place, owned⟩ := owned w waiting on
      exact owned.held e (place ▸ held)
    · intro w waiting on
      obtain ⟨w', waiting', tx', place'⟩ := recorded.parked w waiting
      obtain ⟨place, owned⟩ := owned w' waiting' (tx'.trans on)
      exact ⟨place'.symm.trans place, owned.keeps (turn_keeps i called.contiguous)⟩
  · have same := call_follower i role
    refine ⟨answers ?_, ?_⟩
    · intro w waiting on e committed held
      rw [same] at committed held
      rcases waiter w waiting on with old | ⟨place, owned⟩
      · obtain ⟨place, owned⟩ := owns w old on
        rcases taken w.index e held with before | carried
        · exact owned.held e (place ▸ before)
        · exact owned.held e (place ▸ Driver.spares_carried spares old committed carried)
      · exact owned.held e (place ▸ held)
    · have deposed : (turn machine tickMs node driver cmd).node.role ≠ .leader := by
        rw [turn_role i, same]
        exact role
      intro w waiting
      rw [turn_swept deposed] at waiting
      cases waiting

end Turn

namespace RaftGroup

variable (machine : Machine σ ε) (tickMs : Nat)

def submits (g : RaftGroup σ) : Event → Option (Ticket × Entry)
  | .command i cmd => cmd.submits (g.cluster.nodes i)
  | .restart _ _ => none

def spares (g : RaftGroup σ) : Event → Bool
  | .command i cmd => (g.drivers i).spares (g.cluster.nodes i) cmd
  | .restart _ _ => true

def Spared : RaftGroup σ → List Event → Prop
  | _, [] => True
  | g, event :: rest => g.spares event ∧ Spared (g.exec machine tickMs event) rest

instance Spared.decidable : ∀ (g : RaftGroup σ) events, Decidable (g.Spared machine tickMs events)
  | _, [] => isTrue trivial
  | g, event :: rest =>
    have := Spared.decidable (g.exec machine tickMs event) rest
    inferInstanceAs (Decidable (_ ∧ _))

end RaftGroup

def Event.proposer : Event → Option Ticket
  | command _ cmd => cmd.proposer
  | restart _ _ => none

structure RaftGroup.Owning (tx : Ticket) (entry : Entry) (g : RaftGroup σ) : Prop where
  tidy : g.cluster.Tidy
  owns : ∀ i, Owns tx entry (g.cluster.nodes i) (g.drivers i)

namespace RaftGroup

variable {machine : Machine σ ε} {tickMs : Nat} {g : RaftGroup σ} {tx : Ticket} {entry : Entry}

theorem Owning.start (cfg : NodeId → Config) (engine : NodeId → σ) (tx : Ticket) (entry : Entry) :
    (start cfg engine).Owning tx entry :=
  ⟨.start cfg, nofun⟩

theorem Owning.turn (owning : g.Owning tx entry) {cmd : Cmd} (enabled : g.enabled (.command i cmd))
    (own : cmd.proposer = some tx → cmd.submits (g.cluster.nodes i) = some (tx, entry))
    (spares : (g.drivers i).spares (g.cluster.nodes i) cmd) :
    (g.turnOf machine tickMs i cmd).Tells machine tx entry ∧
      Owns tx entry (g.turnOf machine tickMs i cmd).node (g.turnOf machine tickMs i cmd).driver := by
  have numbered : ∀ envelope, cmd.action i (g.drivers i) = .deliver envelope → envelope.message.body.Numbered := by
    intro envelope delivers
    have offered := (enabled_action enabled).1
    rw [delivers] at offered
    exact owning.tidy.net envelope (of_decide_eq_true offered)
  exact turn_owns (owning.tidy.nodes i) numbered (owning.owns i) own spares

variable {event : Event}

theorem Owning.exec (owning : g.Owning tx entry) (own : event.proposer = some tx → g.submits event = some (tx, entry))
    (spares : g.spares event) : (g.exec machine tickMs event).Owning tx entry := by
  refine ⟨?_, ?_⟩
  · rw [exec_cluster]
    exact owning.tidy.run _
  · unfold RaftGroup.exec
    split
    · rename_i enabled
      cases event with
      | command i cmd =>
        intro j
        by_cases here : j = i
        · subst here
          simp only [Function.update_self]
          exact (owning.turn enabled own spares).2
        · simp only [Function.update_of_ne here]
          exact owning.owns j
      | restart i cfg =>
        intro j
        by_cases here : j = i
        · subst here
          simp only [Function.update_self]
          nofun
        · simp only [Function.update_of_ne here]
          rw [Cluster.exec_other here]
          exact owning.owns j
    · exact owning.owns

theorem Owning.turns_cons (owning : g.Owning tx entry)
    (own : event.proposer = some tx → g.submits event = some (tx, entry)) (spares : g.spares event)
    {rest : List Event}
    (later : ∀ t ∈ (g.exec machine tickMs event).turns machine tickMs rest, t.Tells machine tx entry) :
    ∀ t ∈ g.turns machine tickMs (event :: rest), t.Tells machine tx entry := by
  cases event with
  | restart i cfg => exact later
  | command i cmd =>
    simp only [RaftGroup.turns]
    split
    · rename_i enabled
      exact forall_mem_cons.mpr ⟨(owning.turn enabled own spares).1, later⟩
    · exact later

theorem Owning.run (owning : g.Owning tx entry) {events : List Event}
    (other : ∀ event ∈ events, event.proposer ≠ some tx) (spared : g.Spared machine tickMs events) :
    (g.run machine tickMs events).Owning tx entry ∧
      ∀ t ∈ g.turns machine tickMs events, t.Tells machine tx entry := by
  induction events generalizing g with
  | nil => exact ⟨owning, forall_mem_nil _⟩
  | cons event rest ih =>
    have own : event.proposer = some tx → g.submits event = some (tx, entry) :=
      fun named => absurd named (other event (mem_cons_self ..))
    obtain ⟨last, later⟩ := ih (owning.exec own spared.1)
      (fun e member => other e (mem_cons_of_mem _ member)) spared.2
    exact ⟨last, owning.turns_cons own spared.1 later⟩

theorem Spared.append {first rest : List Event} (spared : g.Spared machine tickMs (first ++ rest)) :
    g.Spared machine tickMs first ∧ (g.run machine tickMs first).Spared machine tickMs rest := by
  induction first generalizing g with
  | nil => exact ⟨trivial, spared⟩
  | cons event first ih =>
    obtain ⟨before, after⟩ := ih spared.2
    exact ⟨⟨spared.1, before⟩, after⟩

/-- As long as no append commits another entry at the index of a parked proposal, a proposer is told that
its entry is applied only in a turn that applies exactly that entry, with the outcome of that. -/
theorem applied_own_entry {cfg : NodeId → Config} {engine : NodeId → σ} {before rest : List Event} {event : Event}
    (submitted : ((start cfg engine).run machine tickMs before).submits event = some (tx, entry))
    (once : ∀ other ∈ before ++ rest, other.proposer ≠ some tx)
    (spared : (start cfg engine).Spared machine tickMs (before ++ event :: rest)) {t : Turn σ ε}
    (taken : t ∈ ((start cfg engine).run machine tickMs before).turns machine tickMs (event :: rest))
    {r : Except ε Unit} (answered : Answer.proposal tx (.applied r) ∈ t.answers) :
    ∃ state, ⟨entry, state, r⟩ ∈ t.applied ∧ r = (machine.run state entry).2 := by
  obtain ⟨earlier, later⟩ := spared.append
  have owning := (Owning.start cfg engine tx entry).run
    (fun e member => once e (mem_append_left _ member)) earlier
  have submits : (exec machine tickMs ((start cfg engine).run machine tickMs before) event).Owning tx entry :=
    owning.1.exec (fun _ => submitted) later.1
  have told := submits.run (fun e member => once e (mem_append_right _ member)) later.2
  exact owning.1.turns_cons (fun _ => submitted) later.1 told.2 t taken r answered

end RaftGroup

/-! A sample region that keeps every command it applied. -/

def journal : Machine (List Bytes) Unit := ⟨fun state data => (state ++ [data], .ok ()), fun _ => [], fun state _ => state⟩

def Event.receive (sender dest : NodeId) (term : Nat) (body : MessageBody) : Event :=
  .command dest (.stepReply ⟨⟨sender, dest, term, body⟩, 0⟩ 0)

def Event.append (sender dest : NodeId) (term : Nat) (entries : List Entry) (leaderCommit : Nat) : Event :=
  .receive sender dest term (.appendEntries 0 0 entries leaderCommit 0)

def elected : List Event :=
  replicate 19 (.command 1 .tick) ++ [.receive 1 2 1 (.requestVote 0 0), .receive 2 1 1 (.requestVoteResp true)]

def proposed : Event := .command 1 (.propose [7] 1)

def acknowledged : List Event :=
  [.append 1 2 1 [.normal 1 1 [], .normal 1 2 [7]] 0, .receive 2 1 1 (.appendEntriesResp true 2 0)]

abbrev region : RaftGroup (List Bytes) := .start trio (fun _ => [])

namespace RaftGroup

theorem applied_own_entry_journal : ∃ t ∈ (region.run journal 30 elected).turns journal 30 (proposed :: acknowledged),
    Answer.proposal 1 (.applied (.ok ())) ∈ t.answers ∧
      ∃ state, ⟨.normal 1 2 [7], state, .ok ()⟩ ∈ t.applied ∧ .ok () = (journal.run state (.normal 1 2 [7])).2 := by
  have submitted : (region.run journal 30 elected).submits proposed = some (1, .normal 1 2 [7]) := by decide +kernel
  have once : ∀ other ∈ elected ++ acknowledged, other.proposer ≠ some 1 := by decide +kernel
  have spared : region.Spared journal 30 (elected ++ proposed :: acknowledged) := by decide +kernel
  obtain ⟨t, taken, answered⟩ : ∃ t ∈ (region.run journal 30 elected).turns journal 30 (proposed :: acknowledged),
      Answer.proposal 1 (.applied (.ok ())) ∈ t.answers := by decide +kernel
  exact ⟨t, taken, answered, applied_own_entry submitted once spared taken answered⟩

end RaftGroup

def overtaken : List Event :=
  replicate 14 (.command 2 .tick) ++
    [.receive 2 3 2 (.requestVote 0 0), .receive 3 2 2 (.requestVoteResp true), .command 2 (.propose [8] 2),
      .append 2 3 2 [.normal 2 1 [], .normal 2 2 [8]] 0, .receive 3 2 2 (.appendEntriesResp true 2 0),
      .command 2 .tick, .append 2 1 2 [.normal 2 1 [], .normal 2 2 [8]] 2]

namespace RaftGroup

/-- The append that deposes node 1 also commits the other leader's entry at the index of the parked proposal,
and its proposer is told that it is applied. -/
theorem applied_foreign_entry :
    (region.run journal 30 elected).submits proposed = some (1, .normal 1 2 [7]) ∧
      (∀ other ∈ elected ++ overtaken, other.proposer ≠ some 1) ∧
      ∃ t ∈ (region.run journal 30 elected).turns journal 30 (proposed :: overtaken),
        Answer.proposal 1 (.applied (.ok ())) ∈ t.answers ∧
          t.applied.map Applied.entry = [.normal 2 1 [], .normal 2 2 [8]] := by
  decide +kernel

end RaftGroup

end Arcux.Region
