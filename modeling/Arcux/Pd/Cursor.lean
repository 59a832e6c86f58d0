import Arcux.Pd.HighWater
import Arcux.Raft.Reign
import Arcux.Raft.Safety.AppliedPosition

namespace Arcux.Pd

open Codec Consensus Data List Raft
open scoped Codec.ByteOrder Engine

namespace Handed

def stop (h : Handed) : Nat := h.first.toNat + h.count.toNat

def Apart (h h' : Handed) : Prop :=
  (h.term ≤ h'.term → h.stop ≤ h'.first.toNat) ∧ (h'.term < h.term → h'.stop ≤ h.first.toNat)
  deriving Decidable

end Handed

section

variable (voters : List NodeId) (l : Ledger NodeId Entry)

/-- A range lies above all that the log its leader was elected with reserves, and below what was committed by its term. -/
structure Issued (h : Handed) : Prop where
  above : ∃ b, l.winner h.term = some (h.node, b) ∧ reserved b ≤ h.first.toNat
  below : ∃ log c, (raftRules voters).Settled l h.term log c ∧ h.stop ≤ reserved (log.take c)

structure History (past : List Handed) : Prop where
  issued : ∀ h ∈ past, Issued voters l h
  apart : past.Pairwise Handed.Apart

end

section

variable {voters : List NodeId} {l l' : Ledger NodeId Entry} {i : NodeId} {h h' : Handed} {past : List Handed}

theorem Issued.mono (issued : Issued voters l h) (evolves : Evolves i l l') : Issued voters l' h := by
  obtain ⟨⟨b, won, above⟩, log, c, settled, below⟩ := issued
  exact ⟨⟨b, evolves.extend.winner _ _ won, above⟩, log, c, settled.mono evolves.extend evolves.reached, below⟩

theorem Issued.stop_le (inv : Invariant (raftRules voters) l.toState) (issued : Issued voters l h)
    (issued' : Issued voters l h') (older : h.term < h'.term) : h.stop ≤ h'.first.toNat := by
  obtain ⟨-, log, c, settled, below⟩ := issued
  obtain ⟨⟨b, won, above⟩, -⟩ := issued'
  calc h.stop
    _ ≤ reserved (log.take c) := below
    _ ≤ reserved b := reserved_mono (settled.in_base inv older won).subset
    _ ≤ h'.first.toNat := above

theorem History.mono (history : History voters l past) (evolves : Evolves i l l') : History voters l' past :=
  ⟨fun h member => (history.issued h member).mono evolves, history.apart⟩

theorem History.push (history : History voters l past) (inv : Invariant (raftRules voters) l.toState)
    (issued : Issued voters l h) (after : ∀ p ∈ past, p.term = h.term → p.stop ≤ h.first.toNat) :
    History voters l (past ++ [h]) := by
  refine ⟨?_, pairwise_append.mpr ⟨history.apart, pairwise_singleton _ _, ?_⟩⟩
  · intro p member
    rcases mem_append.mp member with before | new
    · exact history.issued p before
    · exact mem_singleton.mp new ▸ issued
  · intro p member q new
    rw [mem_singleton.mp new]
    refine ⟨fun order => ?_, fun newer => issued.stop_le inv (history.issued p member) newer⟩
    rcases Nat.lt_or_eq_of_le order with older | same
    · exact (history.issued p member).stop_le inv issued older
    · exact after p member same

end

section

variable {voters : List NodeId} {l l' : Ledger NodeId Entry} {i : NodeId} {n n' : RaftNode} {r : PdReplica}

def position (n : RaftNode) : Nat := max n.lastApplied n.storage.base

theorem position_of_progressed (same : n'.progressed = n.progressed) : position n' = position n := by
  simp only [RaftNode.progressed, Prod.mk.injEq] at same
  rw [position, position, same.1, same.2.2]

variable {scope : Scope}

theorem settled_position (tracks : Tracks voters scope l i n) :
    (raftRules voters).Settled l n.currentTerm (l.log i) (position n) := by
  rcases Nat.le_total n.lastApplied n.storage.base with below | above
  · rw [position, Nat.max_eq_right below]
    exact tracks.base
  · rw [position, Nat.max_eq_left above]
    exact tracks.commit.of_le tracks.applied

theorem take_log_eq (tracks : Tracks voters scope l i n) (view : View voters scope l' i n') (evolves : Evolves i l l')
    {k : Nat} (reached : k ≤ position n) (reached' : k ≤ position n') : (l'.log i).take k = (l.log i).take k := by
  have settled := ((settled_position tracks).of_le reached).mono evolves.extend evolves.reached
  exact (settled.agree view.inv ((settled_position view.node).of_le reached') (Nat.le_refl k)).symm

/-- The high-water of a replica is what the applied log reserves; a snapshot that waits to be loaded carries it. -/
structure Stocked (l : Ledger NodeId Entry) (i : NodeId) (r : PdReplica) : Prop where
  reported : r.fsm.Reported
  bounded : r.served.toNat ≤ r.fsm.tsoUpper.toNat
  high : r.fsm.tsoUpper.toNat ≤ reserved ((l.log i).take (position r.node))
  caught : r.node.pendingSnapshot = none → r.fsm.tsoUpper.toNat = reserved ((l.log i).take (position r.node))
  waiting : ∀ k data, r.node.pendingSnapshot = some (k, data) → Restores data (reserved ((l.log i).take (position r.node)))

theorem Stocked.moved (stocked : Stocked l i r) (view : View voters highWater l i r.node)
    (view' : View voters highWater l' i n') (evolves : Evolves i l l') (still : n'.progressed = r.node.progressed) :
    Stocked l' i { r with node := n' } := by
  have same := position_of_progressed still
  have log := take_log_eq view.node view' evolves (Nat.le_refl _) same.ge
  have pending : n'.pendingSnapshot = r.node.pendingSnapshot := congrArg (fun progressed => progressed.2.1) still
  refine ⟨stocked.reported, stocked.bounded, ?_, ?_, ?_⟩
  · rw [same, log]
    exact stocked.high
  · rw [pending, same, log]
    exact stocked.caught
  · rw [pending, same, log]
    exact stocked.waiting

theorem Stocked.installed (stocked : Stocked l i r) (view : View voters highWater l i r.node)
    (view' : View voters highWater l' i n') (evolves : Evolves i l l') {snap : Snapshot}
    (held : n'.storage.snap = some snap) (beyond : r.node.commitIndex < snap.lastIncludedIndex)
    (above : r.node.storage.base ≤ n'.storage.base)
    (progressed : n'.progressed =
      (snap.lastIncludedIndex, some (snap.lastIncludedIndex, snap.data), snap.lastIncludedIndex)) :
    Stocked l' i { r with node := n' } := by
  simp only [RaftNode.progressed, Prod.mk.injEq] at progressed
  obtain ⟨applied, pending, base⟩ := progressed
  have here : position n' = snap.lastIncludedIndex := by rw [position, applied, base, Nat.max_self]
  have before : position r.node ≤ position n' := by
    have := view.node.applied
    rw [here, position]
    omega
  have log := take_log_eq view.node view' evolves (Nat.le_refl _) before
  have covered : reserved ((l.log i).take (position r.node)) ≤ reserved ((l'.log i).take (position n')) := by
    rw [← log]
    exact reserved_mono (take_prefix_take_left before).subset
  refine ⟨stocked.reported, stocked.bounded, stocked.high.trans covered, ?_, ?_⟩
  · intro none
    rw [pending] at none
    cases none
  · intro k data found
    cases pending.symm.trans found
    rw [here]
    exact view'.node.image snap held

end

section

open Actor (Ticket)

variable {voters : List NodeId} {l l' : Ledger NodeId Entry} {i : NodeId} {n n' : RaftNode} {r r' : PdReplica}
  {past : List Handed} {ts : OrdMap Nat (UInt64 × Ticket)}

/-- A leader whose reset is done is past the log it was elected with; a reset that is pending waits for an entry of its
own. In its term it has handed out nothing from where its cursor is on. -/
structure Cursor (l : Ledger NodeId Entry) (past : List Handed) (i : NodeId) (r : PdReplica) : Prop where
  due : ∀ index, r.pendingReset = some index → ∃ b, l.winner r.node.currentTerm = some (i, b) ∧ b.length < index ∧
    index ≤ (l.lead r.node.currentTerm).length
  ahead : r.pendingReset = none → ∃ b, l.winner r.node.currentTerm = some (i, b) ∧ reserved b ≤ r.served.toNat
  after : ∀ h ∈ past, h.term = r.node.currentTerm → h.stop ≤ r.served.toNat

theorem Cursor.mono {j : NodeId} (cursor : Cursor l past i r) (evolves : Evolves j l l')
    (term : r'.node.currentTerm = r.node.currentTerm) (reset : r'.pendingReset = r.pendingReset)
    (served : r.served.toNat ≤ r'.served.toNat) : Cursor l' past i r' := by
  refine ⟨fun index pending => ?_, fun done => ?_, fun h member same => ?_⟩
  · obtain ⟨b, won, later, within⟩ := cursor.due index (reset ▸ pending)
    rw [term]
    exact ⟨b, evolves.extend.winner _ _ won, later, within.trans (evolves.extend.lead _).length_le⟩
  · obtain ⟨b, won, high⟩ := cursor.ahead (reset ▸ done)
    rw [term]
    exact ⟨b, evolves.extend.winner _ _ won, high.trans served⟩
  · exact (cursor.after h member (same.trans term)).trans served

structure Seated (l : Ledger NodeId Entry) (past : List Handed) (i : NodeId) (r : PdReplica)
    (ts : OrdMap Nat (UInt64 × Ticket)) : Prop where
  led : r.wasLeader = r.isLeader
  idle : r.node.role ≠ .leader → r.pendingReset = none
  leads : r.node.role = .leader → Cursor l past i r
  parked : ∀ index, r.pendingReset = some index → ∀ k w, ts.find? k = some w → index < k

theorem Seated.congr (seated : Seated l past i r ts) (role : r'.node.role = r.node.role)
    (term : r'.node.currentTerm = r.node.currentTerm) (was : r'.wasLeader = r.wasLeader)
    (reset : r'.pendingReset = r.pendingReset) (served : r.served.toNat ≤ r'.served.toNat) :
    Seated l past i r' ts := by
  refine ⟨?_, ?_, fun leads => ?_, ?_⟩
  · rw [was, seated.led, PdReplica.isLeader, PdReplica.isLeader, RaftNode.isLeader, RaftNode.isLeader, role]
  · rw [role, reset]
    exact seated.idle
  · exact (seated.leads (role ▸ leads)).mono (Evolves.refl i l) term reset served
  · rw [reset]
    exact seated.parked

structure Serves (voters : List NodeId) (l : Ledger NodeId Entry) (past : List Handed) (i : NodeId) (r : PdReplica)
    (ts : OrdMap Nat (UInt64 × Ticket)) : Prop where
  view : View voters highWater l i r.node
  stocked : Stocked l i r
  steady : r.node.Steady
  seated : Seated l past i r ts

theorem Serves.adoptSnapshot (serves : Serves voters l past i r ts) :
    Serves voters l past i r.adoptSnapshot ts ∧ r.adoptSnapshot.node.pendingSnapshot = none := by
  have stocked := serves.stocked
  unfold PdReplica.adoptSnapshot
  simp only
  split
  · rename_i k data found
    change r.node.pendingSnapshot = some (k, data) at found
    obtain ⟨upper, reported⟩ := stocked.waiting k data found r.fsm
    rw [Nat.max_eq_right stocked.high] at upper
    refine ⟨⟨serves.view.congr rfl rfl, ⟨reported, ?_, upper.le, fun _ => upper, nofun⟩, ⟨serves.steady.settled,
      serves.steady.silent⟩, serves.seated.congr rfl rfl rfl rfl ?_⟩, rfl⟩
    · rw [toNat_max]
      exact Nat.max_le.mpr ⟨stocked.bounded.trans (stocked.high.trans upper.ge), Nat.le_refl _⟩
    · rw [toNat_max]
      exact Nat.le_max_left ..
  · rename_i found
    exact ⟨⟨serves.view.congr rfl rfl, { stocked with caught := fun _ => stocked.caught found, waiting := nofun },
      ⟨serves.steady.settled, serves.steady.silent⟩, serves.seated.congr rfl rfl rfl rfl (Nat.le_refl _)⟩, rfl⟩

theorem take_position_takeCommitted (n : RaftNode) (log : List Entry) :
    log.take (position n.takeCommitted.1) = log.take (position n) ++ (log.take n.commitIndex).drop (position n) := by
  have moved : position n.takeCommitted.1 = max (position n) n.commitIndex := by
    unfold RaftNode.takeCommitted position
    split
    · simp only
      omega
    · simp only
      omega
  rw [moved]
  rcases Nat.le_total n.commitIndex (position n) with behind | ahead
  · rw [Nat.max_eq_left behind, drop_eq_nil_of_le (by rw [length_take]; omega), append_nil]
  · rw [Nat.max_eq_right ahead, ← Nat.min_eq_left ahead, ← take_take, Nat.min_eq_left ahead]
    exact (take_append_drop _ _).symm

theorem Serves.applyCommitted (serves : Serves voters l past i r ts) (drained : r.node.pendingSnapshot = none) :
    Serves voters l past i r.applyCommitted.1 ts ∧ r.applyCommitted.1.node.pendingSnapshot = none ∧
      ∀ index ∈ r.applyCommitted.2, index ≤ r.applyCommitted.1.node.lastApplied := by
  have stocked := serves.stocked
  have slice := serves.view.node.takeCommitted_eq
  have kept : r.node.takeCommitted.1.role = r.node.role ∧ r.node.takeCommitted.1.currentTerm = r.node.currentTerm ∧
      r.node.takeCommitted.1.transferTarget = r.node.transferTarget ∧
      r.node.takeCommitted.1.messages = r.node.messages ∧
      r.node.takeCommitted.1.pendingSnapshot = r.node.pendingSnapshot := by
    unfold RaftNode.takeCommitted
    split <;> exact ⟨rfl, rfl, rfl, rfl, rfl⟩
  obtain ⟨role, term, target, messages, pending⟩ := kept
  have upper : (r.node.takeCommitted.2.foldl PdReplica.applyEntry r.fsm).tsoUpper.toNat =
      reserved ((l.log i).take (position r.node.takeCommitted.1)) := by
    rw [tsoUpper_applyEntries, stocked.caught drained, take_position_takeCommitted, reserved_append, slice, position]
  refine ⟨⟨serves.view.takeCommitted, ⟨reported_applyEntries stocked.reported _, ?_, upper.le, fun _ => upper, ?_⟩,
    ⟨target.trans serves.steady.settled, ?_⟩, serves.seated.congr role term rfl rfl (Nat.le_refl _)⟩,
    pending.trans drained, ?_⟩
  · change r.served.toNat ≤ (r.node.takeCommitted.2.foldl PdReplica.applyEntry r.fsm).tsoUpper.toNat
    rw [tsoUpper_applyEntries]
    exact stocked.bounded.trans (Nat.le_max_left ..)
  · intro k data found
    rw [show r.applyCommitted.1.node.pendingSnapshot = none from pending.trans drained] at found
    cases found
  · intro msg member
    exact serves.steady.silent msg (messages ▸ member)
  · intro index member
    obtain ⟨e, taken, rfl⟩ := mem_map.mp member
    obtain ⟨k, index, below, -⟩ := serves.view.node.mem_takeCommitted taken
    have applied : r.node.takeCommitted.1.lastApplied = max r.node.lastApplied r.node.commitIndex := by
      unfold RaftNode.takeCommitted
      split
      · simp only
        omega
      · simp only
        omega
    change e.index ≤ r.node.takeCommitted.1.lastApplied
    omega

theorem elected_part (view : View voters highWater l i n) (role : n.role = .leader) {b : List Entry}
    (won : l.winner n.currentTerm = some (i, b)) : b <+: l.log i := by
  obtain ⟨-, own, lead, -⟩ := view.inv.electedLog _ _ _ won
  rw [(view.node.leader role).current, lead]
  exact prefix_append ..

theorem Serves.resetCursor (serves : Serves voters l past i r ts) (drained : r.node.pendingSnapshot = none) :
    Serves voters l past i r.resetCursor ts ∧ r.resetCursor.node = r.node ∧ r.resetCursor.fsm = r.fsm ∧
      ∀ index, r.resetCursor.pendingReset = some index → r.node.lastApplied < index := by
  unfold PdReplica.resetCursor
  split
  · rename_i index pending
    have role : r.node.role = .leader := by
      by_contra other
      rw [serves.seated.idle other] at pending
      cases pending
    have cursor := serves.seated.leads role
    split
    · rename_i reached
      obtain ⟨b, won, later, -⟩ := cursor.due index pending
      have part : b <+: (l.log i).take (position r.node) := by
        have short : b.length ≤ position r.node := by
          rw [position]
          omega
        rw [prefix_iff_eq_take.mp (elected_part serves.view role won)]
        exact take_prefix_take_left short
      have stocked := serves.stocked
      refine ⟨⟨serves.view, { stocked with bounded := Nat.le_refl _ }, serves.steady,
        serves.seated.led, fun _ => rfl, fun _ => ⟨nofun, fun _ => ⟨b, won, ?_⟩, ?_⟩, nofun⟩, rfl, rfl, nofun⟩
      · exact (reserved_mono part.subset).trans (stocked.caught drained).ge
      · exact fun h member same => (cursor.after h member same).trans stocked.bounded
    · rename_i waits
      refine ⟨serves, rfl, rfl, fun index' pending' => ?_⟩
      cases pending.symm.trans pending'
      exact Nat.lt_of_not_le waits
  · rename_i done
    refine ⟨serves, rfl, rfl, fun index pending => ?_⟩
    rw [done] at pending
    cases pending

theorem compact_kept (n : RaftNode) (index : Nat) (data : Bytes) :
    ((n.compact index data).getD n).role = n.role ∧ ((n.compact index data).getD n).currentTerm = n.currentTerm ∧
      ((n.compact index data).getD n).transferTarget = n.transferTarget ∧
      ((n.compact index data).getD n).messages = n.messages ∧
      ((n.compact index data).getD n).pendingSnapshot = n.pendingSnapshot ∧
      ((n.compact index data).getD n).lastApplied = n.lastApplied := by
  obtain ⟨storage, same⟩ := n.compact_frame index data
  rw [same]
  exact ⟨rfl, rfl, rfl, rfl, rfl, rfl⟩

theorem Serves.boundLog (serves : Serves voters l past i r ts) (drained : r.node.pendingSnapshot = none)
    (fits : r.fsm.Fits) : Serves voters l past i r.boundLog ts ∧ r.boundLog.node.pendingSnapshot = none ∧
      r.boundLog.node.lastApplied = r.node.lastApplied ∧ r.boundLog.pendingReset = r.pendingReset := by
  unfold PdReplica.boundLog
  split
  · rename_i long
    have stocked := serves.stocked
    have here : position r.node = r.node.lastApplied := by
      rw [MemStorage.firstIndex, compactThreshold] at long
      rw [position]
      omega
    have image : Restores r.fsm.snapshot (reserved ((l.log i).take r.node.lastApplied)) := by
      have restores := restores_snapshot fits stocked.reported
      rwa [stocked.caught drained, here] at restores
    have view : View voters highWater l i ((r.node.compact r.node.lastApplied r.fsm.snapshot).getD r.node) :=
      serves.view.compact fun _ _ => image
    have same : position ((r.node.compact r.node.lastApplied r.fsm.snapshot).getD r.node) = position r.node := by
      cases done : r.node.compact r.node.lastApplied r.fsm.snapshot with
      | none => rfl
      | some n' =>
        rcases r.node.compact_progressed done with still | ⟨base, progressed, above, within⟩
        · exact position_of_progressed still
        · simp only [RaftNode.progressed, Prod.mk.injEq] at progressed
          rw [Option.getD_some, here, position, progressed.1, progressed.2.2]
          omega
    obtain ⟨role, term, target, messages, pending, applied⟩ := compact_kept r.node r.node.lastApplied r.fsm.snapshot
    refine ⟨⟨view, ⟨stocked.reported, stocked.bounded, ?_, ?_, ?_⟩, ⟨target.trans serves.steady.settled, ?_⟩,
      serves.seated.congr role term rfl rfl (Nat.le_refl _)⟩, pending.trans drained, applied, rfl⟩
    · rw [same]
      exact stocked.high
    · rw [same]
      exact fun _ => stocked.caught drained
    · intro k data found
      cases (pending.trans drained).symm.trans found
    · rw [messages]
      exact serves.steady.silent
  · exact ⟨serves, drained, rfl, rfl⟩

theorem Serves.takeMessages (serves : Serves voters l past i r ts) :
    Serves voters l past i { r with node := r.node.takeMessages.1 } ts := by
  have view := serves.view
  have stocked := serves.stocked
  exact ⟨{ view with node := view.node.congr rfl, sent := nofun },
    { stocked with }, ⟨serves.steady.settled, nofun⟩,
    serves.seated.congr rfl rfl rfl rfl (Nat.le_refl _)⟩

structure Called (voters : List NodeId) (l : Ledger NodeId Entry) (past : List Handed) (i : NodeId) (r : PdReplica)
    (ts : OrdMap Nat (UInt64 × Ticket)) : Prop where
  view : View voters highWater l i r.node
  stocked : Stocked l i r
  steady : r.node.Steady
  elected : r.node.role = .leader → r.wasLeader = false → ts = .empty ∧ ∀ h ∈ past, h.term ≠ r.node.currentTerm
  leads : r.node.role = .leader → r.wasLeader = true → Cursor l past i r
  parked : ∀ index, r.pendingReset = some index → ∀ k w, ts.find? k = some w → index < k

variable {data : Bytes}

theorem propose_steady (role : n.role = .leader) (steady : n.Steady) :
    n.propose data = .ok ((n.appendOwn (.normal n.currentTerm (n.storage.lastIndex + 1) data)).maybeAdvanceCommit.broadcastAppend,
      n.storage.lastIndex + 1) := by
  unfold RaftNode.propose
  rw [if_neg (not_not.mpr role), steady.settled]
  rfl

variable {index : Nat}

theorem propose_progressed (accepted : n.propose data = .ok (n', index)) : n'.progressed = n.progressed := by
  have still : ((Action.propose n.id data).perform n).progressed = n.progressed := n.still_perform rfl
  rwa [Action.perform, accepted] at still

theorem propose_lastIndex (accepted : n.propose data = .ok (n', index)) :
    index = n.storage.lastIndex + 1 ∧ n'.storage.lastIndex = index := by
  obtain ⟨-, rfl, rfl⟩ := RaftNode.propose_ok accepted
  refine ⟨rfl, ?_⟩
  rw [MemStorage.lastIndex_of_body (RaftNode.broadcastAppend_body _),
    MemStorage.lastIndex_of_body (RaftNode.maybeAdvanceCommit_body _)]
  simp [RaftNode.appendOwn, MemStorage.lastIndex, MemStorage.append, Entry.normal]

theorem announce_of_follower (role : r.node.role ≠ .leader) :
    r.announce = { r with pendingReset := none, wasLeader := false } := by
  simp [PdReplica.announce, PdReplica.isLeader, RaftNode.isLeader, role]

theorem announce_of_leader (role : r.node.role = .leader) (was : r.wasLeader = true) : r.announce = r := by
  obtain ⟨node, fsm, served, wasLeader, pendingReset⟩ := r
  simp only at role was
  simp [PdReplica.announce, PdReplica.isLeader, RaftNode.isLeader, role, was]

theorem announce_of_elected (role : r.node.role = .leader) (was : r.wasLeader = false)
    (accepted : r.node.propose [] = .ok (n', index)) :
    r.announce = { r with node := n', pendingReset := some index, wasLeader := true } := by
  simp [PdReplica.announce, PdReplica.isLeader, RaftNode.isLeader, role, was, accepted]

theorem Called.announce (called : Called voters l past i r ts) :
    ∃ l', Evolves i l l' ∧ Serves voters l' past i r.announce ts := by
  by_cases role : r.node.role = .leader
  · cases was : r.wasLeader with
    | true =>
      rw [announce_of_leader role was]
      refine ⟨l, Evolves.refl i l, called.view, called.stocked, called.steady, ?_, ?_, ?_, called.parked⟩
      · rw [was, PdReplica.isLeader, RaftNode.isLeader, role, decide_eq_true rfl]
      · exact fun other => absurd role other
      · exact fun _ => called.leads role was
    | false =>
      obtain ⟨empty, unissued⟩ := called.elected role was
      obtain ⟨n', index, accepted⟩ : ∃ n' index, r.node.propose [] = .ok (n', index) :=
        ⟨_, _, propose_steady role called.steady⟩
      obtain ⟨reigns, term, leads, -⟩ := RaftNode.propose_reigns accepted
      obtain ⟨l', evolves, view⟩ := called.view.propose accepted
      have stocked := called.stocked.moved called.view view evolves (propose_progressed accepted)
      obtain ⟨b, won⟩ := (called.view.node.leader role).won
      obtain ⟨next, last⟩ := propose_lastIndex accepted
      have later : b.length < index := by
        rw [next, called.view.node.log.lastIndex]
        exact Nat.lt_succ_of_le (elected_part called.view role won).length_le
      have within : index ≤ (l'.lead n'.currentTerm).length := by
        rw [← (view.node.leader leads).current, ← view.node.log.lastIndex, last]
      rw [announce_of_elected role was accepted]
      refine ⟨l', evolves, view, { stocked with },
        reigns.steady called.steady, ?_, fun other => absurd leads other, fun _ => ⟨?_, nofun, ?_⟩, ?_⟩
      · rw [PdReplica.isLeader, RaftNode.isLeader, leads, decide_eq_true rfl]
      · rintro _ ⟨⟩
        exact ⟨b, term ▸ evolves.extend.winner _ _ won, later, within⟩
      · exact fun h member same => absurd (same.trans term) (unissued h member)
      · rw [empty]
        rintro _ _ k w ⟨⟩
  · rw [announce_of_follower role]
    have stocked := called.stocked
    refine ⟨l, Evolves.refl i l, called.view, { stocked with }, called.steady, ?_, fun _ => rfl, fun leads => absurd leads role, nofun⟩
    rw [PdReplica.isLeader, RaftNode.isLeader, decide_eq_false role]

theorem boundLog_frame (r : PdReplica) : ∃ storage, r.boundLog = { r with node.storage := storage } := by
  unfold PdReplica.boundLog
  split
  · obtain ⟨storage, same⟩ := r.node.compact_frame r.node.lastApplied r.fsm.snapshot
    exact ⟨storage, by rw [same]⟩
  · exact ⟨r.node.storage, rfl⟩

/-- A snapshot of a state that its format does not hold spoils the storage. Everything else is as if the log had been
left as it was. -/
theorem Called.ready (called : Called voters l past i r ts) : ∃ l' n, Evolves i l l' ∧ View voters highWater l' i n ∧
    n.Steady ∧ n.pendingSnapshot = none ∧ r.ready.2.1 = n.messages ∧
    (∃ storage, r.ready.1.node = { n.takeMessages.1 with storage }) ∧
    (r.ready.1.fsm.Fits → r.ready.1.node = n.takeMessages.1) ∧
    Serves voters l' past i { r.ready.1 with node := n.takeMessages.1 } ts ∧ ∀ index ∈ r.ready.2.2, index ≤ n.lastApplied ∧
      ∀ due, r.ready.1.pendingReset = some due → n.lastApplied < due := by
  obtain ⟨l', evolves, announced⟩ := called.announce
  obtain ⟨adopted, drained⟩ := announced.adoptSnapshot
  obtain ⟨applied, drained, reached⟩ := adopted.applyCommitted drained
  rw [PdReplica.ready_eq]
  dsimp only
  -- from here on only what is known of the applied state counts
  generalize r.announce.adoptSnapshot.applyCommitted = done at applied drained reached ⊢
  obtain ⟨reset, same, fsm, waits⟩ := applied.resetCursor drained
  rw [← same] at drained reached waits
  generalize done.1.resetCursor = ready at reset drained waits reached ⊢
  by_cases fits : ready.fsm.Fits
  · obtain ⟨bound, drained, position, pending⟩ := reset.boundLog drained fits
    exact ⟨l', _, evolves, bound.view, bound.steady, drained, rfl, ⟨_, rfl⟩, fun _ => rfl, bound.takeMessages,
      fun index member => ⟨position ▸ reached index member, fun due late => position ▸ waits due (pending ▸ late)⟩⟩
  · obtain ⟨storage, bound⟩ := boundLog_frame ready
    rw [bound]
    exact ⟨l', ready.node, evolves, reset.view, reset.steady, drained, rfl, ⟨storage, rfl⟩, fun held => absurd held fits,
      reset.takeMessages, fun index member => ⟨reached index member, waits⟩⟩

theorem takeCommitted_subset (n : RaftNode) : n.takeCommitted.2 ⊆ n.storage.log := by
  unfold RaftNode.takeCommitted MemStorage.entries
  simp only
  split_ifs
  · exact nil_subset _
  · exact nil_subset _
  · exact nil_subset _
  · exact Subset.trans (drop_subset ..) (take_subset ..)

theorem takeCommitted_role (n : RaftNode) : n.takeCommitted.1.role = n.role := by
  unfold RaftNode.takeCommitted
  split <;> rfl

theorem resetCursor_frame (r : PdReplica) : r.resetCursor.node = r.node ∧ r.resetCursor.fsm = r.fsm := by
  unfold PdReplica.resetCursor
  split
  · split <;> exact ⟨rfl, rfl⟩
  · exact ⟨rfl, rfl⟩

theorem ready_role (r : PdReplica) : r.ready.1.node.role = r.announce.node.role := by
  obtain ⟨storage, bound⟩ := boundLog_frame r.announce.adoptSnapshot.applyCommitted.1.resetCursor
  rw [PdReplica.ready_eq]
  dsimp only
  rw [bound]
  change r.announce.adoptSnapshot.applyCommitted.1.resetCursor.node.role = _
  rw [(resetCursor_frame _).1]
  refine (takeCommitted_role _).trans ?_
  unfold PdReplica.adoptSnapshot
  dsimp only
  split <;> rfl

theorem ready_upper (was : r.wasLeader = true) (role : r.node.role = .leader) (drained : r.node.pendingSnapshot = none) :
    r.ready.1.fsm.tsoUpper.toNat ≤ max r.fsm.tsoUpper.toNat (reserved r.node.storage.log) := by
  have adopted : r.adoptSnapshot = { r with node := r.node.takeSnapshot.1 } := by
    unfold PdReplica.adoptSnapshot
    simp only [RaftNode.takeSnapshot, drained]
  rw [PdReplica.ready_eq, announce_of_leader role was, adopted]
  dsimp only
  rw [PdReplica.boundLog_fsm, (resetCursor_frame _).2]
  change (r.node.takeSnapshot.1.takeCommitted.2.foldl PdReplica.applyEntry r.fsm).tsoUpper.toNat ≤ _
  rw [tsoUpper_applyEntries]
  exact max_le_max le_rfl (reserved_mono (takeCommitted_subset _))

variable {count first : UInt64}

theorem handOut_some (took : r.handOut count = (r', some first)) :
    r.node.role = .leader ∧ r.served + max count 1 ≤ r.fsm.tsoUpper ∧ first = r.served ∧
      r' = { r with served := r.served + max count 1 } := by
  unfold PdReplica.handOut at took
  simp only at took
  split at took
  · rename_i room
    cases took
    exact ⟨of_decide_eq_true room.1, room.2, rfl, rfl⟩
  · cases took

theorem Serves.handOut (serves : Serves voters l past i r ts) (history : History voters l past)
    (drained : r.node.pendingSnapshot = none) (done : r.pendingReset = none)
    (took : r.handOut count = (r', some first)) (room : r.fsm.tsoUpper.toNat + (max count 1).toNat < 2 ^ 64) :
    History voters l (past ++ [⟨r.node.id, r.node.currentTerm, first, max count 1⟩]) ∧
      Serves voters l (past ++ [⟨r.node.id, r.node.currentTerm, first, max count 1⟩]) i r' ts := by
  obtain ⟨role, window, rfl, rfl⟩ := handOut_some took
  have stocked := serves.stocked
  have cursor := serves.seated.leads role
  obtain ⟨b, won, high⟩ := cursor.ahead done
  have sum : (r.served + max count 1).toNat = r.served.toNat + (max count 1).toNat := by
    rw [UInt64.toNat_add, Nat.mod_eq_of_lt ((Nat.add_le_add_right stocked.bounded _).trans_lt room)]
  have fits : r.served.toNat + (max count 1).toNat ≤ r.fsm.tsoUpper.toNat := sum ▸ UInt64.le_iff_toNat_le.mp window
  have issued : Issued voters l ⟨r.node.id, r.node.currentTerm, r.served, max count 1⟩ := by
    refine ⟨⟨b, ?_, high⟩, l.log i, position r.node, settled_position serves.view.node, ?_⟩
    · rw [serves.view.node.id]
      exact won
    · exact fits.trans (stocked.caught drained).le
  have grown : r.served.toNat ≤ (r.served + max count 1).toNat := by omega
  refine ⟨history.push serves.view.inv issued cursor.after, serves.view, { stocked with bounded := sum ▸ fits }, serves.steady, serves.seated.led, serves.seated.idle, fun _ => ⟨cursor.due,
    fun _ => ⟨b, won, high.trans grown⟩, fun h member same => ?_⟩, serves.seated.parked⟩
  rcases mem_append.mp member with before | new
  · exact (cursor.after h before same).trans grown
  · rw [mem_singleton.mp new]
    exact sum.ge

theorem Serves.forget {ts' : OrdMap Nat (UInt64 × Ticket)} (serves : Serves voters l past i r ts)
    (fewer : ∀ k w, ts'.find? k = some w → ts.find? k = some w) : Serves voters l past i r ts' :=
  ⟨serves.view, serves.stocked, serves.steady, serves.seated.led, serves.seated.idle, serves.seated.leads,
    fun index due k w found => serves.seated.parked index due k w (fewer k w found)⟩

end

end Arcux.Pd
