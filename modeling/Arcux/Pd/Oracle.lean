import Arcux.Pd.Cursor
import Arcux.Raft.Outbox

namespace Arcux.Pd

open Consensus Data List Raft
open scoped Codec.ByteOrder Engine

section

open Actor

variable {voters : List NodeId} {l l' : Ledger NodeId Entry} {i : NodeId} {past past' : List Handed} {t : Turn}
  {n : RaftNode} {reset : Option Nat}

theorem Actor.Turn.handOut_cases (t : Turn) (count : UInt64) : t.handOut count = (t, none) ∨
    ∃ r first, t.actor.replica.handOut count = (r, some first) ∧ t.handOut count =
      ({ t with
          actor.replica := r
          handed := t.handed ++ [⟨t.actor.replica.node.id, t.actor.replica.node.currentTerm, first, max count 1⟩] },
        some first) := by
  cases took : t.actor.replica.handOut count with
  | mk r taken =>
    cases taken with
    | none =>
      left
      simp only [Turn.handOut, took]
    | some first =>
      obtain ⟨-, -, -, rfl⟩ := handOut_some took
      refine .inr ⟨_, first, rfl, ?_⟩
      simp only [Turn.handOut, took]

/-- The parked requests are being answered. `n` is the node as it would be with a storage that a snapshot has not
spoiled. -/
structure Resolving (voters : List NodeId) (l : Ledger NodeId Entry) (past : List Handed) (i : NodeId) (n : RaftNode)
    (reset : Option Nat) (t : Turn) : Prop where
  node : ∃ storage, t.actor.replica.node = { n with storage }
  reset : t.actor.replica.pendingReset = reset
  serves : Serves voters l (past ++ t.handed) i { t.actor.replica with node := n } t.actor.pendingTs
  history : History voters l (past ++ t.handed)
  own : ∀ h ∈ t.handed, h.node = i
  room : n.role = .leader → ∀ k w, t.actor.pendingTs.find? k = some w →
    t.actor.replica.fsm.tsoUpper.toNat + (max w.1 1).toNat < 2 ^ 64

theorem Resolving.resolveDecl (resolving : Resolving voters l past i n reset t) (index : Nat) :
    Resolving voters l past i n reset ((t.resolveHb index).resolveDecl index) := by
  obtain ⟨replica, parked, handed, -⟩ := t.resolveDecl_frame index
  obtain ⟨node, reset, serves, history, own, room⟩ := resolving
  constructor <;> simpa only [replica, parked, handed]

variable {index : Nat}

theorem Resolving.resolveTs (resolving : Resolving voters l past i n reset t) (drained : n.pendingSnapshot = none)
    (applied : index ≤ n.lastApplied) (waits : ∀ due, reset = some due → n.lastApplied < due) :
    Resolving voters l past i n reset (t.resolveTs index) := by
  unfold Turn.resolveTs
  split
  · rename_i count tx found
    have fewer : ∀ k w, (t.actor.pendingTs.erase index).find? k = some w → t.actor.pendingTs.find? k = some w := by
      intro k w there
      rw [OrdMap.find?_erase] at there
      split at there
      · cases there
      · exact there
    have rest := resolving.serves.forget fewer
    have room (leads : n.role = .leader) (k : Nat) (w : UInt64 × Ticket)
        (there : (t.actor.pendingTs.erase index).find? k = some w) := resolving.room leads k w (fewer k w there)
    have done : t.actor.replica.pendingReset = none := by
      rw [resolving.reset]
      cases pending : reset with
      | none => rfl
      | some due =>
        have late := waits due pending
        have behind := resolving.serves.seated.parked due (resolving.reset.trans pending) index _ found
        omega
    rcases Turn.handOut_cases { t with actor.pendingTs := t.actor.pendingTs.erase index } count with
      refused | ⟨r, first, took, handed⟩
    · rw [refused]
      exact ⟨resolving.node, resolving.reset, rest, resolving.history, resolving.own, room⟩
    · obtain ⟨leads, window, rfl, rfl⟩ := handOut_some took
      obtain ⟨storage, node⟩ := resolving.node
      rw [handed]
      dsimp only at leads window ⊢
      rw [node] at leads ⊢
      have took : PdReplica.handOut { t.actor.replica with node := n } count = _ :=
        if_pos ⟨decide_eq_true leads, window⟩
      obtain ⟨history, serves⟩ := rest.handOut resolving.history drained done took (resolving.room leads index _ found)
      rw [append_assoc] at history serves
      refine ⟨⟨storage, rfl⟩, resolving.reset, serves, history, fun h member => ?_, room⟩
      rcases mem_append.mp member with before | new
      · exact resolving.own h before
      · rw [mem_singleton.mp new]
        exact rest.view.node.id
  · exact resolving

theorem Resolving.foldl (resolving : Resolving voters l past i n reset t) (drained : n.pendingSnapshot = none)
    {committed : List Nat} (applied : ∀ index ∈ committed, index ≤ n.lastApplied ∧
      ∀ due, reset = some due → n.lastApplied < due) :
    Resolving voters l past i n reset (committed.foldl Turn.resolve t) := by
  induction committed generalizing t with
  | nil => exact resolving
  | cons index rest ih =>
    obtain ⟨⟨below, waits⟩, later⟩ := forall_mem_cons.mp applied
    exact ih ((resolving.resolveDecl index).resolveTs drained below waits) later

structure Actor.Turn.Follows (t t' : Turn) : Prop where
  messages : t'.messages = t.messages
  fsm : t'.actor.replica.fsm = t.actor.replica.fsm
  node : t'.actor.replica.node = t.actor.replica.node

theorem Actor.Turn.follows_resolve (t : Turn) (index : Nat) : t.Follows (t.resolve index) := by
  have resolved (t : Turn) : t.Follows (t.resolveTs index) := by
    unfold Turn.resolveTs
    split
    · rename_i count tx found
      rcases Turn.handOut_cases { t with actor.pendingTs := t.actor.pendingTs.erase index } count with
        refused | ⟨r, first, took, handed⟩
      · rw [refused]
        exact ⟨rfl, rfl, rfl⟩
      · obtain ⟨-, -, -, rfl⟩ := handOut_some took
        rw [handed]
        exact ⟨rfl, rfl, rfl⟩
    · exact ⟨rfl, rfl, rfl⟩
  obtain ⟨replica, -, -, messages⟩ := t.resolveDecl_frame index
  obtain ⟨messages', fsm, node⟩ := resolved ((t.resolveHb index).resolveDecl index)
  exact ⟨messages'.trans messages, fsm.trans (congrArg PdReplica.fsm replica), node.trans (congrArg PdReplica.node replica)⟩

theorem Actor.Turn.follows_foldl (t : Turn) (committed : List Nat) : t.Follows (committed.foldl Turn.resolve t) := by
  induction committed generalizing t with
  | nil => exact ⟨rfl, rfl, rfl⟩
  | cons index rest ih =>
    obtain ⟨messages, fsm, node⟩ := t.follows_resolve index
    obtain ⟨messages', fsm', node'⟩ := ih (t.resolve index)
    exact ⟨messages'.trans messages, fsm'.trans fsm, node'.trans node⟩

theorem Actor.Turn.failParked_frame (t : Turn) : t.failParked.messages = t.messages ∧ t.failParked.handed = t.handed ∧
    t.failParked.actor.replica = t.actor.replica := by
  unfold Turn.failParked
  split <;> exact ⟨rfl, rfl, rfl⟩

structure Rests (voters : List NodeId) (l : Ledger NodeId Entry) (past : List Handed) (i : NodeId) (a : Actor) : Prop where
  serves : Serves voters l past i a.replica a.pendingTs
  drained : a.replica.node.pendingSnapshot = none
  unparked : a.replica.node.role ≠ .leader → a.pendingTs = .empty

theorem Resolving.failParked (resolving : Resolving voters l past i n reset t) (drained : n.pendingSnapshot = none) :
    Rests voters l (past ++ t.handed) i { t.failParked.actor with replica.node := n } := by
  unfold Turn.failParked
  split
  · refine ⟨resolving.serves.forget ?_, drained, fun _ => rfl⟩
    rintro k w ⟨⟩
  · rename_i leads
    refine ⟨resolving.serves, drained, fun other => absurd ?_ leads⟩
    obtain ⟨storage, node⟩ := resolving.node
    rw [PdReplica.isLeader, node, RaftNode.isLeader, decide_eq_false other]
    exact Bool.false_ne_true

variable {a : Actor} {n' : RaftNode} {ts : OrdMap Nat (UInt64 × Ticket)} {r : PdReplica}

theorem Serves.called (serves : Serves voters l past i r ts) : Called voters l past i r ts := by
  refine ⟨serves.view, serves.stocked, serves.steady, fun role was => ?_, fun role _ => serves.seated.leads role,
    serves.seated.parked⟩
  rw [serves.seated.led, PdReplica.isLeader, RaftNode.isLeader, role, decide_eq_true rfl] at was
  cases was

theorem term_ne_of_elected (view : View voters highWater l i n) (role : n.role ≠ .leader)
    (reigns : RaftNode.Reigns n n') (evolves : Evolves i l l') (view' : View voters highWater l' i n')
    (leads : n'.role = .leader) {h : Handed} (issued : Issued voters l h) : h.term ≠ n'.currentTerm := by
  intro same
  obtain ⟨⟨b, won, -⟩, -⟩ := issued
  obtain ⟨b', won'⟩ := (view'.node.leader leads).won
  have later := evolves.extend.winner _ _ won
  rw [same, won'] at later
  obtain ⟨own, -⟩ := Prod.mk.inj (Option.some.inj later)
  rw [same, ← own] at won
  rcases reigns.elected leads with ⟨term, campaigns⟩ | ⟨newer, -⟩
  · -- a candidate of its term has not won it yet
    have candidate : n.role = .candidate := by
      cases standing : n.role with
      | follower => exact absurd standing campaigns
      | candidate => rfl
      | leader => exact absurd standing role
    rw [term] at won
    exact (view.node.candidate candidate).unwon b won
  · -- a node has not campaigned in a term that is newer than its own
    have bound := view.inv.campaignBound _ _ _ (view.inv.electedLog _ _ _ won).1
    rw [view.node.term] at bound
    omega

theorem Rests.called (rests : Rests voters l past i a) (history : History voters l past) (evolves : Evolves i l l')
    (view' : View voters highWater l' i n') (reigns : RaftNode.Reigns a.replica.node n')
    (stocked : Stocked l' i { a.replica with node := n' }) :
    Called voters l' past i { a.replica with node := n' } a.pendingTs := by
  obtain ⟨serves, -, unparked⟩ := rests
  have seated := serves.seated
  refine ⟨view', stocked, reigns.steady serves.steady, fun leads was => ?_, fun leads was => ?_, seated.parked⟩
  · have role : a.replica.node.role ≠ .leader := by
      have led := seated.led.symm.trans was
      exact of_decide_eq_false led
    exact ⟨unparked role, fun h member =>
      term_ne_of_elected serves.view role reigns evolves view' leads (history.issued h member)⟩
  · have role : a.replica.node.role = .leader := by
      have led := seated.led.symm.trans was
      exact of_decide_eq_true led
    have term : n'.currentTerm = a.replica.node.currentTerm := by
      rcases reigns.elected leads with ⟨term, -⟩ | ⟨-, other⟩
      · exact term
      · exact absurd role other
    exact (seated.leads role).mono evolves term rfl (Nat.le_refl _)

theorem Rests.ticked (rests : Rests voters l past i a) (history : History voters l past) :
    ∃ l', Evolves i l l' ∧ Called voters l' past i a.replica.tick a.pendingTs := by
  have view := rests.serves.view
  obtain ⟨l', evolves, view'⟩ := view.tick
  have still : ((Action.tick i).perform a.replica.node).progressed = a.replica.node.progressed :=
    a.replica.node.still_perform rfl
  exact ⟨l', evolves, rests.called history evolves view' a.replica.node.tick_reigns
    (rests.serves.stocked.moved view view' evolves still)⟩

structure Welcome (voters : List NodeId) (l : Ledger NodeId Entry) (i : NodeId) (n : RaftNode) (msg : Message) : Prop where
  justified : Justified voters highWater l msg
  addressed : msg.dest = i
  ordinary : msg.body ≠ .timeoutNow
  safe : n.safeInstall msg

theorem Rests.stepped (rests : Rests voters l past i a) (history : History voters l past) {msg : Message}
    (welcome : Welcome voters l i a.replica.node msg) :
    ∃ l', Evolves i l l' ∧ Called voters l' past i (a.replica.step msg) a.pendingTs := by
  have view := rests.serves.view
  have stocked := rests.serves.stocked
  obtain ⟨l', evolves, view'⟩ := view.step welcome.justified welcome.addressed welcome.safe
  have reigns := a.replica.node.step_reigns welcome.ordinary
  refine ⟨l', evolves, rests.called history evolves view' reigns ?_⟩
  rcases a.replica.node.step_progressed msg with still | ⟨snap, held, beyond, progressed⟩
  · exact stocked.moved view view' evolves still
  · have based : a.replica.node.storage.base ≤ a.replica.node.storage.lastIndex :=
      view.node.log.lastIndex ▸ view.node.log.base_le
    exact stocked.installed view view' evolves held beyond (RaftNode.step_base based welcome.safe) progressed

variable {cmd : PdCmd}

theorem propose_eq_ok {r r' : PdReplica} (accepted : r.propose cmd = .ok (r', index)) :
    ∃ n', r.node.propose cmd.encode = .ok (n', index) ∧ r' = { r with node := n' } := by
  unfold PdReplica.propose at accepted
  cases proposed : r.node.propose cmd.encode with
  | error e =>
    rw [proposed] at accepted
    cases accepted
  | ok result =>
    rw [proposed] at accepted
    cases accepted
    exact ⟨result.1, rfl, rfl⟩

theorem Rests.proposed (rests : Rests voters l past i a) (history : History voters l past)
    (accepted : a.replica.propose cmd = .ok (r, index))
    (parks : ∀ k w, ts.find? k = some w → k = index ∨ a.pendingTs.find? k = some w) :
    ∃ l', Evolves i l l' ∧ Called voters l' past i r ts := by
  obtain ⟨n', appended, rfl⟩ := propose_eq_ok accepted
  have view := rests.serves.view
  obtain ⟨role, -, -⟩ := RaftNode.propose_ok appended
  obtain ⟨l', evolves, view'⟩ := view.propose appended
  have stocked := rests.serves.stocked.moved view view' evolves (propose_progressed appended)
  have called := rests.called history evolves view' (RaftNode.propose_reigns appended).1 stocked
  refine ⟨l', evolves, called.view, called.stocked, called.steady, fun leads was => ?_, called.leads, ?_⟩
  · have led : a.replica.wasLeader = true := rests.serves.seated.led.trans (decide_eq_true role)
    rw [show a.replica.wasLeader = false from was] at led
    cases led
  · intro due pending k w found
    rcases parks k w found with rfl | before
    · obtain ⟨b, -, -, within⟩ := (rests.serves.seated.leads role).due due pending
      rw [← (view.node.leader role).current, ← view.node.log.lastIndex] at within
      rw [(propose_lastIndex appended).1]
      exact Nat.lt_succ_of_le within
    · exact rests.serves.seated.parked due pending k w before

structure Executed (voters : List NodeId) (l : Ledger NodeId Entry) (past : List Handed) (i : NodeId) (t : Turn) : Prop where
  called : Called voters l (past ++ t.handed) i t.actor.replica t.actor.pendingTs
  history : History voters l (past ++ t.handed)
  own : ∀ h ∈ t.handed, h.node = i

theorem Rests.executed (history : History voters l past) (evolves : Evolves i l l') {t : Turn} (nothing : t.handed = [])
    (called : Called voters l' past i t.actor.replica t.actor.pendingTs) : Executed voters l' past i t := by
  refine ⟨?_, ?_, ?_⟩
  · rw [nothing, append_nil]
    exact called
  · rw [nothing, append_nil]
    exact history.mono evolves
  · rw [nothing]
    exact forall_mem_nil _

theorem Rests.submit (rests : Rests voters l past i a) (history : History voters l past) (cmd : PdCmd)
    {park : Actor → Nat → Actor} (refusal : Answer) (keeps : ∀ a index, (park a index).replica = a.replica)
    (parks : ∀ (a : Actor) index k w, (park a index).pendingTs.find? k = some w → k = index ∨ a.pendingTs.find? k = some w) :
    ∃ l', Evolves i l l' ∧ Executed voters l' past i ({ actor := a : Turn }.submit cmd park refusal) := by
  unfold Turn.submit
  split
  · rename_i r index accepted
    obtain ⟨l', evolves, called⟩ := rests.proposed history accepted (parks { a with replica := r } index)
    refine ⟨l', evolves, Rests.executed history evolves rfl ?_⟩
    rw [keeps]
    exact called
  · exact ⟨l, Evolves.refl i l, Rests.executed history (Evolves.refl i l) rfl rests.serves.called⟩

def Actor.Settled (a : Actor) : Cmd → Prop
  | .allocTs count _ => a.replica.isLeader → a.replica.served + max count 1 ≤ a.replica.fsm.tsoUpper →
      a.replica.pendingReset = none
  | _ => True

def Actor.asked (a : Actor) (cmd : Cmd) : List UInt64 :=
  a.pendingTs.entries.map (·.2.1) ++ match cmd with
    | .allocTs count _ => [count]
    | _ => []

/-- The highest watermark of the state, of its log and of the reservation that the command would propose. -/
def Actor.high (a : Actor) (cmd : Cmd) : Nat :=
  max (max a.replica.fsm.tsoUpper.toNat (reserved a.replica.node.storage.log)) (match cmd with
    | .allocTs count _ => (a.replica.reserveTsCmd count).upper
    | _ => 0)

/-- When a turn is safe: a request is not served at once while the reset of the cursor is pending, no count passes the end
of the timestamps from where the watermark may be, a snapshot is installed only where nothing is lost by it, and the state
fits the format of a snapshot. -/
@[mk_iff]
structure Actor.Guarded (a : Actor) (cmd : Cmd) : Prop where
  settled : a.Settled cmd
  room : ∀ count ∈ a.asked cmd, a.high cmd + (max count 1).toNat < 2 ^ 64
  safe : ∀ m ∈ cmd.brings, a.replica.node.safeInstall m.message
  fits : a.replica.fsm.Fits

instance (a : Actor) (cmd : Cmd) : Decidable (a.Settled cmd) := by
  unfold Actor.Settled
  split <;> infer_instance

instance (a : Actor) (cmd : Cmd) : Decidable (a.Guarded cmd) :=
  -- not by trying every count there is
  have := decidableBAll (fun count => a.high cmd + (max count 1).toNat < 2 ^ 64) (a.asked cmd)
  decidable_of_iff' _ (Actor.guarded_iff a cmd)

theorem Rests.execute (rests : Rests voters l past i a) (history : History voters l past) {cmd : Cmd}
    (welcome : ∀ m ∈ cmd.brings, Welcome voters l i a.replica.node m.message) (guarded : a.Guarded cmd) :
    ∃ l', Evolves i l l' ∧ Executed voters l' past i ({ actor := a : Turn }.execute cmd) := by
  have refused (answer : Answer) : ∃ l', Evolves i l l' ∧ Executed voters l' past i ({ actor := a : Turn }.answer answer) :=
    ⟨l, Evolves.refl i l, Rests.executed history (Evolves.refl i l) rfl rests.serves.called⟩
  cases cmd with
  | tick =>
    obtain ⟨l', evolves, called⟩ := rests.ticked history
    exact ⟨l', evolves, Rests.executed history evolves rfl called⟩
  | step | stepReply =>
    obtain ⟨l', evolves, called⟩ := rests.stepped history (welcome _ rfl)
    exact ⟨l', evolves, Rests.executed history evolves rfl called⟩
  | heartbeat | declareTable =>
    simp only [Turn.execute]
    split
    · exact refused _
    · exact rests.submit history _ _ (fun _ _ => rfl) fun _ _ _ _ found => .inr found
  | allocTs count tx =>
    simp only [Turn.execute]
    split
    · exact refused _
    rcases Turn.handOut_cases { actor := a : Turn } count with none | ⟨r, first, took, handed⟩
    · rw [none]
      refine rests.submit history _ _ (fun _ _ => rfl) fun a index k w found => ?_
      rw [OrdMap.find?_insert] at found
      split at found
      · rename_i same
        exact .inl same
      · exact .inr found
    · rw [handed]
      obtain ⟨role, window, -⟩ := handOut_some took
      have room := guarded.room count (mem_append_right _ (mem_singleton_self _))
      have low : a.replica.fsm.tsoUpper.toNat ≤ a.high (.allocTs count tx) := (le_max_left ..).trans (le_max_left ..)
      obtain ⟨pushed, serves⟩ := rests.serves.handOut history rests.drained
        (guarded.settled (decide_eq_true role) window) took (by omega)
      refine ⟨l, Evolves.refl i l, serves.called, pushed, fun h member => ?_⟩
      rw [mem_singleton.mp member]
      exact rests.serves.view.node.id

structure Actor.Kept (a : Actor) (cmd : Cmd) (b : Actor) : Prop where
  fsm : b.replica.fsm = a.replica.fsm
  was : b.replica.wasLeader = a.replica.wasLeader
  parked : ∀ k w, b.pendingTs.find? k = some w → w.1 ∈ a.asked cmd
  held : a.replica.node.role = .leader → b.replica.node.role = .leader →
    reserved b.replica.node.storage.log ≤ a.high cmd ∧ b.replica.node.pendingSnapshot = a.replica.node.pendingSnapshot

theorem Actor.parked_asked {a : Actor} {k : Nat} {w : UInt64 × Ticket} (found : a.pendingTs.find? k = some w)
    (cmd : Cmd) : w.1 ∈ a.asked cmd :=
  mem_append_left _ (mem_map_of_mem (OrdMap.find?_eq_some.mp found))

theorem Actor.log_high (a : Actor) (cmd : Cmd) : reserved a.replica.node.storage.log ≤ a.high cmd :=
  (le_max_right ..).trans (le_max_left ..)

theorem Actor.Kept.of_held {a b : Actor} {cmd : Cmd} (fsm : b.replica.fsm = a.replica.fsm)
    (was : b.replica.wasLeader = a.replica.wasLeader) (parked : b.pendingTs = a.pendingTs)
    (held : a.replica.node.role = .leader → b.replica.node.role = .leader → b.replica.node.held = a.replica.node.held) :
    a.Kept cmd b := by
  refine ⟨fsm, was, fun k w found => Actor.parked_asked (parked ▸ found) cmd, fun role role' => ?_⟩
  obtain ⟨log, pending⟩ := Prod.mk.inj (held role role')
  exact ⟨log ▸ a.log_high cmd, pending⟩

theorem Actor.kept_submit (a : Actor) {cmd : Cmd} {proposal : PdCmd} {park : Actor → Nat → Actor} {refusal : Answer}
    (low : proposal.upper ≤ a.high cmd) (keeps : ∀ a index, (park a index).replica = a.replica)
    (parks : ∀ (b : Actor) index k w, b.pendingTs = a.pendingTs → (park b index).pendingTs.find? k = some w →
      w.1 ∈ a.asked cmd) :
    a.Kept cmd ({ actor := a : Turn }.submit proposal park refusal).actor := by
  unfold Turn.submit
  split
  · rename_i r index accepted
    obtain ⟨n', appended, rfl⟩ := propose_eq_ok accepted
    obtain ⟨log, pending⟩ := Prod.mk.inj (RaftNode.propose_reigns appended).2.2.2
    refine ⟨?_, ?_, fun k w => parks { a with replica.node := n' } index k w rfl, fun _ _ => ?_⟩
    · rw [keeps]
    · rw [keeps]
    · rw [keeps]
      refine ⟨?_, pending⟩
      dsimp only
      rw [log, reserved_append, reserved_cons, reserved_nil, Nat.max_zero]
      exact Nat.max_le.mpr ⟨a.log_high cmd, (reservedBy_encode ..).trans low⟩
  · exact .of_held rfl rfl rfl fun _ _ => rfl

theorem Actor.kept_execute {cmd : Cmd}
    (welcome : ∀ m ∈ cmd.brings, Welcome voters l i a.replica.node m.message) :
    a.Kept cmd ({ actor := a : Turn }.execute cmd).actor := by
  have stepped (m : Envelope) (brought : m ∈ cmd.brings) : a.Kept cmd { a with replica := a.replica.step m.message } :=
    .of_held rfl rfl rfl (a.replica.node.step_held (welcome m brought).ordinary)
  cases cmd with
  | tick => exact .of_held rfl rfl rfl a.replica.node.tick_held
  | step m => exact stepped m rfl
  | stepReply m tx => exact stepped m rfl
  | heartbeat | declareTable =>
    simp only [Turn.execute]
    split
    · exact .of_held rfl rfl rfl fun _ _ => rfl
    · exact a.kept_submit (Nat.zero_le _) (fun _ _ => rfl) fun b index k w same found =>
        Actor.parked_asked (same ▸ found) _
  | allocTs count tx =>
    simp only [Turn.execute]
    split
    · exact .of_held rfl rfl rfl fun _ _ => rfl
    rcases Turn.handOut_cases { actor := a : Turn } count with none | ⟨r, first, took, handed⟩
    · rw [none]
      refine a.kept_submit (le_max_right ..) (fun _ _ => rfl) fun b index k w same found => ?_
      rw [OrdMap.find?_insert] at found
      split at found
      · cases found
        exact mem_append_right _ (mem_singleton_self _)
      · exact Actor.parked_asked (same ▸ found) _
    · obtain ⟨-, -, -, rfl⟩ := handOut_some took
      rw [handed]
      exact .of_held rfl rfl rfl fun _ _ => rfl

theorem Rests.room (rests : Rests voters l past i a) {cmd : Cmd} {t : Turn} (kept : a.Kept cmd t.actor)
    (guarded : a.Guarded cmd) (called : Called voters l' past' i t.actor.replica t.actor.pendingTs)
    (leads : t.actor.replica.ready.1.node.role = .leader) {k : Nat} {w : UInt64 × Ticket}
    (found : t.actor.pendingTs.find? k = some w) :
    t.actor.replica.ready.1.fsm.tsoUpper.toNat + (max w.1 1).toNat < 2 ^ 64 := by
  have role : t.actor.replica.node.role = .leader := by
    by_contra other
    rw [ready_role, announce_of_follower other] at leads
    exact other leads
  cases was : t.actor.replica.wasLeader with
  | false =>
    rw [(called.elected role was).1] at found
    cases found
  | true =>
    have led : a.replica.node.role = .leader :=
      of_decide_eq_true (rests.serves.seated.led.symm.trans (kept.was.symm.trans was))
    obtain ⟨log, pending⟩ := kept.held led role
    have upper := ready_upper was role (pending.trans rests.drained)
    rw [kept.fsm] at upper
    have high : max a.replica.fsm.tsoUpper.toNat (reserved t.actor.replica.node.storage.log) ≤ a.high cmd :=
      max_le ((le_max_left ..).trans (le_max_left ..)) log
    have room := guarded.room w.1 (kept.parked k w found)
    omega

theorem Rests.turn (rests : Rests voters l past i a) (history : History voters l past) {cmd : Cmd}
    (welcome : ∀ m ∈ cmd.brings, Welcome voters l i a.replica.node m.message) (guarded : a.Guarded cmd) :
    ∃ l' n', Evolves i l l' ∧ View voters highWater l' i n' ∧ n'.Steady ∧ (a.turn cmd).messages = n'.messages ∧
      ((a.turn cmd).actor.replica.fsm.Fits → (a.turn cmd).actor.replica.node = n'.takeMessages.1) ∧
      Rests voters l' (past ++ (a.turn cmd).handed) i { (a.turn cmd).actor with replica.node := n'.takeMessages.1 } ∧
      History voters l' (past ++ (a.turn cmd).handed) ∧ ∀ h ∈ (a.turn cmd).handed, h.node = i := by
  let t := { actor := a : Turn }.execute cmd
  let drained := { t with actor.replica := t.actor.replica.ready.1 }.route cmd t.actor.replica.ready.2.1
  let resolved := t.actor.replica.ready.2.2.foldl Turn.resolve drained
  obtain ⟨actor, handed, messages⟩ : drained.actor = { t.actor with replica := t.actor.replica.ready.1 } ∧
      drained.handed = t.handed ∧ drained.messages = t.actor.replica.ready.2.1 := Turn.route_frame ..
  have follows : drained.Follows resolved := Turn.follows_foldl ..
  obtain ⟨sent, same, replica⟩ := resolved.failParked_frame
  have turned : a.turn cmd = resolved.failParked := rfl
  obtain ⟨l₁, evolves₁, executed⟩ := rests.execute history welcome guarded
  obtain ⟨l₂, n', evolves₂, view, steady, taken, outbox, ⟨storage, node⟩, fits, serves, applied⟩ := executed.called.ready
  have resolving : Resolving voters l₂ past i n'.takeMessages.1 t.actor.replica.ready.1.pendingReset drained := by
    refine ⟨⟨storage, by rw [actor]; exact node⟩, by rw [actor], ?_, ?_, ?_, ?_⟩
    · rw [actor, handed]
      exact serves
    · rw [handed]
      exact executed.history.mono evolves₂
    · rw [handed]
      exact executed.own
    · intro leads k w found
      rw [actor] at found ⊢
      refine rests.room (Actor.kept_execute welcome) guarded executed.called ?_ found
      rw [node]
      exact leads
  have done : Resolving voters l₂ past i n'.takeMessages.1 _ resolved := resolving.foldl taken applied
  clear_value resolved
  refine ⟨l₂, n', evolves₁.trans evolves₂, view, steady, ?_, ?_, ?_, ?_, ?_⟩
  · rw [turned, sent, follows.messages, messages, outbox]
  · rw [turned, replica, follows.fsm, follows.node, actor]
    exact fits
  · rw [turned, same]
    exact done.failParked taken
  · rw [turned, same]
    exact done.history
  · rw [turned, same]
    exact done.own

end

namespace PdCluster

def Guarded (g : PdCluster) : GroupEvent → Prop
  | .command i cmd => g.enabled (.command i cmd) → (g.actors i).Guarded cmd
  | .restart i | .sweep i _ _ => (g.actors i).replica.fsm.Fits

instance (g : PdCluster) (event : GroupEvent) : Decidable (g.Guarded event) := by
  unfold Guarded
  split <;> infer_instance

def Along (replicas : Nat) : PdCluster → List GroupEvent → Prop
  | _, [] => True
  | g, event :: rest => g.Guarded event ∧ Along replicas (g.exec replicas event) rest

instance Along.decidable (replicas : Nat) : ∀ g events, Decidable (Along replicas g events)
  | _, [] => isTrue trivial
  | g, event :: rest =>
    have := Along.decidable replicas (g.exec replicas event) rest
    inferInstanceAs (Decidable (_ ∧ _))

end PdCluster

section

variable {voters : List NodeId} {l l' : Ledger NodeId Entry} {past past' : List Handed} {g g₀ g' : PdCluster} {replicas : Nat}
  {i j : NodeId} {a : Actor}

structure Sound (voters : List NodeId) (l : Ledger NodeId Entry) (past : List Handed) (g : PdCluster) : Prop where
  sim : Simulates voters highWater l g.cluster
  rests : ∀ i, Rests voters l past i (g.actors i)
  history : History voters l past
  ordinary : ∀ m ∈ g.net, m.message.body ≠ .timeoutNow

theorem Rests.frame (rests : Rests voters l past j a) (evolves : Evolves i l l') (other : j ≠ i)
    (view : View voters highWater l' j a.replica.node) (history : History voters l' past')
    (grown : ∀ h ∈ past', h ∈ past ∨ h.node = i) : Rests voters l' past' j a := by
  obtain ⟨⟨-, stocked, steady, seated⟩, drained, unparked⟩ := rests
  have log := evolves.log j other
  refine ⟨⟨view, ?_, steady, seated.led, seated.idle, fun role => ?_, seated.parked⟩, drained, unparked⟩
  · exact ⟨stocked.reported, stocked.bounded, log ▸ stocked.high, log ▸ stocked.caught, log ▸ stocked.waiting⟩
  · obtain ⟨due, ahead, after⟩ := (seated.leads role).mono evolves rfl rfl (Nat.le_refl _)
    refine ⟨due, ahead, fun h member same => ?_⟩
    rcases grown h member with before | own
    · exact after h before same
    · obtain ⟨⟨b, won, -⟩, -⟩ := history.issued h member
      obtain ⟨b', won'⟩ := (view.node.leader role).won
      rw [same, won', own] at won
      exact absurd (Prod.mk.inj (Option.some.inj won)).1 other

theorem cluster_nodes (g : PdCluster) (i : NodeId) : g.cluster.nodes i = (g.actors i).replica.node := rfl

theorem Sound.put (sound : Sound voters l past g) (evolves : Evolves i l l') {n : RaftNode}
    (view : View voters highWater l' i n) (steady : n.Steady) (node : a.replica.node = n.takeMessages.1)
    (rests : Rests voters l' past' i a) (history : History voters l' past') (grown : ∀ h ∈ past', h ∈ past ∨ h.node = i)
    (actors : g'.actors = Function.update g.actors i a) (sent : ∀ m ∈ g'.net, m ∈ g.net ∨ m.message ∈ n.messages) :
    Sound voters l' past' g' := by
  have here : g'.actors i = a := by rw [actors, Function.update_self]
  have there (j : NodeId) (other : j ≠ i) : g'.actors j = g.actors j := by rw [actors, Function.update_of_ne other]
  have sim : Simulates voters highWater l' g'.cluster := by
    refine sound.sim.put evolves view ?_ ?_ sent
    · rw [cluster_nodes, here, node]
    · intro j other
      rw [cluster_nodes, cluster_nodes, there j other]
  refine ⟨sim, fun j => ?_, history, fun m member => ?_⟩
  · by_cases same : j = i
    · rw [same, here]
      exact rests
    · have seen := sim.view j
      rw [cluster_nodes, there j same] at seen
      rw [there j same]
      exact (sound.rests j).frame evolves same seen history grown
  · rcases sent m member with before | outbox
    · exact sound.ordinary m before
    · exact steady.silent _ outbox

theorem Sound.command (sound : Sound voters l past g) {cmd : Actor.Cmd} (enabled : g.enabled (.command i cmd))
    (guarded : (g.actors i).Guarded cmd) :
    ∃ l' n', Sound voters l' (past ++ ((g.actors i).turn cmd).handed) { g with
        actors := Function.update g.actors i { ((g.actors i).turn cmd).actor with replica.node := n' }
        net := g.net ++ ((g.actors i).turn cmd).messages.map (g.tag i cmd) } ∧
      (((g.actors i).turn cmd).actor.replica.fsm.Fits → ((g.actors i).turn cmd).actor.replica.node = n') := by
  have welcome : ∀ m ∈ cmd.brings, Welcome voters l i (g.actors i).replica.node m.message := by
    intro m brought
    rw [Option.mem_def] at brought
    have arrives : m ∈ g.net ∧ m.message.dest = i := by
      simpa [PdCluster.enabled, brought] using enabled
    exact ⟨sound.sim.sent m arrives.1, arrives.2, sound.ordinary m arrives.1, guarded.safe m brought⟩
  obtain ⟨l', n, evolves, view, steady, messages, fits, rests, history, own⟩ :=
    (sound.rests i).turn sound.history welcome guarded
  have tagged (msg : Message) : (g.tag i cmd msg).message = msg := by
    unfold PdCluster.tag
    split <;> rfl
  have grown : ∀ h ∈ past ++ ((g.actors i).turn cmd).handed, h ∈ past ∨ h.node = i := fun h member =>
    (mem_append.mp member).imp_right (own h)
  refine ⟨l', n.takeMessages.1, sound.put evolves view steady rfl rests history grown rfl fun m member => ?_, fits⟩
  rcases mem_append.mp member with before | sent
  · exact .inl before
  · obtain ⟨msg, left, rfl⟩ := mem_map.mp sent
    rw [tagged, ← messages]
    exact .inr left

theorem launch_node (replicas : Nat) (id : NodeId) (voters : List NodeId) (storage : MemStorage) :
    (PdCluster.launch replicas id voters storage).replica.node = .new (.new id voters) storage := by
  unfold PdCluster.launch PdReplica.withStorage PdReplica.recover
  dsimp only
  split <;> rfl

variable {storage : MemStorage} {boot : List NodeId} {id : NodeId}

theorem launch_high (replicas : Nat) (view : View voters highWater l i (.new (.new id boot) storage)) :
    ∃ fsm : PdFsm, fsm.Reported ∧ fsm.tsoUpper.toNat = reserved ((l.log i).take storage.base) ∧
      PdCluster.launch replicas id boot storage =
        { replica := { node := .new (.new id boot) storage, fsm := fsm, served := fsm.tsoUpper } } := by
  have kept : (RaftNode.new (.new id boot) storage).storage = storage := RaftNode.recomputeConf_storage _
  cases found : storage.snap with
  | none =>
    have base : storage.base = 0 := by
      rw [MemStorage.base, found]
      rfl
    refine ⟨PdFsm.fresh replicas, forall_mem_nil _, by rw [base]; rfl, ?_⟩
    simp only [PdCluster.launch, PdReplica.withStorage, PdReplica.recover, kept, found]
    rfl
  | some snap =>
    have base : storage.base = snap.lastIncludedIndex := by
      rw [MemStorage.base, found]
      rfl
    obtain ⟨upper, reported⟩ := view.node.image snap (by rw [kept, found]) {}
    refine ⟨(PdFsm.restore {} snap.data).1.setReplicas replicas, reported, ?_, ?_⟩
    · rw [base]
      exact upper.trans (Nat.zero_max _)
    · simp only [PdCluster.launch, PdReplica.withStorage, PdReplica.recover, kept, found]
      rfl

theorem Rests.launch (replicas : Nat) (view : View voters highWater l i (.new (.new id boot) storage)) :
    Rests voters l past i (PdCluster.launch replicas id boot storage) := by
  obtain ⟨fsm, reported, upper, launched⟩ := launch_high replicas view
  let recovered := (RaftNode.recover (.new id boot) storage).resetElectionTimer
  have role : recovered.recomputeConf.role = .follower :=
    congrArg Core.role (RaftNode.recomputeConf_core (show recovered.role = .follower from rfl))
  have steady : recovered.recomputeConf.Steady := RaftNode.recomputeConf_steady ⟨rfl, by rintro _ ⟨⟩⟩
  have follower : (RaftNode.new (.new id boot) storage).role ≠ .leader := by
    rw [show (RaftNode.new (.new id boot) storage).role = .follower from role]
    nofun
  have progressed : (RaftNode.new (.new id boot) storage).progressed = (0, none, storage.base) :=
    RaftNode.recomputeConf_progressed _
  simp only [RaftNode.progressed, Prod.mk.injEq] at progressed
  obtain ⟨applied, pending, base⟩ := progressed
  have here : position (RaftNode.new (.new id boot) storage) = storage.base := by
    rw [position, applied, base, Nat.zero_max]
  rw [launched]
  refine ⟨⟨view, ⟨reported, Nat.le_refl _, ?_, ?_, ?_⟩, steady, ?_, fun _ => rfl,
    fun leads => absurd leads follower, by rintro _ ⟨⟩⟩, pending, fun _ => rfl⟩
  · rw [here]
    exact upper.le
  · rw [here]
    exact fun _ => upper
  · intro k data found
    cases pending.symm.trans found
  · exact (decide_eq_false follower).symm

theorem Sound.restart (sound : Sound voters l past g) (i : NodeId) :
    Sound voters l past (g.exec replicas (.restart i)) := by
  let node := (g.actors i).replica.node
  have view : View voters highWater l i (.new (.new node.id node.bootstrapConf) node.storage) :=
    (sound.rests i).serves.view.restart (.new node.id node.bootstrapConf)
  have launched : Rests voters l past i (PdCluster.launch replicas node.id node.bootstrapConf node.storage) :=
    Rests.launch replicas view
  have silent : (RaftNode.new (.new node.id node.bootstrapConf) node.storage).messages = [] :=
    RaftNode.recomputeConf_messages _
  have kept : (PdCluster.launch replicas node.id node.bootstrapConf node.storage).replica.node =
      (RaftNode.new (.new node.id node.bootstrapConf) node.storage).takeMessages.1 := by
    rw [RaftNode.takeMessages_self silent]
    exact launch_node replicas _ _ _
  have steady : (RaftNode.new (.new node.id node.bootstrapConf) node.storage).Steady := by
    have there := launched.serves.steady
    rwa [launch_node] at there
  exact sound.put (Evolves.refl i l) view steady kept launched sound.history (fun h member => .inl member) rfl
    fun m member => .inl member

theorem Sound.sweep (sound : Sound voters l past g) (i : NodeId) (now timeoutMs : UInt64) :
    Sound voters l past (g.exec replicas (.sweep i now timeoutMs)) := by
  obtain ⟨⟨view, stocked, steady, seated⟩, drained, unparked⟩ := sound.rests i
  have rests : Rests voters l past i
      { g.actors i with replica.fsm := (g.actors i).replica.fsm.sweep now timeoutMs } :=
    ⟨⟨view, { stocked with reported := PdFsm.reported_sweep stocked.reported now timeoutMs }, steady, seated.congr rfl rfl rfl rfl (Nat.le_refl _)⟩, drained, unparked⟩
  have silent : (g.actors i).replica.node.messages = [] := sound.sim.drained i
  refine sound.put (Evolves.refl i l) view steady ?_ rests sound.history (fun h member => .inl member) rfl
    fun m member => .inl member
  exact (RaftNode.takeMessages_self silent).symm

/-- A group is sound but for replicas whose state does not fit a snapshot, and whose storage may be spoiled: the group
`g₀` has them with another storage. -/
structure Shadows (g g₀ : PdCluster) : Prop where
  net : g.net = g₀.net
  incarnation : g.incarnation = g₀.incarnation
  actors : ∀ i, (g.actors i).replica.fsm.Fits → g.actors i = g₀.actors i

theorem Shadows.update (shadows : Shadows g g₀) {a a₀ : Actor} (same : a.replica.fsm.Fits → a = a₀)
    {net : List Envelope} {incarnation : NodeId → Nat} :
    Shadows ⟨Function.update g.actors i a, incarnation, net⟩ ⟨Function.update g₀.actors i a₀, incarnation, net⟩ := by
  refine ⟨rfl, rfl, fun j => ?_⟩
  simp only [Function.update_apply]
  split
  · exact same
  · exact shadows.actors j

theorem Sound.exec (sound : Sound voters l past g₀) (shadows : Shadows g g₀) {event : GroupEvent}
    (guarded : g.Guarded event) :
    ∃ l' g₀', Sound voters l' (past ++ g.hands event) g₀' ∧ Shadows (g.exec replicas event) g₀' := by
  by_cases enabled : g.enabled event
  · cases event with
    | command i cmd =>
      have here := shadows.actors i (guarded enabled).fits
      have enabled₀ : g₀.enabled (.command i cmd) := by
        rw [PdCluster.enabled, ← shadows.net]
        exact enabled
      obtain ⟨l', n, next, fits⟩ := sound.command enabled₀ (here ▸ guarded enabled)
      have handed : g.hands (.command i cmd) = ((g.actors i).turn cmd).handed := if_pos enabled
      have tag : g.tag i cmd = g₀.tag i cmd := by
        funext msg
        simp only [PdCluster.tag, shadows.incarnation]
      rw [handed, here]
      refine ⟨l', _, next, ?_⟩
      rw [PdCluster.exec, if_pos enabled]
      dsimp only
      rw [here, tag, shadows.net, shadows.incarnation]
      refine shadows.update fun held => ?_
      rw [← fits held]
    | restart i =>
      have here := shadows.actors i guarded
      rw [show g.hands (.restart i) = [] from rfl, append_nil]
      refine ⟨l, g₀.exec replicas (.restart i), sound.restart i, ?_⟩
      rw [PdCluster.exec, if_pos enabled, PdCluster.exec, if_pos (show g₀.enabled (.restart i) from rfl)]
      dsimp only
      rw [here, shadows.net, shadows.incarnation]
      exact shadows.update fun _ => rfl
    | sweep i now timeoutMs =>
      have here := shadows.actors i guarded
      rw [show g.hands (.sweep i now timeoutMs) = [] from rfl, append_nil]
      refine ⟨l, g₀.exec replicas (.sweep i now timeoutMs), sound.sweep i now timeoutMs, ?_⟩
      rw [PdCluster.exec, if_pos enabled, PdCluster.exec, if_pos (show g₀.enabled (.sweep i now timeoutMs) from rfl)]
      dsimp only
      rw [here, shadows.net, shadows.incarnation]
      exact shadows.update fun _ => rfl
  · have same : g.exec replicas event = g := if_neg enabled
    have nothing : g.hands event = [] := if_neg enabled
    rw [same, nothing, append_nil]
    exact ⟨l, g₀, sound, shadows⟩

theorem Sound.run (sound : Sound voters l past g₀) (shadows : Shadows g g₀) {events : List GroupEvent}
    (along : g.Along replicas events) : ∃ l', History voters l' (past ++ g.handed replicas events) := by
  induction events generalizing g g₀ l past with
  | nil =>
    rw [PdCluster.handed, append_nil]
    exact ⟨l, sound.history⟩
  | cons event rest ih =>
    obtain ⟨l', g₀', next, shadows'⟩ := sound.exec shadows along.1
    have final := ih next shadows' along.2
    rwa [append_assoc] at final

theorem Sound.start (replicas : Nat) (voters : List NodeId) :
    Sound voters .initial [] (PdCluster.start replicas voters) := by
  have nodes : (PdCluster.start replicas voters).cluster = Cluster.start (fun i => .new i voters) := by
    unfold PdCluster.cluster PdCluster.start Cluster.start
    simp only [launch_node]
    rfl
  have sim : Simulates voters highWater .initial (Cluster.start fun i => .new i voters) :=
    Simulates.start fun _ => .inl rfl
  exact ⟨nodes ▸ sim, fun i => Rests.launch replicas (sim.view i), ⟨forall_mem_nil _, .nil⟩, forall_mem_nil _⟩

end

/-- Where no request is served at once while the reset of a new leader's cursor is pending, no timestamp is handed out
twice, and those of a term are above those of every older term. -/
theorem timestamps_unique (replicas : Nat) (voters : List NodeId) (events : List GroupEvent)
    (guarded : (PdCluster.start replicas voters).Along replicas events) :
    ((PdCluster.start replicas voters).handed replicas events).Pairwise fun earlier later =>
      (earlier.stop ≤ later.first.toNat ∨ later.stop ≤ earlier.first.toNat) ∧
      (earlier.term < later.term → earlier.stop ≤ later.first.toNat) := by
  obtain ⟨l, history⟩ := (Sound.start replicas voters).run ⟨rfl, rfl, fun _ _ => rfl⟩ guarded
  refine history.apart.imp fun {earlier later} apart => ⟨?_, fun older => apart.1 older.le⟩
  rcases Nat.lt_or_ge later.term earlier.term with newer | older
  · exact .inr (apart.2 newer)
  · exact .inl (apart.1 older)

def GroupEvent.call (sender dest : NodeId) (term : Nat) (body : MessageBody) : GroupEvent :=
  .command dest (.stepReply ⟨⟨sender, dest, term, body⟩, 0⟩ 0)

def GroupEvent.answer (sender dest : NodeId) (term : Nat) (body : MessageBody) : GroupEvent :=
  .command dest (.step ⟨⟨sender, dest, term, body⟩, 0⟩)

def firstWindow : List GroupEvent :=
  replicate 19 (.command 1 .tick) ++
    [.call 1 2 1 (.requestVote 0 0), .answer 2 1 1 (.requestVoteResp true),
      .call 1 2 1 (.appendEntries 0 0 [.normal 1 1 []] 0 0), .answer 2 1 1 (.appendEntriesResp true 1 0),
      .command 1 (.allocTs 1 0),
      .call 1 2 1 (.appendEntries 1 1 [.normal 1 2 (PdCmd.reserveTs 65537).encode] 1 0),
      .answer 2 1 1 (.appendEntriesResp true 2 0), .command 1 .tick, .call 1 2 1 (.appendEntries 2 1 [] 2 0)]

def afterReset : List GroupEvent := firstWindow ++ replicate 12 (.command 2 .tick) ++
  [.call 2 3 2 (.requestVote 2 1), .answer 3 2 2 (.requestVoteResp true),
    .call 2 1 2 (.appendEntries 2 1 [.normal 2 3 []] 2 0), .answer 1 2 2 (.appendEntriesResp true 3 0),
    .command 2 (.allocTs 5 0),
    .call 2 1 2 (.appendEntries 3 2 [.normal 2 4 (PdCmd.reserveTs 131078).encode] 3 0),
    .answer 1 2 2 (.appendEntriesResp true 4 0), .command 2 (.allocTs 2 1)]

theorem timestamps_unique_afterReset :
    (PdCluster.start 3 [1, 2, 3]).handed 3 afterReset = [⟨1, 1, 0, 1⟩, ⟨2, 2, 65537, 5⟩, ⟨2, 2, 65542, 2⟩] ∧
      ((PdCluster.start 3 [1, 2, 3]).handed 3 afterReset).Pairwise fun earlier later =>
        (earlier.stop ≤ later.first.toNat ∨ later.stop ≤ earlier.first.toNat) ∧
        (earlier.term < later.term → earlier.stop ≤ later.first.toNat) :=
  ⟨by decide +kernel, timestamps_unique 3 [1, 2, 3] afterReset (by decide +kernel)⟩

def takenOver : List GroupEvent := firstWindow ++ replicate 12 (.command 2 .tick) ++
  [.call 2 3 2 (.requestVote 2 1), .answer 3 2 2 (.requestVoteResp true), .command 2 (.allocTs 1 0)]

theorem timestamp_reissued :
    (PdCluster.start 3 [1, 2, 3]).handed 3 takenOver = [⟨1, 1, 0, 1⟩, ⟨2, 2, 0, 1⟩] := by
  decide +kernel

end Arcux.Pd
