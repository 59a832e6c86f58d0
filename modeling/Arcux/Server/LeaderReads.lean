import Arcux.Region.Commands
import Arcux.Region.Driver
import Arcux.Server.InFlight

namespace Arcux.Server

open Codec Concurrency Engine List Region
open scoped Codec.ByteOrder

structure Proposal where
  key : Bytes
  commitTs : Ts
  command : Command

inductive Event where
  | read (key : Bytes) (readTs : Ts)
  | applied (key : Bytes) (commitTs : Ts)
  deriving Repr, DecidableEq

inductive Move where
  | apply (ticket : Nat)
  | answer (ticket : Nat) (result : ProposeResult Error)
  | lead (leads : Bool)

structure Leader where
  db : Db := .empty
  oracle : Oracle := .fresh
  leads : Bool := true
  inFlight : InFlight := {}
  proposals : List Proposal := []
  answers : List (Nat × ProposeResult Error) := []
  -- the commit timestamps drawn for a key and not yet registered
  drawn : List (Bytes × Ts) := []
  -- what was read and applied, the latest first
  history : List Event := []

inductive Call where
  | isLeader
  | now
  -- also records for which key the timestamp is drawn
  | drawCommit (key : Bytes)
  | register (key : Bytes) (commitTs : Ts)
  | propose (proposal : Proposal)
  | poll (ticket : Nat)
  -- the end of a put drops its guard
  | unregister (key : Bytes) (commitTs : Ts)
  | blocksRead (start stop : Bytes) (readTs : Ts)
  | mvccGet (key : Bytes) (readTs : Ts)
  | act (move : Move)

def Move.exec : Move → Leader → Leader
  | apply ticket, s =>
    match s.proposals[ticket]? with
    | some p => { s with db := (makeApply s.db p.command).1, history := .applied p.key p.commitTs :: s.history }
    | none => s
  | answer ticket result, s => { s with answers := (ticket, result) :: s.answers }
  | lead leads, s => { s with leads }

namespace Call

abbrev Reply : Call → Type
  | isLeader | blocksRead _ _ _ => Bool
  | now | drawCommit _ => Option Ts
  | propose _ => Nat
  | poll _ => Option (ProposeResult Error)
  | mvccGet _ _ => Option (Except Error (Option Bytes))
  | _ => Unit

def exec : (call : Call) → Leader → Leader × call.Reply
  | isLeader, s => (s, s.leads)
  | now, s => ({ s with oracle := (s.oracle.now 0).1 }, (s.oracle.now 0).2)
  | drawCommit key, s =>
    ({ s with oracle := (s.oracle.now 0).1, drawn := ((s.oracle.now 0).2.map (key, ·)).toList ++ s.drawn },
      (s.oracle.now 0).2)
  | register key commitTs, s =>
    ({ s with inFlight := s.inFlight.register key commitTs, drawn := s.drawn.erase (key, commitTs) }, ())
  | propose proposal, s => ({ s with proposals := s.proposals ++ [proposal] }, s.proposals.length)
  | poll ticket, s => (s, s.answers.lookup ticket)
  | unregister key commitTs, s => ({ s with inFlight := s.inFlight.unregister key commitTs }, ())
  | blocksRead start stop readTs, s => (s, s.inFlight.blocksRead start stop readTs)
  | mvccGet key readTs, s =>
    ({ s with history := .read key readTs :: s.history },
      ((mvccGetUnresolved key readTs).run.eval Access.exec ⟨s.db, .fresh⟩).2)
  | act move, s => (move.exec s, ())

end Call

abbrev Script := Prog Call Call.Reply

def perform (call : Call) : Script call.Reply := Prog.perform call

def awaitAnswer (ticket : Nat) : Nat → Script (Option (ProposeResult Error))
  | 0 => return none
  | rounds + 1 => do
    match ← perform (.poll ticket) with
    | some result => return some result
    | none => awaitAnswer ticket rounds

def replicatedAutocommit (rounds : Nat) (key : Bytes) (value : Value) : Script (Option (ProposeResult Error)) := do
  match ← perform .isLeader with
  | false => return some (.notLeader none)
  | true =>
    match ← perform .now with
    | none => return none
    | some startTs =>
      match ← perform (.drawCommit key) with
      | none => return none
      | some commitTs =>
        perform (.register key commitTs)
        let command := .autocommit (committedBatch key value startTs commitTs)
        let ticket ← perform (.propose { key, commitTs, command })
        match ← awaitAnswer ticket rounds with
        | none => return none
        | some result =>
          perform (.unregister key commitTs)
          return some result

def awaitInFlight (start stop : Bytes) (readTs : Ts) : Nat → Script Bool
  | 0 => return false
  | checks + 1 => do
    match ← perform (.blocksRead start stop readTs) with
    | false => return true
    | true => awaitInFlight start stop readTs checks

def get (key : Bytes) : Script (Option (Except Error (Option Bytes))) := do
  match ← perform .now with
  | none => return none
  | some readTs =>
    match ← awaitInFlight key (key ++ [0]) readTs 201 with
    | false => return none
    | true => perform (.mvccGet key readTs)

def actor : List Move → Script Unit
  | [] => return
  | move :: rest => do
    perform (.act move)
    actor rest

inductive Task where
  | put (rounds : Nat) (key : Bytes) (value : Value)
  | get (key : Bytes)
  | actor (moves : List Move)

def Task.program : Task → Script Unit
  | put rounds key value => do let _ ← replicatedAutocommit rounds key value
  | get key => do let _ ← Server.get key
  | actor moves => Server.actor moves

def start (tasks : List Task) : Pool Leader Call Call.Reply Unit := ⟨{}, tasks.map Task.program⟩

/-- No put at or below the timestamp of a read of its key is applied after the read. -/
def Stable (history : List Event) : Prop :=
  history.Pairwise fun later earlier => ∀ k r c, later = .applied k c → earlier = .read k r → r < c

/-- A read passes its check only when all commit timestamps up to its own that were drawn for its keys are registered,
and a put is applied only as long as it is registered. -/
def Call.Guard : Call → Leader → Prop
  | blocksRead start stop readTs, s =>
    s.inFlight.blocksRead start stop readTs = false →
      ∀ p ∈ s.drawn, start ≤ p.1 → BelowEnd stop p.1 → readTs < p.2
  | act (.apply ticket), s => ∀ p ∈ s.proposals[ticket]?, s.inFlight.Holds p.key p.commitTs
  | _, _ => True

instance (call : Call) (s : Leader) : Decidable (call.Guard s) := by
  unfold Call.Guard
  split <;> infer_instance

structure World where
  last : Ts
  owned : Nat → Option (Bytes × Ts)
  passed : Bytes → Ts → Prop

structure Leader.Inv (w : World) (s : Leader) : Prop where
  last : s.oracle.last = w.last
  owned : ∀ i p, w.owned i = some p → p ∈ s.drawn
  distinct : ∀ i j p, w.owned i = some p → w.owned j = some p → i = j
  fresh : ∀ p ∈ s.drawn, p.2 ≤ w.last
  past : ∀ k r, w.passed k r → r ≤ w.last
  settled : ∀ k r c, w.passed k r → (k, c) ∈ s.drawn ∨ s.inFlight.Holds k c → r < c
  reads : ∀ k r, .read k r ∈ s.history → w.passed k r
  stable : Stable s.history

def World.Grows (w w' : World) : Prop := w.last ≤ w'.last ∧ ∀ k r, w.passed k r → w'.passed k r

def discipline : Discipline Call Call.Reply Leader World where
  exec := Call.exec
  guard := Call.Guard
  inv w s := s.Inv w
  grows := World.Grows
  rely i w w' := w.Grows w' ∧ w'.owned i = w.owned i
  grows_refl _ := ⟨le_refl _, fun _ _ => id⟩
  grows_trans first second := ⟨first.1.trans second.1, fun k r held => second.2 k r (first.2 k r held)⟩
  rely_refl _ _ := ⟨⟨le_refl _, fun _ _ => id⟩, rfl⟩
  rely_trans first second :=
    ⟨⟨first.1.1.trans second.1.1, fun k r held => second.1.2 k r (first.1.2 k r held)⟩, second.2.trans first.2⟩
  rely_grows relied := relied.1

section

variable {w : World} {s s' : Leader} {i : Nat} {key : Bytes} {t r : Ts} {α : Type} {post : World → α → Prop}

variable {call : Call}

theorem safe_call {next : call.Reply → Script α}
    (step : ∀ w' s, w.Grows w' → w'.owned i = w.owned i → Leader.Inv w' s → call.Guard s → ∃ w'', w'.Grows w'' ∧
      (∀ j, j ≠ i → w''.owned j = w'.owned j) ∧ (call.exec s).1.Inv w'' ∧
      discipline.Safe i (next (call.exec s).2) w'' post) :
    discipline.Safe i (.call call next) w post := by
  rintro w' ⟨grown, own⟩ s inv guarded
  obtain ⟨w'', later, others, inv', safe⟩ := step w' s grown own inv guarded
  exact ⟨w'', later, fun j other => ⟨later, others j other⟩, inv', safe⟩

structure Leader.Same (s s' : Leader) : Prop where
  oracle : s'.oracle = s.oracle
  drawn : s'.drawn = s.drawn
  inFlight : ∀ k c, s'.inFlight.Holds k c → s.inFlight.Holds k c
  history : s'.history = s.history

theorem Leader.Inv.of_same (inv : s.Inv w) (same : s.Same s') : s'.Inv w where
  last := same.oracle ▸ inv.last
  owned i p own := same.drawn ▸ inv.owned i p own
  __ := inv
  fresh p member := inv.fresh p (same.drawn ▸ member)
  settled k r c held there := inv.settled k r c held (there.imp (same.drawn ▸ ·) (same.inFlight k c))
  reads k r member := inv.reads k r (same.history ▸ member)
  stable := same.history ▸ inv.stable

theorem safe_same {next : call.Reply → Script α} (same : ∀ s, Leader.Same s (call.exec s).1)
    (rest : ∀ w' reply, w.Grows w' → w'.owned i = w.owned i → discipline.Safe i (next reply) w' post) :
    discipline.Safe i (.call call next) w post :=
  safe_call fun w' s grown own inv _ =>
    ⟨w', discipline.grows_refl w', fun _ _ => rfl, inv.of_same (same s), rest w' _ grown own⟩

variable {oracle : Oracle}

theorem Leader.Inv.draw (inv : s.Inv w) (later : w.last ≤ oracle.last) :
    Leader.Inv { w with last := oracle.last } { s with oracle } where
  last := rfl
  __ := inv
  fresh p member := (inv.fresh p member).trans later
  past k r held := (inv.past k r held).trans later

theorem now_le (oracle : Oracle) (task : Nat) : oracle.last ≤ (oracle.now task).1.last := by
  rcases oracle.now_cases task with ⟨t, later, drawn⟩ | same
  · rw [drawn]
    exact later.le
  · rw [same]

variable {next : Option Ts → Script α}

theorem safe_now (rest : ∀ w' t, w.Grows w' → (∀ r ∈ t, r ≤ w'.last) → discipline.Safe i (next t) w' post) :
    discipline.Safe i (.call .now next) w post := by
  refine safe_call fun w' s grown _ inv _ => ?_
  have later : w'.last ≤ (s.oracle.now 0).1.last := inv.last ▸ now_le s.oracle 0
  refine ⟨{ w' with last := (s.oracle.now 0).1.last }, ⟨later, fun _ _ => id⟩, fun _ _ => rfl, inv.draw later,
    rest _ _ ?_ fun r drawn => ?_⟩
  · exact discipline.grows_trans grown ⟨later, fun _ _ => id⟩
  · rcases s.oracle.now_cases 0 with ⟨t, -, found⟩ | same
    · simp only [Call.exec, found] at drawn ⊢
      exact (Option.some.inj drawn).ge
    · simp only [Call.exec, same] at drawn
      cases drawn

theorem Leader.Inv.drawCommit (inv : s.Inv w) (later : w.last < oracle.last) :
    Leader.Inv { w with last := oracle.last, owned := Function.update w.owned i (some (key, oracle.last)) }
      { s with oracle, drawn := (key, oracle.last) :: s.drawn } where
  last := rfl
  owned j p own := by
    simp only [Function.update_apply] at own
    split at own
    · cases own
      exact mem_cons_self ..
    · exact mem_cons_of_mem _ (inv.owned j p own)
  distinct j j' p own own' := by
    have unused : ∀ j, w.owned j ≠ some (key, oracle.last) :=
      fun j own => (inv.fresh _ (inv.owned j _ own)).not_gt later
    simp only [Function.update_apply] at own own'
    split at own <;> split at own'
    · rename_i first second
      exact first.trans second.symm
    · cases own
      exact absurd own' (unused j')
    · cases own'
      exact absurd own (unused j)
    · exact inv.distinct j j' p own own'
  fresh p member := by
    rcases mem_cons.mp member with rfl | member
    · exact le_refl _
    · exact (inv.fresh p member).trans later.le
  past k r held := (inv.past k r held).trans later.le
  settled k r c held there := by
    rcases there with member | flies
    · rcases mem_cons.mp member with new | member
      · obtain ⟨rfl, rfl⟩ := Prod.mk.inj new
        exact (inv.past k r held).trans_lt later
      · exact inv.settled k r c held (.inl member)
    · exact inv.settled k r c held (.inr flies)
  __ := inv

theorem safe_drawCommit (rest : ∀ w' t, (∀ c ∈ t, w'.owned i = some (key, c)) → discipline.Safe i (next t) w' post) :
    discipline.Safe i (.call (.drawCommit key) next) w post := by
  refine safe_call fun w' s _ _ inv _ => ?_
  rcases s.oracle.now_cases 0 with ⟨t, later, found⟩ | same
  · rw [inv.last] at later
    refine ⟨{ w' with last := t, owned := Function.update w'.owned i (some (key, t)) },
      ⟨later.le, fun _ _ => id⟩, fun j other => Function.update_of_ne other _ _, ?_, rest _ _ fun c drawn => ?_⟩
    · have inv' : Leader.Inv _ { s with oracle := ⟨t, s.oracle.issued ++ [(0, t)]⟩, drawn := (key, t) :: s.drawn } :=
        inv.drawCommit (i := i) later
      simp only [Call.exec, found]
      exact inv'
    · simp only [Call.exec, found] at drawn
      cases drawn
      exact Function.update_self ..
  · refine ⟨w', discipline.grows_refl w', fun _ _ => rfl, ?_, rest _ _ fun c drawn => ?_⟩
    · simp only [Call.exec, same]
      exact inv
    · simp only [Call.exec, same] at drawn
      cases drawn

theorem Leader.Inv.register (inv : s.Inv w) (own : w.owned i = some (key, t)) :
    Leader.Inv { w with owned := Function.update w.owned i none }
      { s with inFlight := s.inFlight.register key t, drawn := s.drawn.erase (key, t) } where
  __ := inv
  owned j p owns := by
    simp only [Function.update_apply] at owns
    split at owns
    case isTrue => cases owns
    case isFalse other =>
      have differs : p ≠ (key, t) := fun same => other (inv.distinct j i p owns (same ▸ own))
      exact (mem_erase_of_ne differs).mpr (inv.owned j p owns)
  distinct j j' p owns owns' := by
    simp only [Function.update_apply] at owns owns'
    split at owns <;> split at owns'
    · cases owns
    · cases owns
    · cases owns'
    · exact inv.distinct j j' p owns owns'
  fresh p member := inv.fresh p (mem_of_mem_erase member)
  settled k r c held there := by
    rcases there with member | flies
    · exact inv.settled k r c held (.inl (mem_of_mem_erase member))
    · rcases InFlight.holds_register.mp flies with flies | ⟨rfl, rfl⟩
      · exact inv.settled k r c held (.inr flies)
      · exact inv.settled k r c held (.inl (inv.owned i _ own))

theorem Leader.Inv.pass (inv : s.Inv w) (past : r ≤ w.last) (free : s.inFlight.blocksRead key (key ++ [0]) r = false)
    (drawn : ∀ p ∈ s.drawn, key ≤ p.1 → BelowEnd (key ++ [0]) p.1 → r < p.2) :
    s.Inv { w with passed := fun k r' => w.passed k r' ∨ k = key ∧ r' = r } where
  __ := inv
  past k r' held := by
    rcases held with held | ⟨-, rfl⟩
    · exact inv.past k r' held
    · exact past
  settled k r' c held there := by
    rcases held with held | ⟨rfl, rfl⟩
    · exact inv.settled k r' c held there
    · obtain ⟨low, high⟩ := InFlight.mem_single_range.mpr (rfl : k = k)
      rcases there with member | flies
      · exact drawn _ member low high
      · by_contra early
        have blocked := InFlight.blocksRead_iff.mpr ⟨k, c, low, high, flies, not_lt.mp early⟩
        rw [free] at blocked
        cases blocked
  reads k r' member := .inl (inv.reads k r' member)

theorem Leader.Inv.read (inv : s.Inv w) (passed : w.passed key r) :
    Leader.Inv w { s with history := .read key r :: s.history } where
  __ := inv
  reads k r' member := by
    rcases mem_cons.mp member with new | member
    · cases new
      exact passed
    · exact inv.reads k r' member
  stable := pairwise_cons.mpr ⟨fun _ _ _ _ _ applied => Event.noConfusion applied, inv.stable⟩

theorem Leader.Inv.applied (inv : s.Inv w) {db : Db} (flies : s.inFlight.Holds key t) :
    Leader.Inv w { s with db, history := .applied key t :: s.history } where
  __ := inv
  reads k r member := by
    rcases mem_cons.mp member with new | member
    · cases new
    · exact inv.reads k r member
  stable := by
    refine pairwise_cons.mpr ⟨?_, inv.stable⟩
    intro event member k r c applied read
    obtain ⟨rfl, rfl⟩ := Event.applied.inj applied
    rw [read] at member
    exact inv.settled key r t (inv.reads key r member) (.inr flies)

end

variable {w : World} {i : Nat}

theorem awaitAnswer_safe (ticket rounds : Nat) : discipline.Safe i (awaitAnswer ticket rounds) w fun _ _ => True := by
  induction rounds generalizing w with
  | zero => exact fun _ _ => trivial
  | succ rounds ih =>
    refine safe_same (fun s => ⟨rfl, rfl, fun _ _ => id, rfl⟩) fun w' reply _ _ => ?_
    cases reply with
    | none => exact ih
    | some result => exact fun _ _ => trivial

theorem replicatedAutocommit_safe (rounds : Nat) (key : Bytes) (value : Value) :
    discipline.Safe i (replicatedAutocommit rounds key value) w fun _ _ => True := by
  refine safe_same (fun s => ⟨rfl, rfl, fun _ _ => id, rfl⟩) fun w leads _ _ => ?_
  cases leads with
  | false => exact fun _ _ => trivial
  | true =>
    refine safe_now fun w startTs _ _ => ?_
    cases startTs with
    | none => exact fun _ _ => trivial
    | some startTs =>
      refine safe_drawCommit fun w commitTs own => ?_
      cases commitTs with
      | none => exact fun _ _ => trivial
      | some commitTs =>
        refine safe_call fun w' s _ kept inv _ => ?_
        have own' : w'.owned i = some (key, commitTs) := kept.trans (own _ rfl)
        refine ⟨{ w' with owned := Function.update w'.owned i none }, ⟨le_refl _, fun _ _ => id⟩,
          fun j other => Function.update_of_ne other _ _, inv.register own', ?_⟩
        refine safe_same (fun s => ⟨rfl, rfl, fun _ _ => id, rfl⟩) fun w ticket _ _ => ?_
        refine (awaitAnswer_safe ticket rounds).bind fun w result _ _ => ?_
        cases result with
        | none => exact fun _ _ => trivial
        | some result =>
          refine safe_same (fun s => ⟨rfl, rfl, fun _ _ => InFlight.Holds.of_unregister, rfl⟩) fun w _ _ _ => ?_
          exact fun _ _ => trivial

theorem awaitInFlight_safe {key : Bytes} {readTs : Ts} (checks : Nat) (past : readTs ≤ w.last) :
    discipline.Safe i (awaitInFlight key (key ++ [0]) readTs checks) w fun w' free =>
      free = true → w'.passed key readTs := by
  induction checks generalizing w with
  | zero => exact fun _ _ free => nomatch free
  | succ checks ih =>
    refine safe_call fun w' s grown _ inv guarded => ?_
    have past' : readTs ≤ w'.last := past.trans grown.1
    cases blocked : s.inFlight.blocksRead key (key ++ [0]) readTs with
    | true =>
      refine ⟨w', discipline.grows_refl w', fun _ _ => rfl, inv, ?_⟩
      simp only [Call.exec, blocked]
      exact ih past'
    | false =>
      refine ⟨{ w' with passed := fun k r => w'.passed k r ∨ k = key ∧ r = readTs },
        ⟨le_refl _, fun k r held => .inl held⟩, fun _ _ => rfl, inv.pass past' blocked (guarded blocked), ?_⟩
      simp only [Call.exec, blocked]
      exact fun w'' relied _ => relied.1.2 key readTs (.inr ⟨rfl, rfl⟩)

theorem get_safe (key : Bytes) : discipline.Safe i (get key) w fun _ _ => True := by
  refine safe_now fun w readTs _ past => ?_
  cases readTs with
  | none => exact fun _ _ => trivial
  | some readTs =>
    refine (awaitInFlight_safe 201 (past _ rfl)).bind fun w free _ passed => ?_
    cases free with
    | false => exact fun _ _ => trivial
    | true =>
      refine safe_call fun w' s grown _ inv _ => ?_
      have passed' := grown.2 key readTs (passed rfl)
      exact ⟨w', discipline.grows_refl w', fun _ _ => rfl, inv.read passed', fun _ _ => trivial⟩

theorem Move.inv {s : Leader} (move : Move) (inv : s.Inv w) (guarded : (Call.act move).Guard s) :
    (move.exec s).Inv w := by
  cases move with
  | apply ticket =>
    simp only [Move.exec]
    split
    case h_1 p found => exact inv.applied (guarded p found)
    case h_2 => exact inv
  | answer ticket result => exact inv.of_same ⟨rfl, rfl, fun _ _ => id, rfl⟩
  | lead leads => exact inv.of_same ⟨rfl, rfl, fun _ _ => id, rfl⟩

theorem actor_safe (moves : List Move) : discipline.Safe i (actor moves) w fun _ _ => True := by
  induction moves generalizing w with
  | nil => exact fun _ _ => trivial
  | cons move rest ih =>
    exact safe_call fun w' s _ _ inv guarded =>
      ⟨w', discipline.grows_refl w', fun _ _ => rfl, move.inv inv guarded, ih⟩

theorem Task.program_safe (task : Task) : discipline.Safe i task.program w fun _ _ => True := by
  cases task with
  | put rounds key value => exact (replicatedAutocommit_safe rounds key value).bind fun _ _ _ _ _ _ => trivial
  | get key => exact (get_safe key).bind fun _ _ _ _ _ _ => trivial
  | actor moves => exact actor_safe moves

theorem start_sound (tasks : List Task) :
    discipline.Sound (fun _ _ _ => True) ⟨0, fun _ => none, fun _ _ => False⟩ (start tasks) := by
  constructor
  · exact ⟨rfl, nofun, nofun, nofun, nofun, nofun, nofun, .nil⟩
  · intro i p found
    rw [start, getElem?_map, Option.map_eq_some_iff] at found
    obtain ⟨task, -, rfl⟩ := found
    exact task.program_safe

/-- Once a read has returned, no put at or below its timestamp is applied, in every run whose steps meet the guard. -/
theorem reads_stable (tasks : List Task) (schedule : List Nat)
    (guarded : (start tasks).Guarded Call.exec Call.Guard schedule) :
    Stable ((start tasks).run Call.exec schedule).state.history := by
  obtain ⟨w, -, inv, -⟩ := (start_sound tasks).run guarded
  exact inv.stable

def putAndGet (moves : List Move) : List Task := [.put 2 [1] (.put [7]), .get [1], .actor moves]

-- the read comes while the put is in flight, and waits for it
theorem reads_stable_putAndGet :
    let moves : List Move := [.apply 0, .answer 0 (.applied (.ok ()))]
    Stable ((start (putAndGet moves)).run Call.exec [0, 0, 0, 0, 0, 1, 1, 2, 2, 0, 0, 1, 1]).state.history :=
  reads_stable (putAndGet [.apply 0, .answer 0 (.applied (.ok ()))]) [0, 0, 0, 0, 0, 1, 1, 2, 2, 0, 0, 1, 1]
    (by decide +kernel)

theorem not_stable_late : ¬ Stable [.applied [1] 2, .read [1] 3] := by
  intro stable
  have late := (pairwise_cons.mp stable).1 _ (mem_singleton_self _) [1] 3 2 rfl rfl
  exact absurd late (by decide)

/-- The put is applied at 2 after the read at 3: because the read passes its check between the draw and the
registration of 2, and because the guard is gone once the proposal is answered as undetermined. -/
theorem put_applied_below_read :
    ¬ Stable ((start (putAndGet [.apply 0])).run Call.exec [0, 0, 0, 1, 1, 1, 0, 0, 2]).state.history ∧
      ¬ Stable ((start (putAndGet [.answer 0 .undetermined, .apply 0])).run Call.exec
        [0, 0, 0, 0, 0, 2, 0, 0, 1, 1, 1, 2]).state.history := by
  have unregistered : ((start (putAndGet [.apply 0])).run Call.exec [0, 0, 0, 1, 1, 1, 0, 0, 2]).state.history =
      [.applied [1] 2, .read [1] 3] := by decide +kernel
  have undetermined : ((start (putAndGet [.answer 0 .undetermined, .apply 0])).run Call.exec
      [0, 0, 0, 0, 0, 2, 0, 0, 1, 1, 1, 2]).state.history = [.applied [1] 2, .read [1] 3] := by decide +kernel
  rw [unregistered, undetermined]
  exact ⟨not_stable_late, not_stable_late⟩

end Arcux.Server
