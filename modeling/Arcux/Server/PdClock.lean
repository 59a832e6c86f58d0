import Arcux.Concurrency.Interleaving
import Arcux.Pd.Tso
import Mathlib.Order.Lattice

namespace Arcux.Server.PdClock

open Concurrency List Pd

structure Clock where
  window : Nat × Nat := (0, 0)
  locked : Bool := false

structure Span where
  seen : List Nat
  result : Nat
  deriving Repr, DecidableEq

structure Cluster where
  tso : Tso := {}
  -- PD's wall clock, and whether its leader can be reached
  wall : Nat := 0
  reachable : Bool := true
  clocks : List Clock
  returned : List Nat := []
  spans : List Span := []

def tsoBatch : Nat := 256

namespace Cluster

def window (s : Cluster) (node : Nat) : Nat × Nat := (s.clocks[node]?.map Clock.window).getD (0, 0)

def setWindow (s : Cluster) (node : Nat) (window : Nat × Nat) : Cluster :=
  { s with clocks := s.clocks.modify node fun clock => { clock with window } }

def locked (s : Cluster) (node : Nat) : Bool := (s.clocks[node]?.map Clock.locked).getD true

def setLocked (s : Cluster) (node : Nat) (locked : Bool) : Cluster :=
  { s with clocks := s.clocks.modify node fun clock => { clock with locked } }

end Cluster

inductive Call where
  -- a call begins; the timestamps returned so far
  | start
  | lock (node : Nat)
  | window (node : Nat)
  -- PD grants the node a new window; the caller holds the mutex, so nobody sees when the answer arrives
  | refill (node : Nat)
  | take (node : Nat)
  | unlock (node : Nat)
  | finish (span : Span)
  | environment (wall : Nat) (reachable : Bool)

namespace Call

abbrev Reply : Call → Type
  | start => List Nat
  | lock _ | refill _ => Bool
  | window _ => Nat × Nat
  | take _ => Nat
  | _ => Unit

def exec : (call : Call) → Cluster → Cluster × call.Reply
  | start, s => (s, s.returned)
  | lock node, s => if s.locked node then (s, false) else (s.setLocked node true, true)
  | window node, s => (s, s.window node)
  | refill node, s =>
    if s.reachable then
      match s.tso.alloc s.wall tsoBatch true with
      | (tso, some first) => (({ s with tso }).setWindow node (first, first + tsoBatch), true)
      | (tso, none) => ({ s with tso }, false)
    else (s, false)
  | take node, s => (s.setWindow node ((s.window node).1 + 1, (s.window node).2), (s.window node).1)
  | unlock node, s => (s.setLocked node false, ())
  | finish span, s => ({ s with returned := span.result :: s.returned, spans := span :: s.spans }, ())
  | environment wall reachable, s => ({ s with wall, reachable }, ())

end Call

abbrev Script := Prog Call Call.Reply

def perform (call : Call) : Script call.Reply := Prog.perform call

def acquire (node : Nat) : Nat → Script Bool
  | 0 => return false
  | rounds + 1 => do
    match ← perform (.lock node) with
    | true => return true
    | false => acquire node rounds

def serve (node : Nat) (seen : List Nat) : Script (Option Nat) := do
  let ts ← perform (.take node)
  perform (.unlock node)
  perform (.finish ⟨seen, ts⟩)
  return some ts

def issue (node : Nat) (seen : List Nat) (window : Nat × Nat) : Script (Option Nat) :=
  if window.1 < window.2 then serve node seen
  else do
    match ← perform (.refill node) with
    | true => serve node seen
    | false =>
      perform (.unlock node)
      return none

def now (rounds node : Nat) : Script (Option Nat) := do
  let seen ← perform .start
  match ← acquire node rounds with
  | true => issue node seen (← perform (.window node))
  | false => return none

def environment : List (Nat × Bool) → Script Unit
  | [] => return
  | (wall, reachable) :: rest => do
    perform (.environment wall reachable)
    environment rest

inductive Task where
  | now (rounds node : Nat)
  | environment (changes : List (Nat × Bool))

def Task.program : Task → Script Unit
  | now rounds node => do let _ ← PdClock.now rounds node
  | environment changes => PdClock.environment changes

def startWith (nodes : Nat) (tasks : List Task) : Pool Cluster Call Call.Reply Unit :=
  ⟨{ clocks := replicate nodes {} }, tasks.map Task.program⟩

def Cluster.RealTime (s : Cluster) : Prop := ∀ span ∈ s.spans, ∀ t ∈ span.seen, t < span.result
  deriving Decidable

/-- A call is served from a window that its node had reserved only while no other node has a later window. -/
def Call.Guard : Call → Cluster → Prop
  | window node, s => (s.window node).1 < (s.window node).2 →
      ∀ other < s.clocks.length, other ≠ node → (s.window other).2 ≤ (s.window node).1
  | _, _ => True

instance (call : Call) (s : Cluster) : Decidable (call.Guard s) := by
  unfold Call.Guard
  split <;> infer_instance

structure World where
  granted : Nat
  window : Nat → Nat × Nat
  holder : Nat → Option Nat

def World.Issued (w : World) (t : Nat) : Prop := ∃ node, t < (w.window node).1

structure Cluster.Inv (w : World) (s : Cluster) : Prop where
  granted : s.tso.next = w.granted
  window : ∀ node, s.window node = w.window node
  holder : ∀ node, s.locked node = false → w.holder node = none
  inside : ∀ node i, w.holder node = some i → node < s.clocks.length
  ordered : ∀ node, (w.window node).1 ≤ (w.window node).2
  below : ∀ node, (w.window node).2 ≤ w.granted
  issued : ∀ t ∈ s.returned, w.Issued t
  realTime : s.RealTime

def World.Grows (w w' : World) : Prop := w.granted ≤ w'.granted ∧ ∀ node, (w.window node).1 ≤ (w'.window node).1

def World.Keeps (i : Nat) (w w' : World) : Prop :=
  ∀ node, w.holder node = some i → w'.holder node = some i ∧ w'.window node = w.window node

theorem World.Grows.refl (w : World) : w.Grows w := ⟨Nat.le_refl _, fun _ => Nat.le_refl _⟩

theorem World.Grows.trans {w w' w'' : World} (first : w.Grows w') (second : w'.Grows w'') : w.Grows w'' :=
  ⟨first.1.trans second.1, fun node => (first.2 node).trans (second.2 node)⟩

variable {t : Nat}

theorem World.Issued.mono {w w' : World} (issued : w.Issued t) (grown : w.Grows w') : w'.Issued t := by
  obtain ⟨node, below⟩ := issued
  exact ⟨node, below.trans_le (grown.2 node)⟩

def discipline : Discipline Call Call.Reply Cluster World where
  exec := Call.exec
  guard := Call.Guard
  inv w s := s.Inv w
  grows := World.Grows
  rely i w w' := w.Grows w' ∧ w.Keeps i w'
  grows_refl := World.Grows.refl
  grows_trans := World.Grows.trans
  rely_refl _ w := ⟨.refl w, fun _ held => ⟨held, rfl⟩⟩
  rely_trans first second := ⟨first.1.trans second.1, fun node held =>
    have ⟨held', same⟩ := first.2 node held
    have ⟨held'', same'⟩ := second.2 node held'
    ⟨held'', same'.trans same⟩⟩
  rely_grows relied := relied.1

namespace Cluster

variable {s : Cluster} {node other : Nat}

@[simp] theorem setWindow_length (s : Cluster) (node : Nat) (window : Nat × Nat) :
    (s.setWindow node window).clocks.length = s.clocks.length := length_modify ..

@[simp] theorem setLocked_length (s : Cluster) (node : Nat) (locked : Bool) :
    (s.setLocked node locked).clocks.length = s.clocks.length := length_modify ..

theorem window_setWindow (inside : node < s.clocks.length) (window : Nat × Nat) :
    (s.setWindow node window).window other = if other = node then window else s.window other := by
  simp only [Cluster.window, setWindow, getElem?_modify]
  split_ifs <;> grind

@[simp] theorem window_setLocked (s : Cluster) (node other : Nat) (locked : Bool) :
    (s.setLocked node locked).window other = s.window other := by
  simp only [Cluster.window, setLocked, getElem?_modify]
  grind

@[simp] theorem locked_setWindow (s : Cluster) (node other : Nat) (window : Nat × Nat) :
    (s.setWindow node window).locked other = s.locked other := by
  simp only [Cluster.locked, setWindow, getElem?_modify]
  grind

theorem locked_setLocked (inside : node < s.clocks.length) (locked : Bool) :
    (s.setLocked node locked).locked other = if other = node then locked else s.locked other := by
  simp only [Cluster.locked, setLocked, getElem?_modify]
  split_ifs <;> grind

theorem inside_of_unlocked (free : s.locked node = false) : node < s.clocks.length := by
  by_contra outside
  rw [Cluster.locked, getElem?_eq_none (not_lt.mp outside)] at free
  cases free

end Cluster

section

variable {w : World} {s s' : Cluster} {i node : Nat} {α : Type} {post : World → α → Prop} {call : Call}

variable {next : call.Reply → Script α}

theorem safe_call
    (step : ∀ w' s, w.Grows w' → w.Keeps i w' → Cluster.Inv w' s → call.Guard s → ∃ w'', w'.Grows w'' ∧
      (∀ j, j ≠ i → w'.Keeps j w'') ∧ (call.exec s).1.Inv w'' ∧
      discipline.Safe i (next (call.exec s).2) w'' post) :
    discipline.Safe i (.call call next) w post := by
  rintro w' ⟨grown, kept⟩ s inv guarded
  obtain ⟨w'', later, others, inv', safe⟩ := step w' s grown kept inv guarded
  exact ⟨w'', later, fun j other => ⟨later, others j other⟩, inv', safe⟩

theorem safe_same
    (same : ∀ s : Cluster, (call.exec s).1 = { s with wall := (call.exec s).1.wall, reachable := (call.exec s).1.reachable })
    (rest : ∀ w' s, w.Grows w' → w.Keeps i w' → Cluster.Inv w' s → call.Guard s →
      discipline.Safe i (next (call.exec s).2) w' post) :
    discipline.Safe i (.call call next) w post := by
  refine safe_call fun w' s grown kept inv guarded => ?_
  refine ⟨w', .refl w', fun _ _ _ held => ⟨held, rfl⟩, ?_, rest w' s grown kept inv guarded⟩
  rw [same s]
  exact { inv with }

def World.hold (w : World) (node : Nat) (holder : Option Nat) : World :=
  { w with holder := Function.update w.holder node holder }

theorem World.hold_keeps {holder : Option Nat} {j : Nat} (idle : w.holder node ≠ some j) :
    w.Keeps j (w.hold node holder) := by
  intro other held
  have differs : other ≠ node := fun same => idle (same ▸ held)
  exact ⟨(Function.update_of_ne differs ..).trans held, rfl⟩

theorem Cluster.Inv.setHeld (inv : s.Inv w) (within : node < s.clocks.length) {bit : Bool} {task : Option Nat}
    (free : bit = false → task = none) : (s.setLocked node bit).Inv (w.hold node task) where
  __ := inv
  window other := (Cluster.window_setLocked ..).trans (inv.window other)
  holder other unlocked := by
    rw [Cluster.locked_setLocked within] at unlocked
    split at unlocked
    case isTrue same => exact same ▸ (Function.update_self ..).trans (free unlocked)
    case isFalse differs => exact (Function.update_of_ne differs ..).trans (inv.holder other unlocked)
  inside other j held := by
    rw [Cluster.setLocked_length]
    by_cases same : other = node
    · exact same ▸ within
    · exact inv.inside other j ((Function.update_of_ne same ..).symm.trans held)

def World.move (w : World) (granted node : Nat) (window : Nat × Nat) : World :=
  { w with granted, window := Function.update w.window node window }

@[simp] theorem World.window_move (w : World) (granted node : Nat) (window : Nat × Nat) :
    (w.move granted node window).window node = window := Function.update_self ..

variable {window : Nat × Nat}

theorem World.move_keeps {granted j : Nat} (idle : w.holder node ≠ some j) :
    w.Keeps j (w.move granted node window) := by
  intro other held
  have differs : other ≠ node := fun same => idle (same ▸ held)
  exact ⟨held, Function.update_of_ne differs ..⟩

theorem World.grows_move {granted : Nat} (later : w.granted ≤ granted)
    (onward : (w.window node).1 ≤ window.1) : w.Grows (w.move granted node window) := by
  refine ⟨later, fun other => ?_⟩
  simp only [World.move, Function.update_apply]
  split
  case isTrue same => exact same ▸ onward
  case isFalse => exact Nat.le_refl _

theorem Cluster.Inv.move {tso : Tso} (inv : s.Inv w) (held : w.holder node = some i) (later : w.granted ≤ tso.next)
    (onward : (w.window node).1 ≤ window.1) (ordered : window.1 ≤ window.2) (below : window.2 ≤ tso.next) :
    (({ s with tso } : Cluster).setWindow node window).Inv (w.move tso.next node window) where
  granted := rfl
  window other := by
    have inside : node < ({ s with tso } : Cluster).clocks.length := inv.inside node i held
    rw [Cluster.window_setWindow inside]
    simp only [World.move, Function.update_apply]
    split
    · rfl
    · exact inv.window other
  holder other unlocked := inv.holder other ((Cluster.locked_setWindow ..).symm.trans unlocked)
  inside other j held := (inv.inside other j held).trans_eq (Cluster.setWindow_length ..).symm
  ordered other := by
    simp only [World.move, Function.update_apply]
    split
    · exact ordered
    · exact inv.ordered other
  below other := by
    simp only [World.move, Function.update_apply]
    split
    · exact below
    · exact (inv.below other).trans later
  issued t returned := (inv.issued t returned).mono (World.grows_move later onward)
  realTime := inv.realTime

theorem Cluster.Inv.finish (inv : s.Inv w) {span : Span} (issued : w.Issued span.result)
    (above : ∀ t ∈ span.seen, t < span.result) :
    Cluster.Inv w { s with returned := span.result :: s.returned, spans := span :: s.spans } :=
  { inv with
    issued := forall_mem_cons.mpr ⟨issued, inv.issued⟩
    realTime := forall_mem_cons.mpr ⟨above, inv.realTime⟩ }

end

variable {w : World} {i node : Nat}

theorem acquire_safe (rounds : Nat) :
    discipline.Safe i (acquire node rounds) w fun w' held => held = true → w'.holder node = some i := by
  induction rounds generalizing w with
  | zero => exact fun _ _ held => nomatch held
  | succ rounds ih =>
    refine safe_call fun w' s _ _ inv _ => ?_
    cases free : s.locked node with
    | true =>
      have done : (Call.lock node).exec s = (s, false) := if_pos free
      refine ⟨w', .refl w', fun _ _ _ held => ⟨held, rfl⟩, done ▸ inv, ?_⟩
      rw [done]
      exact ih
    | false =>
      have done : (Call.lock node).exec s = (s.setLocked node true, true) := if_neg (by simp [free])
      have idle := inv.holder node free
      refine ⟨w'.hold node (some i), .refl _, fun j _ => World.hold_keeps (by simp [idle]), done ▸ inv.setHeld (Cluster.inside_of_unlocked free) nofun, ?_⟩
      rw [done]
      exact fun w'' relied _ => (relied.2 node (Function.update_self ..)).1

variable {seen : List Nat}

theorem serve_safe (held : w.holder node = some i) (unspent : (w.window node).1 < (w.window node).2)
    (above : ∀ t ∈ seen, t < (w.window node).1) : discipline.Safe i (serve node seen) w fun _ _ => True := by
  refine safe_call fun w' s _ kept inv _ => ?_
  obtain ⟨held', same⟩ := kept node held
  have now : s.window node = w.window node := (inv.window node).trans same
  -- the timestamp is taken
  have onward : (w'.window node).1 ≤ (w.window node).1 + 1 := by
    rw [same]
    exact Nat.le_succ _
  have below : (w.window node).2 ≤ s.tso.next := by
    rw [← same, inv.granted]
    exact inv.below node
  have moved : (s.setWindow node ((w.window node).1 + 1, (w.window node).2)).Inv
      (w'.move s.tso.next node ((w.window node).1 + 1, (w.window node).2)) :=
    inv.move held' inv.granted.ge onward unspent below
  refine ⟨w'.move s.tso.next node ((w.window node).1 + 1, (w.window node).2), ?_, fun j other => ?_, ?_, ?_⟩
  · exact World.grows_move inv.granted.ge onward
  · exact World.move_keeps (by rw [held']; exact fun same => other (Option.some.inj same).symm)
  · simpa only [Call.exec, now] using moved
  simp only [Call.exec, now]
  -- the mutex is released
  refine safe_call fun w₁ s₁ grown₁ kept₁ inv₁ _ => ?_
  obtain ⟨held₁, same₁⟩ := kept₁ node held'
  refine ⟨w₁.hold node none, .refl _, fun j other => World.hold_keeps ?_, inv₁.setHeld (inv₁.inside node i held₁) fun _ => rfl, ?_⟩
  · rw [held₁]
    exact fun same => other (Option.some.inj same).symm
  have issued : (w₁.hold node none).Issued (w.window node).1 := by
    refine ⟨node, ?_⟩
    show (w.window node).1 < (w₁.window node).1
    rw [same₁, World.window_move]
    exact Nat.lt_succ_self _
  -- the call returns
  refine safe_call fun w₂ s₂ grown₂ _ inv₂ _ => ?_
  exact ⟨w₂, .refl _, fun _ _ _ held => ⟨held, rfl⟩, inv₂.finish (issued.mono grown₂) above, fun _ _ => trivial⟩

theorem unlock_safe (held : w.holder node = some i) :
    discipline.Safe i (do perform (.unlock node); return (none : Option Nat)) w fun _ _ => True := by
  refine safe_call fun w' s _ kept inv _ => ?_
  obtain ⟨held', -⟩ := kept node held
  refine ⟨w'.hold node none, .refl _, fun j other => World.hold_keeps ?_, inv.setHeld (inv.inside node i held') fun _ => rfl, fun _ _ => trivial⟩
  rw [held']
  exact fun same => other (Option.some.inj same).symm

theorem World.Issued.lt_granted {s : Cluster} (issued : w.Issued t) (inv : s.Inv w) : t < w.granted := by
  obtain ⟨node, below⟩ := issued
  exact below.trans_le ((inv.ordered node).trans (inv.below node))

theorem refill_cases (s : Cluster) (node : Nat) :
    (∃ tso : Tso, ∃ first, s.tso.next ≤ first ∧ first + tsoBatch = tso.next ∧
      (Call.refill node).exec s = (({ s with tso } : Cluster).setWindow node (first, first + tsoBatch), true)) ∨
    ∃ tso : Tso, s.tso.next ≤ tso.next ∧ (Call.refill node).exec s = ({ s with tso }, false) := by
  simp only [Call.exec]
  split
  case isTrue =>
    rcases s.tso.alloc_cases s.wall tsoBatch true with ⟨first, granted, above, next⟩ | ⟨failed, above⟩
    · refine .inl ⟨_, first, above, next.symm, ?_⟩
      split
      case h_1 done => simp_all
      case h_2 done => simp_all
    · refine .inr ⟨_, above, ?_⟩
      split
      case h_1 done => simp_all
      case h_2 done => simp_all
  case isFalse => exact .inr ⟨s.tso, Nat.le_refl _, rfl⟩

theorem refill_safe (held : w.holder node = some i) (issued : ∀ t ∈ seen, w.Issued t) :
    discipline.Safe i (do
      match ← perform (.refill node) with
      | true => serve node seen
      | false =>
        perform (.unlock node)
        return none) w fun _ _ => True := by
  refine safe_call fun w' s grown kept inv _ => ?_
  obtain ⟨held', -⟩ := kept node held
  have granted := inv.granted
  rcases refill_cases s node with ⟨tso, first, above, next, done⟩ | ⟨tso, later, done⟩
  · have onward : (w'.window node).1 ≤ first :=
      ((inv.ordered node).trans (inv.below node)).trans (granted.ge.trans above)
    have later : w'.granted ≤ tso.next := by omega
    have moved : (({ s with tso } : Cluster).setWindow node (first, first + tsoBatch)).Inv
        (w'.move tso.next node (first, first + tsoBatch)) :=
      inv.move held' later onward (Nat.le_add_right ..) next.le
    refine ⟨w'.move tso.next node (first, first + tsoBatch), World.grows_move later onward,
      fun j other => World.move_keeps ?_, done ▸ moved, ?_⟩
    · rw [held']
      exact fun same => other (Option.some.inj same).symm
    · rw [done]
      refine serve_safe held' ?_ fun t member => ?_
      · rw [World.window_move]
        exact Nat.lt_add_of_pos_right (by decide)
      · rw [World.window_move]
        exact (((issued t member).mono grown).lt_granted inv).trans_le (granted.ge.trans above)
  · refine ⟨{ w' with granted := tso.next }, ⟨granted.ge.trans later, fun _ => Nat.le_refl _⟩,
      fun j _ _ held => ⟨held, rfl⟩, ?_, ?_⟩
    · rw [done]
      exact { inv with granted := rfl, below := fun other => (inv.below other).trans (granted.ge.trans later) }
    · rw [done]
      exact unlock_safe held'

theorem now_safe (rounds node : Nat) : discipline.Safe i (now rounds node) w fun _ _ => True := by
  refine safe_same (fun _ => rfl) fun w s _ _ inv _ => ?_
  have issued : ∀ t ∈ s.returned, w.Issued t := inv.issued
  refine (acquire_safe rounds).bind fun w₁ held grown₁ holds => ?_
  cases held with
  | false => exact fun _ _ => trivial
  | true =>
    refine safe_same (fun _ => rfl) fun w₂ s₂ grown₂ kept₂ inv₂ guarded => ?_
    obtain ⟨held₂, -⟩ := kept₂ node (holds rfl)
    have issued₂ : ∀ t ∈ s.returned, w₂.Issued t := fun t returned => ((issued t returned).mono grown₁).mono grown₂
    show discipline.Safe i (issue node s.returned (s₂.window node)) w₂ _
    rw [inv₂.window, issue]
    split
    case isTrue unspent =>
      -- the guard puts the windows of all other nodes below this one
      refine serve_safe held₂ unspent fun t returned => ?_
      obtain ⟨other, below⟩ := issued₂ t returned
      by_cases same : other = node
      · exact same ▸ below
      · have inside : other < s₂.clocks.length := by
          by_contra outside
          rw [← inv₂.window, Cluster.window, getElem?_eq_none (not_lt.mp outside)] at below
          exact absurd below (Nat.not_lt_zero _)
        have behind := guarded (by rwa [inv₂.window]) other inside same
        rw [inv₂.window, inv₂.window] at behind
        exact below.trans_le ((inv₂.ordered other).trans behind)
    case isFalse => exact refill_safe held₂ issued₂

theorem environment_safe (changes : List (Nat × Bool)) : discipline.Safe i (environment changes) w fun _ _ => True := by
  induction changes generalizing w with
  | nil => exact fun _ _ => trivial
  | cons change rest ih => exact safe_same (fun _ => rfl) fun w' s _ _ _ _ => ih

theorem startWith_sound (nodes : Nat) (tasks : List Task) :
    discipline.Sound (fun _ _ _ => True) ⟨1, fun _ => (0, 0), fun _ => none⟩ (startWith nodes tasks) := by
  have window : ∀ node, (Cluster.window { clocks := replicate nodes {} } node) = (0, 0) := by
    intro node
    rw [Cluster.window, getElem?_replicate]
    split <;> rfl
  constructor
  · exact ⟨rfl, window, fun _ _ => rfl, nofun, fun _ => Nat.le_refl _, fun _ => Nat.zero_le _, nofun, nofun⟩
  · intro i p found
    rw [startWith, getElem?_map, Option.map_eq_some_iff] at found
    obtain ⟨task, -, rfl⟩ := found
    cases task with
    | now rounds node => exact (now_safe rounds node).bind fun _ _ _ _ _ _ => trivial
    | environment changes => exact environment_safe changes

/-- Timestamps respect real time across all nodes, as long as no call is served from a window while another node has a
later one. -/
theorem timestamps_real_time (nodes : Nat) (tasks : List Task) (schedule : List Nat)
    (guarded : (startWith nodes tasks).Guarded Call.exec Call.Guard schedule) :
    ((startWith nodes tasks).run Call.exec schedule).state.RealTime := by
  obtain ⟨w, -, inv, -⟩ := (startWith_sound nodes tasks).run guarded
  exact inv.realTime

def backAndForth : List Task := [.now 1 0, .now 1 1, .now 1 0]

def thenStay : List Task := [.now 1 0, .now 1 1, .now 1 1]

-- the third call is served from the window of the second
theorem timestamps_real_time_thenStay :
    ((startWith 2 thenStay).run Call.exec
      [0, 0, 0, 0, 0, 0, 0, 1, 1, 1, 1, 1, 1, 1, 2, 2, 2, 2, 2, 2]).state.returned = [258, 257, 1] ∧
    ((startWith 2 thenStay).run Call.exec
      [0, 0, 0, 0, 0, 0, 0, 1, 1, 1, 1, 1, 1, 1, 2, 2, 2, 2, 2, 2]).state.RealTime :=
  ⟨by decide +kernel, timestamps_real_time 2 thenStay
    [0, 0, 0, 0, 0, 0, 0, 1, 1, 1, 1, 1, 1, 1, 2, 2, 2, 2, 2, 2] (by decide +kernel)⟩

/-- The third call returns 2 after the second one has returned 257. -/
theorem window_served_late :
    ¬ ((startWith 2 backAndForth).run Call.exec
      [0, 0, 0, 0, 0, 0, 0, 1, 1, 1, 1, 1, 1, 1, 2, 2, 2, 2, 2, 2]).state.RealTime := by
  decide +kernel

end Arcux.Server.PdClock
