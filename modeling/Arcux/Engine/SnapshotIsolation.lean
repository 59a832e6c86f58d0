import Arcux.Engine.Interleaved

namespace Arcux.Engine.SnapshotIsolation

open Codec Concurrency Data List
open Percolator (Ledger Roster)
open scoped Codec.ByteOrder

/-- A transaction with its two timestamps, a snapshot read at a given timestamp, and the handing out of timestamps up to
`ts` to others, readers among them. -/
inductive Call where
  | transact (mutations : List Mutation)
  | mvccGet (key : Bytes) (readTs : Ts)
  | advance (ts : Ts)
  deriving Repr, DecidableEq

inductive Answer where
  | done
  | value (value : Option Bytes)
  deriving Repr, DecidableEq

def draw (task : Nat) : Program Ts := do
  let some ts ← ExceptT.lift (Prog.perform (Access.now task)) | ExceptT.lift .halt
  return ts

def coordinate (task : Nat) (txn : Transaction) : Program Answer := do
  txn.prewrite maxTs
  let commitTs ← draw task
  txn.commit commitTs
  return .done

namespace Call

def program (task : Nat) : Call → Program Answer
  | transact mutations => do
    let startTs ← draw task
    let txn ← ExceptT.mk (pure (Transaction.new startTs mutations))
    coordinate task txn
  | mvccGet key readTs => return .value (← Engine.mvccGet key readTs)
  | advance ts => do
    ExceptT.lift (Prog.perform (Access.advance ts))
    return .done

def writes : Call → List Mutation
  | transact mutations => mutations
  | mvccGet _ _ | advance _ => []

def keys : Call → List Bytes
  | transact mutations => mutations.map Mutation.key
  | mvccGet key _ => [key]
  | advance _ => []

end Call

def PrefixFree (calls : List Call) : Prop :=
  ∀ k ∈ calls.flatMap Call.keys, ∀ k' ∈ calls.flatMap Call.keys, k <+: k' → k = k'

instance (calls : List Call) : Decidable (PrefixFree calls) := inferInstanceAs (Decidable (∀ k ∈ _, ∀ k' ∈ _, _))

def Short (calls : List Call) : Prop := ∀ k ∈ calls.flatMap Call.keys, k.length < 2 ^ 32

instance (calls : List Call) : Decidable (Short calls) := inferInstanceAs (Decidable (∀ k ∈ _, _))

abbrev Run := Pool Shared Access Access.Reply (Except Error Answer)

def start (calls : List Call) : Run := ⟨.start, calls.mapIdx fun i call => (call.program i).run⟩

def after (calls : List Call) (schedule : List Nat) : Run := (start calls).run Access.exec schedule

def writes (calls : List Call) (i : Nat) : List Mutation := (calls[i]?.map Call.writes).getD []

/-- Program `i` has drawn `startTs` first, and the primary of its transaction has the commit record of `commitTs`. -/
def Committed (calls : List Call) (run : Run) (i : Nat) (startTs commitTs : Ts) : Prop :=
  (run.state.oracle.drawn i).head? = some startTs ∧
    ∃ m ∈ (writes calls i).head?, run.state.db.view.commit m.key commitTs = some startTs

/-- The value on `key` of the transaction with the largest commit timestamp up to `readTs`, of those that write `key`. -/
def Latest (calls : List Call) (run : Run) (key : Bytes) (readTs : Ts) (value : Option Bytes) : Prop :=
  (∃ i startTs commitTs v, Committed calls run i startTs commitTs ∧ ⟨key, v⟩ ∈ writes calls i ∧ commitTs ≤ readTs ∧
      value = v.intoOption ∧ ∀ i' startTs' commitTs', Committed calls run i' startTs' commitTs' →
        key ∈ (writes calls i').map Mutation.key → commitTs' ≤ readTs → commitTs' ≤ commitTs) ∨
    (∀ i startTs commitTs, Committed calls run i startTs commitTs → key ∈ (writes calls i).map Mutation.key →
      ¬ commitTs ≤ readTs) ∧ value = none

section

variable {calls : List Call} {i : Nat}

structure Clocked (calls : List Call) (roster : Roster Bytes Ts) (oracle : Oracle) : Prop where
  now : roster.clock = oracle.last
  issued : ∀ e ∈ oracle.issued, e.2 ≤ oracle.last
  first : ∀ i st, roster.runner st = some i ↔ (oracle.drawn i).head? = some st
  home : ∀ i st, roster.runner st = some i → ∀ m ∈ (writes calls i).head?, roster.primary st = m.key

section

variable {oracle : Oracle} {t : Ts}

theorem drawn_issue (j : Nat) : (⟨t, oracle.issued ++ [(i, t)]⟩ : Oracle).drawn j =
    if j = i then oracle.drawn j ++ [t] else oracle.drawn j := by
  by_cases same : j = i
  · simp [Oracle.drawn, same]
  · simp [Oracle.drawn, same, Ne.symm same]

variable {roster : Roster Bytes Ts}

theorem Clocked.drawn_le (clocked : Clocked calls roster oracle)
    (drawn : (oracle.drawn i).head? = some t) : t ≤ oracle.last := by
  obtain ⟨e, member, rfl⟩ := mem_map.mp (mem_of_mem_head? drawn)
  exact clocked.issued e (mem_filter.mp member).1

theorem Clocked.issue_le (clocked : Clocked calls roster oracle) (later : oracle.last < t) :
    ∀ e ∈ oracle.issued ++ [(i, t)], e.2 ≤ t := by
  intro e member
  rcases mem_append.mp member with old | new
  · exact (clocked.issued e old).trans later.le
  · exact (mem_singleton.mp new ▸ le_rfl : e.2 ≤ t)

variable {w : Ledger Bytes Ts Value}

theorem Clocked.fresh (clocked : Clocked calls w.toRoster oracle) (later : oracle.last < t) : w.runner t = none := by
  by_contra running
  obtain ⟨j, runs⟩ := Option.ne_none_iff_exists'.mp running
  exact (clocked.drawn_le ((clocked.first j t).mp runs)).not_gt later

theorem Clocked.enlist (clocked : Clocked calls w.toRoster oracle) (later : oracle.last < t)
    (idle : oracle.drawn i = []) {p : Bytes} (home : ∀ m ∈ (writes calls i).head?, p = m.key) :
    Clocked calls (w.enlist i t p).toRoster ⟨t, oracle.issued ++ [(i, t)]⟩ where
  now := rfl
  issued := clocked.issue_le later
  first j st := by
    rw [drawn_issue]
    simp only [Ledger.enlist]
    by_cases mine : j = i <;> by_cases new : st = t
    · simp [mine, new, idle]
    · simp [mine, new, idle, clocked.first, Ne.symm new]
    · have missing : (oracle.drawn j).head? ≠ some t := fun drawn => (clocked.drawn_le drawn).not_gt later
      simp [mine, new, missing, Ne.symm mine]
    · simp [mine, new, clocked.first]
  home j st running m first := by
    simp only [Ledger.enlist] at running ⊢
    split at running
    case isTrue new =>
      cases running
      rw [if_pos new]
      exact home m first
    case isFalse old =>
      rw [if_neg old]
      exact clocked.home j st running m first

theorem Clocked.choose (clocked : Clocked calls w.toRoster oracle) (later : oracle.last < t) {st : Ts}
    (running : w.runner st = some i) : Clocked calls (w.choose st t).toRoster ⟨t, oracle.issued ++ [(i, t)]⟩ where
  now := rfl
  issued := clocked.issue_le later
  first j st' := by
    rw [drawn_issue]
    refine (clocked.first j st').trans ?_
    split
    case isTrue same =>
      have drawn := (clocked.first i st).mp running
      rw [same, head?_append, drawn]
      rfl
    case isFalse => rfl
  home := clocked.home

theorem Clocked.advance (clocked : Clocked calls w.toRoster oracle) (t : Ts) :
    Clocked calls (w.tick (max oracle.last t)).toRoster (oracle.advance t) where
  now := rfl
  issued e member := (clocked.issued e member).trans (le_max_left _ _)
  __ := clocked

end

def setting (apart : PrefixFree calls) (short : Short calls) : Setting where
  space := ⟨{k | k ∈ calls.flatMap Call.keys}, apart, short⟩
  mortal := False
  plan := writes calls
  clocked := Clocked calls

def blank : Ledger Bytes Ts Value := .blank ⟨fun _ => none, fun _ => [], 0⟩

variable {apart : PrefixFree calls} {short : Short calls}

theorem inv_blank : (setting apart short).Inv blank .start where
  formed := Db.formed_empty _
  holds := Ledger.holds_blank False _
  written _ _ _ := nofun
  complete _ _ := nofun
  clocked := ⟨rfl, nofun, fun _ _ => ⟨nofun, nofun⟩, fun _ _ => nofun⟩

variable {call : Call}

theorem mem_space (found : calls[i]? = some call) : ∀ k ∈ call.keys, k ∈ (setting apart short).space.keys :=
  fun _ member => mem_flatMap.mpr ⟨call, mem_of_getElem? found, member⟩

section

variable {w : Ledger Bytes Ts Value} {α : Type}

theorem safe_draw {next : Ts → Program α} {post : Ledger Bytes Ts Value → Except Error α → Prop}
    (step : ∀ w' s t, w.Rely False i w' → (setting apart short).Inv w' s → s.oracle.last < t →
      ∃ w'', (setting apart short).Step i w' w'' ⟨s.db, ⟨t, s.oracle.issued ++ [(i, t)]⟩⟩ ∧
        (setting apart short).discipline.Safe i (next t).run w'' post) :
    (setting apart short).discipline.Safe i (draw i >>= next).run w post := by
  intro w' relied s inv _
  rcases s.oracle.now_cases i with ⟨t, later, drawn⟩ | exhausted
  · obtain ⟨w'', taken, rest⟩ := step w' s t relied inv later
    refine ⟨w'', taken.grows, taken.others, ?_, ?_⟩
    · have inv' : (setting apart short).Inv w'' _ := taken.inv
      simp only [Setting.discipline, Access.exec, drawn]
      exact inv'
    · simp only [Setting.discipline, Access.exec, drawn]
      exact rest
  · refine ⟨w', .refl w', fun _ _ => .refl w', ?_, ?_⟩
    · simp only [Setting.discipline, Access.exec, exhausted]
      exact inv
    · simp only [Setting.discipline, Access.exec, exhausted]
      trivial

variable {p : Bytes} {s : Shared}

theorem step_enlist {t : Ts} (inv : (setting apart short).Inv w s)
    (idle : ∀ st, w.runner st ≠ some i) (later : s.oracle.last < t) (home : ∀ m ∈ (writes calls i).head?, p = m.key) :
    (setting apart short).Step i w (w.enlist i t p) ⟨s.db, ⟨t, s.oracle.issued ++ [(i, t)]⟩⟩ ∧
      (setting apart short).Coordinates i t p (w.enlist i t p) ∧ ∀ k, w.held t k = none := by
  have clocked : Clocked calls w.toRoster s.oracle := inv.clocked
  have fresh := clocked.fresh later
  have unheld (k : Bytes) : w.held t k = none := by
    by_contra held
    exact inv.running held fresh
  have undecided : w.decided t = none := by
    by_contra decided
    obtain ⟨c, chosen⟩ := Option.ne_none_iff_exists'.mp decided
    obtain ⟨j, running, -⟩ := inv.complete t c chosen
    cases fresh.symm.trans running
  have unused : s.oracle.drawn i = [] := by
    cases drawn : s.oracle.drawn i with
    | nil => rfl
    | cons st rest => exact absurd ((clocked.first i st).mpr (by rw [drawn]; rfl)) (idle st)
  have known {st : Ts} {j : Nat} (running : w.runner st = some j) : st ≠ t := by
    rintro rfl
    cases fresh.symm.trans running
  have rely : w.Grows (w.enlist i t p) ∧ ∀ j, j ≠ i → w.Rely False j (w.enlist i t p) :=
    Ledger.enlist_rely fresh (clocked.now ▸ later)
  refine ⟨⟨rely.1, rely.2, inv.formed, inv.holds.enlist fresh unheld, ?_, ?_, clocked.enlist later unused home⟩, ?_, unheld⟩
  · intro st k v held
    obtain ⟨j, running, planned⟩ := inv.written st k v held
    exact ⟨j, by simp [Ledger.enlist, known running, running], planned⟩
  · intro st c decided
    obtain ⟨j, running, full⟩ := inv.complete st c decided
    exact ⟨j, by simp [Ledger.enlist, known running, running], full⟩
  · exact ⟨by simp [Ledger.enlist], by simp [Ledger.enlist], undecided, fun _ => inv.holds.pending_of_unheld unheld⟩

theorem step_choose {st c : Ts} (inv : (setting apart short).Inv w s)
    (coord : (setting apart short).Coordinates i st p w) (full : ∀ m ∈ writes calls i, w.held st m.key = some m.value)
    (later : s.oracle.last < c) :
    st < c ∧ (setting apart short).Step i w (w.choose st c) ⟨s.db, ⟨c, s.oracle.issued ++ [(i, c)]⟩⟩ := by
  have clocked : Clocked calls w.toRoster s.oracle := inv.clocked
  have ahead : st < c := (clocked.drawn_le ((clocked.first i st).mp coord.mine)).trans_lt later
  have rely : w.Grows (w.choose st c) ∧ ∀ j, j ≠ i → w.Rely False j (w.choose st c) :=
    Ledger.choose_rely coord.mine coord.undecided (clocked.now ▸ later)
  refine ⟨ahead, rely.1, rely.2, inv.formed, inv.holds.choose id (coord.alive id) ahead, inv.written, ?_,
    clocked.choose later coord.mine⟩
  intro st' c' decided
  simp only [Ledger.choose] at decided
  split at decided
  case isTrue same => exact ⟨i, same ▸ coord.mine, same ▸ full⟩
  case isFalse => exact inv.complete st' c' decided

theorem safe_coordinate {txn : Transaction} (keys : ∀ m ∈ txn.mutations, m.key ∈ (setting apart short).space.keys)
    (planned : writes calls i = txn.mutations) (coord : (setting apart short).Coordinates i txn.startTs txn.primary w)
    (unheld : ∀ k, w.held txn.startTs k = none) :
    (setting apart short).discipline.Safe i (coordinate i txn).run w (Answers fun _ _ => True) := by
  have prewrites := Setting.safe_prewrite (fun _ => rfl) keys planned coord unheld nofun
  refine Discipline.Safe.answered prewrites fun w' _ _ ⟨coord', full⟩ => ?_
  refine safe_draw fun w'' s commitTs relied inv later => ?_
  have coord'' := coord'.relied relied
  have full' : ∀ m ∈ writes calls i, w''.held txn.startTs m.key = some m.value := by
    rw [planned, relied.held txn.startTs coord'.mine]
    exact full
  obtain ⟨ahead, chosen⟩ := step_choose inv coord'' full' later
  refine ⟨_, chosen, ?_⟩
  have commits : (setting apart short).discipline.Safe i (txn.commitPrimary commitTs).run
      (w''.choose txn.startTs commitTs) (Answers fun u _ => u.fate txn.startTs = .committed commitTs) :=
    Setting.safe_commitPrimary (keys txn.first (mem_cons_self ..)) coord''.mine coord''.home ahead
      (.inr ⟨id, by simp [Ledger.choose], coord''.alive id⟩) full' planned
  have ends : (setting apart short).discipline.Safe i (txn.commit commitTs).run (w''.choose txn.startTs commitTs)
      (Answers fun _ _ => True) :=
    Discipline.Safe.answered commits fun _ _ _ committed => Setting.safe_finalizeKeys keys committed
  exact Discipline.Safe.answered ends fun _ _ _ _ => Setting.safe_return fun _ _ => trivial

theorem safe_transact {mutations : List Mutation} (found : calls[i]? = some (.transact mutations)) :
    (setting apart short).discipline.Safe i ((Call.transact mutations).program i).run blank (Answers fun _ _ => True) := by
  have planned : writes calls i = mutations := by simp [writes, found, Call.writes]
  refine safe_draw fun w s startTs relied inv later => ?_
  have idle (st : Ts) : w.runner st ≠ some i := fun running => nomatch relied.fresh st running
  cases mutations with
  | nil =>
    -- a transaction without mutations is refused after it has drawn its start timestamp
    obtain ⟨begun, -, -⟩ := step_enlist (p := []) inv idle later (by simp [planned])
    exact ⟨_, begun, fun _ _ => nofun⟩
  | cons first rest =>
    obtain ⟨begun, coord, unheld⟩ := step_enlist (p := first.key) inv idle later (by simp [planned])
    have keys : ∀ m ∈ first :: rest, m.key ∈ (setting apart short).space.keys :=
      fun m member => mem_space found m.key (mem_map_of_mem member)
    have runs : (setting apart short).discipline.Safe i (coordinate i ⟨startTs, first, rest⟩).run _ _ :=
      safe_coordinate keys planned coord unheld
    exact ⟨_, begun, runs⟩

theorem safe_advance (ts : Ts) :
    (setting apart short).discipline.Safe i ((Call.advance ts).program i).run w (Answers fun _ _ => True) := by
  intro w' _ s inv _
  have clocked : Clocked calls w'.toRoster s.oracle := inv.clocked
  have relied (j : Nat) : w'.Rely False j (w'.tick (max s.oracle.last ts)) :=
    Ledger.tick_rely (clocked.now ▸ le_max_left _ _) j
  refine ⟨_, (relied i).grows, fun j _ => relied j, ?_, Setting.safe_return fun _ _ => trivial⟩
  exact ⟨inv.formed, inv.holds.tick _, inv.written, inv.complete, clocked.advance ts⟩

theorem safe_mvccGet {key : Bytes} {readTs : Ts} (found : calls[i]? = some (.mvccGet key readTs)) {timed : Prop}
    (early : timed → readTs ≤ w.clock) :
    (setting apart short).discipline.Safe i ((Call.mvccGet key readTs).program i).run w (Answers fun w' answer =>
      ∀ v, answer = .value v → (setting apart short).Saw key readTs timed w w' v) := by
  have mem : key ∈ (setting apart short).space.keys := mem_space found key (mem_singleton.mpr rfl)
  have reads := Setting.safe_mvccGet (i := i) mem early
  refine Discipline.Safe.answered reads fun w' result _ ⟨w₁, m, shown, before, later, rest⟩ => ?_
  refine Setting.safe_return fun w'' relied v same => ?_
  cases same
  exact ⟨w₁, m, shown, before, later.trans relied.grows, rest⟩

theorem safe_program (found : calls[i]? = some call) :
    (setting apart short).discipline.Safe i (call.program i).run blank (Answers fun _ _ => True) := by
  cases call with
  | transact mutations => exact safe_transact found
  | mvccGet key readTs => exact (safe_mvccGet found False.elim).mono fun _ _ _ _ _ _ => trivial
  | advance ts => exact safe_advance ts

end

abbrev Sound (apart : PrefixFree calls) (short : Short calls) (posts : Nat → Ledger Bytes Ts Value → Except Error Answer → Prop)
    (w : Ledger Bytes Ts Value) (schedule : List Nat) : Prop :=
  (setting apart short).discipline.Sound posts w (after calls schedule)

theorem task_of_call (found : calls[i]? = some call) : (start calls).tasks[i]? = some (call.program i).run := by
  simp [start, found]

theorem guarded (pool : Run) (schedule : List Nat) :
    pool.Guarded Access.exec (setting apart short).discipline.guard schedule := by
  induction schedule generalizing pool with
  | nil => trivial
  | cons j rest ih => exact ⟨fun _ _ => nofun, ih _⟩

variable (apart short)

theorem sound_start : Sound apart short (fun _ => Answers fun _ _ => True) blank [] := by
  refine ⟨inv_blank, fun j p task => ?_⟩
  obtain ⟨call, found, rfl⟩ : ∃ call, calls[j]? = some call ∧ (call.program j).run = p := by
    simpa [after, Pool.run, start] using task
  exact safe_program found

variable {key : Bytes} {readTs : Ts} {v : Option Bytes}

theorem saw_of_answer {earlier later : List Nat} (found : calls[i]? = some (.mvccGet key readTs)) (idle : i ∉ earlier)
    (drawn : readTs ≤ (after calls earlier).state.oracle.last)
    (answered : (after calls (earlier ++ later)).result i = some (.ok (.value v))) :
    ∃ w w', readTs ≤ w.clock ∧ (setting apart short).Inv w' (after calls (earlier ++ later)).state ∧
      (setting apart short).Saw key readTs True w w' v := by
  obtain ⟨w, -, inv, safe⟩ := (sound_start apart short).run (guarded _ earlier)
  have clocked : Clocked calls w.toRoster (after calls earlier).state.oracle := inv.clocked
  have early : readTs ≤ w.clock := clocked.now ▸ drawn
  -- the read is still where it began, so what it will answer can be said from here on
  have waits : Sound apart short (fun j => Answers fun w' answer =>
      j = i → ∀ v, answer = .value v → (setting apart short).Saw key readTs True w w' v) w earlier := by
    refine ⟨inv, fun j p task => ?_⟩
    rcases eq_or_ne j i with rfl | other
    · have waiting := (Pool.tasks_run_of_notMem Access.exec idle (start calls)).trans (task_of_call found)
      cases waiting.symm.trans task
      exact (safe_mvccGet found fun _ => early).mono fun w' _ _ told answer same _ => told answer same
    · exact (safe j p task).mono fun _ _ _ _ _ _ same => absurd same other
  obtain ⟨w', -, sound⟩ := waits.run (guarded _ later)
  change (setting apart short).discipline.Sound _ w' ((after calls earlier).run Access.exec later) at sound
  rw [after, ← Pool.run_append] at sound
  exact ⟨w, w', early, sound.1, sound.result answered _ rfl rfl v rfl⟩

theorem inv_after (schedule : List Nat) : ∃ w, (setting apart short).Inv w (after calls schedule).state := by
  obtain ⟨w, -, inv, -⟩ := (sound_start apart short).run (guarded _ schedule)
  exact ⟨w, inv⟩

variable {apart short} {startTs commitTs : Ts} {run : Run}

theorem Committed.fate {w : Ledger Bytes Ts Value} (inv : (setting apart short).Inv w run.state)
    (committed : Committed calls run i startTs commitTs) :
    w.runner startTs = some i ∧ w.fate startTs = .committed commitTs ∧ w.decided startTs = some commitTs ∧
      ∀ key ∈ (writes calls i).map Mutation.key, w.held startTs key ≠ none := by
  obtain ⟨drawn, m, -, seen⟩ := committed
  have clocked : Clocked calls w.toRoster run.state.oracle := inv.clocked
  have running := (clocked.first i startTs).mpr drawn
  obtain ⟨fate, -⟩ := (inv.holds.recorded m.key commitTs startTs).mp seen
  have decided := inv.holds.chosen startTs commitTs fate
  obtain ⟨j, running', full⟩ := inv.complete startTs commitTs decided
  cases running.symm.trans running'
  refine ⟨running, fate, decided, fun key member => ?_⟩
  obtain ⟨m', planned, rfl⟩ := mem_map.mp member
  simp [full m' planned]

theorem committed_of_fate {w : Ledger Bytes Ts Value} (inv : (setting apart short).Inv w run.state) {v : Value}
    (fate : w.fate startTs = .committed commitTs) (held : w.held startTs key = some v) :
    ∃ i, Committed calls run i startTs commitTs ∧ ⟨key, v⟩ ∈ writes calls i := by
  have clocked : Clocked calls w.toRoster run.state.oracle := inv.clocked
  obtain ⟨i, running, planned⟩ := inv.written startTs key v held
  have anchored := inv.holds.anchored startTs commitTs fate
  obtain ⟨first, rest, shape⟩ := exists_cons_of_ne_nil (ne_nil_of_mem planned)
  have shape : writes calls i = first :: rest := shape
  have leads : first ∈ (writes calls i).head? := by rw [shape]; rfl
  refine ⟨i, ⟨(clocked.first i startTs).mp running, first, leads, ?_⟩, planned⟩
  rw [← clocked.home i startTs running first leads]
  exact (inv.holds.recorded _ commitTs startTs).mpr ⟨fate, anchored⟩

theorem latest_of_saw {w w' : Ledger Bytes Ts Value} (inv : (setting apart short).Inv w' run.state)
    (early : readTs ≤ w.clock) (saw : (setting apart short).Saw key readTs True w w' v) :
    Latest calls run key readTs v := by
  obtain ⟨w₁, m, shown, before, later, holds, visible, shows, rfl⟩ := saw
  -- a transaction that commits by `readTs` had chosen so when the key was read, and had its commit record there
  have seen {i : Nat} {startTs commitTs : Ts} (committed : Committed calls run i startTs commitTs)
      (writer : key ∈ (writes calls i).map Mutation.key) (le : commitTs ≤ readTs) :
      w₁.fate startTs = .committed commitTs ∧ w₁.settled startTs key := by
    obtain ⟨-, fate, decided, held⟩ := committed.fate inv
    have known : w₁.decided startTs = some commitTs := by
      refine (later.late startTs commitTs decided).resolve_right fun late => ?_
      exact (le.trans (early.trans before.clock)).not_gt late
    have held₁ : w₁.held startTs key ≠ none := by
      rw [← later.frozen startTs commitTs known]
      exact held key writer
    rcases visible trivial startTs commitTs known le held₁ with dead | settled
    · cases (later.dead startTs dead).symm.trans fate
    · obtain ⟨c, fate₁⟩ := holds.closed startTs key settled
      cases fate.symm.trans (later.committed startTs c fate₁)
      exact ⟨fate₁, settled⟩
  rcases shows with ⟨startTs, commitTs, fate, settled, le, newest, rfl⟩ | ⟨absent, rfl⟩
  · obtain ⟨value, held⟩ := Option.ne_none_iff_exists'.mp (holds.stored startTs key settled)
    obtain ⟨i, committed, planned⟩ := committed_of_fate inv (later.committed startTs commitTs fate)
      (later.held startTs key value held)
    refine .inl ⟨i, startTs, commitTs, value, committed, planned, le, by rw [held]; rfl, ?_⟩
    intro i' startTs' commitTs' committed' writer le'
    obtain ⟨fate', settled'⟩ := seen committed' writer le'
    exact newest startTs' commitTs' fate' settled' le'
  · refine .inr ⟨fun i startTs commitTs committed writer le => ?_, rfl⟩
    obtain ⟨fate, settled⟩ := seen committed writer le
    exact absent startTs commitTs fate settled le

end

/-- With keys whose length fits a lock, in every run the transactions that commit on one key have disjoint intervals, and
a read whose timestamp was handed out before it began returns the value of the latest transaction that ever commits by
that timestamp. -/
theorem snapshot_isolation (calls : List Call) (apart : PrefixFree calls) (short : Short calls)
    (earlier later : List Nat) :
    (∀ i i' key startTs commitTs startTs' commitTs', i ≠ i' →
      Committed calls (after calls (earlier ++ later)) i startTs commitTs →
      Committed calls (after calls (earlier ++ later)) i' startTs' commitTs' →
      key ∈ (writes calls i).map Mutation.key → key ∈ (writes calls i').map Mutation.key →
      commitTs < startTs' ∨ commitTs' < startTs) ∧
    ∀ (j : Nat) key readTs v, calls[j]? = some (.mvccGet key readTs) → j ∉ earlier →
      readTs ≤ (after calls earlier).state.oracle.last →
      (after calls (earlier ++ later)).result j = some (.ok (.value v)) →
      Latest calls (after calls (earlier ++ later)) key readTs v := by
  constructor
  · intro i i' key startTs commitTs startTs' commitTs' differ committed committed' writer writer'
    obtain ⟨w, inv⟩ := inv_after apart short (earlier ++ later)
    obtain ⟨running, fate, -, held⟩ := committed.fate inv
    obtain ⟨running', fate', -, held'⟩ := committed'.fate inv
    refine inv.holds.apart fate (held key writer) fate' (held' key writer') ?_
    rintro rfl
    exact differ (Option.some.inj (running.symm.trans running'))
  · intro j key readTs v found idle drawn answered
    obtain ⟨w, w', early, inv, saw⟩ := saw_of_answer apart short found idle drawn answered
    exact latest_of_saw inv early saw

def stopped : List Call := [.transact [⟨[1], .put [7]⟩, ⟨[2], .put [8]⟩], .advance 5, .mvccGet [2] 4]

theorem snapshot_isolation_stopped :
    (after stopped ([0, 0, 0, 0, 0, 1] ++ [2, 2, 2, 2, 2, 2, 2])).result 2 = some (.ok (.value (some [8]))) ∧
      Latest stopped (after stopped ([0, 0, 0, 0, 0, 1] ++ [2, 2, 2, 2, 2, 2, 2])) [2] 4 (some [8]) :=
  ⟨by decide +kernel, (snapshot_isolation stopped (by decide) (by decide) [0, 0, 0, 0, 0, 1] [2, 2, 2, 2, 2, 2, 2]).2
    2 [2] 4 (some [8]) rfl (by decide) (by decide +kernel) (by decide +kernel)⟩

section

variable {tail : Bytes}

def longPrimary (tail : Bytes) : List Call :=
  [.transact [⟨0 :: tail, .put [7]⟩, ⟨[1], .put [8]⟩], .mvccGet [1] 1, .mvccGet [1] 2]

def longTxn (tail : Bytes) : Transaction := ⟨1, ⟨0 :: tail, .put [7]⟩, [⟨[1], .put [8]⟩]⟩

def prewritten (tail : Bytes) : Db :=
  (Db.empty.commitBatch (buildPrewriteBatch ⟨0 :: tail, (Value.put [7]).encode, 0 :: tail, 1, maxTs, .put⟩)).commitBatch
    (buildPrewriteBatch ⟨[1], (Value.put [8]).encode, 0 :: tail, 1, maxTs, .put⟩)

def dropped (tail : Bytes) : Db := (prewritten tail).commitBatch (buildResolveBatch ⟨[1], 1, .rollback⟩)

def finished (tail : Bytes) : Db := (dropped tail).commitBatch ((longTxn tail).primaryBatch 2)

theorem decode_lock (long : (0 :: tail).length = 2 ^ 32) :
    Lock.decode (Lock.encode ⟨0 :: tail, 1, maxTs, .put⟩) = some ⟨[], 1, maxTs, .put⟩ := by
  rw [Lock.decode_encode_cut, long]
  rfl

theorem prewritten_lock : (prewritten tail).getCf .lock [1] = some (Lock.encode ⟨0 :: tail, 1, maxTs, .put⟩) := rfl

theorem rollBack_prewritten (long : (0 :: tail).length = 2 ^ 32) :
    Runs (rollBack [1] 1).run (prewritten tail) (dropped tail) (.ok ()) := by
  have lock : (prewritten tail).currentLock [1] = .ok (some ⟨[], 1, maxTs, .put⟩) := by
    rw [Db.currentLock, prewritten_lock]
    simp only [decode_lock long]
  have answer : (prewritten tail).process (.resolve ⟨[1], 1, .rollback⟩) = (dropped tail, .ok 3) := by
    simp only [Db.process, lock, if_true]
    rfl
  have request : Runs (submit (.resolve ⟨[1], 1, .rollback⟩)).run (prewritten tail) _ _ := Runs.submit _
  rw [answer] at request
  exact request.ok (Runs.ret _)

theorem mvccGet_prewritten (long : (0 :: tail).length = 2 ^ 32) :
    Runs (mvccGet [1] 1).run (prewritten tail) (dropped tail) (.ok none) := by
  have status : Runs (checkTxnStatus [] 1 1).run (prewritten tail) (prewritten tail) (.ok .rolledBack) := fun _ => rfl
  have resolves : Runs (resolveLock [1] ⟨[], 1, maxTs, .put⟩ 1).run (prewritten tail) (dropped tail) (.ok ()) :=
    status.ok (rollBack_prewritten long)
  have unlocked : Runs (resolveShadows [1] 1 7).run (dropped tail) (dropped tail) (.ok ()) := fun _ => rfl
  have shadows : Runs (resolveShadows [1] 1 8).run (prewritten tail) (dropped tail) (.ok ()) := by
    refine (Runs.getCfRaw prewritten_lock).ok ((Runs.decodeOr (decode_lock long) _).ok ?_)
    exact resolves.ok unlocked
  exact shadows.ok fun _ => rfl

theorem finished_lock : (finished tail).getCf .lock [1] = none := by
  have stored : (finished tail).lockCf = (dropped tail).lockCf.insert (0 :: tail) .delete := rfl
  rw [Db.getCf, Db.family, stored, OrdMap.find?_insert, if_neg (by simp)]
  rfl

theorem commit_dropped : Runs ((longTxn tail).commit 2).run (dropped tail) (finished tail) (.ok ()) := by
  have primary : Runs ((longTxn tail).commitPrimary 2).run (dropped tail) (finished tail) (.ok ()) := fun _ => rfl
  have unlocked : (finished tail).process (.resolve ⟨[1], 1, .commit 2⟩) = (finished tail, .ok 0) := by
    simp only [Db.process, Db.currentLock, finished_lock]
  have request : Runs (resolveCommit [1] 1 2).run (finished tail) (finished tail) (.ok ()) := by
    have submitted : Runs (submit (.resolve ⟨[1], 1, .commit 2⟩)).run (finished tail) _ _ := Runs.submit _
    rw [unlocked] at submitted
    exact submitted.ok (Runs.ret _)
  have rest : (longTxn tail).finalizeSecondaries 2 = do resolveCommit [1] 1 2; return () := by
    simp [Transaction.finalizeSecondaries, Transaction.finalizeKeys, Transaction.mutations, Transaction.primary, longTxn]
  refine primary.ok ?_
  rw [rest]
  exact request.ok (Runs.ret _)

theorem mvccGet_finished : Runs (mvccGet [1] 2).run (finished tail) (finished tail) (.ok none) := by
  refine (mvccGet_free finished_lock ?_).1
  exact fun _ => rfl

def remainder (tail : Bytes) : Program Answer := do
  let commitTs ← draw 0
  (longTxn tail).commit commitTs
  return .done

theorem after_prewrite (tail : Bytes) : after (longPrimary tail) [0, 0, 0] =
    ⟨⟨prewritten tail, ⟨1, [(0, 1)]⟩⟩, [(remainder tail).run, ((Call.mvccGet [1] 1).program 1).run,
      ((Call.mvccGet [1] 2).program 2).run]⟩ := rfl

theorem run_longPrimary (long : (0 :: tail).length = 2 ^ 32) : ∃ m n l,
    after (longPrimary tail) ([0, 0, 0] ++ (replicate m 1 ++ 0 :: replicate n 0)) =
      ⟨⟨finished tail, ⟨2, [(0, 1), (0, 2)]⟩⟩,
        [.ret (.ok .done), .ret (.ok (.value none)), ((Call.mvccGet [1] 2).program 2).run]⟩ ∧
    after (longPrimary tail) ([0, 0, 0] ++ (replicate m 1 ++ 0 :: replicate n 0) ++ replicate l 2) =
      ⟨⟨finished tail, ⟨2, [(0, 1), (0, 2)]⟩⟩,
        [.ret (.ok .done), .ret (.ok (.value none)), .ret (.ok (.value none))]⟩ := by
  have early : Runs ((Call.mvccGet [1] 1).program 1).run (prewritten tail) (dropped tail) (.ok (.value none)) :=
    (mvccGet_prewritten long).ok (Runs.ret _)
  have commits : Runs (do (longTxn tail).commit 2; return .done : Program Answer).run (dropped tail) (finished tail)
      (.ok .done) := commit_dropped.ok (Runs.ret _)
  have late : Runs ((Call.mvccGet [1] 2).program 2).run (finished tail) (finished tail) (.ok (.value none)) :=
    mvccGet_finished.ok (Runs.ret _)
  let first : Run := ⟨⟨prewritten tail, ⟨1, [(0, 1)]⟩⟩, [(remainder tail).run, ((Call.mvccGet [1] 1).program 1).run,
    ((Call.mvccGet [1] 2).program 2).run]⟩
  let second : Run := ⟨⟨dropped tail, ⟨2, [(0, 1), (0, 2)]⟩⟩, [(do (longTxn tail).commit 2; return .done : Program Answer).run,
    .ret (.ok (.value none)), ((Call.mvccGet [1] 2).program 2).run]⟩
  let third : Run := ⟨⟨finished tail, ⟨2, [(0, 1), (0, 2)]⟩⟩, [.ret (.ok .done), .ret (.ok (.value none)),
    ((Call.mvccGet [1] 2).program 2).run]⟩
  obtain ⟨m, read⟩ := Pool.run_eval Access.exec (show first.tasks[1]? = _ from rfl) (early _)
  obtain ⟨n, done⟩ := Pool.run_eval Access.exec (show second.tasks[0]? = _ from rfl) (commits _)
  obtain ⟨l, lost⟩ := Pool.run_eval Access.exec (show third.tasks[2]? = _ from rfl) (late _)
  have reached : after (longPrimary tail) ([0, 0, 0] ++ (replicate m 1 ++ 0 :: replicate n 0)) = third := by
    rw [after, Pool.run_append, ← after, after_prewrite, Pool.run_append, read]
    exact done
  refine ⟨m, n, l, reached, ?_⟩
  rw [after, Pool.run_append, ← after, reached]
  exact lost

theorem prefixFree_longPrimary (tail : Bytes) : PrefixFree (longPrimary tail) := by
  intro k member k' member' starts
  have each {k : Bytes} (member : k ∈ (longPrimary tail).flatMap Call.keys) : k = 0 :: tail ∨ k = [1] := by
    simpa [longPrimary, Call.keys] using member
  rcases each member with rfl | rfl <;> rcases each member' with rfl | rfl
  · rfl
  · simp at starts
  · simp at starts
  · rfl

variable {tasks : List (Prog Access Access.Reply (Except Error Answer))}

theorem committed_longPrimary :
    Committed (longPrimary tail) ⟨⟨finished tail, ⟨2, [(0, 1), (0, 2)]⟩⟩, tasks⟩ 0 1 2 := by
  refine ⟨rfl, ⟨0 :: tail, .put [7]⟩, rfl, ?_⟩
  have stored : (finished tail).writeCf = (dropped tail).writeCf.insert (encodeDataKey (0 :: tail) 2)
    (.put (encodeWriteValue 1)) := rfl
  simp only [Db.view, Db.getCf, Db.family, stored, OrdMap.find?_insert, if_true]
  rfl

theorem lost_longPrimary :
    ¬ Latest (longPrimary tail) ⟨⟨finished tail, ⟨2, [(0, 1), (0, 2)]⟩⟩, tasks⟩ [1] 2 none := by
  rintro (⟨i, startTs, commitTs, v, -, written, -, value, -⟩ | ⟨absent, -⟩)
  · match i with
    | 0 =>
      obtain rfl : v = .put [8] := by simpa [writes, longPrimary, Call.writes] using written
      cases value
    | 1 | 2 | i + 3 => simp [writes, longPrimary, Call.writes] at written
  · exact absent 0 1 2 committed_longPrimary (by simp [writes, longPrimary, Call.writes]) le_rfl

end

/-- A primary of 2 ^ 32 bytes: a read of the other key of the committed transaction does not return its value. -/
theorem committed_value_lost : ∃ middle later : List Nat,
    let calls := longPrimary (replicate (2 ^ 32 - 1) 0)
    PrefixFree calls ∧ (after calls [0, 0, 0]).state.oracle.last = 1 ∧ 2 ∉ [0, 0, 0] ++ middle ∧
      (after calls ([0, 0, 0] ++ middle)).state.oracle.last = 2 ∧
      Committed calls (after calls ([0, 0, 0] ++ middle ++ later)) 0 1 2 ∧
      (after calls ([0, 0, 0] ++ middle ++ later)).result 2 = some (.ok (.value none)) ∧
      ¬ Latest calls (after calls ([0, 0, 0] ++ middle ++ later)) [1] 2 none := by
  have long : ((0 : UInt8) :: replicate (2 ^ 32 - 1) 0).length = 2 ^ 32 := by
    rw [length_cons, length_replicate]
    norm_num
  generalize replicate (2 ^ 32 - 1) (0 : UInt8) = tail at long ⊢
  obtain ⟨m, n, l, before, final⟩ := run_longPrimary long
  refine ⟨_, replicate l 2, prefixFree_longPrimary tail, by rw [after_prewrite], ?_, by rw [before], ?_⟩
  · simp [mem_replicate]
  · rw [final]
    exact ⟨committed_longPrimary, rfl, lost_longPrimary⟩

end Arcux.Engine.SnapshotIsolation
