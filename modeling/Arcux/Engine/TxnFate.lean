import Arcux.Engine.Interleaved

namespace Arcux.Engine.TxnFate

open Codec Concurrency List
open Percolator (Ledger Roster)
open scoped Codec.ByteOrder

inductive Call where
  | transact (txn : Transaction) (ttl commitTs : Ts)
  | checkTxnStatus (primary : Bytes) (startTs nowTs : Ts)
  | mvccGet (key : Bytes) (readTs : Ts)
  deriving Repr, DecidableEq

inductive Answer where
  | done
  | status (status : TxnStatus)
  | value (value : Option Bytes)
  deriving Repr, DecidableEq

namespace Call

def program : Call → Program Answer
  | transact txn ttl commitTs => do
    txn.prewrite ttl
    txn.commitPrimary commitTs
    txn.finalizeSecondaries commitTs
    return .done
  | checkTxnStatus primary startTs nowTs => return .status (← Engine.checkTxnStatus primary startTs nowTs)
  | mvccGet key readTs => return .value (← Engine.mvccGet key readTs)

def txn? : Call → Option Transaction
  | transact txn _ _ => some txn
  | _ => none

def keys : Call → List Bytes
  | transact txn _ _ => txn.mutations.map Mutation.key
  | checkTxnStatus primary _ _ => [primary]
  | mvccGet key _ => [key]

/-- A transaction writes different keys and commits after its start; a question names the primary of the transaction. -/
def Fair (calls : List Call) : Call → Prop
  | transact txn _ commitTs => txn.startTs < commitTs ∧ (txn.mutations.map Mutation.key).Nodup
  | checkTxnStatus primary startTs _ =>
    ∀ call ∈ calls, ∀ txn ∈ call.txn?, txn.startTs = startTs → txn.primary = primary
  | mvccGet _ _ => True

instance (calls : List Call) (call : Call) : Decidable (call.Fair calls) := by
  unfold Fair
  split <;> infer_instance

end Call

structure Proper (calls : List Call) : Prop where
  apart : ∀ k ∈ calls.flatMap Call.keys, ∀ k' ∈ calls.flatMap Call.keys, k <+: k' → k = k'
  short : ∀ k ∈ calls.flatMap Call.keys, k.length < 2 ^ 32
  distinct : calls.Pairwise fun call call' => ∀ txn ∈ call.txn?, ∀ txn' ∈ call'.txn?, txn.startTs ≠ txn'.startTs
  fair : ∀ call ∈ calls, call.Fair calls

abbrev Run := Pool Shared Access Access.Reply (Except Error Answer)

def start (calls : List Call) : Run := ⟨.start, calls.map fun call => call.program.run⟩

def after (calls : List Call) (schedule : List Nat) : Run := (start calls).run Access.exec schedule

abbrev Timely (calls : List Call) (schedule : List Nat) : Prop := (start calls).Guarded Access.exec Access.Timely schedule

section

variable {calls : List Call} {i : Nat} {txn : Transaction} {ttl commitTs : Ts}

def txnAt (calls : List Call) (i : Nat) : Option Transaction := calls[i]?.bind Call.txn?

def runner (calls : List Call) (startTs : Ts) : Option Nat :=
  (range calls.length).find? fun i => (txnAt calls i).map Transaction.startTs = some startTs

def roster (calls : List Call) : Roster Bytes Ts where
  runner := runner calls
  primary startTs := (((runner calls startTs).bind (txnAt calls)).map Transaction.primary).getD []
  clock := 0

def setting (proper : Proper calls) : Setting where
  space := ⟨{k | k ∈ calls.flatMap Call.keys}, proper.apart, proper.short⟩
  mortal := True
  plan i := ((txnAt calls i).map Transaction.mutations).getD []
  clocked followed _ := followed = roster calls

theorem txnAt_eq_some : txnAt calls i = some txn ↔ ∃ ttl commitTs, calls[i]? = some (.transact txn ttl commitTs) := by
  constructor
  · intro found
    obtain ⟨call, at_, named⟩ := Option.bind_eq_some_iff.mp found
    cases call with
    | transact txn' ttl commitTs =>
      cases named
      exact ⟨ttl, commitTs, at_⟩
    | checkTxnStatus primary startTs nowTs => cases named
    | mvccGet key readTs => cases named
  · rintro ⟨ttl, commitTs, found⟩
    simp [txnAt, found, Call.txn?]

theorem Proper.index_unique (proper : Proper calls) {j : Nat} {txn' : Transaction} (found : txnAt calls i = some txn)
    (found' : txnAt calls j = some txn') (same : txn.startTs = txn'.startTs) : i = j := by
  obtain ⟨call, at_, named⟩ := Option.bind_eq_some_iff.mp found
  obtain ⟨call', at', named'⟩ := Option.bind_eq_some_iff.mp found'
  obtain ⟨inside, rfl⟩ := List.getElem?_eq_some_iff.mp at_
  obtain ⟨inside', rfl⟩ := List.getElem?_eq_some_iff.mp at'
  have apart := pairwise_iff_getElem.mp proper.distinct
  rcases lt_trichotomy i j with before | same' | after
  · exact absurd same (apart i j inside inside' before _ named _ named')
  · exact same'
  · exact absurd same.symm (apart j i inside' inside after _ named' _ named)

theorem Proper.runner_eq_some (proper : Proper calls) {startTs : Ts} :
    runner calls startTs = some i ↔ ∃ txn, txnAt calls i = some txn ∧ txn.startTs = startTs := by
  have started {j : Nat} (found : runner calls startTs = some j) :
      ∃ txn, txnAt calls j = some txn ∧ txn.startTs = startTs := by
    have picked := find?_some (p := fun i => (txnAt calls i).map Transaction.startTs = some startTs) found
    exact Option.map_eq_some_iff.mp (of_decide_eq_true picked)
  refine ⟨started, fun ⟨txn, found, same⟩ => ?_⟩
  cases first : runner calls startTs with
  | some j =>
    obtain ⟨txn', found', same'⟩ := started first
    rw [proper.index_unique found' found (same'.trans same.symm)]
  | none =>
    obtain ⟨call, at_, -⟩ := Option.bind_eq_some_iff.mp found
    have inside := (List.getElem?_eq_some_iff.mp at_).1
    have missed := List.find?_eq_none.mp first i (List.mem_range.mpr inside)
    simp [found, same] at missed

theorem Proper.roster_primary (proper : Proper calls) (found : txnAt calls i = some txn) :
    (roster calls).primary txn.startTs = txn.primary := by
  simp [roster, proper.runner_eq_some.mpr ⟨txn, found, rfl⟩, found]

theorem inv_blank (proper : Proper calls) : (setting proper).Inv (.blank (roster calls)) .start where
  formed := Db.formed_empty _
  holds := Ledger.holds_blank True (roster calls)
  written _ _ _ := nofun
  complete _ _ := nofun
  clocked := rfl

def Told (call : Call) (w : Ledger Bytes Ts Value) (answer : Answer) : Prop :=
  match call, answer with
  | .checkTxnStatus _ startTs _, .status (.committed commitTs) => w.fate startTs = .committed commitTs
  | .mvccGet key readTs, .value (some v) =>
    ∃ st c, w.fate st = .committed c ∧ w.settled st key ∧ c ≤ readTs ∧ w.held st key = some (.put v)
  | _, _ => True

variable {call : Call}

theorem mem_space (proper : Proper calls) (found : calls[i]? = some call) :
    ∀ k ∈ call.keys, k ∈ (setting proper).space.keys :=
  fun _ member => mem_flatMap.mpr ⟨call, mem_of_getElem? found, member⟩

theorem safe_transact (proper : Proper calls) (found : calls[i]? = some (.transact txn ttl commitTs)) :
    (setting proper).discipline.Safe i (Call.transact txn ttl commitTs).program.run (.blank (roster calls))
      (Answers fun _ _ => True) := by
  have named : txnAt calls i = some txn := txnAt_eq_some.mpr ⟨ttl, commitTs, found⟩
  obtain ⟨later, distinct⟩ := proper.fair _ (mem_of_getElem? found)
  have keys : ∀ m ∈ txn.mutations, m.key ∈ (setting proper).space.keys := fun m member =>
    mem_space proper found m.key (mem_map_of_mem member)
  have planned : (setting proper).plan i = txn.mutations := by simp [setting, named]
  have coord : (setting proper).Coordinates i txn.startTs txn.primary (.blank (roster calls)) :=
    ⟨proper.runner_eq_some.mpr ⟨txn, named, rfl⟩, proper.roster_primary named, rfl, fun _ => rfl⟩
  refine Discipline.Safe.answered (Setting.safe_prewrite (fun immortal => absurd trivial immortal) keys planned coord
    (fun _ => rfl) fun _ => distinct) fun w _ _ ⟨coord', full⟩ => ?_
  have unused (w' : Ledger Bytes Ts Value) (s : Shared) (inv : (setting proper).Inv w' s) : w'.clock < commitTs := by
    rw [inv.clocked]
    exact lt_of_le_of_lt UInt64.zero_le later
  have commits := Setting.safe_commitPrimary (keys txn.first (mem_cons_self ..)) coord'.mine coord'.home later
    (.inl ⟨trivial, coord'.undecided, unused⟩) (planned ▸ full) planned
  refine Discipline.Safe.answered commits fun w' _ _ committed => ?_
  have settles := Setting.safe_finalizeKeys (i := i) (p := txn.primary) keys committed
  exact Discipline.Safe.answered settles fun _ _ _ _ => Setting.safe_return fun _ _ => trivial

variable {primary : Bytes}

theorem safe_status (proper : Proper calls) {startTs nowTs : Ts}
    (found : calls[i]? = some (.checkTxnStatus primary startTs nowTs)) (w : Ledger Bytes Ts Value) :
    (setting proper).discipline.Safe i (Engine.checkTxnStatus primary startTs nowTs).run w
      (Answers (Setting.Reported w primary startTs)) := by
  refine Setting.safe_checkTxnStatus (mem_space proper found _ (mem_singleton.mpr rfl)) ?_ nowTs
  intro w' s _ inv running
  rw [inv.clocked] at running ⊢
  obtain ⟨j, runs⟩ := Option.ne_none_iff_exists'.mp running
  obtain ⟨txn, named, same⟩ := proper.runner_eq_some.mp runs
  obtain ⟨call, at_, begun⟩ := Option.bind_eq_some_iff.mp named
  have asked := proper.fair _ (mem_of_getElem? found) call (mem_of_getElem? at_) txn begun same
  rw [← same, proper.roster_primary named, asked]

theorem safe_asked (proper : Proper calls) {startTs nowTs : Ts}
    (found : calls[i]? = some (.checkTxnStatus primary startTs nowTs)) (w : Ledger Bytes Ts Value) :
    (setting proper).discipline.Safe i (Call.checkTxnStatus primary startTs nowTs).program.run w (Answers fun w' answer =>
      Told (.checkTxnStatus primary startTs nowTs) w' answer ∧
        (answer = .status .rolledBack → w.held startTs primary ≠ none → w'.fate startTs = .dead)) := by
  refine Discipline.Safe.answered (safe_status proper found w) fun w' status _ reported => ?_
  refine Setting.safe_return fun w'' relied => ?_
  cases status with
  | committed c => exact ⟨relied.grows.committed startTs c reported, nofun⟩
  | rolledBack => exact ⟨trivial, fun _ held => relied.grows.dead startTs (reported held)⟩
  | locked ttl => exact ⟨trivial, nofun⟩

theorem safe_program (proper : Proper calls) (found : calls[i]? = some call) :
    (setting proper).discipline.Safe i call.program.run (.blank (roster calls)) (Answers (Told call)) := by
  cases call with
  | transact txn ttl commitTs =>
    refine (safe_transact proper found).mono fun _ _ _ _ answer _ => ?_
    cases answer <;> trivial
  | checkTxnStatus primary startTs nowTs =>
    exact (safe_asked proper found _).mono fun _ _ _ told answer same => (told answer same).1
  | mvccGet key readTs =>
    refine Discipline.Safe.answered (Setting.safe_mvccGet (mem_space proper found key (mem_singleton.mpr rfl))
      False.elim) fun w result _ saw => ?_
    refine Setting.safe_return fun w' relied => ?_
    cases result with
    | none => trivial
    | some v =>
      obtain ⟨w₁, m, shown, -, grown, -, -, shows, same⟩ := saw
      rcases shows with ⟨st, c, fate, settled, le, -, rfl⟩ | ⟨-, rfl⟩
      · obtain ⟨value, has, gives⟩ := Option.bind_eq_some_iff.mp same.symm
        obtain rfl : value = .put v := by
          cases value with
          | put bytes => exact congrArg Value.put (Option.some.inj gives)
          | delete => cases gives
        have grown' := grown.trans relied.grows
        exact ⟨st, c, grown'.committed st c fate, grown'.settled st key settled, le, grown'.held st key _ has⟩
      · cases same

def posts (calls : List Call) (i : Nat) : Ledger Bytes Ts Value → Except Error Answer → Prop :=
  Answers fun w answer => ∀ call, calls[i]? = some call → Told call w answer

abbrev Sound (proper : Proper calls) (w : Ledger Bytes Ts Value) (schedule : List Nat) : Prop :=
  (setting proper).discipline.Sound (posts calls) w (after calls schedule)

theorem task_of_call (found : calls[i]? = some call) : (start calls).tasks[i]? = some call.program.run := by
  simp [start, found]

theorem sound_start (proper : Proper calls) : Sound proper (.blank (roster calls)) [] := by
  refine ⟨inv_blank proper, fun j p task => ?_⟩
  obtain ⟨call, found, rfl⟩ : ∃ call, calls[j]? = some call ∧ call.program.run = p := by
    simpa [after, Pool.run, start] using task
  refine (safe_program proper found).mono fun w r _ told answer same call' found' => ?_
  cases found.symm.trans found'
  exact told answer same

theorem Proper.guarded (proper : Proper calls) {schedule : List Nat} (timely : Timely calls schedule) :
    (start calls).Guarded Access.exec (setting proper).discipline.guard schedule :=
  timely.mono _ fun _ _ h _ => h

variable {earlier later : List Nat}

theorem Proper.sound_after (proper : Proper calls) (timely : Timely calls (earlier ++ later)) :
    ∃ w w', Sound proper w earlier ∧ w.Grows w' ∧ Sound proper w' (earlier ++ later) := by
  obtain ⟨before, rest⟩ := (Pool.guarded_append _).mp (proper.guarded timely)
  obtain ⟨w, -, sound⟩ := (sound_start proper).run before
  obtain ⟨w', grown, sound'⟩ := sound.run rest
  refine ⟨w, w', sound, grown, ?_⟩
  rwa [Sound, after, Pool.run_append]

theorem Proper.rolledBack_dead (proper : Proper calls) (timely : Timely calls (earlier ++ later)) {startTs nowTs : Ts}
    (prewritten : (after calls earlier).state.db.view.owner primary = some startTs)
    (found : calls[i]? = some (.checkTxnStatus primary startTs nowTs)) (idle : i ∉ earlier)
    (answered : (after calls (earlier ++ later)).result i = some (.ok (.status .rolledBack))) :
    ∃ w, Sound proper w (earlier ++ later) ∧ w.fate startTs = .dead := by
  obtain ⟨before, rest⟩ := (Pool.guarded_append _).mp (proper.guarded timely)
  obtain ⟨w, -, holds, safe⟩ := (sound_start proper).run before
  have held := holds.holds.prewritten primary startTs prewritten
  -- the call is still where it began, so what it will answer can be said from here on
  have asked : (setting proper).discipline.Sound (fun j => Answers fun w' answer =>
      (∀ call, calls[j]? = some call → Told call w' answer) ∧
        (j = i → answer = .status .rolledBack → w'.fate startTs = .dead)) w (after calls earlier) := by
    refine ⟨holds, fun j p task => ?_⟩
    rcases eq_or_ne j i with rfl | other
    · have waiting := (Pool.tasks_run_of_notMem Access.exec idle (start calls)).trans (task_of_call found)
      cases waiting.symm.trans task
      refine (safe_asked proper found w).mono fun w' r _ told answer same => ⟨fun call found' => ?_, fun _ rolled => ?_⟩
      · cases found.symm.trans found'
        exact (told answer same).1
      · exact (told answer same).2 rolled held
    · exact (safe j p task).mono fun w' r _ told answer same => ⟨told answer same, fun eq => absurd eq other⟩
  obtain ⟨w', -, sound⟩ := asked.run rest
  change (setting proper).discipline.Sound _ w' ((after calls earlier).run Access.exec later) at sound
  rw [after, ← Pool.run_append] at sound
  refine ⟨w', sound.mono fun j w' r told answer same => (told answer same).1, ?_⟩
  exact (sound.result answered _ rfl).2 rfl rfl

def Own (space : KeySpace) (startTs : Ts) : Access → Prop
  | .submit (.prewrite spec) =>
    spec.startTs = startTs ∧ spec.key ∈ space.keys ∧ spec.primary ∈ space.keys ∧ ∃ v : Value, spec.value = v.encode
  | .submit (.resolve spec) => spec.startTs = startTs
  | .submit (.write batch) => ∃ primary commitTs, batch = buildResolveBatch ⟨primary, startTs, .commit commitTs⟩
  | _ => True

section

variable {space : KeySpace} {p : Bytes} {startTs : Ts}

theorem own_acquire (home : p ∈ space.keys) {mutations : List Mutation} (keys : ∀ m ∈ mutations, m.key ∈ space.keys)
    (acquired : List Bytes) : (acquire p startTs ttl mutations acquired).Performs (Own space startTs) := by
  induction mutations generalizing acquired with
  | nil => trivial
  | cons m rest ih =>
    refine Prog.Performs.bind ⟨⟨rfl, keys m (mem_cons_self ..), home, m.value, rfl⟩, fun _ => trivial⟩ fun r => ?_
    cases r with
    | ok seq => exact ih (fun m' member => keys m' (mem_cons_of_mem _ member)) _
    | error e => trivial

theorem own_resolve (spec : ResolveSpec) (own : spec.startTs = startTs) :
    (do let _ ← submit (.resolve spec) : Program Unit).run.Performs (Own space startTs) :=
  Prog.Performs.answered ⟨own, fun _ => trivial⟩ fun _ => trivial

theorem own_release (acquired : List Bytes) : (release startTs acquired).Performs (Own space startTs) := by
  induction acquired with
  | nil => trivial
  | cons key rest ih => exact (own_resolve ⟨key, startTs, .rollback⟩ rfl).bind fun _ => ih

theorem own_prewrite (keys : ∀ m ∈ txn.mutations, m.key ∈ space.keys) :
    (txn.prewrite ttl).run.Performs (Own space txn.startTs) := by
  refine Prog.Performs.bind (own_acquire (keys txn.first (mem_cons_self ..)) keys []) fun r => ?_
  obtain ⟨acquired, result⟩ := r
  cases result with
  | ok _ => trivial
  | error e => exact (own_release acquired).bind fun _ => trivial

theorem own_finalizeKeys (mutations : List Mutation) :
    (Transaction.finalizeKeys p startTs commitTs mutations).run.Performs (Own space startTs) := by
  induction mutations with
  | nil => trivial
  | cons m rest ih =>
    rw [Transaction.finalizeKeys]
    split
    · exact ih
    · exact Prog.Performs.answered (own_resolve ⟨m.key, startTs, .commit commitTs⟩ rfl) fun _ => ih

theorem own_transact (keys : ∀ m ∈ txn.mutations, m.key ∈ space.keys) :
    (Call.transact txn ttl commitTs).program.run.Performs (Own space txn.startTs) := by
  refine Prog.Performs.answered (own_prewrite keys) fun _ => ?_
  have commits : (txn.commitPrimary commitTs).run.Performs (Own space txn.startTs) :=
    Prog.Performs.answered ⟨⟨txn.primary, commitTs, rfl⟩, fun _ => trivial⟩ fun _ => trivial
  refine Prog.Performs.answered commits fun _ => ?_
  exact Prog.Performs.answered (own_finalizeKeys txn.mutations) fun _ => trivial

theorem lock_exec {s : Shared} (formed : s.db.Formed space) {access : Access} (own : Own space startTs access)
    (timely : access.Timely s) {k : Bytes} {lock : Percolator.Lock Bytes Ts} (locked : s.db.view.lock k = some lock)
    (other : lock.start ≠ startTs) : (access.exec s).1.db.view.lock k = some lock := by
  have owner : s.db.view.owner k = some lock.start := by simp [Percolator.Store.owner, locked]
  have unheld : ∀ {key : Bytes}, s.db.view.owner key = some startTs → k ≠ key := by
    rintro key owned rfl
    exact other (Option.some.inj (owner.symm.trans owned))
  cases access with
  | getCfRaw | seekCfRaw | lastSeq | now | advance => exact locked
  | submit op =>
  cases op with
  | prewrite spec =>
    obtain ⟨key, value, primary, st, ttl, kind⟩ := spec
    obtain ⟨-, mem, home, v, rfl⟩ : _ ∧ key ∈ space.keys ∧ primary ∈ space.keys ∧ ∃ v : Value, value = v.encode := own
    rcases Db.process_prewrite formed mem home v st ttl kind with ⟨clear, -, -, view⟩ | ⟨-, -, same⟩
    · have differ : k ≠ key := by
        rintro rfl
        rw [clear.1] at owner
        cases owner
      simp only [Access.exec]
      rw [view, Percolator.Store.prewrite_lock, if_neg differ]
      exact locked
    · simp only [Access.exec]
      rw [same]
      exact locked
  | resolve spec =>
    obtain ⟨key, st, action⟩ := spec
    cases own
    simp only [Access.exec]
    rw [Db.view_process_resolve formed]
    split
    case isFalse => exact locked
    case isTrue owned =>
      have differ := unheld owned
      cases action with
      | commit c => simpa [differ] using locked
      | rollback => simpa [differ] using locked
  | write batch =>
    obtain ⟨primary, c, rfl⟩ := own
    have owned : s.db.view.owner primary = some startTs := timely.trans (decodeWriteValue_encodeWriteValue _)
    simp only [Access.exec, Db.process]
    rw [Db.view_commitKeyBatch, Percolator.Store.commitKey_lock, if_neg (unheld owned)]
    exact locked

end

end

/-- In a timely run the fate of a transaction is final and the same on all its keys, and transactions leave each other's
locks alone: once a call that began after the prewrite of the primary has reported a rollback, no call reports a commit,
no key carries a commit record and every value read is that of another transaction. -/
theorem txn_fate_final (calls : List Call) (proper : Proper calls) (earlier later : List Nat)
    (timely : Timely calls (earlier ++ later)) :
    (∀ (i j : Nat) txn ttl commitTs nowTs, calls[i]? = some (.transact txn ttl commitTs) →
      (after calls earlier).state.db.view.owner txn.primary = some txn.startTs →
      calls[j]? = some (.checkTxnStatus txn.primary txn.startTs nowTs) → j ∉ earlier →
      (after calls (earlier ++ later)).result j = some (.ok (.status .rolledBack)) →
      (∀ (j' : Nat) nowTs' c, calls[j']? = some (.checkTxnStatus txn.primary txn.startTs nowTs') →
        (after calls (earlier ++ later)).result j' ≠ some (.ok (.status (.committed c)))) ∧
      (∀ k c, (after calls (earlier ++ later)).state.db.view.commit k c ≠ some txn.startTs) ∧
      ∀ (j' : Nat) key readTs v, calls[j']? = some (.mvccGet key readTs) →
        (after calls (earlier ++ later)).result j' = some (.ok (.value (some v))) →
        ∃ (i' : Nat) (txn' : Transaction) (ttl' commitTs' c : Ts), calls[i']? = some (.transact txn' ttl' commitTs') ∧ txn'.startTs ≠ txn.startTs ∧
          ⟨key, .put v⟩ ∈ txn'.mutations ∧ c ≤ readTs ∧
          (after calls (earlier ++ later)).state.db.view.commit key c = some txn'.startTs) ∧
    (∀ startTs k k' c, (after calls earlier).state.db.view.owner k' = some startTs →
      (after calls (earlier ++ later)).state.db.view.commit k c = some startTs →
      (after calls (earlier ++ later)).state.db.view.owner k' = some startTs ∨
        (after calls (earlier ++ later)).state.db.view.commit k' c = some startTs) ∧
    ∀ (i : Nat) rest txn ttl commitTs k lock, later = i :: rest → calls[i]? = some (.transact txn ttl commitTs) →
      (after calls earlier).state.db.view.lock k = some lock → lock.start ≠ txn.startTs →
      (after calls (earlier ++ [i])).state.db.view.lock k = some lock := by
  refine ⟨?_, ?_, ?_⟩
  · intro i j txn ttl commitTs nowTs _ prewritten asked idle answered
    obtain ⟨w, sound, dead⟩ := proper.rolledBack_dead timely prewritten asked idle answered
    have inv : (setting proper).Inv w _ := sound.1
    have alive {st : Ts} {c : Ts} (fate : w.fate st = .committed c) : st ≠ txn.startTs := by
      rintro rfl
      cases dead.symm.trans fate
    refine ⟨fun j' nowTs' c found told => ?_, fun k c seen => ?_, fun j' key readTs v found told => ?_⟩
    · have fate : w.fate txn.startTs = .committed c := sound.result told _ rfl _ found
      exact alive fate rfl
    · exact alive ((inv.holds.recorded k c _).mp seen).1 rfl
    · obtain ⟨st, c, fate, settled, le, has⟩ : ∃ st c, w.fate st = .committed c ∧ w.settled st key ∧ c ≤ readTs ∧
        w.held st key = some (.put v) := sound.result told _ rfl _ found
      obtain ⟨i', running, planned⟩ := inv.written st key _ has
      rw [inv.clocked] at running
      obtain ⟨txn', named, rfl⟩ := proper.runner_eq_some.mp running
      obtain ⟨ttl', commitTs', found'⟩ := txnAt_eq_some.mp named
      have member : ⟨key, .put v⟩ ∈ txn'.mutations := by simpa [setting, named] using planned
      exact ⟨i', txn', ttl', commitTs', c, found', alive fate, member, le, (inv.holds.recorded key c _).mpr ⟨fate, settled⟩⟩
  · intro startTs k k' c prewritten seen
    obtain ⟨w, w', sound, grown, sound'⟩ := proper.sound_after timely
    have inv : (setting proper).Inv w _ := sound.1
    have inv' : (setting proper).Inv w' _ := sound'.1
    obtain ⟨fate, -⟩ := (inv'.holds.recorded k c startTs).mp seen
    obtain ⟨v, has⟩ := Option.ne_none_iff_exists'.mp (inv.holds.prewritten k' startTs prewritten)
    have held : w'.held startTs k' ≠ none := by simp [grown.held startTs k' v has]
    rcases inv'.holds.resolvable startTs c k' fate held with settled | owned
    · exact .inr ((inv'.holds.recorded k' c startTs).mpr ⟨fate, settled⟩)
    · exact .inl owned
  · rintro i rest txn ttl commitTs k lock rfl found locked other
    obtain ⟨w, w', sound, -, -⟩ := proper.sound_after timely
    have inv : (setting proper).Inv w _ := sound.1
    have guarded := ((Pool.guarded_append _).mp timely).2.1
    have keys : ∀ m ∈ txn.mutations, m.key ∈ (setting proper).space.keys := fun m member =>
      mem_space proper found m.key (mem_map_of_mem member)
    have own : ∀ op ∈ (after calls earlier).pending i, Own (setting proper).space txn.startTs op := by
      refine Pool.performs_pending (Pool.performs_run Access.exec (fun p task => ?_) earlier)
      cases (task_of_call found).symm.trans task
      exact own_transact keys
    rw [after, Pool.run_append]
    change ((after calls earlier).step Access.exec i).state.db.view.lock k = some lock
    rw [Pool.state_step]
    cases next : (after calls earlier).pending i with
    | none => exact locked
    | some op => exact lock_exec inv.formed (own op next) (guarded op next) locked other

def expiring : List Call :=
  [.transact ⟨1, ⟨[1], .put [7]⟩, [⟨[2], .put [8]⟩]⟩ 5 20, .checkTxnStatus [1] 1 10, .checkTxnStatus [1] 1 10,
    .mvccGet [2] 30]

theorem expiring_proper : Proper expiring := ⟨by decide, by decide, by decide, by decide⟩

theorem txn_fate_final_expiring : (after expiring ([0, 0] ++ [1, 1, 3, 3, 3, 3, 3, 3])).result 1 =
      some (.ok (.status .rolledBack)) ∧
    ∀ k c, (after expiring ([0, 0] ++ [1, 1, 3, 3, 3, 3, 3, 3])).state.db.view.commit k c ≠ some 1 :=
  ⟨by decide +kernel, ((txn_fate_final expiring expiring_proper [0, 0] [1, 1, 3, 3, 3, 3, 3, 3] (by decide +kernel)).1 0 1
    _ _ _ _ rfl (by decide +kernel) rfl (by decide) (by decide +kernel)).2.1⟩

/-- The coordinator commits the primary after it was rolled back: the commit does not look at the lock. In the second run
it commits between the look at the expired lock and the rollback, whose outcome is not looked at. -/
theorem rolled_back_txn_committed : Proper expiring ∧
    (after expiring [0, 0]).state.db.view.owner [1] = some 1 ∧
    (after expiring [0, 0, 1, 1, 0, 2, 2]).result 1 = some (.ok (.status .rolledBack)) ∧
    (after expiring [0, 0, 1, 1, 0, 2, 2]).result 2 = some (.ok (.status (.committed 20))) ∧
    (after expiring [0, 0, 1, 0, 1, 2, 2]).result 1 = some (.ok (.status .rolledBack)) ∧
    (after expiring [0, 0, 1, 0, 1, 2, 2]).result 2 = some (.ok (.status (.committed 20))) :=
  ⟨expiring_proper, by decide +kernel, by decide +kernel, by decide +kernel, by decide +kernel, by decide +kernel⟩

end Arcux.Engine.TxnFate
