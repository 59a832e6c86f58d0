import Arcux.Server.CrossTxn

namespace Arcux.Server

open Codec Concurrency Engine List
open scoped Codec.ByteOrder

inductive Step where
  | prewrite (txn : CrossTxn) (ttl : Ts)
  | commitPrimary (txn : CrossTxn) (commitTs : Ts)
  | finalizeSecondaries (txn : CrossTxn) (commitTs : Ts)
  | get (key : Bytes) (readTs : Ts)
  deriving Repr, DecidableEq

inductive Answer where
  | done
  | value (read : Option Bytes)
  deriving Repr, DecidableEq

def CrossTxn.onOne (txn : CrossTxn) : Transaction := ⟨txn.startTs, txn.first, txn.rest⟩

namespace Step

def keys : Step → List Bytes
  | prewrite txn _ | commitPrimary txn _ | finalizeSecondaries txn _ => txn.mutations.map Mutation.key
  | get key _ => [key]

def onOne : Step → Program Answer
  | prewrite txn ttl => do txn.onOne.prewrite ttl; return .done
  | commitPrimary txn commitTs => do txn.onOne.commitPrimary commitTs; return .done
  | finalizeSecondaries txn commitTs => do txn.onOne.finalizeSecondaries commitTs; return .done
  | get key readTs => do return .value (← mvccGet key readTs)

def across (regionOf : Bytes → UInt64) : Step → CrossProgram Answer
  | prewrite txn ttl => do txn.prewrite regionOf ttl; return .done
  | commitPrimary txn commitTs => do txn.commitPrimary regionOf commitTs; return .done
  | finalizeSecondaries txn commitTs => do txn.finalizeSecondaries regionOf commitTs; return .done
  | get key readTs => do return .value (← crossGet regionOf key readTs)

def runOne (step : Step) (db : Db) : Db × Option (Except Error Answer) :=
  let done := step.onOne.run.eval Access.exec ⟨db, .fresh⟩
  (done.1.db, done.2)

def runAcross (regionOf : Bytes → UInt64) (step : Step) (regions : UInt64 → Db) :
    (UInt64 → Db) × Option (Except Error Answer) :=
  let done := (step.across regionOf).run.eval RegionAccess.exec fun r => ⟨regions r, .fresh⟩
  (fun r => (done.1 r).db, done.2)

def replay {σ : Type} (run : Step → σ → σ × Option (Except Error Answer)) :
    List Step → σ → σ × List (Option (Except Error Answer))
  | [], s => (s, [])
  | step :: rest, s =>
    let done := run step s
    let more := replay run rest done.1
    (more.1, done.2 :: more.2)

end Step

def untold : Error → Error
  | .keyIsLocked _ => .keyIsLocked ""
  | e => e

structure Pair where
  one : Db
  regions : UInt64 → Db

def owned (regionOf : Bytes → UInt64) (space : Set Bytes) (region : UInt64) : Set Bytes :=
  fun k => k ∈ space ∧ regionOf k = region

structure Joined (regionOf : Bytes → UInt64) (space : Set Bytes) (s : Pair) : Prop where
  apart : Apart space
  one : s.one.Stores space space
  region : ∀ r, (s.regions r).Stores space (owned regionOf space r)
  cells : ∀ k, s.one.cell k = (s.regions (regionOf k)).cell k

section

variable {regionOf : Bytes → UInt64} {space : Set Bytes} {s : Pair}

theorem joined_empty (regionOf : Bytes → UInt64) (apart : Apart space) :
    Joined regionOf space ⟨.empty, fun _ => .empty⟩ :=
  ⟨apart, Db.stores_empty _ _, fun _ => Db.stores_empty _ _, fun _ => rfl⟩

theorem Joined.twins (joined : Joined regionOf space s) (k : Bytes) : Twins space k s.one (s.regions (regionOf k)) :=
  ⟨joined.apart, joined.one, (joined.region _).mono fun _ own => own.1, joined.cells k⟩

def Pair.step (s : Pair) (regionOf : Bytes → UInt64) (k : Bytes) (one region : Db) : Pair :=
  ⟨one, Function.update s.regions (regionOf k) region⟩

theorem Pair.step_idle (s : Pair) (regionOf : Bytes → UInt64) (k : Bytes) :
    s.step regionOf k s.one (s.regions (regionOf k)) = s := by
  rw [step, Function.update_eq_self]

variable {k : Bytes}

theorem Joined.batch (joined : Joined regionOf space s) (mem : k ∈ space) {batch : WriteBatch}
    (into : ∀ op ∈ batch.ops, op.Into space k) :
    Joined regionOf space
      (s.step regionOf k (s.one.commitBatch batch) ((s.regions (regionOf k)).commitBatch batch)) where
  apart := joined.apart
  one := joined.one.commitBatch mem into
  region r := by
    simp only [Pair.step, Function.update_apply]
    split
    case isTrue here =>
      subst here
      exact (joined.region _).commitBatch ⟨mem, rfl⟩ into
    case isFalse => exact joined.region r
  cells j := by
    rcases eq_or_ne j k with rfl | other
    · simp only [Pair.step, Function.update_self]
      exact Db.cell_commitBatch_congr (joined.cells j) batch
    · have left := s.one.cell_commitBatch into other
      simp only [Pair.step, Function.update_apply]
      split
      case isTrue here =>
        rw [left, Db.cell_commitBatch into other, ← here]
        exact joined.cells j
      case isFalse => exact left.trans (joined.cells j)

theorem Joined.together (joined : Joined regionOf space s) {one region : Db}
    (together : Together space k s.one (s.regions (regionOf k)) one region) :
    Joined regionOf space (s.step regionOf k one region) := by
  cases together with
  | idle =>
    rw [Pair.step_idle]
    exact joined
  | batch mem into => exact joined.batch mem into

theorem Joined.union (joined : Joined regionOf space s) (cf : Cf) (key bytes : Bytes) :
    s.one.getCf cf key = some bytes ↔ ∃ r, (s.regions r).getCf cf key = some bytes := by
  have place {db : Db} {k : Bytes} (into : (WriteOp.put cf key bytes).Into space k) (found : db.getCf cf key = some bytes)
      {db' : Db} (same : db.cell k = db'.cell k) : db'.getCf cf key = some bytes := by
    rw [← found]
    cases cf with
    | lock =>
      obtain ⟨rfl, -⟩ := into
      exact (congrArg Cell.lock same).symm
    | write =>
      obtain ⟨c, _, rfl, -⟩ := into
      exact (congrFun (congrArg Cell.commit same) c).symm
    | default =>
      obtain ⟨c, rfl, -⟩ := into
      exact (congrFun (congrArg Cell.value same) c).symm
  constructor
  · intro found
    obtain ⟨k, -, into⟩ := joined.one cf key (.put bytes) (Db.getCf_eq_some.mp found)
    exact ⟨regionOf k, place into found (joined.cells k)⟩
  · rintro ⟨r, found⟩
    obtain ⟨k, ⟨-, rfl⟩, into⟩ := joined.region r cf key (.put bytes) (Db.getCf_eq_some.mp found)
    exact place into found (joined.cells k).symm

end

def CrossRuns {α : Type} (p : CrossSteps α) (before after : UInt64 → Db) (a : α) : Prop := ∀ oracle : UInt64 → Oracle,
  p.eval RegionAccess.exec (fun r => ⟨before r, oracle r⟩) = (fun r => ⟨after r, oracle r⟩, some a)

section

variable {α β : Type} {c c₁ c₂ : UInt64 → Db}

theorem CrossRuns.ret (a : α) : CrossRuns (.ret a) c c a := fun _ => rfl

theorem CrossRuns.bind {p : CrossSteps α} {next : α → CrossSteps β} {a : α} {b : β} (first : CrossRuns p c c₁ a)
    (second : CrossRuns (next a) c₁ c₂ b) : CrossRuns (p >>= next) c c₂ b := by
  intro oracle
  rw [Prog.eval_bind, first oracle]
  exact second oracle

theorem CrossRuns.onEngine {region : UInt64} {p : Program α} {db : Db} {a : Except Error α}
    (runs : Runs p.run (c region) db a) : CrossRuns (onEngine region p).run c (Function.update c region db) a := by
  intro oracle
  have placed : (Server.onEngine region p).run.eval RegionAccess.exec (fun r => ⟨c r, oracle r⟩) =
      (Function.update (fun r => ⟨c r, oracle r⟩) region (p.run.eval Access.exec ⟨c region, oracle region⟩).1,
        (p.run.eval Access.exec ⟨c region, oracle region⟩).2) :=
    Prog.eval_within (fun regions : Regions => regions region) (fun regions => Function.update regions region)
      (fun _ _ => Function.update_self ..) (fun _ _ _ => Function.update_idem ..) (fun _ => Function.update_eq_self ..)
      (fun _ _ => rfl) (fun _ _ => rfl) p.run _
  rw [placed]
  rw [runs (oracle region)]
  refine Prod.ext (funext fun r => ?_) rfl
  simp only [Function.update_apply]
  split
  case isTrue here => rw [here]
  case isFalse => rfl

end

structure Both {α β : Type} (p : Steps α) (q : CrossSteps β) (s s' : Pair) (a : α) (b : β) : Prop where
  one : Runs p s.one s'.one a
  across : CrossRuns q s.regions s'.regions b

section

variable {α β γ δ : Type} {s s₁ s₂ : Pair}

theorem Both.ret (a : α) (b : β) : Both (.ret a) (.ret b) s s a b := ⟨Runs.ret a, CrossRuns.ret b⟩

theorem Both.bind {p : Steps α} {q : CrossSteps β} {next : α → Steps γ} {next' : β → CrossSteps δ} {a : α} {b : β}
    {r : γ} {r' : δ} (first : Both p q s s₁ a b) (second : Both (next a) (next' b) s₁ s₂ r r') :
    Both (p >>= next) (q >>= next') s s₂ r r' :=
  ⟨first.one.bind second.one, first.across.bind second.across⟩

variable {p : Program α} {next' : β → CrossProgram δ} {next : α → Program γ} {q : CrossProgram β}

theorem Both.ok {a : α}
    {b : β} {r : Except Error γ} {r' : Except Error δ} (first : Both p.run q.run s s₁ (.ok a) (.ok b))
    (second : Both (next a).run (next' b).run s₁ s₂ r r') : Both (p >>= next).run (q >>= next').run s s₂ r r' :=
  first.bind second

theorem Both.fail {e e' : Error} (first : Both p.run q.run s s₁ (.error e) (.error e')) :
    Both (p >>= next).run (q >>= next').run s s₁ (.error e) (.error e') :=
  ⟨first.one.bind (Runs.ret _), first.across.bind (CrossRuns.ret _)⟩

theorem Both.onEngine (regionOf : Bytes → UInt64) (k : Bytes) {one region : Db} {a b : Except Error α}
    (first : Runs p.run s.one one a) (second : Runs p.run (s.regions (regionOf k)) region b) :
    Both p.run (Server.onEngine (regionOf k) p).run s (s.step regionOf k one region) a b :=
  ⟨first, CrossRuns.onEngine second⟩

theorem Both.reads {regionOf : Bytes → UInt64} {k : Bytes} {a : Except Error α}
    (runs : RunsOnBoth p.run s.one (s.regions (regionOf k)) s.one (s.regions (regionOf k)) a) :
    Both p.run (Server.onEngine (regionOf k) p).run s s a a := by
  have both := Both.onEngine regionOf k runs.first runs.second
  rwa [Pair.step_idle] at both

end

section

variable {regionOf : Bytes → UInt64} {space : Set Bytes} {s : Pair} {k primary : Bytes} {readTs : Ts}

section

variable (joined : Joined regionOf space s)

include joined

theorem resolve_both (spec : ResolveSpec) : ∃ s',
    Both (do let _ ← submit (.resolve spec) : Program Unit).run
      (onEngine (regionOf spec.key) (do let _ ← submit (.resolve spec))).run s s' (.ok ()) (.ok ()) ∧
    Joined regionOf space s' ∧
    ((∀ bytes lock, s.one.getCf .lock spec.key = some bytes → Lock.decode bytes = some lock →
      lock.startTs = spec.startTs) → s'.one.getCf .lock spec.key = none) := by
  obtain ⟨one, region, together, runs, unlocked⟩ := Twins.resolve spec (joined.twins spec.key)
  exact ⟨s.step regionOf spec.key one region, .onEngine regionOf spec.key runs.first runs.second,
    joined.together together, unlocked⟩

theorem acquire_both (home : primary ∈ space) (startTs ttl : Ts)
    {mutations : List Mutation} (mem : ∀ m ∈ mutations, m.key ∈ space) (acquired : List Bytes) : ∃ s' keys result,
      Both (acquire primary startTs ttl mutations acquired) (acquireAcross regionOf primary startTs ttl mutations acquired)
        s s' (keys, result) (keys, result) ∧ Joined regionOf space s' := by
  induction mutations generalizing s acquired with
  | nil => exact ⟨s, acquired, .ok (), .ret _ _, joined⟩
  | cons m rest ih =>
    obtain ⟨here, later⟩ := forall_mem_cons.mp mem
    obtain ⟨one, region, r, r', together, first, second, answers⟩ :=
      (joined.twins m.key).prewriteOne here home m.value startTs ttl
    have both := Both.onEngine regionOf m.key first second
    rcases answers with ⟨n, n', rfl, rfl⟩ | ⟨e, rfl, rfl⟩
    · obtain ⟨s', keys, result, more, joined'⟩ := ih (joined.together together) later (acquired ++ [m.key])
      exact ⟨s', keys, result, both.bind more, joined'⟩
    · exact ⟨_, acquired, .error e, both.bind (.ret _ _), joined.together together⟩

theorem release_both (startTs : Ts) (keys : List Bytes) : ∃ s',
    Both (release startTs keys) (releaseAcross regionOf startTs keys) s s' () () ∧ Joined regionOf space s' := by
  induction keys generalizing s with
  | nil => exact ⟨s, .ret _ _, joined⟩
  | cons key rest ih =>
    obtain ⟨s₁, rolled, joined₁, -⟩ := resolve_both joined ⟨key, startTs, .rollback⟩
    obtain ⟨s', more, joined'⟩ := ih joined₁
    exact ⟨s', Both.bind rolled more, joined'⟩

theorem prewrite_both (txn : CrossTxn) (mem : ∀ m ∈ txn.mutations, m.key ∈ space)
    (ttl : Ts) : ∃ s' r, Both (txn.onOne.prewrite ttl).run (txn.prewrite regionOf ttl).run s s' r r ∧
      Joined regionOf space s' := by
  have home : txn.primary ∈ space := mem txn.first (mem_cons_self ..)
  obtain ⟨s₁, keys, result, acquired, joined₁⟩ := acquire_both joined home txn.startTs ttl mem []
  cases result with
  | ok done => exact ⟨s₁, .ok (), Both.bind acquired (.ret _ _), joined₁⟩
  | error e =>
    obtain ⟨s', released, joined'⟩ := release_both joined₁ txn.startTs keys
    exact ⟨s', .error e, Both.bind acquired (Both.bind released (.ret _ _)), joined'⟩

theorem commitPrimary_both (txn : CrossTxn) (home : txn.primary ∈ space)
    (commitTs : Ts) : ∃ s', Both (txn.onOne.commitPrimary commitTs).run (txn.commitPrimary regionOf commitTs).run s s'
      (.ok ()) (.ok ()) ∧ Joined regionOf space s' := by
  obtain ⟨one, region, together, runs⟩ := Twins.commitPrimary txn.onOne home commitTs
  exact ⟨_, .onEngine regionOf txn.primary runs.first runs.second, joined.together together⟩

theorem finalize_both (primary : Bytes) (startTs commitTs : Ts) (mutations : List Mutation) : ∃ s',
      Both (Transaction.finalizeKeys primary startTs commitTs mutations).run
        (finalizeAcross regionOf primary startTs commitTs mutations).run s s' (.ok ()) (.ok ()) ∧
      Joined regionOf space s' := by
  induction mutations generalizing s with
  | nil => exact ⟨s, .ret _ _, joined⟩
  | cons m rest ih =>
    rw [Transaction.finalizeKeys, finalizeAcross]
    by_cases same : m.key = primary
    · rw [if_pos same, if_pos same]
      exact ih joined
    · rw [if_neg same, if_neg same]
      obtain ⟨s₁, forward, joined₁, -⟩ := resolve_both joined ⟨m.key, startTs, .commit commitTs⟩
      obtain ⟨s', more, joined'⟩ := ih joined₁
      exact ⟨s', Both.ok forward more, joined'⟩

end

def Open (s : Pair) (k : Bytes) (readTs : Ts) : Prop :=
  ∀ bytes lock, s.one.getCf .lock k = some bytes → Lock.decode bytes = some lock → lock.startTs > readTs

section

variable (joined : Joined regionOf space s)

include joined

theorem shadows_both (free : Open s k readTs) (rounds : Nat) :
    Both (resolveShadows k readTs rounds).run (resolveAcross regionOf k readTs rounds).run s s (.ok ()) (.ok ()) := by
  cases rounds with
  | zero => exact .ret _ _
  | succ rounds =>
    have look := Both.reads (joined.twins k).look
    cases found : s.one.getCf .lock k with
    | none =>
      rw [found] at look
      exact look.ok (.ret _ _)
    | some bytes =>
      obtain ⟨-, lock, -, decoded⟩ := joined.one.lock found
      have later := free bytes _ found decoded
      rw [found] at look
      refine look.ok ⟨(Runs.decodeOr decoded _).ok ?_, ?_⟩
      · rw [if_pos later]
        exact Runs.ret _
      · simp only [decoded, later, if_true]
        exact CrossRuns.ret _

theorem read_both (mem : k ∈ space) (free : Open s k readTs) : ∃ value,
    Both (readCommitted k readTs).run (onEngine (regionOf k) (mvccGetUnresolved k readTs)).run s s
      (.ok value) (.ok value) := by
  have twins := joined.twins k
  obtain ⟨value, first, second⟩ := twins.readCommitted mem readTs
  have unblocked : ¬ (s.regions (regionOf k)).Blocked k readTs := by
    rintro ⟨lock, held, early⟩
    obtain ⟨lock', seen, rfl⟩ := Option.map_eq_some_iff.mp held
    obtain ⟨bytes, found, decoded⟩ := Option.bind_eq_some_iff.mp seen
    have found' : s.one.getCf .lock k = some bytes := (congrArg Cell.lock twins.cell).trans found
    exact (free bytes lock' found' decoded).not_ge early
  have unresolved := (mvccGetUnresolved_runs twins.second.legible second).resolve_left fun blocked => unblocked blocked.1
  have across := CrossRuns.onEngine (c := s.regions) unresolved.2
  rw [Function.update_eq_self] at across
  exact ⟨value, first, across⟩

/-- The region of the primary tells the fate of a transaction as the one engine does; no lock changes except that the
primary's may go. -/
theorem fate_both (primary : Bytes) (startTs nowTs : Ts) : ∃ s' status,
    Both (checkTxnStatus primary startTs nowTs).run
      (onEngine (regionOf primary) (checkTxnStatus primary startTs nowTs)).run s s' (.ok status) (.ok status) ∧
    Joined regionOf space s' ∧
    ∀ k, s'.one.getCf .lock k = none ∨ s'.one.getCf .lock k = s.one.getCf .lock k := by
  obtain ⟨one, region, status, together, runs, outcome⟩ := (joined.twins primary).checkTxnStatus startTs nowTs
  refine ⟨s.step regionOf primary one region, status, .onEngine regionOf primary runs.first runs.second,
    joined.together together, fun k => ?_⟩
  rcases eq_or_ne k primary with rfl | other
  · exact outcome.symm.imp_right fun same => congrArg (·.getCf .lock k) same
  · exact .inr (congrArg Cell.lock (together.others other))

theorem resolveLock_both {bytes : Bytes} {lock : Lock}
    (found : s.one.getCf .lock k = some bytes) (decoded : Lock.decode bytes = some lock) (nowTs : Ts) : ∃ s' r r',
    Both (resolveLock k lock nowTs).run (resolveLockAcross regionOf k lock nowTs).run s s' r r' ∧ Joined regionOf space s' ∧
      ((r = .ok () ∧ r' = .ok () ∧ s'.one.getCf .lock k = none) ∨
        ∃ msg msg', r = .error (.keyIsLocked msg) ∧ r' = .error (.keyIsLocked msg')) := by
  obtain ⟨s₁, status, fate, joined₁, locks⟩ := fate_both joined lock.primary lock.startTs nowTs
  have own : ∀ bytes' lock', s₁.one.getCf .lock k = some bytes' → Lock.decode bytes' = some lock' →
      lock'.startTs = lock.startTs := by
    intro bytes' lock' found' decoded'
    rcases locks k with gone | same
    · cases gone.symm.trans found'
    · cases found.symm.trans (same.symm.trans found')
      cases decoded.symm.trans decoded'
      rfl
  cases status with
  | committed commitTs =>
    obtain ⟨s', resolved, joined', unlocked⟩ := resolve_both joined₁ ⟨k, lock.startTs, .commit commitTs⟩
    exact ⟨s', _, _, fate.ok resolved, joined', .inl ⟨rfl, rfl, unlocked own⟩⟩
  | rolledBack =>
    obtain ⟨s', resolved, joined', unlocked⟩ := resolve_both joined₁ ⟨k, lock.startTs, .rollback⟩
    exact ⟨s', _, _, fate.ok resolved, joined', .inl ⟨rfl, rfl, unlocked own⟩⟩
  | locked ttl => exact ⟨s₁, _, _, fate.ok (.ret _ _), joined₁, .inr ⟨_, _, rfl, rfl⟩⟩

theorem get_both (mem : k ∈ space) (readTs : Ts) : ∃ s' r r',
    Both (mvccGet k readTs).run (crossGet regionOf k readTs).run s s' r r' ∧ Joined regionOf space s' ∧
      r.mapError untold = r'.mapError untold := by
  by_cases free : Open s k readTs
  · obtain ⟨value, read⟩ := read_both joined mem free
    exact ⟨s, _, _, (shadows_both joined free 8).ok read, joined, rfl⟩
  · simp only [Open, not_forall] at free
    obtain ⟨bytes, lock, found, decoded, early⟩ := free
    have look := Both.reads (joined.twins k).look
    rw [found] at look
    obtain ⟨s₁, r, r', resolved, joined₁, outcome⟩ := resolveLock_both joined found decoded readTs
    have round {t : Pair} {x x' : Except Error Unit}
        (rest : Both (resolveLock k lock readTs >>= fun _ => resolveShadows k readTs 7).run
          (resolveLockAcross regionOf k lock readTs >>= fun _ => resolveAcross regionOf k readTs 7).run s t x x') :
        Both (resolveShadows k readTs 8).run (resolveAcross regionOf k readTs 8).run s t x x' := by
      refine look.ok ⟨(Runs.decodeOr decoded _).ok ?_, ?_⟩
      · rw [if_neg early]
        exact rest.one
      · simp only [decoded, early, if_false]
        exact rest.across
    rcases outcome with ⟨rfl, rfl, unlocked⟩ | ⟨msg, msg', rfl, rfl⟩
    · have free : Open s₁ k readTs := fun bytes' _ held => by cases unlocked.symm.trans held
      obtain ⟨value, read⟩ := read_both joined₁ mem free
      exact ⟨s₁, _, _, (round (resolved.ok (shadows_both joined₁ free 7))).ok read, joined₁, rfl⟩
    · exact ⟨s₁, _, _, (round resolved.fail).fail, joined₁, rfl⟩

theorem step_both (step : Step) (within : ∀ k ∈ step.keys, k ∈ space) : ∃ s' r r',
    Both step.onOne.run (step.across regionOf).run s s' r r' ∧ Joined regionOf space s' ∧
      r.mapError untold = r'.mapError untold := by
  have mutated {txn : CrossTxn} (all : ∀ k ∈ txn.mutations.map Mutation.key, k ∈ space) : ∀ m ∈ txn.mutations, m.key ∈ space :=
    fun m member => all m.key (mem_map_of_mem member)
  cases step with
  | prewrite txn ttl =>
    obtain ⟨s', r, both, joined'⟩ := prewrite_both joined txn (mutated within) ttl
    cases r with
    | ok done => exact ⟨s', _, _, both.ok (.ret _ _), joined', rfl⟩
    | error e => exact ⟨s', _, _, both.fail, joined', rfl⟩
  | commitPrimary txn commitTs =>
    obtain ⟨s', both, joined'⟩ := commitPrimary_both joined txn (mutated within _ (mem_cons_self ..)) commitTs
    exact ⟨s', _, _, both.ok (.ret _ _), joined', rfl⟩
  | finalizeSecondaries txn commitTs =>
    obtain ⟨s', both, joined'⟩ := finalize_both joined txn.primary txn.startTs commitTs txn.mutations
    exact ⟨s', _, _, Both.ok both (.ret _ _), joined', rfl⟩
  | get key readTs =>
    obtain ⟨s', r, r', both, joined', same⟩ := get_both joined (within key (mem_singleton_self key)) readTs
    cases r with
    | ok value =>
      cases r' with
      | ok value' =>
        obtain rfl : value = value' := Except.ok.inj same
        exact ⟨s', _, _, both.ok (.ret _ _), joined', rfl⟩
      | error e' => cases same
    | error e =>
      cases r' with
      | ok value' => cases same
      | error e' =>
        have told : untold e = untold e' := Except.error.inj same
        exact ⟨s', .error e, .error e', both.fail, joined', congrArg Except.error told⟩

end

def told (reply : Option (Except Error Answer)) : Option (Except Error Answer) := reply.map (·.mapError untold)

theorem replay_both (joined : Joined regionOf space s) (steps : List Step)
    (within : ∀ step ∈ steps, ∀ k ∈ step.keys, k ∈ space) : ∃ s' replies replies',
      Step.replay Step.runOne steps s.one = (s'.one, replies) ∧
      Step.replay (Step.runAcross regionOf) steps s.regions = (s'.regions, replies') ∧ Joined regionOf space s' ∧
      replies.map told = replies'.map told ∧ ∀ reply ∈ replies, reply.isSome := by
  induction steps generalizing s with
  | nil => exact ⟨s, [], [], rfl, rfl, joined, rfl, nofun⟩
  | cons step rest ih =>
    obtain ⟨here, later⟩ := forall_mem_cons.mp within
    obtain ⟨s₁, r, r', both, joined₁, same⟩ := step_both joined step here
    obtain ⟨s', replies, replies', one, across, joined', equal, complete⟩ := ih joined₁ later
    have first : step.runOne s.one = (s₁.one, some r) := by rw [Step.runOne, both.one]
    have second : step.runAcross regionOf s.regions = (s₁.regions, some r') := by rw [Step.runAcross, both.across]
    refine ⟨s', some r :: replies, some r' :: replies', ?_, ?_, joined', ?_, forall_mem_cons.mpr ⟨rfl, complete⟩⟩
    · simp only [Step.replay, first, one]
    · simp only [Step.replay, second, across]
    · rw [map_cons, map_cons, equal, told, told, Option.map_some, Option.map_some, same]

end

/-- Transactions over regions are transactions on one engine: every step of a history returns the same, and the regions
hold together what the engine holds. -/
theorem regions_refine_engine (regionOf : Bytes → UInt64) {space : Set Bytes} (apart : Apart space) (steps : List Step)
    (within : ∀ step ∈ steps, ∀ k ∈ step.keys, k ∈ space) :
    let one := Step.replay Step.runOne steps .empty
    let across := Step.replay (Step.runAcross regionOf) steps fun _ => .empty
    (∀ reply ∈ one.2, reply.isSome) ∧ across.2.map told = one.2.map told ∧
      ∀ cf key bytes, one.1.getCf cf key = some bytes ↔ ∃ r, (across.1 r).getCf cf key = some bytes := by
  obtain ⟨s', replies, replies', one, across, joined, equal, complete⟩ :=
    replay_both (joined_empty regionOf apart) steps within
  dsimp only at one across ⊢
  rw [one, across]
  exact ⟨complete, equal.symm, joined.union⟩

def apartRegions (key : Bytes) : UInt64 := if key = [1] then 1 else 2

def stoppedTxn : List Step :=
  let txn : CrossTxn := ⟨5, ⟨[1], .put [7]⟩, [⟨[2], .put [8]⟩]⟩
  [.prewrite txn 9, .get [2] 6, .commitPrimary txn 10, .get [2] 11]

def stoppedReplies : List (Option (Except Error Answer)) :=
  [some (.ok .done), some (.error (.keyIsLocked "")), some (.ok .done), some (.ok (.value (some [8])))]

theorem regions_refine_engine_stopped :
    (Step.replay Step.runOne stoppedTxn .empty).2.map told = stoppedReplies ∧
      (Step.replay (Step.runAcross apartRegions) stoppedTxn fun _ => .empty).2.map told = stoppedReplies := by
  have replies : (Step.replay Step.runOne stoppedTxn .empty).2.map told = stoppedReplies := by decide +kernel
  have within : ∀ step ∈ stoppedTxn, ∀ k ∈ step.keys, k.length = 1 := by decide
  have refined := regions_refine_engine apartRegions KeySpace.oneByte.apart stoppedTxn within
  exact ⟨replies, refined.2.1.trans replies⟩

end Arcux.Server
