import Arcux.Engine.PointReads

namespace Arcux.Engine

open Codec List
open scoped Codec.ByteOrder

structure Cell where
  lock : Option Bytes
  commit : Ts → Option Bytes
  value : Ts → Option Bytes

def Db.cell (db : Db) (k : Bytes) : Cell where
  lock := db.getCf .lock k
  commit ts := db.getCf .write (encodeDataKey k ts)
  value ts := db.getCf .default (encodeDataKey k ts)

def WriteOp.Into (space : Set Bytes) (k : Bytes) : WriteOp → Prop
  | .put .write key value => ∃ commitTs startTs, key = encodeDataKey k commitTs ∧ value = encodeWriteValue startTs
  | .put .lock key value => key = k ∧ ∃ lock : Lock, lock.primary ∈ space ∧ value = lock.encode
  | .put .default key value => ∃ startTs, key = encodeDataKey k startTs ∧ ∃ v : Value, value = v.encode
  | .delete .write _ => False
  | .delete .lock key => key = k
  | .delete .default key => ∃ startTs, key = encodeDataKey k startTs

namespace Db

variable {space keys : Set Bytes} {db db' : Db} {k : Bytes}

def Stores (space keys : Set Bytes) (db : Db) : Prop := db.Made fun op => ∃ k ∈ keys, op.Into space k

theorem stores_empty (space keys : Set Bytes) : Stores space keys .empty := made_empty _

section

variable (stores : Stores space keys db)

include stores

theorem Stores.mono {more : Set Bytes} (subset : keys ⊆ more) : Stores space more db := by
  intro cf key stored found
  obtain ⟨k, mem, into⟩ := stores cf key stored found
  exact ⟨k, subset mem, into⟩

theorem Stores.commitBatch (mem : k ∈ keys) {batch : WriteBatch}
    (into : ∀ op ∈ batch.ops, op.Into space k) : Stores space keys (db.commitBatch batch) :=
  Made.commitBatch stores fun op member => ⟨k, mem, into op member⟩

theorem Stores.recorded : Recorded keys db := by
  intro key stored found
  obtain ⟨k, mem, into⟩ := stores .write key stored found
  match stored with
  | .put bytes =>
    obtain ⟨commitTs, startTs, same, rfl⟩ := into
    exact ⟨k, mem, commitTs, startTs, same, rfl⟩
  | .delete => exact into.elim

theorem Stores.legible : Legible db where
  recorded key stored found := by
    obtain ⟨k, -, commitTs, startTs, same⟩ := stores.recorded key stored found
    exact ⟨k, trivial, commitTs, startTs, same⟩
  locks key bytes found := by
    obtain ⟨k, -, -, lock, -, same⟩ := stores .lock key (.put bytes) found
    exact ⟨lock, same⟩
  values key bytes found := by
    obtain ⟨k, -, startTs, -, value, same⟩ := stores .default key (.put bytes) found
    exact ⟨value, same⟩

theorem Stores.lock {bytes : Bytes} (found : db.getCf .lock k = some bytes) :
    k ∈ keys ∧ ∃ lock : Lock, lock.primary ∈ space ∧
      Lock.decode bytes = some { lock with primary := lock.primary.take (lock.primary.length % 2 ^ 32) } := by
  obtain ⟨k', mem, rfl, lock, home, rfl⟩ := stores .lock k (.put bytes) (getCf_eq_some.mp found)
  exact ⟨mem, lock, home, lock.decode_encode_cut⟩

theorem Stores.uncommitted (absent : k ∉ keys) (c s : Ts) : db.view.commit k c ≠ some s :=
  fun seen => absent (stores.recorded.mem seen)

end

theorem getCf_commitBatch_congr {cf : Cf} {key : Bytes} (same : db.getCf cf key = db'.getCf cf key)
    (batch : WriteBatch) : (db.commitBatch batch).getCf cf key = (db'.commitBatch batch).getCf cf key := by
  rw [getCf_commitBatch, getCf_commitBatch]
  obtain ⟨ops⟩ := batch
  induction ops generalizing db db' with
  | nil => exact same
  | cons op rest ih =>
    refine ih ?_
    rw [getCf_applyOp, getCf_applyOp]
    split_ifs
    · rfl
    · exact same

theorem cell_commitBatch_congr (same : db.cell k = db'.cell k) (batch : WriteBatch) :
    (db.commitBatch batch).cell k = (db'.commitBatch batch).cell k := by
  have lock : db.getCf .lock k = db'.getCf .lock k := congrArg Cell.lock same
  have commit (ts : Ts) : db.getCf .write (encodeDataKey k ts) = db'.getCf .write (encodeDataKey k ts) :=
    congrFun (congrArg Cell.commit same) ts
  have value (ts : Ts) : db.getCf .default (encodeDataKey k ts) = db'.getCf .default (encodeDataKey k ts) :=
    congrFun (congrArg Cell.value same) ts
  simp only [cell, getCf_commitBatch_congr lock, getCf_commitBatch_congr (commit _), getCf_commitBatch_congr (value _)]

theorem cell_applyOp {op : WriteOp} (into : op.Into space k) {j : Bytes} (other : j ≠ k) :
    (db.applyOp op).cell j = db.cell j := by
  have version (ts ts' : Ts) : encodeDataKey j ts ≠ encodeDataKey k ts' := fun same => other (encodeDataKey_inj.mp same).1
  match op with
  | .put .write _ _ =>
    obtain ⟨_, _, rfl, rfl⟩ := into
    simp [cell, getCf_applyOp, WriteOp.cf, WriteOp.key, version]
  | .put .lock _ _ =>
    obtain ⟨rfl, -⟩ := into
    simp [cell, getCf_applyOp, WriteOp.cf, WriteOp.key, other]
  | .put .default _ _ =>
    obtain ⟨_, rfl, -⟩ := into
    simp [cell, getCf_applyOp, WriteOp.cf, WriteOp.key, version]
  | .delete .lock _ =>
    obtain rfl := into
    simp [cell, getCf_applyOp, WriteOp.cf, WriteOp.key, other]
  | .delete .default _ =>
    obtain ⟨_, rfl⟩ := into
    simp [cell, getCf_applyOp, WriteOp.cf, WriteOp.key, version]

theorem cell_commitBatch {batch : WriteBatch} (into : ∀ op ∈ batch.ops, op.Into space k) {j : Bytes} (other : j ≠ k) :
    (db.commitBatch batch).cell j = db.cell j := by
  have whole : (db.commitBatch batch).cell j = (batch.ops.foldl applyOp db).cell j := by
    simp only [cell, getCf_commitBatch]
  rw [whole]
  clear whole
  obtain ⟨ops⟩ := batch
  induction ops generalizing db with
  | nil => rfl
  | cons op rest ih =>
    obtain ⟨first, later⟩ := forall_mem_cons.mp into
    exact (ih later).trans (cell_applyOp first other)

theorem into_prewriteBatch {primary : Bytes} (home : primary ∈ space) (k : Bytes) (value : Value) (startTs ttl : Ts)
    (kind : LockKind) :
    ∀ op ∈ (buildPrewriteBatch ⟨k, value.encode, primary, startTs, ttl, kind⟩).ops, op.Into space k :=
  forall_mem_cons.mpr ⟨⟨startTs, rfl, value, rfl⟩, forall_mem_singleton.mpr ⟨rfl, _, home, rfl⟩⟩

theorem into_resolveBatch (space : Set Bytes) (spec : ResolveSpec) :
    ∀ op ∈ (buildResolveBatch spec).ops, op.Into space spec.key := by
  unfold buildResolveBatch
  split
  case h_1 commitTs _ =>
    exact forall_mem_cons.mpr ⟨⟨commitTs, spec.startTs, rfl, rfl⟩, forall_mem_singleton.mpr rfl⟩
  case h_2 => exact forall_mem_cons.mpr ⟨rfl, forall_mem_singleton.mpr ⟨spec.startTs, rfl⟩⟩

theorem into_primaryBatch (space : Set Bytes) (txn : Transaction) (commitTs : Ts) :
    ∀ op ∈ (txn.primaryBatch commitTs).ops, op.Into space txn.primary :=
  forall_mem_cons.mpr ⟨⟨commitTs, txn.startTs, rfl, rfl⟩, forall_mem_singleton.mpr rfl⟩

theorem unlocked_resolveBatch (spec : ResolveSpec) :
    (db.commitBatch (buildResolveBatch spec)).getCf .lock spec.key = none := by
  rw [getCf_commitBatch]
  unfold buildResolveBatch
  split
  · simp [WriteBatch.put, WriteBatch.delete, getCf_applyOp, WriteOp.cf, WriteOp.key, WriteOp.memValue,
      MemValue.intoPresent]
  · simp [WriteBatch.delete, getCf_applyOp, WriteOp.cf, WriteOp.key, WriteOp.memValue, MemValue.intoPresent]

theorem commit_congr (same : db.cell k = db'.cell k) : db.view.commit k = db'.view.commit k := by
  funext c
  exact congrArg (·.bind decodeWriteValue) (congrFun (congrArg Cell.commit same) c)

theorem value_congr (same : db.cell k = db'.cell k) : db.view.value k = db'.view.value k := by
  funext s
  exact congrArg (·.bind Value.decode) (congrFun (congrArg Cell.value same) s)

theorem shows_congr (same : db.cell k = db'.cell k) (readTs : Ts) (shown : Option Value) :
    db.view.Shows k readTs shown ↔ db'.view.Shows k readTs shown := by
  simp only [Percolator.Store.Shows, commit_congr same, value_congr same]

end Db

section

variable {space : Set Bytes} {a b : Db} {k : Bytes}

structure Twins (space : Set Bytes) (k : Bytes) (a b : Db) : Prop where
  apart : Apart space
  first : a.Stores space space
  second : b.Stores space space
  cell : a.cell k = b.cell k

section

variable (twins : Twins space k a b)

include twins

theorem Twins.newerCommit (mem : k ∈ space) (startTs : Ts) : a.newerCommit k startTs = b.newerCommit k startTs := by
  have alone := twins.first.recorded.alone twins.apart mem
  have alone' := twins.second.recorded.alone twins.apart mem
  rw [Bool.eq_iff_iff, twins.first.recorded.newerCommit_iff alone, twins.second.recorded.newerCommit_iff alone',
    Db.commit_congr twins.cell]

theorem Twins.checkPrewrite (mem : k ∈ space) (startTs : Ts) :
    a.checkPrewrite k startTs = b.checkPrewrite k startTs := by
  have lock : a.getCf .lock k = b.getCf .lock k := congrArg Cell.lock twins.cell
  rw [Db.checkPrewrite, Db.checkPrewrite, twins.newerCommit mem, lock]

theorem Twins.currentLock : a.currentLock k = b.currentLock k := by
  have lock : a.getCf .lock k = b.getCf .lock k := congrArg Cell.lock twins.cell
  rw [Db.currentLock, Db.currentLock, lock]

theorem Twins.latestBy (mem : k ∈ space) {startTs : Ts} {bound : Nat} {low : Bytes} (cut : Db.Cut k bound low)
    {commitTs : Option Ts} (latest : b.LatestBy k startTs bound low commitTs) :
    a.LatestBy k startTs bound low commitTs := by
  have sight := (twins.first.recorded.alone twins.apart mem).inSight cut
  have sight' := (twins.second.recorded.alone twins.apart mem).inSight cut
  cases commitTs <;> simpa only [Db.LatestBy, Db.commit_congr twins.cell, sight, sight'] using latest

omit twins in
theorem Db.LatestBy.unique {db : Db} {startTs : Ts} {bound : Nat} {low : Bytes} {x y : Option Ts}
    (first : db.LatestBy k startTs bound low x) (second : db.LatestBy k startTs bound low y) : x = y := by
  cases x with
  | none =>
    cases y with
    | none => rfl
    | some c => exact absurd second.1.2.2 (first c second.1.2.1 second.1.1)
  | some c =>
    cases y with
    | none => exact absurd first.1.2.2 (second c first.1.2.1 first.1.1)
    | some c' =>
      exact congrArg some (le_antisymm (second.2 c first.1.2.1 first.1.1) (first.2 c' second.1.2.1 second.1.1))

omit twins in
theorem Db.LatestBy.absent {db : Db} {startTs : Ts} {bound : Nat} {low : Bytes} {x : Option Ts}
    (latest : db.LatestBy k startTs bound low x) (absent : ∀ c s, db.view.commit k c ≠ some s) : x = none := by
  cases x with
  | none => rfl
  | some c => exact absurd latest.1.1 (absent c startTs)

theorem Twins.readCommitted (mem : k ∈ space) (readTs : Ts) :
    ∃ value, Runs (readCommitted k readTs).run a a (.ok value) ∧ Runs (readCommitted k readTs).run b b (.ok value) := by
  obtain ⟨shown, runs, shows⟩ := readCommitted_runs twins.first.legible (twins.first.recorded.alone twins.apart mem) readTs
  obtain ⟨shown', runs', shows'⟩ :=
    readCommitted_runs twins.second.legible (twins.second.recorded.alone twins.apart mem) readTs
  have same := Percolator.Store.shows_unique shows ((Db.shows_congr twins.cell readTs shown').mpr shows')
  exact ⟨_, runs, same ▸ runs'⟩

theorem Twins.verdict (startTs : Ts) :
    ∃ status, Runs (verdict k startTs).run a a (.ok status) ∧ Runs (verdict k startTs).run b b (.ok status) := by
  have found : ∃ commitTs, Runs (findCommitTs k startTs).run a a (.ok commitTs) ∧
      Runs (findCommitTs k startTs).run b b (.ok commitTs) := by
    have cut := Db.cut_at k maxTs
    obtain ⟨c, runs, latest⟩ := findCommitFrom_runs twins.first.legible.recorded startTs (2 ^ 64 + 1) cut (by decide)
    obtain ⟨c', runs', latest'⟩ := findCommitFrom_runs twins.second.legible.recorded startTs (2 ^ 64 + 1) cut (by decide)
    have same : c' = c := by
      by_cases mem : k ∈ space
      · exact (twins.latestBy mem cut latest').unique latest
      · rw [latest.absent (twins.first.uncommitted mem), latest'.absent (twins.second.uncommitted mem)]
    exact ⟨c, runs, same ▸ runs'⟩
  obtain ⟨commitTs, runs, runs'⟩ := found
  cases commitTs with
  | some c => exact ⟨.committed c, Runs.ok runs (Runs.ret _), Runs.ok runs' (Runs.ret _)⟩
  | none => exact ⟨.rolledBack, Runs.ok runs (Runs.ret _), Runs.ok runs' (Runs.ret _)⟩

end

end

inductive Together (space : Set Bytes) (k : Bytes) (a b : Db) : Db → Db → Prop
  | idle : Together space k a b a b
  | batch (mem : k ∈ space) {batch : WriteBatch} (into : ∀ op ∈ batch.ops, op.Into space k) :
      Together space k a b (a.commitBatch batch) (b.commitBatch batch)

theorem Together.others {space : Set Bytes} {k : Bytes} {a b a' b' : Db} (together : Together space k a b a' b')
    {j : Bytes} (other : j ≠ k) : a'.cell j = a.cell j := by
  cases together with
  | idle => rfl
  | batch mem into => exact Db.cell_commitBatch into other

structure RunsOnBoth {α : Type} (p : Steps α) (a b a' b' : Db) (r : α) : Prop where
  first : Runs p a a' r
  second : Runs p b b' r

section

variable {α β : Type} {space : Set Bytes} {a b a' b' : Db} {k : Bytes}

theorem RunsOnBoth.ret (r : α) : RunsOnBoth (.ret r) a b a b r := ⟨Runs.ret r, Runs.ret r⟩

theorem RunsOnBoth.ok {p : Program α} {next : α → Program β} {a₁ b₁ a₂ b₂ : Db} {x : α} {r : Except Error β}
    (head : RunsOnBoth p.run a b a₁ b₁ (.ok x)) (tail : RunsOnBoth (next x).run a₁ b₁ a₂ b₂ r) :
    RunsOnBoth (p >>= next).run a b a₂ b₂ r :=
  ⟨head.first.ok tail.first, head.second.ok tail.second⟩

theorem RunsOnBoth.decodeOr {decoded : Option α} {x : α} (valid : decoded = some x) (msg : String) :
    RunsOnBoth (Engine.decodeOr decoded msg).run a b a b (.ok x) :=
  ⟨Runs.decodeOr valid msg, Runs.decodeOr valid msg⟩

theorem Twins.look (twins : Twins space k a b) :
    RunsOnBoth (getCfRaw .lock k).run a b a b (.ok (a.getCf .lock k)) := by
  refine ⟨Runs.getCfRaw rfl, ?_⟩
  rw [show a.getCf .lock k = b.getCf .lock k from congrArg Cell.lock twins.cell]
  exact Runs.getCfRaw rfl

theorem Twins.prewriteOne (twins : Twins space k a b) (mem : k ∈ space) {primary : Bytes} (home : primary ∈ space)
    (value : Value) (startTs ttl : Ts) : ∃ a' b' r r', Together space k a b a' b' ∧
      Runs (prewriteOne k value primary startTs ttl).run a a' r ∧
      Runs (prewriteOne k value primary startTs ttl).run b b' r' ∧
      ((∃ n n', r = .ok n ∧ r' = .ok n') ∨ ∃ e, r = .error e ∧ r' = .error e) := by
  have runs (db : Db) : Runs (Engine.prewriteOne k value primary startTs ttl).run db _ _ := Runs.submit _
  have left := runs a
  have right := runs b
  simp only [Db.process, twins.checkPrewrite mem] at left right
  cases checked : b.checkPrewrite k startTs with
  | ok done =>
    simp only [checked] at left right
    exact ⟨_, _, _, _, .batch mem (Db.into_prewriteBatch home k value startTs ttl _), left, right, .inl ⟨_, _, rfl, rfl⟩⟩
  | error e =>
    simp only [checked] at left right
    exact ⟨_, _, _, _, .idle, left, right, .inr ⟨e, rfl, rfl⟩⟩

theorem Twins.resolve (spec : ResolveSpec) (twins : Twins space spec.key a b) : ∃ a' b',
    Together space spec.key a b a' b' ∧
      RunsOnBoth (do let _ ← submit (.resolve spec) : Program Unit).run a b a' b' (.ok ()) ∧
      ((∀ bytes lock, a.getCf .lock spec.key = some bytes → Lock.decode bytes = some lock →
        lock.startTs = spec.startTs) → a'.getCf .lock spec.key = none) := by
  have left : Runs (submit (.resolve spec)).run a _ _ := Runs.submit _
  have right : Runs (submit (.resolve spec)).run b _ _ := Runs.submit _
  simp only [Db.process, ← twins.currentLock] at left right
  cases found : a.getCf .lock spec.key with
  | none =>
    simp only [Db.currentLock, found] at left right
    exact ⟨_, _, .idle, ⟨left.ok (Runs.ret _), right.ok (Runs.ret _)⟩, fun _ => found⟩
  | some bytes =>
    obtain ⟨mem, lock, -, decoded⟩ := twins.first.lock found
    simp only [Db.currentLock, found, decoded] at left right
    by_cases own : lock.startTs = spec.startTs
    · simp only [own, if_true] at left right
      exact ⟨_, _, .batch mem (Db.into_resolveBatch space spec), ⟨left.ok (Runs.ret _), right.ok (Runs.ret _)⟩,
        fun _ => Db.unlocked_resolveBatch spec⟩
    · simp only [own, if_false] at left right
      exact ⟨_, _, .idle, ⟨left.ok (Runs.ret _), right.ok (Runs.ret _)⟩,
        fun owned => absurd (owned bytes _ rfl decoded) own⟩

theorem Twins.commitPrimary (txn : Transaction) (mem : txn.primary ∈ space) (commitTs : Ts) : ∃ a' b',
    Together space txn.primary a b a' b' ∧ RunsOnBoth (txn.commitPrimary commitTs).run a b a' b' (.ok ()) := by
  have runs (db : Db) : Runs (write (txn.primaryBatch commitTs)).run db _ _ := Runs.write rfl
  exact ⟨_, _, .batch mem (Db.into_primaryBatch space txn commitTs), (runs a).ok (Runs.ret _), (runs b).ok (Runs.ret _)⟩

theorem Twins.checkTxnStatus (twins : Twins space k a b) (startTs nowTs : Ts) : ∃ a' b' status,
    Together space k a b a' b' ∧ RunsOnBoth (checkTxnStatus k startTs nowTs).run a b a' b' (.ok status) ∧
      (a' = a ∨ a'.getCf .lock k = none) := by
  obtain ⟨status, runs, runs'⟩ := twins.verdict startTs
  have look := twins.look
  cases found : a.getCf .lock k with
  | none =>
    rw [found] at look
    exact ⟨a, b, status, .idle, look.ok ⟨runs, runs'⟩, .inl rfl⟩
  | some bytes =>
    obtain ⟨-, lock, -, decoded⟩ := twins.first.lock found
    rw [found] at look
    by_cases own : lock.startTs = startTs
    · by_cases expired : nowTs > lock.ttl
      · obtain ⟨a', b', together, rolled, unlocked⟩ := Twins.resolve ⟨k, startTs, .rollback⟩ twins
        refine ⟨a', b', .rolledBack, together, look.ok ((RunsOnBoth.decodeOr decoded _).ok ?_), .inr (unlocked ?_)⟩
        · simp only [own, expired, if_true]
          exact RunsOnBoth.ok rolled (.ret _)
        · intro bytes' lock' same decoded'
          cases found.symm.trans same
          cases decoded.symm.trans decoded'
          exact own
      · refine ⟨a, b, .locked lock.ttl, .idle, look.ok ((RunsOnBoth.decodeOr decoded _).ok ?_), .inl rfl⟩
        simp only [own, expired, if_true, if_false]
        exact .ret _
    · refine ⟨a, b, status, .idle, look.ok ((RunsOnBoth.decodeOr decoded _).ok ?_), .inl rfl⟩
      simp only [own, if_false]
      exact ⟨runs, runs'⟩

end

end Arcux.Engine
