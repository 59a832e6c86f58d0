import Arcux.Region.Commands

namespace Arcux.Engine

open Codec List
open scoped Codec.ByteOrder

namespace Db

variable {db : Db}

theorem getCf_prewriteBatch (db : Db) (spec : PrewriteSpec) (cf : Cf) (key : Bytes) :
    (db.commitBatch (buildPrewriteBatch spec)).getCf cf key =
      if cf = .lock ∧ key = spec.key then some (Lock.encode ⟨spec.primary, spec.startTs, spec.ttl, spec.kind⟩)
      else if cf = .default ∧ key = encodeDataKey spec.key spec.startTs then some spec.value
      else db.getCf cf key := by
  rw [getCf_commitBatch]
  simp only [buildPrewriteBatch, WriteBatch.put, nil_append, cons_append, foldl_cons, foldl_nil,
    getCf_applyOp]
  rfl

theorem getCf_rollbackBatch (db : Db) (key' : Bytes) (startTs : Ts) (cf : Cf) (key : Bytes) :
    (db.commitBatch (buildResolveBatch ⟨key', startTs, .rollback⟩)).getCf cf key =
      if cf = .default ∧ key = encodeDataKey key' startTs then none
      else if cf = .lock ∧ key = key' then none
      else db.getCf cf key := by
  rw [getCf_commitBatch]
  simp only [buildResolveBatch, WriteBatch.delete, nil_append, cons_append, foldl_cons, foldl_nil,
    getCf_applyOp]
  rfl

theorem prewrite_cases (db : Db) (spec : PrewriteSpec) :
    db.getCf .lock spec.key = none ∧
        db.process (.prewrite spec) = (db.commitBatch (buildPrewriteBatch spec), .ok (db.seq + 1)) ∨
      ∃ msg, db.process (.prewrite spec) = (db, .error (.conflict msg)) := by
  simp only [process, checkPrewrite]
  by_cases newer : db.newerCommit spec.key spec.startTs
  · exact .inr ⟨_, by rw [if_pos newer]⟩
  · rw [if_neg newer]
    cases found : db.getCf .lock spec.key with
    | none => exact .inl ⟨rfl, rfl⟩
    | some bytes => exact .inr ⟨_, rfl⟩

theorem rollback_own {lock : Lock} {key : Bytes} (held : db.getCf .lock key = some lock.encode) :
    db.process (.resolve ⟨key, lock.startTs, .rollback⟩) =
      (db.commitBatch (buildResolveBatch ⟨key, lock.startTs, .rollback⟩), .ok (db.seq + 1)) := by
  simp only [process, currentLock, held, Lock.decode_encode_cut, if_true]

structure Unused (db : Db) (startTs : Ts) : Prop where
  lock : ∀ k bytes lock, db.getCf .lock k = some bytes → Lock.decode bytes = some lock → lock.startTs ≠ startTs
  value : ∀ k, db.getCf .default (encodeDataKey k startTs) = none

end Db

def Mutation.lock (m : Mutation) (primary : Bytes) (startTs ttl : Ts) : Lock := ⟨primary, startTs, ttl, m.value.lockKind⟩

structure Held (before now : Db) (primary : Bytes) (startTs ttl : Ts) (got : List Mutation) : Prop where
  locked : ∀ m ∈ got, now.getCf .lock m.key = some (m.lock primary startTs ttl).encode
  locks : ∀ k, (∀ m ∈ got, k ≠ m.key) → now.getCf .lock k = before.getCf .lock k
  values : ∀ key, (∀ m ∈ got, key ≠ encodeDataKey m.key startTs) → now.getCf .default key = before.getCf .default key
  records : now.writeCf = before.writeCf
  free : ∀ m ∈ got, before.getCf .lock m.key = none
  distinct : got.Pairwise fun m m' => m.key ≠ m'.key

variable {before now : Db} {primary : Bytes} {startTs ttl : Ts} {got : List Mutation}

theorem Held.nothing (before : Db) (primary : Bytes) (startTs ttl : Ts) : Held before before primary startTs ttl [] :=
  ⟨nofun, fun _ _ => rfl, fun _ _ => rfl, rfl, nofun, .nil⟩

theorem Held.fresh (held : Held before now primary startTs ttl got) {key : Bytes} (free : now.getCf .lock key = none) :
    ∀ m ∈ got, key ≠ m.key := by
  rintro m mem rfl
  cases free.symm.trans (held.locked m mem)

theorem Held.acquire (held : Held before now primary startTs ttl got) {m : Mutation}
    (free : now.getCf .lock m.key = none) :
    Held before (now.commitBatch (buildPrewriteBatch ⟨m.key, m.value.encode, primary, startTs, ttl, m.value.lockKind⟩))
      primary startTs ttl (got ++ [m]) where
  locked m' mem := by
    rw [Db.getCf_prewriteBatch]
    rcases mem_append.mp mem with old | new
    · have other : m'.key ≠ m.key := (held.fresh free m' old).symm
      simp only [other, and_false, if_false, reduceCtorEq, false_and]
      exact held.locked m' old
    · cases mem_singleton.mp new
      rw [if_pos ⟨rfl, rfl⟩]
      rfl
  locks k others := by
    have other : k ≠ m.key := others m (mem_append_right _ (mem_singleton_self m))
    rw [Db.getCf_prewriteBatch]
    simp only [other, and_false, if_false, reduceCtorEq, false_and]
    exact held.locks k fun m' mem => others m' (mem_append_left _ mem)
  values key others := by
    have other : key ≠ encodeDataKey m.key startTs := others m (mem_append_right _ (mem_singleton_self m))
    rw [Db.getCf_prewriteBatch]
    simp only [other, and_false, if_false, reduceCtorEq, false_and]
    exact held.values key fun m' mem => others m' (mem_append_left _ mem)
  records := held.records
  free m' mem := by
    rcases mem_append.mp mem with old | new
    · exact held.free m' old
    · cases mem_singleton.mp new
      rw [← held.locks m.key (held.fresh free), free]
  distinct := by
    refine pairwise_append.mpr ⟨held.distinct, pairwise_singleton _ _, fun m' old m'' new => ?_⟩
    cases mem_singleton.mp new
    exact (held.fresh free m' old).symm

theorem Held.release {m : Mutation} (held : Held before now primary startTs ttl (m :: got))
    (unused : before.Unused startTs) :
    Held before (now.commitBatch (buildResolveBatch ⟨m.key, startTs, .rollback⟩)) primary startTs ttl got where
  locked m' mem := by
    have other : m'.key ≠ m.key := (rel_of_pairwise_cons held.distinct mem).symm
    rw [Db.getCf_rollbackBatch]
    simp only [other, and_false, if_false, reduceCtorEq, false_and]
    exact held.locked m' (mem_cons_of_mem _ mem)
  locks k others := by
    rw [Db.getCf_rollbackBatch]
    simp only [reduceCtorEq, false_and, if_false, true_and]
    by_cases same : k = m.key
    · rw [if_pos same, same, held.free m (mem_cons_self ..)]
    · rw [if_neg same]
      exact held.locks k (forall_mem_cons.mpr ⟨same, others⟩)
  values key others := by
    rw [Db.getCf_rollbackBatch]
    simp only [reduceCtorEq, false_and, if_false, true_and]
    by_cases same : key = encodeDataKey m.key startTs
    · rw [if_pos same, same, unused.value]
    · rw [if_neg same]
      exact held.values key (forall_mem_cons.mpr ⟨same, others⟩)
  records := held.records
  free m' mem := held.free m' (mem_cons_of_mem _ mem)
  distinct := held.distinct.of_cons

theorem acquire_held (held : Held before now primary startTs ttl got) (mutations : List Mutation) :
    ∃ now' got' result, Runs (Engine.acquire primary startTs ttl mutations (got.map Mutation.key)) now now'
        (got'.map Mutation.key, result) ∧
      Held before now' primary startTs ttl got' ∧ (result.isOk → got' = got ++ mutations) := by
  induction mutations generalizing now got with
  | nil => exact ⟨now, got, .ok (), Runs.ret _, held, fun _ => (append_nil got).symm⟩
  | cons m rest ih =>
    have runs : Runs (prewriteOne m.key m.value primary startTs ttl).run now _ _ := Runs.submit _
    rcases now.prewrite_cases ⟨m.key, m.value.encode, primary, startTs, ttl, m.value.lockKind⟩ with
      ⟨free, answer⟩ | ⟨msg, answer⟩
    · obtain ⟨now', got', result, runs', held', all⟩ := ih (held.acquire free)
      rw [answer] at runs
      rw [map_append, map_singleton] at runs'
      exact ⟨now', got', result, runs.bind runs', held', fun ok => by simp [all ok]⟩
    · rw [answer] at runs
      exact ⟨now, got, .error (.conflict msg), runs.bind (Runs.ret _), held, nofun⟩

theorem release_held (unused : before.Unused startTs) (held : Held before now primary startTs ttl got) :
    ∃ now', Runs (Engine.release startTs (got.map Mutation.key)) now now' () ∧
      Held before now' primary startTs ttl [] := by
  induction got generalizing now with
  | nil => exact ⟨now, Runs.ret _, held⟩
  | cons m rest ih =>
    have own := now.rollback_own (held.locked m (mem_cons_self ..))
    have runs : Runs (submit (.resolve ⟨m.key, startTs, .rollback⟩)).run now _ _ := Runs.submit _
    rw [show now.process (.resolve ⟨m.key, startTs, .rollback⟩) = _ from own] at runs
    have rolled : Runs (resolveRollback m.key startTs).run now _ (.ok ()) := runs.ok (Runs.ret _)
    obtain ⟨now', runs', held'⟩ := ih (held.release unused)
    exact ⟨now', rolled.bind runs', held'⟩

structure Untraced (before after : Db) (startTs : Ts) : Prop where
  content : ∀ cf key, after.getCf cf key = before.getCf cf key
  records : after.writeCf = before.writeCf
  unused : after.Unused startTs

/-- Every mutation has its lock; the length of a primary of 2^32 bytes or more is not kept. -/
structure Carried (before after : Db) (primary : Bytes) (startTs ttl : Ts) (mutations : List Mutation) : Prop where
  locked : ∀ m ∈ mutations, ∃ bytes lock, after.getCf .lock m.key = some bytes ∧ Lock.decode bytes = some lock ∧
    { lock with primary } = m.lock primary startTs ttl ∧ (primary.length < 2 ^ 32 → lock.primary = primary)
  only : ∀ k bytes lock, after.getCf .lock k = some bytes → Lock.decode bytes = some lock → lock.startTs = startTs →
    k ∈ mutations.map Mutation.key
  others : ∀ k ∉ mutations.map Mutation.key, after.getCf .lock k = before.getCf .lock k
  records : after.writeCf = before.writeCf

def PrewriteOutcome (before after : Db) (primary : Bytes) (startTs ttl : Ts) (mutations : List Mutation) :
    Except Error Unit → Prop
  | .ok () => Carried before after primary startTs ttl mutations
  | .error _ => Untraced before after startTs

theorem Held.untraced (held : Held before now primary startTs ttl []) (unused : before.Unused startTs) :
    Untraced before now startTs := by
  have content (cf : Cf) (key : Bytes) : now.getCf cf key = before.getCf cf key := by
    cases cf with
    | lock => exact held.locks key nofun
    | default => exact held.values key nofun
    | write => simp only [Db.getCf, Db.family, held.records]
  refine ⟨content, held.records, fun k bytes lock found => ?_, fun k => ?_⟩
  · exact unused.lock k bytes lock (content .lock k ▸ found)
  · rw [content, unused.value]

theorem Held.carried (held : Held before now primary startTs ttl got) (unused : before.Unused startTs) :
    Carried before now primary startTs ttl got where
  locked m mem := by
    refine ⟨_, _, held.locked m mem, Lock.decode_encode_cut _, rfl, fun short => ?_⟩
    rw [Mutation.lock, Nat.mod_eq_of_lt short, take_length]
  others k other := held.locks k fun m mem same => other (same ▸ mem_map_of_mem mem)
  only k bytes lock found decoded own := by
    by_contra other
    have same := held.locks k fun m mem same => other (same ▸ mem_map_of_mem mem)
    exact unused.lock k bytes lock (same ▸ found) decoded own
  records := held.records

theorem prewriteAll_outcome (unused : before.Unused startTs) (primary : Bytes) (ttl : Ts) (mutations : List Mutation) :
    ∃ after result, Runs (prewriteAll primary startTs ttl mutations).run before after result ∧
      PrewriteOutcome before after primary startTs ttl mutations result := by
  obtain ⟨now, got, result, runs, held, all⟩ := acquire_held (Held.nothing before primary startTs ttl) mutations
  cases result with
  | ok done =>
    have everything : got = mutations := all rfl
    exact ⟨now, .ok (), runs.bind (Runs.ret _), everything ▸ held.carried unused⟩
  | error e =>
    obtain ⟨after, released, none_left⟩ := release_held unused held
    exact ⟨after, .error e, runs.bind (released.bind (Runs.ret _)), none_left.untraced unused⟩

end Arcux.Engine

namespace Arcux.Region

open Engine

/-- A prewrite of several keys takes all of its locks or leaves no trace. -/
theorem failed_prewrite_untraced {before : Db} {startTs : Ts} (unused : before.Unused startTs) (ttl : Ts) :
    (∀ mutations primary, ∃ after result,
        Runs (prewriteRegion mutations primary startTs ttl).run before after result ∧
          PrewriteOutcome before after primary startTs ttl mutations result) ∧
      ∀ txn : Transaction, txn.startTs = startTs → ∃ after result,
        Runs (txn.prewrite ttl).run before after result ∧
          PrewriteOutcome before after txn.primary startTs ttl txn.mutations result := by
  refine ⟨fun mutations primary => prewriteAll_outcome unused primary ttl mutations, ?_⟩
  rintro txn rfl
  exact prewriteAll_outcome unused txn.primary ttl txn.mutations

def lockedByOther : Db := Db.empty.commitBatch (buildPrewriteBatch ⟨[2], Value.delete.encode, [2], 3, 9, .delete⟩)

theorem lockedByOther_unused : lockedByOther.Unused 5 where
  lock k bytes lock found decoded := by
    rw [lockedByOther, Db.getCf_prewriteBatch] at found
    simp only [reduceCtorEq, false_and, if_false, true_and] at found
    split_ifs at found
    · cases found
      rw [Lock.decode_encode_cut] at decoded
      cases decoded
      decide
    · cases found
  value k := by
    have other : encodeDataKey k 5 ≠ encodeDataKey [2] 3 := fun same => absurd (encodeDataKey_inj.mp same).2 (by decide)
    rw [lockedByOther, Db.getCf_prewriteBatch]
    simp only [other, and_false, if_false, reduceCtorEq, false_and]
    rfl

theorem failed_prewrite_untraced_second : lockedByOther.Unused 5 ∧
    (makeApply lockedByOther (.prewrite [⟨[1], .delete⟩, ⟨[2], .delete⟩] [1] 5 9)).2 =
      some (.error (.conflict "key is already locked by another transaction")) ∧
    ∃ after result,
      Runs (prewriteRegion [⟨[1], .delete⟩, ⟨[2], .delete⟩] [1] 5 9).run lockedByOther after result ∧
        PrewriteOutcome lockedByOther after [1] 5 9 [⟨[1], .delete⟩, ⟨[2], .delete⟩] result :=
  ⟨lockedByOther_unused, by decide +kernel, (failed_prewrite_untraced lockedByOther_unused 9).1 _ _⟩

end Arcux.Region
