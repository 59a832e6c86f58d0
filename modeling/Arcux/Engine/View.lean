import Arcux.Engine.Db
import Arcux.Percolator.Store

namespace Arcux.Engine

open Codec Data List Percolator
open scoped Codec.ByteOrder

abbrev View := Percolator.Store Bytes Ts Value

def MemValue.op (cf : Cf) (key : Bytes) : MemValue → WriteOp
  | put value => .put cf key value
  | delete => .delete cf key

theorem WriteOp.op_memValue (op : WriteOp) : op.memValue.op op.cf op.key = op := by cases op <;> rfl

namespace Db

theorem family_applyOp (db : Db) (op : WriteOp) (cf : Cf) :
    (db.applyOp op).family cf = if cf = op.cf then (db.family cf).insert op.key op.memValue else db.family cf := by
  unfold applyOp
  cases op.cf <;> cases cf <;> rfl

theorem find_applyOp (db : Db) (op : WriteOp) (cf : Cf) (key : Bytes) :
    ((db.applyOp op).family cf).find? key =
      if cf = op.cf ∧ key = op.key then some op.memValue else (db.family cf).find? key := by
  rw [family_applyOp]
  split_ifs <;> simp_all [OrdMap.find?_insert]

theorem family_commitBatch (db : Db) (batch : WriteBatch) (cf : Cf) :
    (db.commitBatch batch).family cf = (batch.ops.foldl applyOp db).family cf := by
  cases cf <;> rfl

theorem getCf_applyOp (db : Db) (op : WriteOp) (cf : Cf) (key : Bytes) : (db.applyOp op).getCf cf key =
    if cf = op.cf ∧ key = op.key then op.memValue.intoPresent else db.getCf cf key := by
  unfold getCf
  rw [find_applyOp]
  split_ifs <;> rfl

theorem getCf_commitBatch (db : Db) (batch : WriteBatch) (cf : Cf) (key : Bytes) :
    (db.commitBatch batch).getCf cf key = (batch.ops.foldl applyOp db).getCf cf key := by
  unfold getCf
  rw [family_commitBatch]

def view (db : Db) : View where
  lock key := ((db.getCf .lock key).bind Lock.decode).map fun lock => ⟨lock.primary, lock.startTs, lock.ttl⟩
  commit key commitTs := (db.getCf .write (encodeDataKey key commitTs)).bind decodeWriteValue
  value key startTs := (db.getCf .default (encodeDataKey key startTs)).bind Value.decode

/-- What the engine keeps in its column families when it stores user keys of `space`: Write records are never deleted,
and everything stored decodes. -/
structure Formed (space : KeySpace) (db : Db) : Prop where
  writes : ∀ key stored, db.writeCf.find? key = some stored →
    ∃ k ∈ space.keys, ∃ commitTs startTs, key = encodeDataKey k commitTs ∧ stored = .put (encodeWriteValue startTs)
  locks : ∀ key bytes, db.lockCf.find? key = some (.put bytes) →
    ∃ lock : Lock, lock.primary ∈ space.keys ∧ bytes = lock.encode
  values : ∀ key bytes, db.defaultCf.find? key = some (.put bytes) → ∃ value : Value, bytes = value.encode

def Recorded (keys : Set Bytes) (db : Db) : Prop := ∀ key stored, db.writeCf.find? key = some stored →
  ∃ k ∈ keys, ∃ commitTs startTs, key = encodeDataKey k commitTs ∧ stored = .put (encodeWriteValue startTs)

variable {space : KeySpace} {db : Db}

theorem Formed.recorded (formed : Formed space db) : Recorded space.keys db :=
  formed.writes

structure Legible (db : Db) : Prop where
  recorded : Recorded Set.univ db
  locks : ∀ key bytes, db.lockCf.find? key = some (.put bytes) → ∃ lock : Lock, bytes = lock.encode
  values : ∀ key bytes, db.defaultCf.find? key = some (.put bytes) → ∃ value : Value, bytes = value.encode

theorem Formed.legible (formed : Formed space db) : Legible db where
  recorded key stored found := by
    obtain ⟨k, -, commitTs, startTs, same⟩ := formed.writes key stored found
    exact ⟨k, trivial, commitTs, startTs, same⟩
  locks key bytes found := by
    obtain ⟨lock, -, same⟩ := formed.locks key bytes found
    exact ⟨lock, same⟩
  values := formed.values

end Db

namespace Db

variable {space : KeySpace} {db : Db}

def Fits (space : KeySpace) : WriteOp → Prop
  | .put .write key value =>
    ∃ k ∈ space.keys, ∃ commitTs startTs, key = encodeDataKey k commitTs ∧ value = encodeWriteValue startTs
  | .put .lock _ value => ∃ lock : Lock, lock.primary ∈ space.keys ∧ value = lock.encode
  | .put .default _ value => ∃ v : Value, value = v.encode
  | .delete .write _ => False
  | .delete _ _ => True

theorem formed_empty (space : KeySpace) : Formed space .empty := ⟨nofun, nofun, nofun⟩

def Made (p : WriteOp → Prop) (db : Db) : Prop := ∀ cf key stored,
  (db.family cf).find? key = some stored → p (stored.op cf key)

theorem made_empty (p : WriteOp → Prop) : Made p .empty := by
  intro cf key stored found
  cases cf <;> cases found

variable {p : WriteOp → Prop}

theorem Made.applyOp (made : Made p db) {op : WriteOp} (allowed : p op) : Made p (db.applyOp op) := by
  intro cf key stored found
  rw [find_applyOp] at found
  split_ifs at found with hit
  · obtain ⟨rfl, rfl⟩ := hit
    cases found
    rwa [WriteOp.op_memValue]
  · exact made cf key stored found

variable {batch : WriteBatch}

theorem Made.commitBatch (made : Made p db) (allowed : ∀ op ∈ batch.ops, p op) : Made p (db.commitBatch batch) := by
  have applied : Made p (batch.ops.foldl Db.applyOp db) := by
    obtain ⟨ops⟩ := batch
    induction ops generalizing db with
    | nil => exact made
    | cons op rest ih =>
      exact ih (made.applyOp (allowed op (mem_cons_self ..))) fun op' member =>
        allowed op' (mem_cons_of_mem _ member)
  intro cf key stored found
  rw [family_commitBatch] at found
  exact applied cf key stored found

theorem formed_iff : Formed space db ↔ Made (Fits space) db := by
  constructor
  · intro formed cf key stored found
    match cf, stored with
    | .write, _ =>
      obtain ⟨k, mem, commitTs, startTs, same, rfl⟩ := formed.writes key _ found
      exact ⟨k, mem, commitTs, startTs, same, rfl⟩
    | .lock, .put bytes => exact formed.locks key bytes found
    | .default, .put bytes => exact formed.values key bytes found
    | .lock, .delete | .default, .delete => trivial
  · intro made
    refine ⟨fun key stored found => ?_, fun key bytes => made .lock key (.put bytes),
      fun key bytes => made .default key (.put bytes)⟩
    match stored with
    | .put bytes =>
      obtain ⟨k, mem, commitTs, startTs, same, rfl⟩ := made .write key _ found
      exact ⟨k, mem, commitTs, startTs, same, rfl⟩
    | .delete => exact (made .write key _ found).elim

theorem Formed.commitBatch (formed : Formed space db) (fits : ∀ op ∈ batch.ops, Fits space op) :
    Formed space (db.commitBatch batch) :=
  formed_iff.mpr ((formed_iff.mp formed).commitBatch fits)

theorem Formed.commit_pair (formed : Formed space db) {first second : WriteOp} (fits : Fits space first)
    (fits' : Fits space second) : Formed space (db.commitBatch ⟨[first, second]⟩) :=
  formed.commitBatch (forall_mem_cons.mpr ⟨fits, forall_mem_singleton.mpr fits'⟩)

variable {key bytes : Bytes}

theorem getCf_eq_some {cf : Cf} : db.getCf cf key = some bytes ↔ (db.family cf).find? key = some (.put bytes) := by
  refine ⟨fun found => ?_, fun found => by rw [getCf, found]; rfl⟩
  obtain ⟨stored, bound, present⟩ := Option.bind_eq_some_iff.mp found
  cases stored with
  | delete => cases present
  | put stored =>
    cases present
    exact bound

theorem Legible.getCf_lock (legible : Legible db) (found : db.getCf .lock key = some bytes) :
    ∃ lock, Lock.decode bytes = some lock ∧ db.view.lock key = some ⟨lock.primary, lock.startTs, lock.ttl⟩ := by
  obtain ⟨lock, rfl⟩ := legible.locks key bytes (getCf_eq_some.mp found)
  have decoded := lock.decode_encode_cut
  exact ⟨_, decoded, by simp [view, found, decoded]⟩

theorem Legible.value_decodes (legible : Legible db) (found : db.getCf .default key = some bytes) :
    ∃ value, Value.decode bytes = some value := by
  obtain ⟨value, rfl⟩ := legible.values key bytes (getCf_eq_some.mp found)
  exact ⟨value, Value.decode_encode value⟩

theorem Formed.getCf_lock (formed : Formed space db) (found : db.getCf .lock key = some bytes) :
    ∃ lock, Lock.decode bytes = some lock ∧ lock.primary ∈ space.keys ∧
      db.view.lock key = some ⟨lock.primary, lock.startTs, lock.ttl⟩ := by
  obtain ⟨lock, mem, rfl⟩ := formed.locks key bytes (getCf_eq_some.mp found)
  have decoded := Lock.decode_encode (space.short _ mem)
  exact ⟨lock, decoded, mem, by simp [view, found, decoded]⟩

theorem Legible.lock_eq_none (legible : Legible db) (key : Bytes) :
    db.view.lock key = none ↔ db.getCf .lock key = none := by
  cases found : db.getCf .lock key with
  | none => simp [view, found]
  | some bytes =>
    obtain ⟨lock, -, seen⟩ := legible.getCf_lock found
    simp [seen]

theorem Formed.currentLock (formed : Formed space db) (key : Bytes) : ∃ lock?,
    db.currentLock key = .ok lock? ∧
      db.view.lock key = lock?.map fun lock => ⟨lock.primary, lock.startTs, lock.ttl⟩ := by
  unfold Db.currentLock
  cases found : db.getCf .lock key with
  | none => exact ⟨none, rfl, (formed.legible.lock_eq_none key).mpr found⟩
  | some bytes =>
    obtain ⟨lock, decoded, -, seen⟩ := formed.getCf_lock found
    exact ⟨some lock, by simp only [decoded], seen⟩

theorem Recorded.commit_eq_some {keys : Set Bytes} (recorded : Recorded keys db) {k : Bytes} {commitTs startTs : Ts} :
    db.view.commit k commitTs = some startTs ↔
      db.writeCf.find? (encodeDataKey k commitTs) = some (.put (encodeWriteValue startTs)) := by
  constructor
  · intro seen
    obtain ⟨bytes, found, decoded⟩ := Option.bind_eq_some_iff.mp seen
    have bound : db.writeCf.find? _ = _ := getCf_eq_some.mp found
    obtain ⟨-, -, -, startTs', -, same⟩ := recorded _ _ bound
    cases same
    rw [decodeWriteValue_encodeWriteValue] at decoded
    cases decoded
    exact bound
  · intro found
    have present : db.getCf .write (encodeDataKey k commitTs) = some (encodeWriteValue startTs) := getCf_eq_some.mpr found
    simp only [view, present, Option.bind_some, decodeWriteValue_encodeWriteValue]

def Alone (db : Db) (k : Bytes) : Prop := ∀ k' c s, db.view.commit k' c = some s → k' <+: k ∨ k <+: k' → k' = k

variable {c s : Ts}

theorem Alone.apart {k k' : Bytes} (alone : db.Alone k) (seen : db.view.commit k' c = some s)
    (differ : k' ≠ k) : ¬ k <+: k' ∧ ¬ k' <+: k :=
  ⟨fun start => differ (alone k' c s seen (.inr start)), fun start => differ (alone k' c s seen (.inl start))⟩

theorem Recorded.mem {keys : Set Bytes} (recorded : Recorded keys db) {k : Bytes}
    (seen : db.view.commit k c = some s) : k ∈ keys := by
  obtain ⟨k', mem, c', s', same, -⟩ := recorded _ _ (recorded.commit_eq_some.mp seen)
  obtain ⟨rfl, -⟩ := encodeDataKey_inj.mp same
  exact mem

theorem Recorded.alone {keys : Set Bytes} (recorded : Recorded keys db) (apart : Apart keys) {k : Bytes}
    (mem : k ∈ keys) : db.Alone k := by
  intro k' c s seen start
  have mem' := recorded.mem seen
  exact start.elim (apart k' mem' k mem) fun start => (apart k mem k' mem' start).symm

theorem Formed.alone (formed : Formed space db) {k : Bytes} (mem : k ∈ space.keys) : db.Alone k :=
  formed.recorded.alone space.apart mem

/-- Where a seek from `low` finds the versions of `k` below `bound` and no newer ones. -/
structure Cut (k : Bytes) (bound : Nat) (low : Bytes) : Prop where
  start : encodeDataKey k maxTs ≤ low
  versions : ∀ ts : Ts, low ≤ encodeDataKey k ts ↔ ts.toNat < bound

theorem encodeDataKey_le (k : Bytes) {ts ts' : Ts} (le : ts ≤ ts') : encodeDataKey k ts' ≤ encodeDataKey k ts := by
  rwa [← not_lt, encodeDataKey_lt_encodeDataKey, not_lt]

theorem cut_at (k : Bytes) (ts : Ts) : Cut k (ts.toNat + 1) (encodeDataKey k ts) where
  start := encodeDataKey_le k (le_maxTs ts)
  versions ts' := by
    rw [← not_lt, encodeDataKey_lt_encodeDataKey, not_lt, UInt64.le_iff_toNat_le, Nat.lt_succ_iff]

theorem cut_after (k : Bytes) (ts : Ts) : Cut k ts.toNat (encodeDataKey k ts ++ [0]) where
  start := (encodeDataKey_le k (le_maxTs ts)).trans (not_lt.mp (List.not_lt.mpr List.le_append_left))
  versions ts' := by
    rw [concat_le_iff (fun b => UInt8.zero_le), encodeDataKey_lt_encodeDataKey, UInt64.lt_iff_toNat_lt]

/-- No record of another key sorts between `low` and the version `c` of `k`. -/
def InSight (db : Db) (low k : Bytes) (c : Ts) : Prop := ∀ k' c' s', db.view.commit k' c' = some s' →
  low ≤ encodeDataKey k' c' → encodeDataKey k' c' < encodeDataKey k c → k' = k

section

variable {keys : Set Bytes} {k low : Bytes} {bound : Nat}

theorem Alone.inSight (alone : db.Alone k) (cut : Cut k bound low) (c : Ts) : db.InSight low k c := by
  intro k' c' s' seen above before
  by_contra differ
  obtain ⟨left, right⟩ := alone.apart seen differ
  have less : k' < k := (append_lt_append_of_apart right left _ _).mp before
  exact (cut.start.trans above).not_gt ((append_lt_append_of_apart right left _ _).mpr less)

/-- A seek finds the newest version of `k` below the bound, unless a record of another key hides all of them. -/
theorem Recorded.seek_write (recorded : Recorded keys db) (cut : Cut k bound low) :
    (∃ commitTs startTs, db.seekCf .write low = some (encodeDataKey k commitTs, .put (encodeWriteValue startTs)) ∧
      db.view.commit k commitTs = some startTs ∧ commitTs.toNat < bound ∧ db.InSight low k commitTs ∧
      ∀ c s, db.view.commit k c = some s → c.toNat < bound → c ≤ commitTs) ∨
    ((∀ c s, db.view.commit k c = some s → c.toNat < bound → ¬ db.InSight low k c) ∧
      (db.seekCf .write low = none ∨ ∃ k' c v, k' ≠ k ∧ db.seekCf .write low = some (encodeDataKey k' c, v))) := by
  have below {c s : Ts} (seen : db.view.commit k c = some s) (small : c.toNat < bound) :
      db.writeCf.find? (encodeDataKey k c) = some (.put (encodeWriteValue s)) ∧ low ≤ encodeDataKey k c :=
    ⟨recorded.commit_eq_some.mp seen, (cut.versions c).mpr small⟩
  cases found : db.seekCf .write low with
  | none =>
    refine .inr ⟨fun c s seen small => ?_, .inl rfl⟩
    obtain ⟨bound, above⟩ := below seen small
    exact absurd above (OrdMap.seek_eq_none.mp found _ _ bound).not_ge
  | some entry =>
    obtain ⟨key, stored⟩ := entry
    obtain ⟨held, above, least⟩ := OrdMap.seek_eq_some.mp found
    obtain ⟨k', -, commitTs, startTs, rfl, rfl⟩ := recorded _ _ held
    have seen' := recorded.commit_eq_some.mpr held
    rcases eq_or_ne k' k with rfl | differ
    · refine .inl ⟨commitTs, startTs, rfl, seen', (cut.versions _).mp above, ?_, ?_⟩
      · intro k'' c'' s'' other notBelow before
        exact absurd before (least _ _ (recorded.commit_eq_some.mp other) notBelow).not_gt
      · intro c s seen small
        obtain ⟨there, notBelow⟩ := below seen small
        have first := least _ _ there notBelow
        rwa [← not_lt, encodeDataKey_lt_encodeDataKey, not_lt] at first
    · refine .inr ⟨fun c s seen small sight => ?_, .inr ⟨k', commitTs, _, differ, rfl⟩⟩
      obtain ⟨there, notBelow⟩ := below seen small
      refine differ (sight k' commitTs startTs seen' above (lt_of_le_of_ne (least _ _ there notBelow) fun same => ?_))
      exact differ (encodeDataKey_inj.mp same).1

theorem Recorded.seek_alone (recorded : Recorded keys db) (alone : db.Alone k) (cut : Cut k bound low) :
    (∃ commitTs startTs, db.seekCf .write low = some (encodeDataKey k commitTs, .put (encodeWriteValue startTs)) ∧
      db.view.commit k commitTs = some startTs ∧ commitTs.toNat < bound ∧
      ∀ c s, db.view.commit k c = some s → c.toNat < bound → c ≤ commitTs) ∨
    ((∀ c s, db.view.commit k c = some s → ¬ c.toNat < bound) ∧
      (db.seekCf .write low = none ∨ ∃ k' c v, k' ≠ k ∧ db.seekCf .write low = some (encodeDataKey k' c, v))) := by
  rcases recorded.seek_write cut with ⟨c, s, found, seen, below, -, newest⟩ | ⟨hidden, other⟩
  · exact .inl ⟨c, s, found, seen, below, newest⟩
  · exact .inr ⟨fun c s seen small => hidden c s seen small (alone.inSight cut c), other⟩

theorem Recorded.newerCommit_sighted (recorded : Recorded keys db) (k : Bytes) (startTs : Ts) :
    db.newerCommit k startTs = true ↔
      ∃ c s, db.view.commit k c = some s ∧ startTs ≤ c ∧ db.InSight (encodeDataKey k maxTs) k c := by
  have every (c : Ts) : c.toNat < maxTs.toNat + 1 := Nat.lt_succ_of_le (UInt64.le_iff_toNat_le.mp (le_maxTs c))
  unfold newerCommit
  rcases recorded.seek_write (cut_at k maxTs) with
    ⟨c, s, found, seen, -, sight, newest⟩ | ⟨hidden, missed | ⟨k', c, v, differ, found⟩⟩
  · simp only [found, decodeDataKey_encodeDataKey, true_and, ge_iff_le, decide_eq_true_eq]
    refine ⟨fun later => ⟨c, s, seen, later, sight⟩, fun ⟨c', s', seen', later, _⟩ => ?_⟩
    exact later.trans (newest c' s' seen' (every c'))
  · simp only [missed, Bool.false_eq_true, false_iff, not_exists, not_and]
    exact fun c s seen _ => hidden c s seen (every c)
  · simp only [found, decodeDataKey_encodeDataKey, differ, false_and, decide_false, Bool.false_eq_true, false_iff,
      not_exists, not_and]
    exact fun c s seen _ => hidden c s seen (every c)

theorem Recorded.newerCommit_iff (recorded : Recorded keys db) (alone : db.Alone k) (startTs : Ts) :
    db.newerCommit k startTs = true ↔ ∃ c s, db.view.commit k c = some s ∧ startTs ≤ c := by
  simp [recorded.newerCommit_sighted, alone.inSight (cut_at k maxTs)]

end

/-- The check of a prewrite passes exactly when the key is unlocked and all its commits are older. -/
theorem checkPrewrite_iff (formed : Formed space db) {k : Bytes} (mem : k ∈ space.keys) (startTs : Ts) :
    db.checkPrewrite k startTs = .ok () ↔ db.view.Clear k startTs := by
  have newer := formed.recorded.newerCommit_iff (formed.alone mem) startTs
  have unlocked := formed.legible.lock_eq_none k
  rw [checkPrewrite, Store.Clear, Store.owner_eq_none, unlocked]
  by_cases conflict : db.newerCommit k startTs = true
  · obtain ⟨c, s, seen, later⟩ := newer.mp conflict
    rw [if_pos conflict]
    exact ⟨nofun, fun clear => absurd (clear.2 c s seen) later.not_gt⟩
  · have older : ∀ c s, db.view.commit k c = some s → c < startTs := fun c s seen =>
      lt_of_not_ge fun later => conflict (newer.mpr ⟨c, s, seen, later⟩)
    rw [if_neg conflict]
    cases db.getCf .lock k with
    | none => simpa using older
    | some bytes => simp

theorem view_commitBatch (db : Db) (batch : WriteBatch) :
    (db.commitBatch batch).view = (batch.ops.foldl applyOp db).view := by
  simp only [view, getCf_commitBatch]

@[simp] theorem view_put_default (db : Db) (key : Bytes) (startTs : Ts) (value : Value) :
    (db.applyOp (.put .default (encodeDataKey key startTs) value.encode)).view =
      { db.view with value := fun k s => if k = key ∧ s = startTs then some value else db.view.value k s } := by
  ext1 <;> funext k
  · simp [view, getCf_applyOp, WriteOp.cf]
  · simp [view, getCf_applyOp, WriteOp.cf]
  · funext s
    simp only [view, getCf_applyOp, WriteOp.cf, WriteOp.key, WriteOp.memValue, encodeDataKey_inj, true_and]
    split_ifs <;> simp [MemValue.intoPresent]

@[simp] theorem view_delete_default (db : Db) (key : Bytes) (startTs : Ts) :
    (db.applyOp (.delete .default (encodeDataKey key startTs))).view =
      { db.view with value := fun k s => if k = key ∧ s = startTs then none else db.view.value k s } := by
  ext1 <;> funext k
  · simp [view, getCf_applyOp, WriteOp.cf]
  · simp [view, getCf_applyOp, WriteOp.cf]
  · funext s
    simp only [view, getCf_applyOp, WriteOp.cf, WriteOp.key, WriteOp.memValue, encodeDataKey_inj, true_and]
    split_ifs <;> rfl

@[simp] theorem view_put_write (db : Db) (key : Bytes) (commitTs startTs : Ts) :
    (db.applyOp (.put .write (encodeDataKey key commitTs) (encodeWriteValue startTs))).view =
      { db.view with commit := fun k c => if k = key ∧ c = commitTs then some startTs else db.view.commit k c } := by
  ext1 <;> funext k
  · simp [view, getCf_applyOp, WriteOp.cf]
  · funext c
    simp only [view, getCf_applyOp, WriteOp.cf, WriteOp.key, WriteOp.memValue, encodeDataKey_inj, true_and]
    split_ifs <;> simp [MemValue.intoPresent]
  · simp [view, getCf_applyOp, WriteOp.cf]

theorem view_put_lock (db : Db) (key : Bytes) {lock : Lock} (short : lock.primary.length < 2 ^ 32) :
    (db.applyOp (.put .lock key lock.encode)).view = { db.view with
      lock := fun k => if k = key then some ⟨lock.primary, lock.startTs, lock.ttl⟩ else db.view.lock k } := by
  ext1 <;> funext k
  · simp only [view, getCf_applyOp, WriteOp.cf, WriteOp.key, WriteOp.memValue, true_and]
    split_ifs <;> simp [MemValue.intoPresent, Lock.decode_encode short]
  · simp [view, getCf_applyOp, WriteOp.cf]
  · simp [view, getCf_applyOp, WriteOp.cf]

@[simp] theorem view_delete_lock (db : Db) (key : Bytes) :
    (db.applyOp (.delete .lock key)).view =
      { db.view with lock := fun k => if k = key then none else db.view.lock k } := by
  ext1 <;> funext k
  · simp only [view, getCf_applyOp, WriteOp.cf, WriteOp.key, WriteOp.memValue, true_and]
    split_ifs <;> rfl
  · simp [view, getCf_applyOp, WriteOp.cf]
  · simp [view, getCf_applyOp, WriteOp.cf]

theorem view_prewriteBatch (db : Db) (key : Bytes) (value : Value) {primary : Bytes} (short : primary.length < 2 ^ 32)
    (startTs ttl : Ts) (kind : LockKind) :
    (db.commitBatch (buildPrewriteBatch ⟨key, value.encode, primary, startTs, ttl, kind⟩)).view =
      db.view.prewrite key value ⟨primary, startTs, ttl⟩ := by
  rw [view_commitBatch, buildPrewriteBatch]
  simp only [WriteBatch.put, nil_append, cons_append, foldl_cons, foldl_nil]
  rw [view_put_lock _ _ (by exact short), view_put_default]
  rfl

theorem view_commitKeyBatch (db : Db) (key : Bytes) (startTs commitTs : Ts) :
    (db.commitBatch (buildResolveBatch ⟨key, startTs, .commit commitTs⟩)).view =
      db.view.commitKey key startTs commitTs := by
  simp [view_commitBatch, buildResolveBatch, WriteBatch.put, WriteBatch.delete, Store.commitKey]

theorem view_rollBackBatch (db : Db) (key : Bytes) (startTs : Ts) :
    (db.commitBatch (buildResolveBatch ⟨key, startTs, .rollback⟩)).view = db.view.rollBack key startTs := by
  simp [view_commitBatch, buildResolveBatch, WriteBatch.delete, Store.rollBack]

theorem process_prewrite (formed : Formed space db) {key primary : Bytes} (mem : key ∈ space.keys)
    (home : primary ∈ space.keys) (value : Value) (startTs ttl : Ts) (kind : LockKind) :
    let done := db.process (.prewrite ⟨key, value.encode, primary, startTs, ttl, kind⟩)
    db.view.Clear key startTs ∧ (∃ seq, done.2 = .ok seq) ∧ Formed space done.1 ∧
        done.1.view = db.view.prewrite key value ⟨primary, startTs, ttl⟩ ∨
      ¬ db.view.Clear key startTs ∧ (∃ e, done.2 = .error e) ∧ done.1 = db := by
  have check := checkPrewrite_iff formed mem startTs
  simp only [process]
  cases answer : db.checkPrewrite key startTs with
  | error e =>
    rw [answer] at check
    exact .inr ⟨fun clear => (nomatch check.mpr clear), ⟨e, rfl⟩, rfl⟩
  | ok _ =>
    refine .inl ⟨check.mp answer, ⟨_, rfl⟩, formed.commit_pair ⟨value, rfl⟩ ⟨_, home, rfl⟩, ?_⟩
    exact view_prewriteBatch db key value (space.short _ home) startTs ttl kind

theorem Formed.resolve_cases (formed : Formed space db) (spec : ResolveSpec) :
    db.view.owner spec.key = some spec.startTs ∧
        db.process (.resolve spec) = (db.commitBatch (buildResolveBatch spec), .ok (db.seq + 1)) ∨
      db.view.owner spec.key ≠ some spec.startTs ∧ db.process (.resolve spec) = (db, .ok 0) := by
  obtain ⟨lock?, answer, seen⟩ := formed.currentLock spec.key
  simp only [process, answer, Store.owner, seen]
  cases lock? with
  | none => exact .inr ⟨by rintro ⟨⟩, rfl⟩
  | some lock =>
    by_cases same : lock.startTs = spec.startTs
    · exact .inl ⟨congrArg some same, if_pos same⟩
    · exact .inr ⟨fun owned => same (Option.some.inj owned), if_neg same⟩

theorem view_process_resolve (formed : Formed space db) (key : Bytes) (startTs : Ts) (action : ResolveAction) :
    (db.process (.resolve ⟨key, startTs, action⟩)).1.view =
      if db.view.owner key = some startTs then
        match action with
        | .commit commitTs => db.view.commitKey key startTs commitTs
        | .rollback => db.view.rollBack key startTs
      else db.view := by
  rcases formed.resolve_cases ⟨key, startTs, action⟩ with ⟨owned, done⟩ | ⟨other, done⟩
  · rw [done, if_pos owned]
    cases action with
    | commit commitTs => exact view_commitKeyBatch db key startTs commitTs
    | rollback => exact view_rollBackBatch db key startTs
  · rw [done, if_neg other]

theorem process_resolve (formed : Formed space db) {key : Bytes} (mem : key ∈ space.keys) (startTs : Ts)
    (action : ResolveAction) : let done := db.process (.resolve ⟨key, startTs, action⟩)
    (∃ seq, done.2 = .ok seq) ∧ Formed space done.1 := by
  rcases formed.resolve_cases ⟨key, startTs, action⟩ with ⟨-, done⟩ | ⟨-, done⟩ <;> rw [done]
  · refine ⟨⟨_, rfl⟩, ?_⟩
    cases action with
    | commit commitTs => exact formed.commit_pair ⟨key, mem, commitTs, startTs, rfl, rfl⟩ trivial
    | rollback => exact formed.commit_pair trivial trivial
  · exact ⟨⟨0, rfl⟩, formed⟩

end Db

end Arcux.Engine
