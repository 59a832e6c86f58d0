import Arcux.Engine.Sequential

namespace Arcux.Engine

open Codec Data List
open scoped Codec.ByteOrder

def WriteOp.Issued : WriteOp → Prop
  | .put .write key value => ∃ k commitTs startTs, key = encodeDataKey k commitTs ∧ value = encodeWriteValue startTs
  | .put .lock _ value => ∃ lock : Lock, value = lock.encode
  | .put .default _ value => ∃ v : Value, value = v.encode
  | .delete .write _ => False
  | .delete _ _ => True

def Op.Issued : Op → Prop
  | .write batch => ∀ op ∈ batch.ops, op.Issued
  | .prewrite spec => ∃ v : Value, spec.value = v.encode
  | .resolve _ => True

namespace Db

def requests (ops : List Op) : Db := ops.foldl (fun db op => (db.process op).1) .empty

theorem Made.process {db : Db} (made : db.Made WriteOp.Issued) {op : Op} (issued : op.Issued) :
    (db.process op).1.Made WriteOp.Issued := by
  cases op with
  | write batch => exact made.commitBatch issued
  | prewrite spec =>
    simp only [Db.process]
    split
    · refine made.commitBatch (forall_mem_cons.mpr ⟨issued, forall_mem_singleton.mpr ⟨_, rfl⟩⟩)
    · exact made
  | resolve spec =>
    simp only [Db.process]
    split
    · split
      · refine made.commitBatch ?_
        unfold buildResolveBatch
        split
        · exact forall_mem_cons.mpr ⟨⟨_, _, _, rfl, rfl⟩, forall_mem_singleton.mpr trivial⟩
        · exact forall_mem_cons.mpr ⟨trivial, forall_mem_singleton.mpr trivial⟩
      · exact made
    · exact made
    · exact made

theorem Made.legible {db : Db} (made : db.Made WriteOp.Issued) : db.Legible where
  recorded key stored found := by
    match stored with
    | .put bytes =>
      obtain ⟨k, commitTs, startTs, same, rfl⟩ := made .write key _ found
      exact ⟨k, trivial, commitTs, startTs, same, rfl⟩
    | .delete => exact (made .write key _ found).elim
  locks key bytes := made .lock key (.put bytes)
  values key bytes := made .default key (.put bytes)

theorem legible_requests {ops : List Op} (issued : ∀ op ∈ ops, op.Issued) : (requests ops).Legible := by
  have made : ∀ db : Db, db.Made WriteOp.Issued → (ops.foldl (fun db op => (db.process op).1) db).Made WriteOp.Issued := by
    induction ops with
    | nil => exact fun _ made => made
    | cons op rest ih =>
      exact fun db made => ih (fun op' member => issued op' (mem_cons_of_mem _ member)) _
        (made.process (issued op (mem_cons_self ..)))
  exact (made .empty (made_empty _)).legible

end Db

def committedTxn (key : Bytes) (value : Value) (startTs commitTs : Ts) : List Op :=
  let txn : Transaction := ⟨startTs, ⟨key, value⟩, []⟩
  [.prewrite ⟨key, value.encode, txn.primary, startTs, commitTs, value.lockKind⟩, .write (txn.primaryBatch commitTs)]

theorem issued_committedTxn (key : Bytes) (value : Value) (startTs commitTs : Ts) :
    ∀ op ∈ committedTxn key value startTs commitTs, op.Issued := by
  refine forall_mem_cons.mpr ⟨⟨value, rfl⟩, forall_mem_singleton.mpr ?_⟩
  exact forall_mem_cons.mpr ⟨⟨_, _, _, rfl, rfl⟩, forall_mem_singleton.mpr trivial⟩

def nested : List Op := committedTxn [1] (.put [7]) 5 10 ++ committedTxn [1, 0] (.put [8]) 6 11

theorem issued_nested : ∀ op ∈ nested, op.Issued :=
  forall_mem_append.mpr ⟨issued_committedTxn _ _ _ _, issued_committedTxn _ _ _ _⟩

variable {db : Db} {k : Bytes}

theorem Db.mem_of_commit {c s : Ts} (seen : db.view.commit k c = some s) :
    ∃ bytes, (encodeDataKey k c, .put bytes) ∈ db.writeCf.entries := by
  obtain ⟨bytes, found, -⟩ := Option.bind_eq_some_iff.mp seen
  exact ⟨bytes, OrdMap.find?_eq_some.mp (Db.getCf_eq_some.mp found)⟩

theorem Db.inSight_of_entries {low : Bytes} {c : Ts} (each : ∀ e ∈ db.writeCf.entries, low ≤ e.1 →
    e.1 < encodeDataKey k c → (decodeDataKey e.1).all fun version => version.1 = k) : db.InSight low k c := by
  intro k' c' s' seen above before
  obtain ⟨bytes, member⟩ := Db.mem_of_commit seen
  have entry := each _ member above before
  rw [decodeDataKey_encodeDataKey] at entry
  exact of_decide_eq_true entry

theorem Db.free_of_entries (db : Db) (each : ∀ e ∈ db.lockCf.entries, e.2 = .delete) (key : Bytes) :
    db.getCf .lock key = none := by
  rw [Option.eq_none_iff_forall_ne_some]
  intro bytes found
  cases each _ (OrdMap.find?_eq_some.mp (Db.getCf_eq_some.mp found))

theorem commit_nested {c s : Ts} (seen : (Db.requests nested).view.commit [1] c = some s) : c = 10 := by
  have entries : (Db.requests nested).writeCf.entries =
      [(encodeDataKey [1, 0] 11, .put (encodeWriteValue 6)), (encodeDataKey [1] 10, .put (encodeWriteValue 5))] := by
    decide
  obtain ⟨bytes, member⟩ := Db.mem_of_commit seen
  rw [entries] at member
  simp only [mem_cons, Prod.mk.injEq, encodeDataKey_inj, not_mem_nil, or_false] at member
  exact member.elim (fun other => absurd other.1.1 (by decide)) fun same => same.1.2

theorem shows_nested : (Db.requests nested).view.Shows [1] maxTs (some (.put [7])) := by
  have committed : (Db.requests nested).view.commit [1] 10 = some 5 := by decide
  have valued : some (.put [7]) = (Db.requests nested).view.value [1] 5 := by decide
  exact .inl ⟨10, 5, committed, le_maxTs 10, fun c s seen _ => (commit_nested seen).le, valued⟩

theorem Runs.unique {α : Type} {p : Steps α} {db db₁ db₂ : Db} {a b : α} (first : Runs p db db₁ a)
    (second : Runs p db db₂ b) : a = b := by
  cases (first .fresh).symm.trans (second .fresh)
  rfl

theorem prewriteOne_conflict_iff (value : Value) (primary : Bytes) (startTs ttl : Ts) :
    (∃ msg db', Runs (prewriteOne k value primary startTs ttl).run db db' (.error (.conflict msg))) ↔
      db.newerCommit k startTs = true ∨ (db.getCf .lock k).isSome := by
  have runs : Runs (prewriteOne k value primary startTs ttl).run db _ _ := Runs.submit _
  have answer : (∃ msg db', Runs (prewriteOne k value primary startTs ttl).run db db' (.error (.conflict msg))) ↔
      ∃ msg, (db.process (.prewrite ⟨k, value.encode, primary, startTs, ttl, value.lockKind⟩)).2 =
        .error (.conflict msg) := by
    refine exists_congr fun msg => ⟨fun ⟨db', refused⟩ => runs.unique refused, fun same => ⟨_, same ▸ runs⟩⟩
  rw [answer]
  simp only [Db.process, Db.checkPrewrite]
  by_cases newer : db.newerCommit k startTs = true
  · simp [newer]
  · by_cases locked : (db.getCf .lock k).isSome
    · simp [newer, locked]
    · simp [newer, locked]

/-- Of the versions of `k` with the property, if there are any, one is in sight from `low`. -/
def Db.Sighted (db : Db) (low k : Bytes) (p : Ts → Ts → Prop) : Prop :=
  (∃ c s, db.view.commit k c = some s ∧ p c s) → ∃ c s, db.view.commit k c = some s ∧ p c s ∧ db.InSight low k c

/-- A prewrite is refused exactly if the key is locked or has a commit at its start timestamp or later, up to such commits
that records of other keys hide from the seek for the newest one. -/
theorem prewrite_detects_conflicts (ops : List Op) (issued : ∀ op ∈ ops, op.Issued) (k : Bytes) (value : Value)
    (primary : Bytes) (startTs ttl : Ts) :
    ((∃ msg db', Runs (prewriteOne k value primary startTs ttl).run (.requests ops) db' (.error (.conflict msg))) ↔
      ((Db.requests ops).getCf .lock k).isSome ∨
        ∃ c s, (Db.requests ops).view.commit k c = some s ∧ startTs ≤ c) ↔
    ((Db.requests ops).getCf .lock k).isSome ∨
      (Db.requests ops).Sighted (encodeDataKey k maxTs) k fun c _ => startTs ≤ c := by
  rw [prewriteOne_conflict_iff, (Db.legible_requests issued).recorded.newerCommit_sighted, Db.Sighted]
  constructor
  · refine fun detects => or_iff_not_imp_left.mpr fun unlocked committed => ?_
    exact (detects.mpr (.inr committed)).resolve_right unlocked
  · rintro (locked | sighted)
    · exact ⟨fun _ => .inl locked, fun _ => .inr locked⟩
    · refine ⟨fun refused => ?_, fun conflict => conflict.symm.imp_left sighted⟩
      exact refused.symm.imp_right fun ⟨c, s, seen, later, _⟩ => ⟨c, s, seen, later⟩

/-- The key `[1, 0]` is found although `[1]` is committed as well. -/
theorem prewrite_detects_conflicts_nested :
    ∃ msg db', Runs (prewriteOne [1, 0] (.put [9]) [1] 7 20).run (.requests nested) db' (.error (.conflict msg)) := by
  have committed : (Db.requests nested).view.commit [1, 0] 11 = some 6 := by decide
  refine ((prewrite_detects_conflicts nested issued_nested [1, 0] (.put [9]) [1] 7 20).mpr ?_).mpr
    (.inr ⟨11, 6, committed, by decide⟩)
  exact .inr fun _ => ⟨11, 6, committed, by decide, Db.inSight_of_entries (by decide)⟩

/-- The commit of `[1]` at 10 is not seen by a prewrite at 7, since a version of `[1, 0]` is in front of it. -/
theorem prewrite_misses_conflict : (∀ op ∈ nested, op.Issued) ∧
    ¬ ((∃ msg db', Runs (prewriteOne [1] (.put [9]) [1] 7 20).run (.requests nested) db' (.error (.conflict msg))) ↔
      ((Db.requests nested).getCf .lock [1]).isSome ∨
        ∃ c s, (Db.requests nested).view.commit [1] c = some s ∧ 7 ≤ c) := by
  refine ⟨issued_nested, ?_⟩
  rw [prewriteOne_conflict_iff]
  have passes : ¬ ((Db.requests nested).newerCommit [1] 7 = true ∨ ((Db.requests nested).getCf .lock [1]).isSome) := by
    decide
  have committed : (Db.requests nested).view.commit [1] 10 = some 5 := by decide
  exact fun same => passes (same.mpr (.inr ⟨10, 5, committed, by decide⟩))

theorem findCommitFrom_other {k' low : Bytes} {c : Ts} {stored : MemValue} (differ : k' ≠ k)
    (found : db.seekCf .write low = some (encodeDataKey k' c, stored)) (startTs : Ts) (rounds : Nat) :
    Runs (findCommitFrom k startTs (rounds + 1) low).run db db (.ok none) := by
  refine (Runs.seekCfRaw found).ok ((Runs.decodeOr (decodeDataKey_encodeDataKey k' c) _).ok ?_)
  simpa [differ] using Runs.ret _

def Db.LatestBy (db : Db) (k : Bytes) (startTs : Ts) (bound : Nat) (low : Bytes) : Option Ts → Prop
  | some c => (db.view.commit k c = some startTs ∧ c.toNat < bound ∧ db.InSight low k c) ∧
      ∀ c' : Ts, c'.toNat < bound → db.view.commit k c' = some startTs → c' ≤ c
  | none => ∀ c : Ts, c.toNat < bound → db.view.commit k c = some startTs → ¬ db.InSight low k c

/-- Behind the version that a seek has found, the same versions are in sight. -/
theorem Db.inSight_after {low : Bytes} {c : Ts} (sight : db.InSight low k c) (above : low ≤ encodeDataKey k c) (c' : Ts) :
    db.InSight (encodeDataKey k c ++ [0]) k c' ↔ db.InSight low k c' := by
  refine ⟨fun rest k' v s seen from' before => ?_, fun all k' v s seen from' before => ?_⟩
  · rcases lt_or_ge (encodeDataKey k c) (encodeDataKey k' v) with after | le
    · exact rest k' v s seen ((concat_le_iff (fun b => UInt8.zero_le) _ _).mpr after) before
    · rcases le.lt_or_eq with less | same
      · exact sight k' v s seen from' less
      · exact (encodeDataKey_inj.mp same).1
  · exact all k' v s seen (above.trans ((concat_le_iff (fun b => UInt8.zero_le) _ _).mp from').le) before

theorem findCommitFrom_runs (recorded : db.Recorded Set.univ) (startTs : Ts) (rounds : Nat) {bound : Nat} {low : Bytes}
    (cut : Db.Cut k bound low) (enough : bound < rounds) :
    ∃ commitTs, Runs (findCommitFrom k startTs rounds low).run db db (.ok commitTs) ∧
      db.LatestBy k startTs bound low commitTs := by
  induction rounds generalizing bound low with
  | zero => exact absurd enough (Nat.not_lt_zero _)
  | succ rounds ih =>
    rcases recorded.seek_write cut with
      ⟨c, s, found, seen, below, sight, newest⟩ | ⟨hidden, missed | ⟨k', c, v, differ, found⟩⟩
    · have seek := Runs.seekCfRaw found
      have decoded : Runs (decodeOr (decodeDataKey (encodeDataKey k c)) "write-cf key decode").run db db _ :=
        Runs.decodeOr (decodeDataKey_encodeDataKey k c) _
      rcases eq_or_ne s startTs with rfl | other
      · refine ⟨some c, seek.ok (decoded.ok ?_), ⟨seen, below, sight⟩, fun c' small pointed => newest c' _ pointed small⟩
        simpa using Runs.ret _
      · obtain ⟨commitTs, runs, latest⟩ := ih (Db.cut_after k c) (by omega)
        refine ⟨commitTs, seek.ok (decoded.ok ?_), ?_⟩
        · simpa [other] using runs
        · have after := Db.inSight_after sight ((cut.versions c).mpr below)
          have older {c' : Ts} (small : c'.toNat < bound) (pointed : db.view.commit k c' = some startTs) :
              c'.toNat < c.toNat := by
            rcases (newest c' _ pointed small).lt_or_eq with older | rfl
            · exact UInt64.lt_iff_toNat_lt.mp older
            · exact absurd (Option.some.inj (seen.symm.trans pointed)) other
          cases commitTs with
          | none => exact fun c' small pointed => (after c').not.mp (latest c' (older small pointed) pointed)
          | some c'' =>
            obtain ⟨⟨found, lower, sight'⟩, highest⟩ := latest
            exact ⟨⟨found, lower.trans below, (after c'').mp sight'⟩, fun c' small pointed =>
              highest c' (older small pointed) pointed⟩
    · exact ⟨none, (Runs.seekCfRaw missed).ok (Runs.ret _), fun c small pointed => hidden c _ pointed small⟩
    · exact ⟨none, findCommitFrom_other differ found startTs rounds, fun c small pointed => hidden c _ pointed small⟩

def Db.Verdict (db : Db) (primary : Bytes) (startTs : Ts) : TxnStatus → Prop
  | .committed commitTs => db.view.commit primary commitTs = some startTs
  | .rolledBack => ∀ commitTs, db.view.commit primary commitTs ≠ some startTs
  | .locked _ => False

theorem verdict_runs (recorded : db.Recorded Set.univ) (k : Bytes) (startTs : Ts) :
    ∃ status, Runs (verdict k startTs).run db db (.ok status) ∧
      (db.Verdict k startTs status ↔ db.Sighted (encodeDataKey k maxTs) k fun _ s => s = startTs) := by
  have every (c : Ts) : c.toNat < maxTs.toNat + 1 := Nat.lt_succ_of_le (UInt64.le_iff_toNat_le.mp (le_maxTs c))
  obtain ⟨commitTs, runs, latest⟩ :=
    findCommitFrom_runs recorded startTs (2 ^ 64 + 1) (Db.cut_at k maxTs) (by decide)
  cases commitTs with
  | some c =>
    refine ⟨.committed c, Runs.ok runs (Runs.ret _), fun _ _ => ?_, fun _ => latest.1.1⟩
    exact ⟨c, startTs, latest.1.1, rfl, latest.1.2.2⟩
  | none =>
    refine ⟨.rolledBack, Runs.ok runs (Runs.ret _), fun absent => ?_, fun sighted c pointed => ?_⟩
    · rintro ⟨c, _, pointed, rfl⟩
      exact absurd pointed (absent c)
    · obtain ⟨c', _, pointed', rfl, sight⟩ := sighted ⟨c, startTs, pointed, rfl⟩
      exact latest c' (every c') pointed' sight

/-- A transaction that does not hold the lock on its primary is reported committed exactly if the primary has its commit
record, up to records that those of other keys hide. -/
theorem txn_status_exact (ops : List Op) (issued : ∀ op ∈ ops, op.Issued) (primary : Bytes) (startTs nowTs : Ts)
    (free : (Db.requests ops).view.owner primary ≠ some startTs) :
    (∃ status, (Db.requests ops).Verdict primary startTs status ∧
      Runs (checkTxnStatus primary startTs nowTs).run (.requests ops) (.requests ops) (.ok status) ∧
      Runs (checkTxnStatusPeek primary startTs).run (.requests ops) (.requests ops) (.ok status)) ↔
    (Db.requests ops).Sighted (encodeDataKey primary maxTs) primary fun _ s => s = startTs := by
  have legible := Db.legible_requests issued
  obtain ⟨status, runs, exact⟩ := verdict_runs legible.recorded primary startTs
  have both : Runs (checkTxnStatus primary startTs nowTs).run (.requests ops) (.requests ops) (.ok status) ∧
      Runs (checkTxnStatusPeek primary startTs).run (.requests ops) (.requests ops) (.ok status) := by
    cases held : (Db.requests ops).getCf .lock primary with
    | none => exact ⟨(Runs.getCfRaw held).ok runs, (Runs.getCfRaw held).ok runs⟩
    | some bytes =>
      obtain ⟨lock, decoded, seen⟩ := legible.getCf_lock held
      have other : lock.startTs ≠ startTs := fun same => free (by rw [Percolator.Store.owner, seen, ← same]; rfl)
      have look := Runs.getCfRaw held
      refine ⟨look.ok ((Runs.decodeOr decoded _).ok ?_), look.ok ((Runs.decodeOr decoded _).ok ?_)⟩
      all_goals simpa [other] using runs
  rw [← exact]
  refine ⟨?_, fun verdict => ⟨status, verdict, both⟩⟩
  rintro ⟨status', verdict, answer, -⟩
  rwa [← Except.ok.inj (answer.unique both.1)]

theorem txn_status_exact_nested : ∃ status, (Db.requests nested).Verdict [1, 0] 6 status ∧
    Runs (checkTxnStatus [1, 0] 6 20).run (.requests nested) (.requests nested) (.ok status) ∧
    Runs (checkTxnStatusPeek [1, 0] 6).run (.requests nested) (.requests nested) (.ok status) := by
  have committed : (Db.requests nested).view.commit [1, 0] 11 = some 6 := by decide
  refine (txn_status_exact nested issued_nested [1, 0] 6 20 (by decide)).mpr fun _ => ?_
  exact ⟨11, 6, committed, rfl, Db.inSight_of_entries (by decide)⟩

/-- The search for the commit of 5 on `[1]` comes upon a version of `[1, 0]` first. -/
theorem committed_txn_rolled_back : (∀ op ∈ nested, op.Issued) ∧ (Db.requests nested).view.owner [1] ≠ some 5 ∧
    (Db.requests nested).view.commit [1] 10 = some 5 ∧
    Runs (checkTxnStatus [1] 5 20).run (.requests nested) (.requests nested) (.ok .rolledBack) ∧
    Runs (checkTxnStatusPeek [1] 5).run (.requests nested) (.requests nested) (.ok .rolledBack) := by
  have found : (Db.requests nested).seekCf .write (encodeDataKey [1] maxTs) =
      some (encodeDataKey [1, 0] 11, .put (encodeWriteValue 6)) := by decide
  have missed : Runs (verdict [1] 5).run (.requests nested) (.requests nested) (.ok .rolledBack) :=
    Runs.ok (findCommitFrom_other (by decide) found 5 (2 ^ 64)) (Runs.ret _)
  have look := Runs.getCfRaw (show (Db.requests nested).getCf .lock [1] = none by decide)
  exact ⟨issued_nested, by decide, by decide, look.ok missed, look.ok missed⟩

open Classical in
theorem Db.exists_shows (db : Db) (k : Bytes) (readTs : Ts) : ∃ shown, db.view.Shows k readTs shown := by
  by_cases some : ∃ c s, db.view.commit k c = some s ∧ c ≤ readTs
  · obtain ⟨c, s, seen, le⟩ := some
    let P (n : Nat) : Prop := ∃ s, db.view.commit k (.ofNat n) = .some s
    have held {c s : Ts} (seen : db.view.commit k c = .some s) : P c.toNat := ⟨s, by rwa [UInt64.ofNat_toNat]⟩
    obtain ⟨s', newest⟩ : P _ := Nat.findGreatest_spec (UInt64.le_iff_toNat_le.mp le) (held seen)
    have small := Nat.findGreatest_le (P := P) readTs.toNat
    have same := UInt64.toNat_ofNat_of_lt' (small.trans_lt readTs.toNat_lt)
    refine ⟨_, .inl ⟨_, s', newest, UInt64.le_iff_toNat_le.mpr (by rwa [same]), fun c' s' seen' le' => ?_, rfl⟩⟩
    rw [UInt64.le_iff_toNat_le, same]
    exact Nat.le_findGreatest (UInt64.le_iff_toNat_le.mp le') (held seen')
  · exact ⟨none, .inr ⟨fun c s seen le => some ⟨c, s, seen, le⟩, rfl⟩⟩

/-- What a read gives: the value put by the newest commit at or below its timestamp, if that is in sight. -/
theorem readCommitted_value (legible : db.Legible) (k : Bytes) (readTs : Ts) :
    ∃ value, Runs (readCommitted k readTs).run db db (.ok value) ∧ ∀ v, value = some v ↔
      db.view.Shows k readTs (some (.put v)) ∧ db.Sighted (encodeDataKey k readTs) k fun c _ => c ≤ readTs := by
  rcases readCommitted_sighted legible k readTs with ⟨c, s, seen, le, sight, newest, runs⟩ | ⟨hidden, runs⟩
  · have shows : db.view.Shows k readTs (db.view.value k s) := .inl ⟨c, s, seen, le, newest, rfl⟩
    refine ⟨_, runs, fun v => ⟨fun same => ⟨?_, fun _ => ⟨c, s, seen, le, sight⟩⟩, fun ⟨shows', _⟩ => ?_⟩⟩
    · obtain ⟨value, stored, present⟩ := Option.bind_eq_some_iff.mp same
      cases value <;> cases present
      rwa [stored] at shows
    · rw [Percolator.Store.shows_unique shows shows']
      rfl
  · refine ⟨none, runs, fun v => ⟨nofun, fun ⟨shows, sighted⟩ => ?_⟩⟩
    rcases shows with ⟨c, s, seen, le, -⟩ | ⟨-, missing⟩
    · obtain ⟨c', s', seen', le', sight⟩ := sighted ⟨c, s, seen, le⟩
      exact absurd sight (hidden c' s' seen' le')
    · cases missing

/-- In a state without locks a read gives the value of the newest commit at or below its timestamp, up to values that
records of other keys hide. -/
theorem point_reads_exact (ops : List Op) (issued : ∀ op ∈ ops, op.Issued)
    (free : ∀ key, (Db.requests ops).getCf .lock key = none) (k : Bytes) (readTs : Ts) :
    (∃ shown, (Db.requests ops).view.Shows k readTs shown ∧
      Runs (mvccGet k readTs).run (.requests ops) (.requests ops) (.ok (shown.bind Value.intoOption)) ∧
      Runs (mvccGetUnresolved k readTs).run (.requests ops) (.requests ops) (.ok (shown.bind Value.intoOption))) ↔
    ((∃ v, (Db.requests ops).view.Shows k readTs (some (.put v))) →
      (Db.requests ops).Sighted (encodeDataKey k readTs) k fun c _ => c ≤ readTs) := by
  obtain ⟨value, runs, exact⟩ := readCommitted_value (Db.legible_requests issued) k readTs
  have answer := mvccGet_free (free k) runs
  constructor
  · rintro ⟨shown, shows, read, -⟩ ⟨v, shows'⟩
    obtain rfl := Percolator.Store.shows_unique shows shows'
    exact ((exact v).mp (Except.ok.inj (answer.1.unique read))).2
  · intro sighted
    obtain ⟨shown, shows⟩ := Db.exists_shows (.requests ops) k readTs
    have same : value = shown.bind Value.intoOption := by
      refine Option.ext fun v => (exact v).trans ⟨fun ⟨shows', _⟩ => ?_, fun present => ?_⟩
      · rw [Percolator.Store.shows_unique shows shows']
        rfl
      · obtain ⟨written, rfl, put⟩ := Option.bind_eq_some_iff.mp present
        cases written <;> cases put
        exact ⟨shows, sighted ⟨v, shows⟩⟩
    exact ⟨shown, shows, same ▸ answer⟩

theorem point_reads_exact_nested : ∃ shown, (Db.requests nested).view.Shows [1, 0] maxTs shown ∧
    Runs (mvccGet [1, 0] maxTs).run (.requests nested) (.requests nested) (.ok (shown.bind Value.intoOption)) ∧
    Runs (mvccGetUnresolved [1, 0] maxTs).run (.requests nested) (.requests nested)
      (.ok (shown.bind Value.intoOption)) := by
  have committed : (Db.requests nested).view.commit [1, 0] 11 = some 6 := by decide
  refine (point_reads_exact nested issued_nested (Db.free_of_entries _ (by decide)) [1, 0] maxTs).mpr fun _ _ => ?_
  exact ⟨11, 6, committed, by decide, Db.inSight_of_entries (by decide)⟩

/-- A read of `[1]` at the largest timestamp comes upon a version of `[1, 0]` and finds nothing. -/
theorem committed_value_unread : (∀ op ∈ nested, op.Issued) ∧ (∀ key, (Db.requests nested).getCf .lock key = none) ∧
    (Db.requests nested).view.Shows [1] maxTs (some (.put [7])) ∧
    Runs (mvccGet [1] maxTs).run (.requests nested) (.requests nested) (.ok none) ∧
    Runs (mvccGetUnresolved [1] maxTs).run (.requests nested) (.requests nested) (.ok none) := by
  have free := Db.free_of_entries (.requests nested) (by decide)
  have found : (Db.requests nested).seekCf .write (encodeDataKey [1] maxTs) =
      some (encodeDataKey [1, 0] 11, .put (encodeWriteValue 6)) := by decide
  exact ⟨issued_nested, free, shows_nested, mvccGet_free (free [1]) (readCommitted_other (by decide) found)⟩

end Arcux.Engine
