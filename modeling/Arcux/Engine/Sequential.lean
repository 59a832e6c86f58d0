import Arcux.Engine.Mvcc
import Arcux.Engine.View

namespace Arcux.Engine

open Codec Concurrency Data
open scoped Codec.ByteOrder

def Runs {α : Type} (p : Steps α) (db db' : Db) (a : α) : Prop :=
  ∀ oracle, p.eval Access.exec ⟨db, oracle⟩ = (⟨db', oracle⟩, some a)

section

variable {α β : Type} {db db₁ db₂ : Db}

theorem Runs.ret (a : α) : Runs (.ret a) db db a := fun _ => rfl

variable {a : α} {p : Steps α}

theorem Runs.bind {next : α → Steps β} {b : β} (first : Runs p db db₁ a)
    (second : Runs (next a) db₁ db₂ b) : Runs (p >>= next) db db₂ b := by
  intro oracle
  rw [Prog.eval_bind, first oracle]
  exact second oracle

theorem Runs.ok {p : Program α} {next : α → Program β} {result : Except Error β} (first : Runs p.run db db₁ (.ok a))
    (second : Runs (next a).run db₁ db₂ result) : Runs (p >>= next).run db db₂ result :=
  first.bind second

theorem Runs.lift (runs : Runs p db db₁ a) :
    Runs (ExceptT.lift p : Program α).run db db₁ (.ok a) := runs.bind (Runs.ret _)

theorem Runs.submit (op : Op) : Runs (Engine.submit op).run db (db.process op).1 (db.process op).2 := fun _ => rfl

theorem Runs.write {batch : WriteBatch} (some : batch.isEmpty = false) :
    Runs (Engine.write batch).run db (db.commitBatch batch) (.ok (db.seq + 1)) := by
  rw [Engine.write, if_neg (by simp [some])]
  exact Runs.submit (.write batch)

theorem Runs.getCfRaw {cf : Cf} {key : Bytes} {found : Option Bytes} (hit : db.getCf cf key = found) :
    Runs (Engine.getCfRaw cf key).run db db (.ok found) := fun _ => hit ▸ rfl

theorem Runs.seekCfRaw {cf : Cf} {low : Bytes} {found : Option (Bytes × MemValue)} (hit : db.seekCf cf low = found) :
    Runs (Engine.seekCfRaw cf low).run db db (.ok found) := fun _ => hit ▸ rfl

theorem Runs.decodeOr {decoded : Option α} (valid : decoded = some a) (msg : String) :
    Runs (Engine.decodeOr decoded msg).run db db (.ok a) := by
  rw [valid]
  exact Runs.ret _

end

variable {db : Db} {k : Bytes}

theorem readCommitted_other {k' : Bytes} {readTs c : Ts} {stored : MemValue} (differ : k' ≠ k)
    (found : db.seekCf .write (encodeDataKey k readTs) = some (encodeDataKey k' c, stored)) :
    Runs (readCommitted k readTs).run db db (.ok none) := by
  refine (Runs.seekCfRaw found).ok ?_
  refine (Runs.decodeOr (decodeDataKey_encodeDataKey k' c) _).ok ?_
  dsimp only
  rw [if_pos differ]
  exact Runs.ret _

theorem readCommitted_sighted (legible : db.Legible) (k : Bytes) (readTs : Ts) :
    (∃ c s, db.view.commit k c = some s ∧ c ≤ readTs ∧ db.InSight (encodeDataKey k readTs) k c ∧
      (∀ c' s', db.view.commit k c' = some s' → c' ≤ readTs → c' ≤ c) ∧
      Runs (readCommitted k readTs).run db db (.ok ((db.view.value k s).bind Value.intoOption))) ∨
    (∀ c s, db.view.commit k c = some s → c ≤ readTs → ¬ db.InSight (encodeDataKey k readTs) k c) ∧
      Runs (readCommitted k readTs).run db db (.ok none) := by
  have small (c : Ts) : c.toNat < readTs.toNat + 1 ↔ c ≤ readTs := by
    rw [Nat.lt_succ_iff, UInt64.le_iff_toNat_le]
  rcases legible.recorded.seek_write (Db.cut_at k readTs) with
    ⟨c, s, found, seen, below, sight, newest⟩ | ⟨hidden, missed | ⟨k', c, v, differ, found⟩⟩
  · refine .inl ⟨c, s, seen, (small c).mp below, sight, fun c' s' seen' le => newest c' s' seen' ((small c').mpr le), ?_⟩
    refine (Runs.seekCfRaw found).ok ?_
    refine (Runs.decodeOr (decodeDataKey_encodeDataKey k c) _).ok ?_
    dsimp only
    rw [if_neg (by simp)]
    refine (Runs.decodeOr (decodeWriteValue_encodeWriteValue s) _).ok ?_
    refine (Runs.getCfRaw rfl).ok ?_
    cases stored : db.getCf .default (encodeDataKey k s) with
    | none =>
      simp only [Db.view, stored, Option.bind_none]
      exact Runs.ret _
    | some bytes =>
      obtain ⟨value, decoded⟩ := legible.value_decodes stored
      simp only [Db.view, stored, Option.bind_some, decoded]
      exact Runs.ret _
  · exact .inr ⟨fun c s seen le => hidden c s seen ((small c).mpr le), (Runs.seekCfRaw missed).ok (Runs.ret _)⟩
  · exact .inr ⟨fun c s seen le => hidden c s seen ((small c).mpr le), readCommitted_other differ found⟩

theorem readCommitted_runs (legible : db.Legible) (alone : db.Alone k) (readTs : Ts) :
    ∃ shown, Runs (readCommitted k readTs).run db db (.ok (shown.bind Value.intoOption)) ∧
      db.view.Shows k readTs shown := by
  rcases readCommitted_sighted legible k readTs with ⟨c, s, seen, le, -, newest, runs⟩ | ⟨hidden, runs⟩
  · exact ⟨db.view.value k s, runs, .inl ⟨c, s, seen, le, newest, rfl⟩⟩
  · exact ⟨none, runs, .inr ⟨fun c s seen le => hidden c s seen le (alone.inSight (Db.cut_at k readTs) c), rfl⟩⟩

variable {result : Except Error (Option Bytes)} {readTs : Ts}

theorem mvccGet_free (free : db.getCf .lock k = none) (read : Runs (readCommitted k readTs).run db db result) :
    Runs (mvccGet k readTs).run db db result ∧ Runs (mvccGetUnresolved k readTs).run db db result := by
  have look := Runs.getCfRaw free
  have resolved : Runs (resolveShadows k readTs 8).run db db (.ok ()) := look.ok (Runs.ret _)
  exact ⟨resolved.ok read, look.ok read⟩

def Db.Blocked (db : Db) (k : Bytes) (readTs : Ts) : Prop := ∃ lock, db.view.lock k = some lock ∧ lock.start ≤ readTs

theorem mvccGetUnresolved_runs (legible : db.Legible) (read : Runs (readCommitted k readTs).run db db result) :
    db.Blocked k readTs ∧ (∃ msg, Runs (mvccGetUnresolved k readTs).run db db (.error (.keyIsLocked msg))) ∨
      ¬ db.Blocked k readTs ∧ Runs (mvccGetUnresolved k readTs).run db db result := by
  cases found : db.getCf .lock k with
  | none =>
    have free := (legible.lock_eq_none k).mpr found
    refine .inr ⟨fun ⟨lock, held, _⟩ => ?_, (mvccGet_free found read).2⟩
    rw [free] at held
    cases held
  | some bytes =>
    obtain ⟨lock, decoded, seen⟩ := legible.getCf_lock found
    have look := Runs.getCfRaw found
    by_cases early : lock.startTs ≤ readTs
    · refine .inl ⟨⟨_, seen, early⟩,
        "key locked by txn " ++ toString lock.startTs ++ " (a replicated read won't resolve it)",
        look.ok ((Runs.decodeOr decoded _).ok ?_)⟩
      rw [if_pos early]
      exact Runs.ret _
    · refine .inr ⟨fun ⟨lock', held, early'⟩ => ?_, look.ok ((Runs.decodeOr decoded _).ok ?_)⟩
      · cases seen.symm.trans held
        exact early early'
      · rw [if_neg early]
        exact read

end Arcux.Engine
