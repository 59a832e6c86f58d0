import Arcux.Engine.Sequential
import Arcux.Percolator.Ledger

namespace Arcux.Engine

open Codec Concurrency Data List
open Percolator (Ledger Roster)
open scoped Codec.ByteOrder

def Db.carries (db : Db) (key : Bytes) (startTs : Ts) : Bool :=
  db.writeCf.entries.any fun e => (decodeDataKey e.1).any (·.1 = key) && e.2 = .put (encodeWriteValue startTs)

theorem Db.Recorded.carries_of_commit {keys : Set Bytes} {db : Db} (recorded : db.Recorded keys) {k : Bytes}
    {commitTs startTs : Ts} (seen : db.view.commit k commitTs = some startTs) : db.carries k startTs = true := by
  have member := OrdMap.find?_eq_some.mp (recorded.commit_eq_some.mp seen)
  refine any_eq_true.mpr ⟨_, member, ?_⟩
  simp [decodeDataKey_encodeDataKey]

/-- A primary is committed while its transaction holds the lock, and no key is rolled back that carries the commit record
of the transaction. -/
def Op.Timely (db : Db) : Op → Prop
  | .write ⟨[.put .write _ pointer, .delete .lock primary]⟩ => db.view.owner primary = decodeWriteValue pointer
  | .resolve ⟨key, startTs, .rollback⟩ => db.carries key startTs = false
  | _ => True

instance (db : Db) (op : Op) : Decidable (op.Timely db) := by
  unfold Op.Timely
  split <;> infer_instance

def Access.Timely : Access → Shared → Prop
  | .submit op, s => op.Timely s.db
  | _, _ => True

instance (access : Access) (s : Shared) : Decidable (access.Timely s) := by
  unfold Access.Timely
  split <;> infer_instance

/-- The keys in use, whether locks expire, what each program writes, and how the roster follows the oracle. -/
structure Setting where
  space : KeySpace
  mortal : Prop
  plan : Nat → List Mutation
  clocked : Roster Bytes Ts → Oracle → Prop

namespace Setting

structure Inv (S : Setting) (w : Ledger Bytes Ts Value) (s : Shared) : Prop where
  formed : s.db.Formed S.space
  holds : w.Holds S.mortal s.db.view
  written : ∀ st k v, w.held st k = some v → ∃ i, w.runner st = some i ∧ ⟨k, v⟩ ∈ S.plan i
  complete : ∀ st c, w.decided st = some c → ∃ i, w.runner st = some i ∧ ∀ m ∈ S.plan i, w.held st m.key = some m.value
  clocked : S.clocked w.toRoster s.oracle

def discipline (S : Setting) : Discipline Access Access.Reply Shared (Ledger Bytes Ts Value) where
  exec := Access.exec
  guard access s := S.mortal → access.Timely s
  inv := S.Inv
  grows := Ledger.Grows
  rely := Ledger.Rely S.mortal
  grows_refl := .refl
  grows_trans := .trans
  rely_refl _ := .refl
  rely_trans := .trans
  rely_grows := Ledger.Rely.grows

variable {S : Setting} {w : Ledger Bytes Ts Value} {s : Shared} {i : Nat} {st c : Ts} {k : Bytes}

theorem Inv.running (inv : S.Inv w s) (held : w.held st k ≠ none) : w.runner st ≠ none := by
  obtain ⟨v, has⟩ := Option.ne_none_iff_exists'.mp held
  obtain ⟨j, running, -⟩ := inv.written st k v has
  simp [running]

structure Step (S : Setting) (i : Nat) (w w' : Ledger Bytes Ts Value) (s' : Shared) : Prop where
  grows : w.Grows w'
  others : ∀ j, j ≠ i → w.Rely S.mortal j w'
  inv : S.Inv w' s'

theorem Inv.rollback (inv : S.Inv w s) (mem : k ∈ S.space.keys)
    (fair : w.fate st = .dead ∨ k = w.primary st ∧ w.held st k ≠ none ∧
      (S.mortal ∨ w.runner st = some i ∧ w.decided st = none ∧ w.fate st = .pending))
    (timely : S.mortal → (Op.resolve ⟨k, st, .rollback⟩).Timely s.db) :
    ∃ w', S.Step i w w' ⟨(s.db.process (.resolve ⟨k, st, .rollback⟩)).1, s.oracle⟩ ∧ w'.fate st = .dead := by
  have formed := (Db.process_resolve inv.formed mem st .rollback).2
  have view := Db.view_process_resolve inv.formed k st .rollback
  have dropped (dead : w.fate st = .dead) :
      S.Step i w w ⟨(s.db.process (.resolve ⟨k, st, .rollback⟩)).1, s.oracle⟩ := by
    refine ⟨.refl w, fun _ _ => .refl w, { inv with formed, holds := ?_ }⟩
    rw [view]
    split
    case isTrue owned => exact inv.holds.drop owned dead
    case isFalse => exact inv.holds
  rcases fair with dead | ⟨rfl, held, allowed⟩
  · exact ⟨w, dropped dead, dead⟩
  cases fate : w.fate st with
  | dead => exact ⟨w, dropped fate, fate⟩
  | committed c =>
    rcases allowed with mortal | ⟨-, -, pending⟩
    · have seen := (inv.holds.recorded _ c st).mpr ⟨fate, inv.holds.anchored st c fate⟩
      have carried := inv.formed.recorded.carries_of_commit seen
      rw [timely mortal] at carried
      cases carried
    · rw [pending] at fate
      cases fate
  | pending =>
    have owned := inv.holds.locked st _ fate held
    have undecided : w.decided st = none := allowed.elim (fun mortal => inv.holds.hasty mortal st fate) fun mine => mine.2.1
    have rely : w.Grows (w.kill st) ∧ ∀ j, j ≠ i → w.Rely S.mortal j (w.kill st) :=
      Ledger.kill_rely (allowed.imp_right And.left) fate
    refine ⟨w.kill st, ⟨rely.1, rely.2, { inv with formed, holds := ?_ }⟩, by simp [Ledger.kill]⟩
    rw [view, if_pos owned]
    exact inv.holds.kill owned undecided

theorem Inv.rollForward (inv : S.Inv w s) (mem : k ∈ S.space.keys) (done : w.fate st = .committed c) :
    ∃ w', S.Step i w w' ⟨(s.db.process (.resolve ⟨k, st, .commit c⟩)).1, s.oracle⟩ ∧
      (w.held st k ≠ none → w'.settled st k) := by
  have formed := (Db.process_resolve inv.formed mem st (.commit c)).2
  have view := Db.view_process_resolve inv.formed k st (.commit c)
  by_cases owned : s.db.view.owner k = some st
  · have relied (j : Nat) : w.Rely S.mortal j (w.settle st k) := Ledger.settle_rely w st k j
    refine ⟨w.settle st k, ⟨(relied i).grows, fun j _ => relied j, { inv with formed, holds := ?_ }⟩, fun _ => ?_⟩
    · rw [view, if_pos owned]
      exact inv.holds.settle owned done
    · exact .inr ⟨rfl, rfl⟩
  · refine ⟨w, ⟨.refl w, fun _ _ => .refl w, { inv with formed, holds := ?_ }⟩, fun held => ?_⟩
    · rw [view, if_neg owned]
      exact inv.holds
    · exact (inv.holds.resolvable st c k done held).resolve_right owned

structure Coordinates (S : Setting) (i : Nat) (st : Ts) (p : Bytes) (w : Ledger Bytes Ts Value) : Prop where
  mine : w.runner st = some i
  home : w.primary st = p
  undecided : w.decided st = none
  alive : ¬ S.mortal → w.fate st = .pending

variable {w' : Ledger Bytes Ts Value}

theorem Coordinates.relied {p : Bytes} (coord : S.Coordinates i st p w)
    (relied : w.Rely S.mortal i w') : S.Coordinates i st p w' where
  mine := relied.grows.runner st i coord.mine
  home := (relied.grows.primary st (by simp [coord.mine])).trans coord.home
  undecided := (relied.decided st coord.mine).trans coord.undecided
  alive immortal := ((relied.fate st coord.mine).resolve_right fun dies => immortal dies.1).trans (coord.alive immortal)

theorem Inv.prewrite {p : Bytes} {v : Value} {ttl : Ts} {kind : LockKind} (inv : S.Inv w s)
    (coord : S.Coordinates i st p w) (mem : k ∈ S.space.keys) (home : p ∈ S.space.keys) (planned : ⟨k, v⟩ ∈ S.plan i)
    (opening : k = p ∨ w.held st p ≠ none) (fresh : S.mortal → w.held st k = none)
    (lasting : ¬ S.mortal → ttl = maxTs) : let done := s.db.process (.prewrite ⟨k, v.encode, p, st, ttl, kind⟩)
    (∃ seq, done.2 = .ok seq) ∧ w.held st k = none ∧ S.Step i w (w.hold st k v) ⟨done.1, s.oracle⟩ ∨
      (∃ e, done.2 = .error e) ∧ S.Step i w w ⟨done.1, s.oracle⟩ := by
  obtain ⟨mine, rfl, undecided, alive⟩ := coord
  rcases Db.process_prewrite inv.formed mem home v st ttl kind with ⟨clear, answer, formed, view⟩ | ⟨-, answer, same⟩
  case inr =>
    refine .inr ⟨answer, .refl w, fun _ _ => .refl w, ?_⟩
    rw [same]
    exact inv
  have unheld : w.held st k = none := by
    by_cases mortal : S.mortal
    · exact fresh mortal
    · by_contra held
      have owned := inv.holds.locked st k (alive mortal) held
      rw [clear.1] at owned
      cases owned
  have uncommitted (c : Ts) : w.fate st ≠ .committed c := fun fate =>
    nomatch (inv.holds.chosen st c fate).symm.trans undecided
  have opened : k = w.primary st ∧ w.fate st = .pending ∨ w.held st (w.primary st) ≠ none := by
    by_cases held : w.held st (w.primary st) = none
    · refine .inl ⟨opening.resolve_right fun other => other held, ?_⟩
      exact not_not.mp fun ended => inv.holds.begun st ended held
    · exact .inr held
  have rely : w.Grows (w.hold st k v) ∧ ∀ j, j ≠ i → w.Rely S.mortal j (w.hold st k v) :=
    Ledger.hold_rely mine unheld undecided
  refine .inl ⟨answer, unheld, rely.1, rely.2, formed, ?_, ?_, ?_, inv.clocked⟩
  · rw [view]
    refine inv.holds.hold (by simp [mine]) unheld clear uncommitted opened fun immortal t => ?_
    rw [lasting immortal]
    exact (le_maxTs t).not_gt
  · intro st' k' v' has
    simp only [Ledger.hold] at has
    split at has
    case isTrue same =>
      obtain ⟨rfl, rfl⟩ := same
      cases has
      exact ⟨i, mine, planned⟩
    case isFalse => exact inv.written st' k' v' has
  · intro st' c decided
    obtain ⟨j, running, full⟩ := inv.complete st' c decided
    have other : st' ≠ st := by
      rintro rfl
      cases decided.symm.trans undecided
    exact ⟨j, running, fun m member => by simp [Ledger.hold, other, full m member]⟩

theorem Inv.commit (inv : S.Inv w s) (mine : w.runner st = some i) (mem : w.primary st ∈ S.space.keys)
    (owned : s.db.view.owner (w.primary st) = some st) (later : st < c)
    (free : w.decided st = some c ∨ w.decided st = none ∧ w.clock < c)
    (full : ∀ m ∈ S.plan i, w.held st m.key = some m.value) :
    S.Step i w (w.commit st c) ⟨s.db.commitBatch (buildResolveBatch ⟨w.primary st, st, .commit c⟩), s.oracle⟩ := by
  have pending := inv.holds.undecided _ _ owned rfl
  have rely : w.Grows (w.commit st c) ∧ ∀ j, j ≠ i → w.Rely S.mortal j (w.commit st c) :=
    Ledger.commit_rely mine pending free
  refine ⟨rely.1, rely.2, inv.formed.commit_pair ⟨_, mem, c, st, rfl, rfl⟩ trivial, ?_, inv.written, ?_, inv.clocked⟩
  · rw [Db.view_commitKeyBatch]
    exact inv.holds.commit owned later
  · intro st' c' decided
    simp only [Ledger.commit] at decided
    split at decided
    case isTrue same =>
      subst same
      exact ⟨i, mine, full⟩
    case isFalse => exact inv.complete st' c' decided

section

variable {α β : Type} {post : Ledger Bytes Ts Value → Except Error α → Prop} {cf : Cf}

theorem safe_get {key : Bytes} {next : Option Bytes → Program α}
    (rest : ∀ w' s, w.Rely S.mortal i w' → S.Inv w' s → S.discipline.Safe i (next (s.db.getCf cf key)).run w' post) :
    S.discipline.Safe i (getCfRaw cf key >>= next).run w post :=
  fun w' relied s inv _ => ⟨w', .refl w', fun _ _ => .refl w', inv, rest w' s relied inv⟩

theorem safe_seek {low : Bytes} {next : Option (Bytes × MemValue) → Program α}
    (rest : ∀ w' s, w.Rely S.mortal i w' → S.Inv w' s → S.discipline.Safe i (next (s.db.seekCf cf low)).run w' post) :
    S.discipline.Safe i (seekCfRaw cf low >>= next).run w post :=
  fun w' relied s inv _ => ⟨w', .refl w', fun _ _ => .refl w', inv, rest w' s relied inv⟩

theorem safe_decode {decoded : Option α} {a : α} (valid : decoded = some a) {msg : String} {next : α → Program β}
    {post : Ledger Bytes Ts Value → Except Error β → Prop} (rest : S.discipline.Safe i (next a).run w post) :
    S.discipline.Safe i (decodeOr decoded msg >>= next).run w post := by
  rw [valid]
  exact rest

variable {P : Ledger Bytes Ts Value → α → Prop}

theorem safe_return {a : α} (holds : ∀ w', w.Rely S.mortal i w' → P w' a) :
    S.discipline.Safe i (pure a : Program α).run w (Answers P) := by
  rintro w' relied _ ⟨⟩
  exact holds w' relied

variable {op : Op}

theorem safe_request {next : Except Error Nat → Steps α} {post : Ledger Bytes Ts Value → α → Prop}
    (step : ∀ w' s, w.Rely S.mortal i w' → S.Inv w' s → (S.mortal → op.Timely s.db) →
      ∃ w'', S.Step i w' w'' ⟨(s.db.process op).1, s.oracle⟩ ∧ S.discipline.Safe i (next (s.db.process op).2) w'' post) :
    S.discipline.Safe i ((submit op).run >>= next) w post := by
  intro w' relied s inv timely
  obtain ⟨w'', taken, rest⟩ := step w' s relied inv timely
  exact ⟨w'', taken.grows, taken.others, taken.inv, rest⟩

theorem safe_submit {next : Nat → Program α}
    (step : ∀ w' s, w.Rely S.mortal i w' → S.Inv w' s → (S.mortal → op.Timely s.db) →
      ∃ w'', S.Step i w' w'' ⟨(s.db.process op).1, s.oracle⟩ ∧
        ∀ seq, (s.db.process op).2 = .ok seq → S.discipline.Safe i (next seq).run w'' (Answers P)) :
    S.discipline.Safe i (submit op >>= next).run w (Answers P) := by
  refine safe_request fun w' s relied inv timely => ?_
  obtain ⟨w'', taken, rest⟩ := step w' s relied inv timely
  refine ⟨w'', taken, ?_⟩
  cases answer : (s.db.process op).2 with
  | ok seq => exact rest seq answer
  | error e => exact fun _ _ => nofun

theorem safe_rollBack (mem : k ∈ S.space.keys)
    (fair : ∀ w', w.Rely S.mortal i w' → w'.fate st = .dead ∨ k = w'.primary st ∧ w'.held st k ≠ none ∧
      (S.mortal ∨ w'.runner st = some i ∧ w'.decided st = none ∧ w'.fate st = .pending)) :
    S.discipline.Safe i (resolveRollback k st).run w fun w' _ => w'.fate st = .dead := by
  refine safe_request fun w' s relied inv timely => ?_
  obtain ⟨w'', taken, dead⟩ := inv.rollback mem (fair w' relied) timely
  refine ⟨w'', taken, ?_⟩
  cases (s.db.process (.resolve ⟨k, st, .rollback⟩)).2 with
  | ok seq => exact fun v later => later.grows.dead st dead
  | error e => exact fun v later => later.grows.dead st dead

theorem safe_rollForward (mem : k ∈ S.space.keys) (done : w.fate st = .committed c) :
    S.discipline.Safe i (resolveCommit k st c).run w (Answers fun w' _ =>
      w'.fate st = .committed c ∧ (w.held st k ≠ none → w'.settled st k)) := by
  refine safe_submit fun w' s relied inv timely => ?_
  have done' := relied.grows.committed st c done
  obtain ⟨w'', taken, settles⟩ := inv.rollForward mem done'
  refine ⟨w'', taken, fun _ _ => safe_return fun v later => ⟨?_, fun held => ?_⟩⟩
  · exact later.grows.committed st c (taken.grows.committed st c done')
  · obtain ⟨value, has⟩ := Option.ne_none_iff_exists'.mp held
    refine later.grows.settled st k (settles ?_)
    simp [relied.grows.held st k value has]

end

section

variable {p : Bytes} {dec : Option Ts}

theorem safe_findCommitFrom (mem : p ∈ S.space.keys) (rounds : Nat) {bound : Nat} {low : Bytes}
    (cut : Db.Cut p bound low) (known : ∀ c, dec = some c → c.toNat < bound ∧ w.fate st = .committed c ∧ w.settled st p) :
    S.discipline.Safe i (findCommitFrom p st rounds low).run w (Answers fun w' found =>
      (∀ c, found = some c → w'.fate st = .committed c) ∧ (found = none → dec = none)) := by
  induction rounds generalizing w bound low with
  | zero => trivial
  | succ rounds ih =>
    refine safe_seek fun w' s relied inv => ?_
    have recorded (c : Ts) (same : dec = some c) : s.db.view.commit p c = some st :=
      have ⟨_, fate, settled⟩ := known c same
      (inv.holds.recorded p c st).mpr ⟨relied.grows.committed st c fate, relied.grows.settled st p settled⟩
    have unknown (absent : ∀ c s', s.db.view.commit p c = some s' → ¬ c.toNat < bound) : dec = none := by
      by_contra some
      obtain ⟨c', same⟩ := Option.ne_none_iff_exists'.mp some
      exact absent c' st (recorded c' same) (known c' same).1
    rcases inv.formed.recorded.seek_alone (inv.formed.alone mem) cut with
      ⟨c, st', found, seen, -, newest⟩ | ⟨absent, missed | ⟨k', c, v, differ, found⟩⟩
    · rw [found]
      refine safe_decode (decodeDataKey_encodeDataKey p c) ?_
      dsimp only
      rw [if_neg (by simp), decodeWriteValue_encodeWriteValue]
      rcases eq_or_ne st' st with rfl | other
      · rw [if_pos rfl]
        have fate := ((inv.holds.recorded p c st').mp seen).1
        refine safe_return fun v later => ⟨?_, nofun⟩
        rintro _ ⟨⟩
        exact later.grows.committed st' c fate
      · rw [if_neg (by simpa using other)]
        refine ih (Db.cut_after p c) fun c' same => ?_
        have older : c' ≤ c := newest c' st (recorded c' same) (known c' same).1
        have strict : c' ≠ c := by
          rintro rfl
          exact other (Option.some.inj (seen.symm.trans (recorded c' same)))
        obtain ⟨-, fate, settled⟩ := known c' same
        exact ⟨UInt64.lt_iff_toNat_lt.mp (lt_of_le_of_ne older strict), relied.grows.committed st c' fate,
          relied.grows.settled st p settled⟩
    · rw [missed]
      exact safe_return fun v later => ⟨nofun, fun _ => unknown absent⟩
    · rw [found]
      refine safe_decode (decodeDataKey_encodeDataKey k' c) ?_
      dsimp only
      rw [if_pos differ]
      exact safe_return fun v later => ⟨nofun, fun _ => unknown absent⟩

def Reported (w : Ledger Bytes Ts Value) (p : Bytes) (st : Ts) (w' : Ledger Bytes Ts Value) : TxnStatus → Prop
  | .committed c => w'.fate st = .committed c
  | .rolledBack => w.held st p ≠ none → w'.fate st = .dead
  | .locked _ => True

theorem Inv.fate_of_unlocked (inv : S.Inv w s) (home : w.runner st ≠ none → w.primary st = p)
    (free : s.db.view.owner p ≠ some st) :
    ∃ dec : Option Ts, (∀ c, dec = some c → w.fate st = .committed c ∧ w.settled st p) ∧
      (dec = none → w.held st p ≠ none → w.fate st = .dead) := by
  cases fate : w.fate st with
  | pending => exact ⟨none, nofun, fun _ held => absurd (inv.holds.locked st p fate held) free⟩
  | dead => exact ⟨none, nofun, fun _ _ => rfl⟩
  | committed c =>
    have anchored := inv.holds.anchored st c fate
    have same := home (inv.running (inv.holds.stored st _ anchored))
    refine ⟨some c, ?_, nofun⟩
    rintro _ ⟨⟩
    exact ⟨rfl, same ▸ anchored⟩

theorem safe_verdict (mem : p ∈ S.space.keys)
    (known : ∀ c, dec = some c → w.fate st = .committed c ∧ w.settled st p) :
    S.discipline.Safe i (verdict p st).run w (Answers fun w' status =>
      (∀ c, status = .committed c → w'.fate st = .committed c) ∧ (status = .rolledBack → dec = none)) := by
  have every (c : Ts) : c.toNat < maxTs.toNat + 1 := Nat.lt_succ_of_le (UInt64.le_iff_toNat_le.mp (le_maxTs c))
  have scan := safe_findCommitFrom (i := i) mem (2 ^ 64 + 1) (Db.cut_at p maxTs) fun c same =>
    ⟨every c, known c same⟩
  refine Discipline.Safe.answered scan fun w' found grown ⟨valid, missing⟩ => ?_
  cases found with
  | some c =>
    refine safe_return fun v later => ⟨?_, nofun⟩
    rintro _ ⟨⟩
    exact later.grows.committed st c (valid c rfl)
  | none => exact safe_return fun v later => ⟨nofun, fun _ => missing rfl⟩

theorem safe_checkTxnStatus (mem : p ∈ S.space.keys)
    (named : ∀ w' s, w.Grows w' → S.Inv w' s → w'.runner st ≠ none → w'.primary st = p) (nowTs : Ts) :
    S.discipline.Safe i (checkTxnStatus p st nowTs).run w (Answers (Reported w p st)) := by
  refine safe_get fun w' s relied inv => ?_
  have home := named w' s relied.grows inv
  have searched (free : s.db.view.owner p ≠ some st) :
      S.discipline.Safe i (verdict p st).run w' (Answers (Reported w p st)) := by
    obtain ⟨dec, known, ended⟩ := inv.fate_of_unlocked home free
    refine (safe_verdict mem known).mono fun v answer grown told status same => ?_
    obtain ⟨valid, missing⟩ := told status same
    cases status with
    | committed c => exact valid c rfl
    | rolledBack =>
      intro held
      obtain ⟨value, has⟩ := Option.ne_none_iff_exists'.mp held
      exact grown.dead st (ended (missing rfl) (by simp [relied.grows.held st p value has]))
    | locked ttl => trivial
  cases found : s.db.getCf .lock p with
  | none =>
    refine searched ?_
    rw [Percolator.Store.owner, (inv.formed.legible.lock_eq_none p).mpr found]
    rintro ⟨⟩
  | some bytes =>
    obtain ⟨lock, decoded, -, seen⟩ := inv.formed.getCf_lock found
    refine safe_decode decoded ?_
    have owner : s.db.view.owner p = some lock.startTs := by rw [Percolator.Store.owner, seen]; rfl
    by_cases own : lock.startTs = st
    · subst own
      rw [if_pos rfl]
      have held := inv.holds.prewritten _ _ owner
      have primary := home (inv.running held)
      by_cases expired : nowTs > lock.ttl
      · have mortal : S.mortal := not_not.mp fun immortal => inv.holds.immortal immortal p _ seen nowTs expired
        rw [if_pos expired]
        have ends : S.discipline.Safe i (rollBack p lock.startTs).run w' fun v _ => v.fate lock.startTs = .dead := by
          refine safe_rollBack mem fun v later => .inr ⟨?_, ?_, .inl mortal⟩
          · exact ((later.grows.primary _ (inv.running held)).trans primary).symm
          · obtain ⟨value, has⟩ := Option.ne_none_iff_exists'.mp held
            simp [later.grows.held _ p value has]
        refine Discipline.Safe.answered (ends.mono fun _ _ _ dead _ _ => dead) fun v _ _ dead => ?_
        exact safe_return fun u later _ => later.grows.dead _ dead
      · rw [if_neg expired]
        exact safe_return fun _ _ => trivial
    · rw [if_neg own]
      exact searched (by simpa [owner] using own)

end

section

variable {readTs : Ts}

theorem safe_resolveLock {lock : Lock} (mem : k ∈ S.space.keys) (home : lock.primary ∈ S.space.keys)
    (running : w.runner lock.startTs ≠ none) (primary : w.primary lock.startTs = lock.primary)
    (held : w.held lock.startTs k ≠ none) (first : w.held lock.startTs lock.primary ≠ none) (nowTs : Ts) :
    S.discipline.Safe i (resolveLock k lock nowTs).run w (Answers fun w' _ =>
      w'.fate lock.startTs = .dead ∨ w'.settled lock.startTs k) := by
  have asked := safe_checkTxnStatus (i := i) home
    (fun w' s grown _ _ => (grown.primary _ running).trans primary) nowTs
  refine Discipline.Safe.answered asked fun w' status grown told => ?_
  cases status with
  | committed c =>
    refine (safe_rollForward mem told).mono fun v _ later done u same => .inr ((done u same).2 ?_)
    obtain ⟨value, has⟩ := Option.ne_none_iff_exists'.mp held
    simp [grown.held _ k value has]
  | rolledBack =>
    have dead : w'.fate lock.startTs = .dead := told first
    have drops := safe_rollBack (i := i) mem fun v later => .inl (later.grows.dead _ dead)
    exact drops.mono fun v _ _ done _ _ => .inl done
  | locked ttl => exact fun _ _ => nofun

variable {timed : Prop}

theorem safe_resolveShadows (mem : k ∈ S.space.keys) (rounds : Nat) (early : timed → readTs ≤ w.clock)
    (shown : rounds = 0 → timed → w.Visible k readTs) :
    S.discipline.Safe i (resolveShadows k readTs rounds).run w (Answers fun w' _ => timed → w'.Visible k readTs) := by
  induction rounds generalizing w with
  | zero => exact safe_return fun w' relied time => (shown rfl time).mono relied.grows (early time)
  | succ rounds ih =>
    refine safe_get fun w' s relied inv => ?_
    have early' (time : timed) : readTs ≤ w'.clock := (early time).trans relied.grows.clock
    have passes (free : ∀ st, s.db.view.owner k = some st → readTs < st) :
        S.discipline.Safe i (pure () : Program Unit).run w' (Answers fun v _ => timed → v.Visible k readTs) :=
      safe_return fun v later time => (inv.holds.visible free).mono later.grows (early' time)
    cases found : s.db.getCf .lock k with
    | none =>
      refine passes fun st owned => ?_
      rw [Percolator.Store.owner, (inv.formed.legible.lock_eq_none k).mpr found] at owned
      cases owned
    | some bytes =>
      obtain ⟨lock, decoded, home, seen⟩ := inv.formed.getCf_lock found
      have owner : s.db.view.owner k = some lock.startTs := by rw [Percolator.Store.owner, seen]; rfl
      refine safe_decode decoded ?_
      by_cases later : lock.startTs > readTs
      · rw [if_pos later]
        refine passes fun st owned => ?_
        cases owner.symm.trans owned
        exact later
      · rw [if_neg later]
        have held := inv.holds.prewritten _ _ owner
        have running := inv.running held
        have primary : w'.primary lock.startTs = lock.primary := (inv.holds.follows k _ seen).symm
        have first := inv.holds.first _ k held
        rw [primary] at first
        have resolved := safe_resolveLock (i := i) mem home running primary held first readTs
        refine Discipline.Safe.answered resolved fun v _ grown ended => ?_
        refine ih (fun time => (early' time).trans grown.clock) fun _ time st c decided before held' => ?_
        rcases eq_or_ne st lock.startTs with rfl | other
        · exact ended
        · rcases grown.late st c decided with known | late
          · rw [grown.frozen st c known] at held'
            exact .inr (grown.settled st k (inv.holds.visible_but owner other known held'))
          · exact absurd (before.trans (early' time)) late.not_ge

def Saw (S : Setting) (k : Bytes) (readTs : Ts) (timed : Prop) (w w' : Ledger Bytes Ts Value) (result : Option Bytes) :
    Prop :=
  ∃ w₁ m shown, w.Grows w₁ ∧ w₁.Grows w' ∧ w₁.Holds S.mortal m ∧ (timed → w₁.Visible k readTs) ∧
    w₁.Shows k readTs shown ∧ result = shown.bind Value.intoOption

theorem safe_readCommitted (mem : k ∈ S.space.keys) (early : timed → readTs ≤ w.clock)
    (visible : timed → w.Visible k readTs) :
    S.discipline.Safe i (readCommitted k readTs).run w (Answers (S.Saw k readTs timed w)) := by
  have small (c : Ts) : c.toNat < readTs.toNat + 1 ↔ c ≤ readTs := by
    rw [Nat.lt_succ_iff, UInt64.le_iff_toNat_le]
  refine safe_seek fun w' s relied inv => ?_
  have visible' (time : timed) : w'.Visible k readTs := (visible time).mono relied.grows (early time)
  -- a transaction with a commit record at or below the time of the read is among those the seek has compared
  have record {c st : Ts} (fate : w'.fate st = .committed c) (settled : w'.settled st k) :
      s.db.view.commit k c = some st := (inv.holds.recorded k c st).mpr ⟨fate, settled⟩
  have nothing (absent : ∀ c st, s.db.view.commit k c = some st → ¬ c.toNat < readTs.toNat + 1) :
      S.discipline.Safe i (pure none : Program (Option Bytes)).run w' (Answers (S.Saw k readTs timed w)) := by
    refine safe_return fun v later => ⟨w', _, none, relied.grows, later.grows, inv.holds, visible', .inr ⟨?_, rfl⟩, rfl⟩
    exact fun st c fate settled le => absent c st (record fate settled) ((small c).mpr le)
  rcases inv.formed.recorded.seek_alone (inv.formed.alone mem) (Db.cut_at k readTs) with
    ⟨c, st, found, seen, below, newest⟩ | ⟨absent, missed | ⟨k', c, v, differ, found⟩⟩
  · rw [found]
    refine safe_decode (decodeDataKey_encodeDataKey k c) ?_
    dsimp only
    rw [if_neg (by simp)]
    refine safe_decode (decodeWriteValue_encodeWriteValue st) ?_
    obtain ⟨fate, settled⟩ := (inv.holds.recorded k c st).mp seen
    obtain ⟨value, has⟩ := Option.ne_none_iff_exists'.mp (inv.holds.stored st k settled)
    have shows : w'.Shows k readTs (some value) := by
      refine .inl ⟨st, c, fate, settled, (small c).mp below, fun st' c' fate' settled' le => ?_, has.symm⟩
      exact newest c' st' (record fate' settled') ((small c').mpr le)
    refine safe_get fun v s' later inv' => ?_
    have stored : s'.db.view.value k st = some value :=
      inv'.holds.valued st k value (later.grows.held st k value has) (.inl (later.grows.settled st k settled))
    obtain ⟨bytes, present, decoded⟩ := Option.bind_eq_some_iff.mp stored
    rw [present]
    refine safe_decode decoded (safe_return fun u later' => ?_)
    exact ⟨w', _, some value, relied.grows, later.grows.trans later'.grows, inv.holds, visible', shows, rfl⟩
  · rw [missed]
    exact nothing absent
  · rw [found]
    refine safe_decode (decodeDataKey_encodeDataKey k' c) ?_
    dsimp only
    rw [if_pos differ]
    exact nothing absent

theorem safe_mvccGet (mem : k ∈ S.space.keys) (early : timed → readTs ≤ w.clock) :
    S.discipline.Safe i (mvccGet k readTs).run w (Answers (S.Saw k readTs timed w)) := by
  have resolved := safe_resolveShadows (i := i) mem 8 early nofun
  refine Discipline.Safe.answered resolved fun w' _ grown visible => ?_
  refine (safe_readCommitted mem (fun time => (early time).trans grown.clock) visible).mono ?_
  rintro v _ _ saw result rfl
  obtain ⟨w₁, m, shown, before, rest⟩ := saw result rfl
  exact ⟨w₁, m, shown, grown.trans before, rest⟩

end

section

variable {p : Bytes} {ttl : Ts}

def Took (w : Ledger Bytes Ts Value) (st : Ts) (p : Bytes) (acquired : List Bytes) : Prop :=
  acquired = [] ∧ w.held st p = none ∨ acquired.head? = some p ∧ w.held st p ≠ none

variable {acquired : List Bytes}

theorem Took.of_held (took : Took w st p acquired) (same : w'.held st = w.held st) : Took w' st p acquired := by
  rwa [Took, same]

structure Acquiring (S : Setting) (i : Nat) (st : Ts) (p : Bytes) (done rest : List Mutation) (acquired : List Bytes)
    (w : Ledger Bytes Ts Value) : Prop where
  coord : S.Coordinates i st p w
  took : Took w st p acquired
  keys : ∀ key ∈ acquired, key ∈ S.space.keys
  held : ∀ m ∈ done, w.held st m.key = some m.value
  opening : acquired = [] → ∀ m ∈ rest.head?, m.key = p
  distinct : S.mortal → (rest.map Mutation.key).Nodup ∧ ∀ m ∈ rest, w.held st m.key = none

variable {done rest : List Mutation}

theorem Acquiring.relied (acquiring : S.Acquiring i st p done rest acquired w) (relied : w.Rely S.mortal i w') :
    S.Acquiring i st p done rest acquired w' := by
  have same := relied.held st acquiring.coord.mine
  refine ⟨acquiring.coord.relied relied, acquiring.took.of_held same, acquiring.keys, ?_, acquiring.opening, ?_⟩
  · rw [same]
    exact acquiring.held
  · rw [same]
    exact acquiring.distinct

theorem Acquiring.hold {m : Mutation} (acquiring : S.Acquiring i st p done (m :: rest) acquired w)
    (mem : m.key ∈ S.space.keys) (fresh : w.held st m.key = none) :
    S.Acquiring i st p (done ++ [m]) rest (acquired ++ [m.key]) (w.hold st m.key m.value) where
  coord := { acquiring.coord with }
  took := by
    rcases acquiring.took with ⟨rfl, unheld⟩ | ⟨first, held⟩
    · obtain rfl := acquiring.opening rfl m rfl
      exact .inr ⟨rfl, by simp [Ledger.hold]⟩
    · refine .inr ⟨by simp [first], ?_⟩
      simp only [Ledger.hold]
      split
      · rintro ⟨⟩
      · exact held
  keys key member := by
    rcases mem_append.mp member with old | new
    · exact acquiring.keys key old
    · exact mem_singleton.mp new ▸ mem
  held m' member := by
    simp only [Ledger.hold, true_and]
    rcases mem_append.mp member with old | new
    · have before := acquiring.held m' old
      split
      case isTrue same => cases (same ▸ before).symm.trans fresh
      case isFalse => exact before
    · cases mem_singleton.mp new
      simp
  opening empty := by simp at empty
  distinct mortal := by
    obtain ⟨nodup, unheld⟩ := acquiring.distinct mortal
    obtain ⟨apart, nodup'⟩ := nodup_cons.mp nodup
    refine ⟨nodup', fun m' member => ?_⟩
    have other : m'.key ≠ m.key := fun same => apart (same ▸ mem_map_of_mem member)
    simp [Ledger.hold, other, unheld m' (mem_cons_of_mem _ member)]

theorem safe_acquire (home : p ∈ S.space.keys) (lasting : ¬ S.mortal → ttl = maxTs) (planned : ∀ m ∈ rest, m ∈ S.plan i ∧ m.key ∈ S.space.keys)
    (acquiring : S.Acquiring i st p done rest acquired w) :
    S.discipline.Safe i (acquire p st ttl rest acquired) w fun w' r => S.Coordinates i st p w' ∧ Took w' st p r.1 ∧
      (∀ key ∈ r.1, key ∈ S.space.keys) ∧ (r.2 = .ok () → ∀ m ∈ done ++ rest, w'.held st m.key = some m.value) := by
  induction rest generalizing w done acquired with
  | nil =>
    intro w' relied
    have final := acquiring.relied relied
    exact ⟨final.coord, final.took, final.keys, fun _ m member => final.held m (by simpa using member)⟩
  | cons m rest ih =>
    refine safe_request fun w' s relied inv _ => ?_
    have now := acquiring.relied relied
    obtain ⟨member, mem⟩ := planned m (mem_cons_self ..)
    have opening : m.key = p ∨ w'.held st p ≠ none := now.took.imp (fun none => now.opening none.1 m rfl) And.right
    have fresh (mortal : S.mortal) : w'.held st m.key = none := (now.distinct mortal).2 m (mem_cons_self ..)
    rcases inv.prewrite now.coord mem home member opening fresh lasting with
      ⟨⟨seq, answer⟩, unheld, taken⟩ | ⟨⟨e, answer⟩, taken⟩
    · refine ⟨_, taken, ?_⟩
      rw [answer]
      have further := ih (fun m' member' => planned m' (mem_cons_of_mem _ member')) (now.hold mem unheld)
      rwa [append_assoc] at further
    · refine ⟨_, taken, ?_⟩
      rw [answer]
      intro v later
      have final := now.relied later
      exact ⟨final.coord, final.took, final.keys, nofun⟩

theorem safe_release (keys : ∀ key ∈ acquired, key ∈ S.space.keys)
    (may : w.fate st = .dead ∨ S.Coordinates i st p w ∧ Took w st p acquired) :
    S.discipline.Safe i (release st acquired) w fun _ _ => True := by
  induction acquired generalizing w with
  | nil => exact fun _ _ => trivial
  | cons key rest ih =>
    have mem := keys key (mem_cons_self ..)
    have ends : S.discipline.Safe i (resolveRollback key st).run w fun w' _ => w'.fate st = .dead := by
      refine safe_rollBack mem fun w' relied => ?_
      rcases may with dead | ⟨coord, ⟨empty, -⟩ | ⟨first, held⟩⟩
      · exact .inl (relied.grows.dead st dead)
      · cases empty
      · obtain rfl : key = p := Option.some.inj first
        have coord' := coord.relied relied
        refine .inr ⟨coord'.home.symm, ?_, ?_⟩
        · rwa [relied.held st coord.mine]
        · by_cases mortal : S.mortal
          · exact .inl mortal
          · exact .inr ⟨coord'.mine, coord'.undecided, coord'.alive mortal⟩
    refine ends.bind fun w' _ _ dead => ?_
    exact ih (fun key' member => keys key' (mem_cons_of_mem _ member)) (.inl dead)

variable {txn : Transaction}

theorem safe_prewrite (lasting : ¬ S.mortal → ttl = maxTs) (keys : ∀ m ∈ txn.mutations, m.key ∈ S.space.keys)
    (planned : S.plan i = txn.mutations) (coord : S.Coordinates i txn.startTs txn.primary w)
    (unheld : ∀ key, w.held txn.startTs key = none) (distinct : S.mortal → (txn.mutations.map Mutation.key).Nodup) :
    S.discipline.Safe i (txn.prewrite ttl).run w (Answers fun w' _ =>
      S.Coordinates i txn.startTs txn.primary w' ∧ ∀ m ∈ txn.mutations, w'.held txn.startTs m.key = some m.value) := by
  have home : txn.primary ∈ S.space.keys := keys txn.first (mem_cons_self ..)
  have opening : ∀ m ∈ txn.mutations.head?, m.key = txn.primary := by
    rintro _ ⟨⟩
    rfl
  have acquiring : S.Acquiring i txn.startTs txn.primary [] txn.mutations [] w :=
    ⟨coord, .inl ⟨rfl, unheld _⟩, nofun, nofun, fun _ => opening,
      fun mortal => ⟨distinct mortal, fun m _ => unheld m.key⟩⟩
  have taking := safe_acquire home lasting (fun m member => ⟨planned ▸ member, keys m member⟩) acquiring
  refine taking.bind fun w' r _ ⟨coord', took, kept, full⟩ => ?_
  obtain ⟨acquired, result⟩ := r
  cases result with
  | ok _ =>
    refine safe_return fun v later => ⟨coord'.relied later, ?_⟩
    rw [later.held _ coord'.mine]
    exact full rfl
  | error e =>
    have undone := safe_release (i := i) kept (.inr ⟨coord', took⟩)
    exact undone.bind fun _ _ _ _ => fun _ _ => nofun

theorem safe_commitPrimary (home : txn.primary ∈ S.space.keys)
    (mine : w.runner txn.startTs = some i) (primary : w.primary txn.startTs = txn.primary) (later : txn.startTs < c)
    (free : S.mortal ∧ w.decided txn.startTs = none ∧ (∀ w' s, S.Inv w' s → w'.clock < c) ∨
      ¬ S.mortal ∧ w.decided txn.startTs = some c ∧ w.fate txn.startTs = .pending)
    (full : ∀ m ∈ S.plan i, w.held txn.startTs m.key = some m.value) (planned : S.plan i = txn.mutations) :
    S.discipline.Safe i (txn.commitPrimary c).run w (Answers fun w' _ => w'.fate txn.startTs = .committed c) := by
  refine safe_submit fun w' s relied inv timely => ?_
  have mine' := relied.grows.runner _ i mine
  have primary' := (relied.grows.primary _ (by simp [mine])).trans primary
  have full' : ∀ m ∈ S.plan i, w'.held txn.startTs m.key = some m.value := by rwa [relied.held _ mine]
  have owned : s.db.view.owner (w'.primary txn.startTs) = some txn.startTs := by
    rw [primary']
    rcases free with ⟨mortal, -, -⟩ | ⟨immortal, -, pending⟩
    · exact (timely mortal).trans (decodeWriteValue_encodeWriteValue _)
    · have alive := ((relied.fate _ mine).resolve_right fun dies => immortal dies.1).trans pending
      refine inv.holds.locked _ _ alive ?_
      have first := full' txn.first (planned ▸ mem_cons_self ..)
      exact Option.ne_none_iff_exists'.mpr ⟨_, first⟩
  have unused : w'.decided txn.startTs = some c ∨ w'.decided txn.startTs = none ∧ w'.clock < c := by
    rw [relied.decided _ mine]
    rcases free with ⟨-, undecided, ahead⟩ | ⟨-, decided, -⟩
    · exact .inr ⟨undecided, ahead w' s inv⟩
    · exact .inl decided
  have taken := inv.commit mine' (primary' ▸ home) owned later unused full'
  rw [primary'] at taken
  refine ⟨_, taken, fun _ _ => safe_return fun v after => ?_⟩
  exact after.grows.committed _ c (by simp [Ledger.commit])

theorem safe_finalizeKeys {mutations : List Mutation} (keys : ∀ m ∈ mutations, m.key ∈ S.space.keys)
    (done : w.fate st = .committed c) :
    S.discipline.Safe i (Transaction.finalizeKeys p st c mutations).run w (Answers fun _ _ => True) := by
  induction mutations generalizing w with
  | nil => exact safe_return fun _ _ => trivial
  | cons m rest ih =>
    have keys' : ∀ m' ∈ rest, m'.key ∈ S.space.keys := fun m' member => keys m' (mem_cons_of_mem _ member)
    rw [Transaction.finalizeKeys]
    split
    · exact ih keys' done
    · have settles := safe_rollForward (i := i) (keys m (mem_cons_self ..)) done
      exact Discipline.Safe.answered settles fun w' _ _ settled => ih keys' settled.1

end

end Setting

end Arcux.Engine
