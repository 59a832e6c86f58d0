import Arcux.Pd.Replica
import Arcux.Pd.Restore
import Arcux.Raft.Refinement.Relation

namespace Arcux.Pd

open Codec List Raft Reader
open scoped Codec.ByteOrder Engine

def PdCmd.upper : PdCmd → Nat
  | reserveTs upper => upper.toNat
  | _ => 0

def reservedBy (e : Entry) : Nat :=
  if e.entryType = .normal ∧ e.data ≠ [] then ((PdCmd.decode e.data).map PdCmd.upper).getD 0 else 0

def reserved (log : List Entry) : Nat := log.foldr (fun e high => max (reservedBy e) high) 0

@[simp] theorem reserved_nil : reserved [] = 0 := rfl

@[simp] theorem reserved_cons (e : Entry) (log : List Entry) :
    reserved (e :: log) = max (reservedBy e) (reserved log) := rfl

theorem reserved_append (log more : List Entry) : reserved (log ++ more) = max (reserved log) (reserved more) := by
  induction log with
  | nil => exact (Nat.zero_max _).symm
  | cons e log ih => rw [cons_append, reserved_cons, reserved_cons, ih, Nat.max_assoc]

theorem reserved_le_iff {log : List Entry} {high : Nat} : reserved log ≤ high ↔ ∀ e ∈ log, reservedBy e ≤ high := by
  induction log with
  | nil => exact ⟨fun _ => nofun, fun _ => Nat.zero_le _⟩
  | cons e log ih => rw [reserved_cons, Nat.max_le, ih, forall_mem_cons]

theorem reserved_mono {log log' : List Entry} (sub : log ⊆ log') : reserved log ≤ reserved log' :=
  reserved_le_iff.mpr fun e member => reserved_le_iff.mp (Nat.le_refl _) e (sub member)

theorem reservedBy_encode (cmd : PdCmd) (term index : Nat) :
    reservedBy (.normal term index cmd.encode) ≤ cmd.upper := by
  have read {found : PdCmd} {rest : Bytes} (ran : PdCmd.read.run cmd.encode = some (found, rest)) :
      found.upper ≤ cmd.upper := by
    cases cmd with
    | reserveTs upper =>
      have reads := (reads_u64 upper).map PdCmd.reserveTs []
      rw [append_nil] at reads
      cases (show PdCmd.read.run (PdCmd.reserveTs upper).encode = _ from reads).symm.trans ran
      exact Nat.le_refl _
    | declareTable name regime =>
      have yields : Yields (do let name ← text; return PdCmd.declareTable name (← readRegime)) fun cmd => cmd.upper ≤ 0 :=
        (Yields.anything _).bind fun _ _ => (Yields.anything _).bind fun _ _ => Yields.pure (Nat.le_refl _)
      exact yields _ _ _ ran
    | heartbeat nodeId address regions now storeId =>
      have yields : Yields (do
          let nodeId ← u64
          let now ← u64
          let address ← text
          let regions ← Reader.list getReplicaSet
          let storeId ← PdCmd.readStoreId
          return PdCmd.heartbeat nodeId address regions now storeId) fun cmd => cmd.upper ≤ 0 :=
        (Yields.anything _).bind fun _ _ => (Yields.anything _).bind fun _ _ => (Yields.anything _).bind fun _ _ =>
          (Yields.anything _).bind fun _ _ => (Yields.anything _).bind fun _ _ => Yields.pure (Nat.le_refl _)
      obtain ⟨bytes, tagged⟩ : ∃ bytes, (PdCmd.heartbeat nodeId address regions now storeId).encode = 2 :: bytes :=
        ⟨_, rfl⟩
      rw [tagged] at ran
      exact yields bytes _ _ ran
  unfold reservedBy PdCmd.decode
  split
  · change (((PdCmd.read.run cmd.encode).map Prod.fst).map PdCmd.upper).getD 0 ≤ _
    cases ran : PdCmd.read.run cmd.encode with
    | none => exact Nat.zero_le _
    | some found => exact read ran
  · exact Nat.zero_le _

theorem toNat_max (a b : UInt64) : (max a b).toNat = max a.toNat b.toNat := by
  change (if a ≤ b then b else a).toNat = _
  split
  case isTrue le => exact (Nat.max_eq_right le).symm
  case isFalse gt => exact (Nat.max_eq_left (Nat.le_of_not_le gt)).symm

namespace PdFsm

theorem tsoUpper_foundUnfoundedRegions (fsm : PdFsm) : fsm.foundUnfoundedRegions.1.tsoUpper = fsm.tsoUpper := by
  unfold foundUnfoundedRegions
  dsimp only
  split <;> rfl

theorem tsoUpper_applyCmd (fsm : PdFsm) (cmd : PdCmd) :
    (fsm.applyCmd cmd).tsoUpper.toNat = max fsm.tsoUpper.toNat cmd.upper := by
  cases cmd with
  | reserveTs upper => exact toNat_max fsm.tsoUpper upper
  | declareTable name regime =>
    refine Eq.trans ?_ (Nat.max_zero _).symm
    rw [applyCmd, tsoUpper_foundUnfoundedRegions]
    rcases fsm.declareTable_cases name regime with same | ⟨regions, table, -, declared⟩
    · rw [prepare, same]
    · rw [prepare, declared]
  | heartbeat nodeId address regions now storeId =>
    obtain ⟨stores, bound⟩ := fsm.bindStore_eq nodeId storeId
    simp only [applyCmd, prepare, bound, PdCmd.upper, Nat.max_zero]
    split
    · exact congrArg UInt64.toNat (tsoUpper_foundUnfoundedRegions _)
    · exact congrArg UInt64.toNat (tsoUpper_foundUnfoundedRegions _)

theorem reported_apply {fsm : PdFsm} (held : fsm.Reported) (payload : Bytes) : (fsm.apply payload).Reported :=
  reported_applyAll held [payload]

theorem reported_sweep {fsm : PdFsm} (held : fsm.Reported) (now timeoutMs : UInt64) :
    (fsm.sweep now timeoutMs).Reported := by
  intro e member
  obtain ⟨⟨id, n⟩, before, rfl⟩ := mem_map.mp member
  have kept : (if Membership.NodeState.Silent now timeoutMs n then { n with down := true } else n).regions = n.regions := by
    split <;> rfl
  change ∀ rs ∈ (if Membership.NodeState.Silent now timeoutMs n then { n with down := true } else n).regions, _
  rw [kept]
  exact held (id, n) before

end PdFsm

theorem tsoUpper_applyEntry (fsm : PdFsm) (e : Entry) :
    (PdReplica.applyEntry fsm e).tsoUpper.toNat = max fsm.tsoUpper.toNat (reservedBy e) := by
  unfold PdReplica.applyEntry reservedBy
  split
  · unfold PdFsm.apply
    cases PdCmd.decode e.data with
    | none => exact (Nat.max_zero _).symm
    | some cmd => exact fsm.tsoUpper_applyCmd cmd
  · exact (Nat.max_zero _).symm

theorem tsoUpper_applyEntries (fsm : PdFsm) (entries : List Entry) :
    (entries.foldl PdReplica.applyEntry fsm).tsoUpper.toNat = max fsm.tsoUpper.toNat (reserved entries) := by
  induction entries generalizing fsm with
  | nil => exact (Nat.max_zero _).symm
  | cons e rest ih => rw [foldl_cons, ih, tsoUpper_applyEntry, reserved_cons, Nat.max_assoc]

theorem reported_applyEntries {fsm : PdFsm} (held : fsm.Reported) (entries : List Entry) :
    (entries.foldl PdReplica.applyEntry fsm).Reported := by
  induction entries generalizing fsm with
  | nil => exact held
  | cons e rest ih =>
    refine ih ?_
    unfold PdReplica.applyEntry
    split
    · exact PdFsm.reported_apply held e.data
    · exact held

/-- Whoever loads the snapshot has at least the high-water `high`, and no more than that on account of it. -/
def Restores (data : Bytes) (high : Nat) : Prop :=
  ∀ fsm : PdFsm, (fsm.restore data).1.tsoUpper.toNat = max fsm.tsoUpper.toNat high ∧ (fsm.restore data).1.Reported

theorem restores_snapshot {fsm : PdFsm} (fits : fsm.Fits) (reported : fsm.Reported) :
    Restores fsm.snapshot fsm.tsoUpper.toNat := by
  intro other
  rw [other.restore_eq fits reported]
  exact ⟨toNat_max _ _, reported⟩

def highWater : Scope := ⟨fun log data => Restores data (reserved log), False⟩

end Arcux.Pd
