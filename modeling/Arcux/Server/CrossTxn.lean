import Arcux.Engine.Cells

namespace Arcux.Server

open Codec Concurrency Engine
open scoped Codec.ByteOrder

structure RegionAccess where
  region : UInt64
  access : Access

abbrev RegionAccess.Reply (step : RegionAccess) : Type := step.access.Reply

abbrev Regions := UInt64 → Shared

def RegionAccess.exec (step : RegionAccess) (regions : Regions) : Regions × step.Reply :=
  let done := step.access.exec (regions step.region)
  (Function.update regions step.region done.1, done.2)

abbrev CrossSteps := Prog RegionAccess RegionAccess.Reply

abbrev CrossProgram := ExceptT Error CrossSteps

def onEngine {α : Type} (region : UInt64) (p : Program α) : CrossProgram α :=
  ExceptT.mk (p.run.within (RegionAccess.mk region) fun _ reply => reply)

structure CrossTxn where
  startTs : Ts
  first : Mutation
  rest : List Mutation
  deriving Repr, DecidableEq

def acquireAcross (regionOf : Bytes → UInt64) (primary : Bytes) (startTs ttl : Ts) :
    List Mutation → List Bytes → CrossSteps (List Bytes × Except Error Unit)
  | [], acquired => pure (acquired, .ok ())
  | m :: rest, acquired => do
    match ← (onEngine (regionOf m.key) (prewriteOne m.key m.value primary startTs ttl)).run with
    | .ok _ => acquireAcross regionOf primary startTs ttl rest (acquired ++ [m.key])
    | .error e => pure (acquired, .error e)

def releaseAcross (regionOf : Bytes → UInt64) (startTs : Ts) : List Bytes → CrossSteps Unit
  | [] => pure ()
  | key :: rest => do
    let _ ← (onEngine (regionOf key) (resolveRollback key startTs)).run
    releaseAcross regionOf startTs rest

def finalizeAcross (regionOf : Bytes → UInt64) (primary : Bytes) (startTs commitTs : Ts) :
    List Mutation → CrossProgram Unit
  | [] => pure ()
  | m :: rest =>
    if m.key = primary then finalizeAcross regionOf primary startTs commitTs rest
    else do
      onEngine (regionOf m.key) (resolveCommit m.key startTs commitTs)
      finalizeAcross regionOf primary startTs commitTs rest

namespace CrossTxn

def new (startTs : Ts) : List Mutation → Except Error CrossTxn
  | [] => .error (.invalidArgument "transaction needs at least one mutation")
  | first :: rest => .ok ⟨startTs, first, rest⟩

def primary (txn : CrossTxn) : Bytes := txn.first.key

def mutations (txn : CrossTxn) : List Mutation := txn.first :: txn.rest

variable (regionOf : Bytes → UInt64)

def prewrite (txn : CrossTxn) (ttl : Ts) : CrossProgram Unit := ExceptT.mk do
  let (acquired, result) ← acquireAcross regionOf txn.primary txn.startTs ttl txn.mutations []
  match result with
  | .ok () => pure (.ok ())
  | .error e => do
    releaseAcross regionOf txn.startTs acquired
    pure (.error e)

def commitPrimary (txn : CrossTxn) (commitTs : Ts) : CrossProgram Unit :=
  onEngine (regionOf txn.primary) (Transaction.commitPrimary ⟨txn.startTs, txn.first, []⟩ commitTs)

def finalizeSecondaries (txn : CrossTxn) (commitTs : Ts) : CrossProgram Unit :=
  finalizeAcross regionOf txn.primary txn.startTs commitTs txn.mutations

end CrossTxn

/-- Ask the region of the primary for the fate of the transaction, and resolve its lock on `key` in the region of `key`. -/
def resolveLockAcross (regionOf : Bytes → UInt64) (key : Bytes) (lock : Lock) (nowTs : Ts) : CrossProgram Unit := do
  match ← onEngine (regionOf lock.primary) (checkTxnStatus lock.primary lock.startTs nowTs) with
  | .committed commitTs => onEngine (regionOf key) (resolveCommit key lock.startTs commitTs)
  | .rolledBack => onEngine (regionOf key) (resolveRollback key lock.startTs)
  | .locked ttl =>
    throw (.keyIsLocked
      ("key " ++ toString key ++ " awaits primary " ++ toString lock.primary ++ " (ttl " ++ toString ttl ++ ")"))

def resolveAcross (regionOf : Bytes → UInt64) (key : Bytes) (readTs : Ts) : Nat → CrossProgram Unit
  | 0 => pure ()
  | rounds + 1 => do
    let some bytes ← onEngine (regionOf key) (getCfRaw .lock key) | return ()
    let some lock := Lock.decode bytes | throw (.corruption "lock decode")
    if lock.startTs > readTs then return ()
    resolveLockAcross regionOf key lock readTs
    resolveAcross regionOf key readTs rounds

def crossGet (regionOf : Bytes → UInt64) (key : Bytes) (readTs : Ts) : CrossProgram (Option Bytes) := do
  resolveAcross regionOf key readTs 8
  onEngine (regionOf key) (mvccGetUnresolved key readTs)

end Arcux.Server
