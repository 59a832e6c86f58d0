import Arcux.Engine.Keys
import Arcux.Data.OrdMap

namespace Arcux.Engine

open Codec Data
open scoped Codec.ByteOrder

inductive Error where
  | io
  | corruption (msg : String)
  | invalidArgument (msg : String)
  | conflict (msg : String)
  | keyIsLocked (msg : String)
  deriving Repr, DecidableEq

inductive MemValue where
  | put (bytes : Bytes) | delete
  deriving Repr, DecidableEq

def MemValue.intoPresent : MemValue → Option Bytes
  | put v => some v
  | delete => none

inductive WriteOp where
  | put (cf : Cf) (key value : Bytes)
  | delete (cf : Cf) (key : Bytes)
  deriving Repr, DecidableEq

namespace WriteOp

def cf : WriteOp → Cf
  | put cf _ _ | delete cf _ => cf

def key : WriteOp → Bytes
  | put _ key _ | delete _ key => key

def memValue : WriteOp → MemValue
  | put _ _ value => .put value
  | delete _ _ => .delete

end WriteOp

structure WriteBatch where
  ops : List WriteOp := []
  deriving Repr, DecidableEq

namespace WriteBatch

def put (batch : WriteBatch) (cf : Cf) (key value : Bytes) : WriteBatch := ⟨batch.ops ++ [.put cf key value]⟩

def delete (batch : WriteBatch) (cf : Cf) (key : Bytes) : WriteBatch := ⟨batch.ops ++ [.delete cf key]⟩

def isEmpty (batch : WriteBatch) : Bool := batch.ops.isEmpty

end WriteBatch

/-- What reads see of the memtables and tables together, and the last sequence number given to a batch. -/
structure Db where
  defaultCf : OrdMap Bytes MemValue
  writeCf : OrdMap Bytes MemValue
  lockCf : OrdMap Bytes MemValue
  seq : Nat

namespace Db

def empty : Db := ⟨.empty, .empty, .empty, 0⟩

def family (db : Db) : Cf → OrdMap Bytes MemValue
  | .default => db.defaultCf
  | .write => db.writeCf
  | .lock => db.lockCf

def applyOp (db : Db) (op : WriteOp) : Db :=
  match op.cf with
  | .default => { db with defaultCf := db.defaultCf.insert op.key op.memValue }
  | .write => { db with writeCf := db.writeCf.insert op.key op.memValue }
  | .lock => { db with lockCf := db.lockCf.insert op.key op.memValue }

def commitBatch (db : Db) (batch : WriteBatch) : Db := { batch.ops.foldl applyOp db with seq := db.seq + 1 }

def getCf (db : Db) (cf : Cf) (key : Bytes) : Option Bytes := ((db.family cf).find? key).bind MemValue.intoPresent

def seekCf (db : Db) (cf : Cf) (low : Bytes) : Option (Bytes × MemValue) := (db.family cf).seek low

end Db

structure PrewriteSpec where
  key : Bytes
  value : Bytes
  primary : Bytes
  startTs : Ts
  ttl : Ts
  kind : LockKind
  deriving Repr, DecidableEq

inductive ResolveAction where
  | commit (commitTs : Ts) | rollback
  deriving Repr, DecidableEq

structure ResolveSpec where
  key : Bytes
  startTs : Ts
  action : ResolveAction
  deriving Repr, DecidableEq

inductive Op where
  | write (batch : WriteBatch)
  | prewrite (spec : PrewriteSpec)
  | resolve (spec : ResolveSpec)
  deriving Repr, DecidableEq

def buildPrewriteBatch (spec : PrewriteSpec) : WriteBatch :=
  ({} : WriteBatch)
    |>.put .default (encodeDataKey spec.key spec.startTs) spec.value
    |>.put .lock spec.key (Lock.encode ⟨spec.primary, spec.startTs, spec.ttl, spec.kind⟩)

def buildResolveBatch (spec : ResolveSpec) : WriteBatch :=
  match spec.action with
  | .commit commitTs =>
    ({} : WriteBatch)
      |>.put .write (encodeDataKey spec.key commitTs) (encodeWriteValue spec.startTs)
      |>.delete .lock spec.key
  | .rollback =>
    ({} : WriteBatch)
      |>.delete .lock spec.key
      |>.delete .default (encodeDataKey spec.key spec.startTs)

namespace Db

def currentLock (db : Db) (key : Bytes) : Except Error (Option Lock) :=
  match db.getCf .lock key with
  | some bytes =>
    match Lock.decode bytes with
    | some lock => .ok (some lock)
    | none => .error (.corruption "lock decode")
  | none => .ok none

def newerCommit (db : Db) (key : Bytes) (startTs : Ts) : Bool :=
  match db.seekCf .write (encodeDataKey key maxTs) with
  | some (writeKey, _) =>
    match decodeDataKey writeKey with
    | some (writeUser, commitTs) => writeUser = key ∧ commitTs ≥ startTs
    | none => false
  | none => false

def checkPrewrite (db : Db) (key : Bytes) (startTs : Ts) : Except Error Unit :=
  if db.newerCommit key startTs then .error (.conflict "write conflict: a newer commit exists")
  else if (db.getCf .lock key).isSome then .error (.conflict "key is already locked by another transaction")
  else .ok ()

def process (db : Db) : Op → Db × Except Error Nat
  | .write batch => (db.commitBatch batch, .ok (db.seq + 1))
  | .prewrite spec =>
    match db.checkPrewrite spec.key spec.startTs with
    | .ok () => (db.commitBatch (buildPrewriteBatch spec), .ok (db.seq + 1))
    | .error e => (db, .error e)
  | .resolve spec =>
    match db.currentLock spec.key with
    | .ok (some lock) =>
      if lock.startTs = spec.startTs then (db.commitBatch (buildResolveBatch spec), .ok (db.seq + 1))
      else (db, .ok 0)
    | .ok none => (db, .ok 0)
    | .error e => (db, .error e)

end Db

end Arcux.Engine
