import Arcux.Engine.Db
import Arcux.Concurrency.Interleaving

namespace Arcux.Engine

open Codec Concurrency
open scoped Codec.ByteOrder

/-- A request to the committer, a read of one column family, or a timestamp drawn by the program with this number. -/
inductive Access where
  | submit (op : Op)
  | getCfRaw (cf : Cf) (key : Bytes)
  | seekCfRaw (cf : Cf) (low : Bytes)
  | lastSeq
  | now (task : Nat)
  | advance (ts : Ts)
  deriving DecidableEq

abbrev Access.Reply : Access → Type
  | submit _ => Except Error Nat
  | getCfRaw _ _ => Option Bytes
  | seekCfRaw _ _ => Option (Bytes × MemValue)
  | lastSeq => Nat
  | now _ => Option Ts
  | advance _ => Unit

/-- A source of strictly increasing timestamps: the last one it gave out and the record of who drew which. -/
structure Oracle where
  last : Ts
  issued : List (Nat × Ts)
  deriving Repr, DecidableEq

namespace Oracle

def fresh : Oracle := ⟨0, []⟩

def now (oracle : Oracle) (task : Nat) : Oracle × Option Ts :=
  if oracle.last < maxTs then (⟨oracle.last + 1, oracle.issued ++ [(task, oracle.last + 1)]⟩, some (oracle.last + 1))
  else (oracle, none)

theorem now_cases (oracle : Oracle) (task : Nat) :
    (∃ t, oracle.last < t ∧ oracle.now task = (⟨t, oracle.issued ++ [(task, t)]⟩, some t)) ∨
      oracle.now task = (oracle, none) := by
  unfold now
  split
  case isTrue room =>
    refine .inl ⟨oracle.last + 1, ?_, rfl⟩
    simp only [maxTs, UInt64.lt_iff_toNat_lt, UInt64.toNat_ofNat', UInt64.toNat_add] at room ⊢
    simp only [UInt64.toNat_one]
    omega
  case isFalse => exact .inr rfl

def advance (oracle : Oracle) (ts : Ts) : Oracle := { oracle with last := max oracle.last ts }

def drawn (oracle : Oracle) (task : Nat) : List Ts := (oracle.issued.filter (·.1 = task)).map Prod.snd

end Oracle

structure Shared where
  db : Db
  oracle : Oracle

def Shared.start : Shared := ⟨.empty, .fresh⟩

def Access.exec : (access : Access) → Shared → Shared × access.Reply
  | submit op, s => ({ s with db := (s.db.process op).1 }, (s.db.process op).2)
  | getCfRaw cf key, s => (s, s.db.getCf cf key)
  | seekCfRaw cf low, s => (s, s.db.seekCf cf low)
  | lastSeq, s => (s, s.db.seq)
  | now task, s => ({ s with oracle := (s.oracle.now task).1 }, (s.oracle.now task).2)
  | advance ts, s => ({ s with oracle := s.oracle.advance ts }, ())

abbrev Steps := Prog Access Access.Reply

abbrev Program := ExceptT Error Steps

def submit (op : Op) : Program Nat := ExceptT.mk (Prog.perform (Access.submit op))

def getCfRaw (cf : Cf) (key : Bytes) : Program (Option Bytes) := ExceptT.lift (Prog.perform (Access.getCfRaw cf key))

def seekCfRaw (cf : Cf) (low : Bytes) : Program (Option (Bytes × MemValue)) :=
  ExceptT.lift (Prog.perform (Access.seekCfRaw cf low))

def write (batch : WriteBatch) : Program Nat :=
  if batch.isEmpty then ExceptT.lift (Prog.perform Access.lastSeq) else submit (.write batch)

def Value.lockKind : Value → LockKind
  | put _ => .put
  | delete => .delete

def prewriteOne (key : Bytes) (value : Value) (primary : Bytes) (startTs ttl : Ts) : Program Nat :=
  submit (.prewrite ⟨key, value.encode, primary, startTs, ttl, value.lockKind⟩)

def resolveCommit (key : Bytes) (startTs commitTs : Ts) : Program Unit := do
  let _ ← submit (.resolve ⟨key, startTs, .commit commitTs⟩)

def resolveRollback (key : Bytes) (startTs : Ts) : Program Unit := do
  let _ ← submit (.resolve ⟨key, startTs, .rollback⟩)

def decodeOr {α : Type} (decoded : Option α) (msg : String) : Program α :=
  match decoded with
  | some a => pure a
  | none => throw (.corruption msg)

structure Mutation where
  key : Bytes
  value : Value
  deriving Repr, DecidableEq

def acquire (primary : Bytes) (startTs ttl : Ts) : List Mutation → List Bytes → Steps (List Bytes × Except Error Unit)
  | [], acquired => pure (acquired, .ok ())
  | m :: rest, acquired => do
    match ← (prewriteOne m.key m.value primary startTs ttl).run with
    | .ok _ => acquire primary startTs ttl rest (acquired ++ [m.key])
    | .error e => pure (acquired, .error e)

def release (startTs : Ts) : List Bytes → Steps Unit
  | [] => pure ()
  | key :: rest => do
    let _ ← (resolveRollback key startTs).run
    release startTs rest

def prewriteAll (primary : Bytes) (startTs ttl : Ts) (mutations : List Mutation) : Program Unit := ExceptT.mk do
  let (acquired, result) ← acquire primary startTs ttl mutations []
  match result with
  | .ok () => pure (.ok ())
  | .error e => do
    release startTs acquired
    pure (.error e)

structure Transaction where
  startTs : Ts
  first : Mutation
  rest : List Mutation
  deriving Repr, DecidableEq

namespace Transaction

def new (startTs : Ts) : List Mutation → Except Error Transaction
  | [] => .error (.invalidArgument "transaction needs at least one mutation")
  | first :: rest => .ok ⟨startTs, first, rest⟩

def primary (txn : Transaction) : Bytes := txn.first.key

def mutations (txn : Transaction) : List Mutation := txn.first :: txn.rest

def prewrite (txn : Transaction) (ttl : Ts) : Program Unit := prewriteAll txn.primary txn.startTs ttl txn.mutations

def primaryBatch (txn : Transaction) (commitTs : Ts) : WriteBatch :=
  ({} : WriteBatch)
    |>.put .write (encodeDataKey txn.primary commitTs) (encodeWriteValue txn.startTs)
    |>.delete .lock txn.primary

def commitPrimary (txn : Transaction) (commitTs : Ts) : Program Unit := do
  let _ ← write (txn.primaryBatch commitTs)

def finalizeKeys (primary : Bytes) (startTs commitTs : Ts) : List Mutation → Program Unit
  | [] => pure ()
  | m :: rest =>
    if m.key = primary then finalizeKeys primary startTs commitTs rest
    else do
      resolveCommit m.key startTs commitTs
      finalizeKeys primary startTs commitTs rest

def finalizeSecondaries (txn : Transaction) (commitTs : Ts) : Program Unit :=
  finalizeKeys txn.primary txn.startTs commitTs txn.mutations

def commit (txn : Transaction) (commitTs : Ts) : Program Unit := do
  txn.commitPrimary commitTs
  txn.finalizeSecondaries commitTs

end Transaction

inductive TxnStatus where
  | committed (commitTs : Ts) | rolledBack | locked (ttl : Ts)
  deriving Repr, DecidableEq

def findCommitFrom (primary : Bytes) (startTs : Ts) : Nat → Bytes → Program (Option Ts)
  | 0, _ => ExceptT.lift .halt
  | rounds + 1, low => do
    let some (writeKey, writeVal) ← seekCfRaw .write low | return none
    let (writeUser, commitTs) ← decodeOr (decodeDataKey writeKey) "write-cf key decode"
    if writeUser ≠ primary then return none
    if let .put startBytes := writeVal then
      if decodeWriteValue startBytes = some startTs then return some commitTs
    findCommitFrom primary startTs rounds (writeKey ++ [0])

def findCommitTs (primary : Bytes) (startTs : Ts) : Program (Option Ts) :=
  findCommitFrom primary startTs (2 ^ 64 + 1) (encodeDataKey primary maxTs)

def rollForward (key : Bytes) (startTs commitTs : Ts) : Program Unit := resolveCommit key startTs commitTs

def rollBack (key : Bytes) (startTs : Ts) : Program Unit := resolveRollback key startTs

def verdict (primary : Bytes) (startTs : Ts) : Program TxnStatus := do
  match ← findCommitTs primary startTs with
  | some commitTs => return .committed commitTs
  | none => return .rolledBack

def checkTxnStatus (primary : Bytes) (startTs nowTs : Ts) : Program TxnStatus := do
  match ← getCfRaw .lock primary with
  | some bytes =>
    let lock ← decodeOr (Lock.decode bytes) "primary lock decode"
    if lock.startTs = startTs then
      if nowTs > lock.ttl then
        rollBack primary startTs
        return .rolledBack
      return .locked lock.ttl
    verdict primary startTs
  | none => verdict primary startTs

def checkTxnStatusPeek (primary : Bytes) (startTs : Ts) : Program TxnStatus := do
  match ← getCfRaw .lock primary with
  | some bytes =>
    let lock ← decodeOr (Lock.decode bytes) "primary lock decode"
    if lock.startTs = startTs then return .locked lock.ttl
    verdict primary startTs
  | none => verdict primary startTs

def resolveLock (key : Bytes) (lock : Lock) (nowTs : Ts) : Program Unit := do
  match ← checkTxnStatus lock.primary lock.startTs nowTs with
  | .committed commitTs => rollForward key lock.startTs commitTs
  | .rolledBack => rollBack key lock.startTs
  | .locked ttl =>
    throw (.keyIsLocked ("primary " ++ toString lock.primary ++ " lock alive (ttl " ++ toString ttl ++ ")"))

def readCommitted (userKey : Bytes) (readTs : Ts) : Program (Option Bytes) := do
  let some (writeKey, writeVal) ← seekCfRaw .write (encodeDataKey userKey readTs) | return none
  let (writeUser, _) ← decodeOr (decodeDataKey writeKey) "write-cf key decode"
  if writeUser ≠ userKey then return none
  let .put startBytes := writeVal | return none
  let startTs ← decodeOr (decodeWriteValue startBytes) "write-cf value"
  match ← getCfRaw .default (encodeDataKey userKey startTs) with
  | some bytes => return (← decodeOr (Value.decode bytes) "default-cf value").intoOption
  | none => return none

def resolveShadows (userKey : Bytes) (readTs : Ts) : Nat → Program Unit
  | 0 => pure ()
  | rounds + 1 => do
    let some bytes ← getCfRaw .lock userKey | return ()
    let lock ← decodeOr (Lock.decode bytes) "lock decode"
    if lock.startTs > readTs then return ()
    resolveLock userKey lock readTs
    resolveShadows userKey readTs rounds

def mvccGet (userKey : Bytes) (readTs : Ts) : Program (Option Bytes) := do
  resolveShadows userKey readTs 8
  readCommitted userKey readTs

def mvccGetUnresolved (userKey : Bytes) (readTs : Ts) : Program (Option Bytes) := do
  if let some bytes ← getCfRaw .lock userKey then
    let lock ← decodeOr (Lock.decode bytes) "lock decode"
    if lock.startTs ≤ readTs then
      throw (.keyIsLocked
        ("key locked by txn " ++ toString lock.startTs ++ " (a replicated read won't resolve it)"))
  readCommitted userKey readTs

end Arcux.Engine
