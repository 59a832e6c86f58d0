import Arcux.Engine.Db
import Arcux.Engine.Wal

namespace Arcux.Engine

open Codec List
open Codec.Reader (byte number sized many Reads)

theorem reads_lengthPrefixed {bytes : Bytes} (short : bytes.length < 2 ^ 32) :
    Reads sized (putLengthPrefixed bytes) bytes := Reader.reads_sized short

namespace Cf

def code : Cf → UInt8
  | default => 0
  | write => 1
  | lock => 2

def fromU8 : UInt8 → Option Cf
  | 0 => some default
  | 1 => some write
  | 2 => some lock
  | _ => none

theorem fromU8_code (cf : Cf) : fromU8 cf.code = some cf := by cases cf <;> rfl

end Cf

namespace WriteOp

def encode : WriteOp → Bytes
  | put cf key value => [0] ++ [cf.code] ++ putLengthPrefixed key ++ putLengthPrefixed value
  | delete cf key => [1] ++ [cf.code] ++ putLengthPrefixed key

def read : Reader WriteOp := do
  let tag ← byte
  let cf ← StateT.lift (Cf.fromU8 (← byte))
  let key ← sized
  match tag with
  | 0 => return put cf key (← sized)
  | 1 => return delete cf key
  | _ => failure

def Fits : WriteOp → Prop
  | put _ key value => key.length < 2 ^ 32 ∧ value.length < 2 ^ 32
  | delete _ key => key.length < 2 ^ 32

theorem encode_length (op : WriteOp) : op.encode.length = match op with
    | put _ key value => 10 + key.length + value.length
    | delete _ key => 6 + key.length := by
  cases op <;> simp only [encode, putLengthPrefixed, length_append, length_singleton, toBE_length] <;> omega

variable {op : WriteOp}

theorem fits_of_encode (short : op.encode.length < 2 ^ 32) : op.Fits := by
  rw [encode_length] at short
  cases op <;> simp only [Fits] at short ⊢ <;> omega

theorem reads_read (fits : op.Fits) : Reads read op.encode op := by
  intro rest
  cases op with
  | put cf key value =>
    have keyRead : Reads sized (putLengthPrefixed key) key := reads_lengthPrefixed fits.1
    have valueRead : Reads sized (putLengthPrefixed value) value := reads_lengthPrefixed fits.2
    simp only [encode, append_assoc, read]
    rw [(Reader.reads_byte 0).run_bind, (Reader.reads_byte cf.code).run_bind, Cf.fromU8_code, Reader.run_bind_some,
      keyRead.run_bind]
    exact valueRead.run_bind _ rest
  | delete cf key =>
    have keyRead : Reads sized (putLengthPrefixed key) key := reads_lengthPrefixed fits
    simp only [encode, append_assoc, read]
    rw [(Reader.reads_byte 1).run_bind, (Reader.reads_byte cf.code).run_bind, Cf.fromU8_code, Reader.run_bind_some]
    exact keyRead.run_bind _ rest

theorem forward_read : Reader.Forward read := by
  refine Reader.forward_byte.bind fun tag => Reader.forward_byte.bind fun code => ?_
  refine (Reader.Forward.lift _).bind fun cf => Reader.forward_sized.bind fun key => ?_
  split
  · exact Reader.forward_sized.bind fun _ => Reader.Forward.pure _
  · exact Reader.Forward.pure _
  · exact Reader.Forward.lift none

end WriteOp

namespace WriteBatch

def encode (batch : WriteBatch) : Bytes := toBE 4 batch.ops.length ++ batch.ops.flatMap WriteOp.encode

def decode (buf : Bytes) : Option WriteBatch := do
  let (ops, _) ← (do many WriteOp.read (← number 4)).run buf
  return ⟨ops⟩

def read : Reader WriteBatch := do return ⟨← Reader.list WriteOp.read⟩

theorem decode_eq_read (buf : Bytes) : decode buf = (read.run buf).map Prod.fst := by
  unfold decode read
  change ((Reader.list WriteOp.read).run buf >>= _) = ((Reader.list WriteOp.read).run buf >>= _).map Prod.fst
  cases (Reader.list WriteOp.read).run buf <;> rfl

variable {batch : WriteBatch}

theorem reads_read (few : batch.ops.length < 2 ^ 32) (fits : ∀ op ∈ batch.ops, op.Fits) :
    Reads read batch.encode batch :=
  (Reader.reads_list few fun op member => WriteOp.reads_read (fits op member)).map WriteBatch.mk

theorem forward_read : Reader.Forward read := WriteOp.forward_read.list.bind fun _ => Reader.Forward.pure _

theorem decode_encode (short : batch.encode.length < 2 ^ 32) : decode batch.encode = some batch := by
  have total : (batch.ops.flatMap WriteOp.encode).length < 2 ^ 32 := by
    rw [encode, length_append] at short
    omega
  have each : ∀ op ∈ batch.ops, op.encode.length < 2 ^ 32 := fun op member =>
    (sublist_flatten_of_mem (mem_map_of_mem (f := WriteOp.encode) member)).length_le.trans_lt
      (by rwa [← flatMap_def])
  have few : batch.ops.length < 256 ^ 4 := by
    refine lt_of_le_of_lt (Reader.length_le_flatMap fun op _ => ?_) total
    rw [WriteOp.encode_length]
    cases op <;> dsimp only <;> omega
  have whole := reads_read few (fun op member => WriteOp.fits_of_encode (each op member)) []
  rw [append_nil] at whole
  rw [decode_eq_read, whole]
  rfl

end WriteBatch

structure Manifest where
  lastFlushedSeq : Nat := 0
  -- oldest first
  sstables : List Nat := []
  deriving Repr, DecidableEq

namespace Manifest

def magic : Nat := 0x4d414e49463031

def body (m : Manifest) : Bytes :=
  toBE 8 magic ++ toBE 8 m.lastFlushedSeq ++ toBE 4 m.sstables.length ++ m.sstables.flatMap (toBE 8)

variable [Wal.Crc]

def encode (m : Manifest) : Bytes := m.body ++ toBE 4 (Wal.crc32c m.body).toNat

def decode (data : Bytes) : Except Error Manifest :=
  if data.length < 8 + 8 + 4 + 4 then .error (.corruption "manifest too small")
  else
    let body := data.take (data.length - 4)
    if (Wal.crc32c body).toNat ≠ fromBE (data.drop (data.length - 4)) then .error (.corruption "manifest crc mismatch")
    else if fromBE (body.take 8) ≠ magic then .error (.corruption "manifest bad magic")
    else
      match (many (number 8) (fromBE ((body.drop 16).take 4))).run (body.drop 20) with
      | none => .error (.corruption "manifest truncated")
      | some (sstables, _) => .ok ⟨fromBE ((body.drop 8).take 8), sstables⟩

def Fits (m : Manifest) : Prop :=
  m.lastFlushedSeq < 2 ^ 64 ∧ m.sstables.length < 2 ^ 32 ∧ ∀ n ∈ m.sstables, n < 2 ^ 64
  deriving Decidable

theorem decode_encode {m : Manifest} (fits : m.Fits) : decode m.encode = .ok m := by
  obtain ⟨small, few, numbers⟩ := fits
  have size : m.encode.length = m.body.length + 4 := by rw [encode, length_append, toBE_length]
  have long : 20 ≤ m.body.length := by
    simp only [body, length_append, toBE_length]
    omega
  have front : m.encode.take (m.encode.length - 4) = m.body := by
    rw [size, Nat.add_sub_cancel, encode, take_left' rfl]
  have tail : m.encode.drop (m.encode.length - 4) = toBE 4 (Wal.crc32c m.body).toNat := by
    rw [size, Nat.add_sub_cancel, encode, drop_left' rfl]
  have sum : fromBE (toBE 4 (Wal.crc32c m.body).toNat) = (Wal.crc32c m.body).toNat :=
    fromBE_toBE_of_lt (UInt32.toNat_lt _)
  have first : fromBE (m.body.take 8) = magic := by
    simp only [body, append_assoc]
    rw [take_left' (toBE_length ..), fromBE_toBE_of_lt (by decide)]
  have second : fromBE ((m.body.drop 8).take 8) = m.lastFlushedSeq := by
    simp only [body, append_assoc]
    rw [drop_left' (toBE_length ..), take_left' (toBE_length ..), fromBE_toBE_of_lt small]
  have third : fromBE ((m.body.drop 16).take 4) = m.sstables.length := by
    rw [body, append_assoc, drop_left' (by simp), take_left' (toBE_length ..), fromBE_toBE_of_lt few]
  have rest : m.body.drop 20 = m.sstables.flatMap (toBE 8) := by rw [body, drop_left' (by simp)]
  have each : ∀ n ∈ m.sstables, Reads (number 8) (toBE 8 n) n := fun n member => Reader.reads_number (numbers n member)
  have items := Reads.many each []
  rw [append_nil] at items
  rw [decode, if_neg (by omega)]
  simp only [front, tail, sum, first, second, third, rest, items]
  simp

end Manifest

end Arcux.Engine
