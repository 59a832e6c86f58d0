import Arcux.Codec.ByteOrder

namespace Arcux.Engine

open Codec List
open scoped Codec.ByteOrder

abbrev Ts := UInt64

def maxTs : Ts := UInt64.ofNat (2 ^ 64 - 1)

scoped instance : LinearOrder Ts where
  le_refl _ := UInt64.le_refl _
  le_trans _ _ _ := UInt64.le_trans
  lt_iff_le_not_ge _ _ := by grind
  le_antisymm _ _ := UInt64.le_antisymm
  le_total := UInt64.le_total
  toDecidableLE := inferInstance
  toDecidableEq := inferInstance
  toDecidableLT := inferInstance

theorem le_maxTs (ts : Ts) : ts ≤ maxTs := by
  have := ts.toNat_lt
  simp only [maxTs, UInt64.le_iff_toNat_le, UInt64.toNat_ofNat']
  omega

def tsLen : Nat := 8

def encodeTs (ts : Ts) : Bytes := toBE tsLen (maxTs - ts).toNat

def decodeTs (bytes : Bytes) : Ts := maxTs - UInt64.ofNat (fromBE bytes)

def putLengthPrefixed (bytes : Bytes) : Bytes := toBE 4 bytes.length ++ bytes

def getLengthPrefixed (buf : Bytes) (pos : Nat) : Option (Bytes × Nat) :=
  if buf.length < pos + 4 then none
  else
    let len := fromBE ((buf.drop pos).take 4)
    if buf.length < pos + 4 + len then none
    else some ((buf.drop (pos + 4)).take len, pos + 4 + len)

inductive Cf where
  | default | write | lock
  deriving Repr, DecidableEq

def encodeDataKey (userKey : Bytes) (ts : Ts) : Bytes := userKey ++ encodeTs ts

def decodeDataKey (key : Bytes) : Option (Bytes × Ts) :=
  if key.length < tsLen then none
  else some (key.take (key.length - tsLen), decodeTs (key.drop (key.length - tsLen)))

def encodeWriteValue (startTs : Ts) : Bytes := toBE 8 startTs.toNat

def decodeWriteValue (bytes : Bytes) : Option Ts :=
  if bytes.length = 8 then some (UInt64.ofNat (fromBE bytes)) else none

inductive Value where
  | put (bytes : Bytes) | delete
  deriving Repr, DecidableEq

namespace Value

def encode : Value → Bytes
  | put v => 0 :: v
  | delete => [1]

def decode : Bytes → Option Value
  | 0 :: rest => some (put rest)
  | 1 :: _ => some delete
  | _ => none

def intoOption : Value → Option Bytes
  | put v => some v
  | delete => none

end Value

inductive LockKind where
  | put | delete
  deriving Repr, DecidableEq

def LockKind.code : LockKind → UInt8
  | put => 0
  | delete => 1

structure Lock where
  primary : Bytes
  startTs : Ts
  ttl : Ts
  kind : LockKind
  deriving Repr, DecidableEq

namespace Lock

def encode (lock : Lock) : Bytes :=
  [lock.kind.code] ++ toBE 8 lock.startTs.toNat ++ toBE 8 lock.ttl.toNat ++ putLengthPrefixed lock.primary

def decode (bytes : Bytes) : Option Lock :=
  if bytes.length < 1 + 8 + 8 then none
  else do
    let kind ← match bytes.head? with
      | some 0 => some LockKind.put
      | some 1 => some LockKind.delete
      | _ => none
    let startTs := UInt64.ofNat (fromBE ((bytes.drop 1).take 8))
    let ttl := UInt64.ofNat (fromBE ((bytes.drop 9).take 8))
    let (primary, _) ← getLengthPrefixed bytes 17
    some ⟨primary, startTs, ttl, kind⟩

end Lock

theorem ofNat_fromBE_toBE (n : UInt64) : UInt64.ofNat (fromBE (toBE 8 n.toNat)) = n := by
  rw [fromBE_toBE_of_lt (by simpa using n.toNat_lt)]
  exact UInt64.ofNat_toNat

@[simp] theorem encodeTs_length (ts : Ts) : (encodeTs ts).length = tsLen := toBE_length ..

theorem decodeTs_encodeTs (ts : Ts) : decodeTs (encodeTs ts) = ts := by
  rw [decodeTs, encodeTs, tsLen, ofNat_fromBE_toBE]
  grind

@[simp] theorem decodeDataKey_encodeDataKey (userKey : Bytes) (ts : Ts) :
    decodeDataKey (encodeDataKey userKey ts) = some (userKey, ts) := by
  simp [decodeDataKey, encodeDataKey, decodeTs_encodeTs]

variable {ts ts' : Ts} {k k' : Bytes}

theorem encodeDataKey_inj : encodeDataKey k ts = encodeDataKey k' ts' ↔ k = k' ∧ ts = ts' := by
  refine ⟨fun same => ?_, by rintro ⟨rfl, rfl⟩; rfl⟩
  have decoded := congrArg decodeDataKey same
  simpa using decoded

@[simp] theorem decodeWriteValue_encodeWriteValue (startTs : Ts) :
    decodeWriteValue (encodeWriteValue startTs) = some startTs := by
  simp [decodeWriteValue, encodeWriteValue, ofNat_fromBE_toBE]

@[simp] theorem Value.decode_encode (value : Value) : decode value.encode = some value := by
  cases value <;> rfl

theorem getLengthPrefixed_append (front bytes : Bytes) :
    getLengthPrefixed (front ++ putLengthPrefixed bytes) front.length =
      some (bytes.take (bytes.length % 2 ^ 32), front.length + 4 + bytes.length % 2 ^ 32) := by
  have cut : bytes.length % 2 ^ 32 ≤ bytes.length := Nat.mod_le ..
  have read : fromBE (toBE 4 bytes.length) = bytes.length % 2 ^ 32 := fromBE_toBE 4 _
  simp [getLengthPrefixed, putLengthPrefixed, drop_append, take_append, read]
  omega

theorem Lock.decode_encode_cut (lock : Lock) : decode lock.encode =
    some { lock with primary := lock.primary.take (lock.primary.length % 2 ^ 32) } := by
  have tail : getLengthPrefixed lock.encode 17 =
      some (lock.primary.take (lock.primary.length % 2 ^ 32), 17 + 4 + lock.primary.length % 2 ^ 32) := by
    have appended := getLengthPrefixed_append
      ([lock.kind.code] ++ toBE 8 lock.startTs.toNat ++ toBE 8 lock.ttl.toNat) lock.primary
    simp only [length_append, length_singleton, toBE_length] at appended
    exact appended
  have first : lock.encode.head? = some lock.kind.code := by simp [encode]
  have start : UInt64.ofNat (fromBE ((lock.encode.drop 1).take 8)) = lock.startTs := by
    simp [encode, ofNat_fromBE_toBE]
  have expiry : UInt64.ofNat (fromBE ((lock.encode.drop 9).take 8)) = lock.ttl := by
    simp [encode, ofNat_fromBE_toBE]
  have long : ¬ lock.encode.length < 1 + 8 + 8 := by
    simp only [encode, length_append, length_singleton, toBE_length]
    omega
  rw [decode, if_neg long, start, expiry, first, tail]
  cases kind : lock.kind <;> simp [LockKind.code]

theorem Lock.decode_encode {lock : Lock} (short : lock.primary.length < 2 ^ 32) : decode lock.encode = some lock := by
  rw [decode_encode_cut, Nat.mod_eq_of_lt short, take_length]

theorem encodeTs_lt_encodeTs : encodeTs ts < encodeTs ts' ↔ ts' < ts := by
  rw [encodeTs, encodeTs, ByteOrder.toBE_lt_toBE (by simpa [tsLen] using UInt64.toNat_lt _)
    (by simpa [tsLen] using UInt64.toNat_lt _), ← UInt64.lt_iff_toNat_lt]
  have := le_maxTs ts
  have := le_maxTs ts'
  grind

theorem encodeDataKey_lt_encodeDataKey {k : Bytes} : encodeDataKey k ts < encodeDataKey k ts' ↔ ts' < ts := by
  rw [encodeDataKey, encodeDataKey, append_lt_append_iff, encodeTs_lt_encodeTs]

def Apart (keys : Set Bytes) : Prop := ∀ k ∈ keys, ∀ k' ∈ keys, k <+: k' → k = k'

theorem Apart.encode_lt_of_ne {keys : Set Bytes} (apart : Apart keys) (mem : k ∈ keys)
    (mem' : k' ∈ keys) (differ : k ≠ k') (x y : Bytes) : k ++ x < k' ++ y ↔ k < k' :=
  append_lt_append_of_apart (fun start => differ (apart k mem k' mem' start))
    (fun start => differ (apart k' mem' k mem start).symm) x y

/-- User keys of which none starts with another and whose length fits the 32 bits it has in a lock. -/
structure KeySpace where
  keys : Set Bytes
  apart : ∀ k ∈ keys, ∀ k' ∈ keys, k <+: k' → k = k'
  short : ∀ k ∈ keys, k.length < 2 ^ 32

def KeySpace.oneByte : KeySpace where
  keys := fun k => k.length = 1
  apart _ one _ one' start := start.eq_of_length (one.trans one'.symm)
  short _ one := lt_of_eq_of_lt one (by decide)

end Arcux.Engine
