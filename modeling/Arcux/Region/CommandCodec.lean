import Arcux.Engine.Batch
import Arcux.Region.Commands

namespace Arcux.Region

open Codec Engine List
open Codec.Reader (byte sized u64 list Reads Forward)

/-! Replicated commands as the bytes of a log entry. -/

namespace Command

def encodeMutation (m : Mutation) : Bytes := putLengthPrefixed m.key ++ putLengthPrefixed m.value.encode

def encodeMutations (mutations : List Mutation) : Bytes := toBE 4 mutations.length ++ mutations.flatMap encodeMutation

def encodeKeys (keys : List Bytes) : Bytes := toBE 4 keys.length ++ keys.flatMap putLengthPrefixed

def encode : Command → Bytes
  | autocommit batch => [0] ++ batch.encode
  | prewrite mutations primary startTs ttl =>
    [1] ++ toBE 8 startTs.toNat ++ toBE 8 ttl.toNat ++ putLengthPrefixed primary ++ encodeMutations mutations
  | commit primary keys startTs commitTs =>
    [2] ++ toBE 8 startTs.toNat ++ toBE 8 commitTs.toNat ++ putLengthPrefixed primary ++ encodeKeys keys
  | resolve keys startTs commitTs => [3] ++ toBE 8 startTs.toNat ++ toBE 8 commitTs.toNat ++ encodeKeys keys

def readMutation : Reader Mutation := do
  let key ← sized
  let value ← StateT.lift (Value.decode (← sized))
  return ⟨key, value⟩

def readBody : UInt8 → Reader Command
  | 0 => do return autocommit (← WriteBatch.read)
  | 1 => do
    let startTs ← u64
    let ttl ← u64
    let primary ← sized
    return prewrite (← list readMutation) primary startTs ttl
  | 2 => do
    let startTs ← u64
    let commitTs ← u64
    let primary ← sized
    return commit primary (← list sized) startTs commitTs
  | 3 => do
    let startTs ← u64
    let commitTs ← u64
    return resolve (← list sized) startTs commitTs
  | _ => failure

def read : Reader Command := do readBody (← byte)

def decode (buf : Bytes) : Option Command := (read.run buf).map Prod.fst

def Fits : Command → Prop
  | autocommit batch => batch.ops.length < 2 ^ 32 ∧ ∀ op ∈ batch.ops, op.Fits
  | prewrite mutations primary _ _ => primary.length < 2 ^ 32 ∧ mutations.length < 2 ^ 32 ∧
      ∀ m ∈ mutations, m.key.length < 2 ^ 32 ∧ m.value.encode.length < 2 ^ 32
  | commit primary keys _ _ => primary.length < 2 ^ 32 ∧ keys.length < 2 ^ 32 ∧ ∀ k ∈ keys, k.length < 2 ^ 32
  | resolve keys _ _ => keys.length < 2 ^ 32 ∧ ∀ k ∈ keys, k.length < 2 ^ 32

theorem reads_readMutation {m : Mutation} (key : m.key.length < 2 ^ 32) (value : m.value.encode.length < 2 ^ 32) :
    Reads readMutation (encodeMutation m) m := by
  intro rest
  rw [readMutation, encodeMutation, append_assoc, (reads_lengthPrefixed key).run_bind,
    (reads_lengthPrefixed value).run_bind, Value.decode_encode, Reader.run_bind_some]
  rfl

theorem reads_keys {keys : List Bytes} (few : keys.length < 2 ^ 32) (short : ∀ k ∈ keys, k.length < 2 ^ 32) :
    Reads (list sized) (encodeKeys keys) keys :=
  Reader.reads_list few fun k member => reads_lengthPrefixed (short k member)

theorem reads_read {c : Command} (fits : c.Fits) : Reads read c.encode c := by
  intro rest
  cases c with
  | autocommit batch =>
    rw [read, encode, append_assoc, (Reader.reads_byte 0).run_bind]
    exact (WriteBatch.reads_read fits.1 fits.2).run_bind _ rest
  | prewrite mutations primary startTs ttl =>
    obtain ⟨short, few, each⟩ := fits
    have items : Reads (list readMutation) (encodeMutations mutations) mutations :=
      Reader.reads_list few fun m member => reads_readMutation (each m member).1 (each m member).2
    simp only [encode, append_assoc, read]
    rw [(Reader.reads_byte 1).run_bind, readBody, (Reader.reads_u64 startTs).run_bind, (Reader.reads_u64 ttl).run_bind,
      (reads_lengthPrefixed short).run_bind]
    exact items.run_bind _ rest
  | commit primary keys startTs commitTs =>
    obtain ⟨short, few, each⟩ := fits
    simp only [encode, append_assoc, read]
    rw [(Reader.reads_byte 2).run_bind, readBody, (Reader.reads_u64 startTs).run_bind,
      (Reader.reads_u64 commitTs).run_bind, (reads_lengthPrefixed short).run_bind]
    exact (reads_keys few each).run_bind _ rest
  | resolve keys startTs commitTs =>
    simp only [encode, append_assoc, read]
    rw [(Reader.reads_byte 3).run_bind, readBody, (Reader.reads_u64 startTs).run_bind,
      (Reader.reads_u64 commitTs).run_bind]
    exact (reads_keys fits.1 fits.2).run_bind _ rest

theorem forward_readMutation : Forward readMutation :=
  Reader.forward_sized.bind fun _ => Reader.forward_sized.bind fun _ => (Forward.lift _).bind fun _ => Forward.pure _

theorem forward_read : Forward read := by
  refine Reader.forward_byte.bind fun tag => ?_
  unfold readBody
  split
  · exact WriteBatch.forward_read.bind fun _ => Forward.pure _
  · refine Reader.forward_u64.bind fun _ => Reader.forward_u64.bind fun _ => Reader.forward_sized.bind fun _ => ?_
    exact forward_readMutation.list.bind fun _ => Forward.pure _
  · refine Reader.forward_u64.bind fun _ => Reader.forward_u64.bind fun _ => Reader.forward_sized.bind fun _ => ?_
    exact Reader.forward_sized.list.bind fun _ => Forward.pure _
  · refine Reader.forward_u64.bind fun _ => Reader.forward_u64.bind fun _ => ?_
    exact Reader.forward_sized.list.bind fun _ => Forward.pure _
  · exact Forward.lift none

theorem survives_encoding {c : Command} (fits : c.Fits) :
    decode c.encode = some c ∧ c.encode ≠ [] ∧
      ∀ front, front <+: c.encode → front ≠ c.encode → decode front = none := by
  have reads := reads_read fits
  refine ⟨?_, ?_, fun front part proper => ?_⟩
  · have whole := reads []
    rw [append_nil] at whole
    rw [decode, whole]
    rfl
  · cases c <;> exact cons_ne_nil _ _
  · rw [decode, reads.cut forward_read part proper]
    rfl

theorem survives_encoding_prewrite :
    decode (prewrite [⟨[1], .put [7, 8]⟩, ⟨[2], .delete⟩] [1] 5 100).encode =
        some (prewrite [⟨[1], .put [7, 8]⟩, ⟨[2], .delete⟩] [1] 5 100) ∧
      decode ((prewrite [⟨[1], .put [7, 8]⟩, ⟨[2], .delete⟩] [1] 5 100).encode.take 20) = none := by
  have fits : (prewrite [⟨[1], .put [7, 8]⟩, ⟨[2], .delete⟩] [1] 5 100).Fits := by simp [Fits, Value.encode]
  obtain ⟨back, -, cut⟩ := survives_encoding fits
  exact ⟨back, cut _ ( take_prefix ..) (by decide)⟩

end Command

end Arcux.Region
