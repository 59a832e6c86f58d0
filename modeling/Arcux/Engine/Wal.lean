import Arcux.Codec.Reader

namespace Arcux.Engine

open Codec List

structure Segment where
  bytes : Bytes := []
  synced : Nat := 0
  deriving Repr, DecidableEq

namespace Wal

/-- The checksum of the `crc32c` crate, of which nothing is assumed. -/
class Crc where
  crc32c : Bytes → UInt32

export Crc (crc32c)

namespace Castagnoli

def crcBit (crc : UInt32) : UInt32 := if crc &&& 1 = 1 then (crc >>> 1) ^^^ 0x82F63B78 else crc >>> 1

def crcByte (crc : UInt32) (b : UInt8) : UInt32 :=
  crcBit <| crcBit <| crcBit <| crcBit <| crcBit <| crcBit <| crcBit <| crcBit (crc ^^^ b.toUInt32)

scoped instance : Crc := ⟨fun bytes => bytes.foldl crcByte 0xFFFFFFFF ^^^ 0xFFFFFFFF⟩

-- the check value of the polynomial, over the digits 1 to 9
example : crc32c [49, 50, 51, 52, 53, 54, 55, 56, 57] = 0xE3069283 := by decide +kernel

end Castagnoli

variable [Crc]

structure Record where
  seq : Nat
  payload : Bytes
  deriving Repr, DecidableEq

namespace Record

def body (r : Record) : Bytes := toBE 8 r.seq ++ r.payload

def frame (r : Record) : Bytes := toBE 4 r.body.length ++ toBE 4 (crc32c r.body).toNat ++ r.body

def Fits (r : Record) : Prop := r.seq < 2 ^ 64 ∧ r.body.length < 2 ^ 32
  deriving Decidable

end Record

def frames (rs : List Record) : Bytes := rs.flatMap Record.frame

/-- The intact record at the front of the unread bytes and what follows it; `none` at the end or at a torn tail. -/
def nextRecord (unread : Bytes) : Option (Record × Bytes) :=
  if unread.length < 8 then none
  else
    let len := fromBE (unread.take 4)
    let crc := fromBE ((unread.drop 4).take 4)
    let body := (unread.drop 8).take len
    if unread.length < 8 + len then none
    else if (crc32c body).toNat ≠ crc then none
    else if body.length < 8 then none
    else some (⟨fromBE (body.take 8), body.drop 8⟩, unread.drop (8 + len))

def readOn : Nat → Bytes → List Record
  | 0, _ => []
  | rounds + 1, unread =>
    match nextRecord unread with
    | none => []
    | some (r, rest) => r :: readOn rounds rest

def records (data : Bytes) : List Record := readOn data.length data

omit [Crc] in
@[simp] theorem Record.body_length (r : Record) : r.body.length = 8 + r.payload.length := by simp [Record.body]

@[simp] theorem Record.frame_length (r : Record) : r.frame.length = 8 + r.body.length := by
  simp only [Record.frame, length_append, toBE_length]

theorem frames_append (rs rs' : List Record) : frames (rs ++ rs') = frames rs ++ frames rs' := flatMap_append

variable {r : Record}

theorem nextRecord_frame (fits : r.Fits) (rest : Bytes) : nextRecord (r.frame ++ rest) = some (r, rest) := by
  obtain ⟨small, short⟩ := fits
  have len : fromBE ((r.frame ++ rest).take 4) = r.body.length := by
    rw [Record.frame, append_assoc, append_assoc, take_left' (toBE_length ..), fromBE_toBE_of_lt short]
  have crc : fromBE (((r.frame ++ rest).drop 4).take 4) = (crc32c r.body).toNat := by
    rw [Record.frame, append_assoc, append_assoc, drop_left' (toBE_length ..),
      take_left' (toBE_length ..), fromBE_toBE_of_lt (UInt32.toNat_lt _)]
  have after : (r.frame ++ rest).drop 8 = r.body ++ rest := by
    rw [Record.frame, append_assoc, drop_left' (by simp)]
  have body : ((r.frame ++ rest).drop 8).take r.body.length = r.body := by rw [after, take_left' rfl]
  have tail : (r.frame ++ rest).drop (8 + r.body.length) = rest := by
    rw [← drop_drop, after, drop_left' rfl]
  have size : (r.frame ++ rest).length = 8 + r.body.length + rest.length := by simp
  have seq : fromBE (r.body.take 8) = r.seq := by
    rw [Record.body, take_left' (toBE_length ..), fromBE_toBE_of_lt small]
  have payload : r.body.drop 8 = r.payload := by rw [Record.body, drop_left' (toBE_length ..)]
  rw [nextRecord, if_neg (by omega)]
  simp only [len, crc, body, tail, seq, payload]
  rw [if_neg (by omega), if_neg (by simp), if_neg (by rw [Record.body_length]; omega)]

variable {n : Nat}

theorem nextRecord_cut (fits : r.Fits) (cut : n < r.frame.length) : nextRecord (r.frame.take n) = none := by
  have size : (r.frame.take n).length = n := length_take_of_le cut.le
  rw [nextRecord, size]
  by_cases header : n < 8
  · rw [if_pos header]
  · have len : fromBE ((r.frame.take n).take 4) = r.body.length := by
      rw [take_take, min_eq_left (by omega), Record.frame, append_assoc, take_left' (toBE_length ..),
        fromBE_toBE_of_lt fits.2]
    rw [if_neg header]
    simp only [len]
    rw [Record.frame_length] at cut
    rw [if_pos cut]

theorem nextRecord_nil : nextRecord [] = none := rfl

variable {torn : Bytes} {rs : List Record}

theorem readOn_frames (fits : ∀ r ∈ rs, r.Fits) (stops : nextRecord torn = none)
    {rounds : Nat} (enough : rs.length ≤ rounds) : readOn rounds (frames rs ++ torn) = rs := by
  induction rs generalizing rounds with
  | nil =>
    cases rounds with
    | zero => rfl
    | succ rounds =>
      rw [frames, flatMap_nil, nil_append, readOn, stops]
  | cons r rest ih =>
    obtain ⟨here, later⟩ := forall_mem_cons.mp fits
    cases rounds with
    | zero => simp at enough
    | succ rounds =>
      rw [frames, flatMap_cons, append_assoc, readOn, nextRecord_frame here]
      dsimp only
      rw [← frames, ih later (Nat.le_of_succ_le_succ enough)]

theorem records_frames (fits : ∀ r ∈ rs, r.Fits) (stops : nextRecord torn = none) :
    records (frames rs ++ torn) = rs := by
  refine readOn_frames fits stops ?_
  have enough : rs.length ≤ (frames rs).length := Reader.length_le_flatMap fun r _ => by
    rw [Record.frame_length]
    omega
  rw [length_append]
  exact enough.trans (Nat.le_add_right ..)

theorem take_frames (fits : ∀ r ∈ rs, r.Fits) (n : Nat) :
    ∃ kept torn, kept ≤ rs.length ∧ (frames rs).take n = frames (rs.take kept) ++ torn ∧ nextRecord torn = none := by
  induction rs generalizing n with
  | nil => exact ⟨0, [], Nat.le_refl _, by simp [frames], nextRecord_nil⟩
  | cons r rest ih =>
    obtain ⟨here, later⟩ := forall_mem_cons.mp fits
    have split : frames (r :: rest) = r.frame ++ frames rest := flatMap_cons ..
    by_cases whole : r.frame.length ≤ n
    · obtain ⟨kept, torn, bound, same, stops⟩ := ih later (n - r.frame.length)
      refine ⟨kept + 1, torn, Nat.succ_le_succ bound, ?_, stops⟩
      rw [split, take_append, take_of_length_le whole, same, take_succ_cons, ← append_assoc]
      rfl
    · rw [not_le] at whole
      refine ⟨0, r.frame.take n, Nat.zero_le _, ?_, nextRecord_cut here whole⟩
      rw [split, take_append_of_le_length whole.le]
      rfl

variable {front back : List Record}

theorem take_frames_append (fits : ∀ r ∈ back, r.Fits) (spared : (frames front).length ≤ n) :
    ∃ kept torn, kept ≤ back.length ∧ (frames (front ++ back)).take n = frames (front ++ back.take kept) ++ torn ∧
      nextRecord torn = none := by
  obtain ⟨kept, torn, bound, same, stops⟩ := take_frames fits (n - (frames front).length)
  refine ⟨kept, torn, bound, ?_, stops⟩
  rw [frames_append, take_append, take_of_length_le spared, same, frames_append, append_assoc]

def Torn (torn : Bytes) : Prop := ∀ n, nextRecord (torn.take n) = none

theorem torn_nil : Torn [] := fun _ => by rw [take_nil, nextRecord_nil]

theorem Torn.stops (ends : Torn torn) : nextRecord torn = none := by
  have all := ends torn.length
  rwa [take_length] at all

theorem torn_frame (fits : r.Fits) (written : Nat) : Torn (r.frame.dropLast.take written) := by
  intro n
  have size : 0 < r.frame.length := by
    rw [Record.frame_length]
    omega
  rw [take_take, dropLast_eq_take, take_take]
  exact nextRecord_cut fits (by omega)

theorem take_torn (fits : ∀ r ∈ back, r.Fits) (ends : Torn torn)
    (spared : (frames front).length ≤ n) :
    ∃ kept torn', kept ≤ back.length ∧
      (frames (front ++ back) ++ torn).take n = frames (front ++ back.take kept) ++ torn' ∧ nextRecord torn' = none := by
  by_cases inside : n ≤ (frames (front ++ back)).length
  · obtain ⟨kept, torn', bound, same, stops⟩ := take_frames_append fits spared
    exact ⟨kept, torn', bound, (take_append_of_le_length inside).trans same, stops⟩
  · refine ⟨back.length, torn.take (n - (frames (front ++ back)).length), Nat.le_refl _, ?_, ends _⟩
    rw [take_append, take_of_length_le (Nat.le_of_not_le inside), take_length]

end Wal

variable [Wal.Crc]

def Segment.Lasting (s : Segment) : Prop := ∀ n, s.synced ≤ n → Wal.records (s.bytes.take n) = Wal.records s.bytes

variable {s : Segment}

theorem Segment.lasting_of_synced (synced : s.synced = s.bytes.length) : s.Lasting := fun n long => by
  rw [take_of_length_le (synced ▸ long)]

theorem Segment.lasting_of_frames {rs : List Wal.Record} {torn : Bytes} (bytes : s.bytes = Wal.frames rs ++ torn)
    (fits : ∀ r ∈ rs, r.Fits) (ends : Wal.Torn torn) (durable : (Wal.frames rs).length ≤ s.synced) : s.Lasting := by
  intro n long
  have none : ∀ r ∈ ([] : List Wal.Record), r.Fits := forall_mem_nil _
  obtain ⟨kept, torn', -, same, stops⟩ := Wal.take_torn none ends (durable.trans long)
  rw [take_nil, append_nil] at same
  rw [bytes, same, Wal.records_frames fits stops, Wal.records_frames fits ends.stops]

end Arcux.Engine
