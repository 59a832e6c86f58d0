import Arcux.Engine.Wal

namespace Arcux.Engine

open Codec List

namespace Wal

section

variable [Crc]

structure WalWriter where
  file : Bytes
  written : Nat
  deriving Repr, DecidableEq

namespace WalWriter

def create : WalWriter := ⟨[], 0⟩

def openAppend (file : Bytes) : WalWriter := ⟨file, file.length⟩

def append (w : WalWriter) (r : Record) : WalWriter :=
  { file := w.file ++ r.frame, written := w.written + r.frame.length }

theorem file_foldl (w : WalWriter) (rs : List Record) : (rs.foldl append w).file = w.file ++ frames rs := by
  induction rs generalizing w with
  | nil => simp [frames]
  | cons r rest ih =>
    rw [foldl_cons, ih, append, append_assoc]
    rfl

end WalWriter

structure WalReader where
  data : Bytes
  pos : Nat
  deriving Repr, DecidableEq

namespace WalReader

def openData (data : Bytes) : WalReader := ⟨data, 0⟩

def validLen (reader : WalReader) : Nat := reader.pos

def nextRecord (reader : WalReader) : Option Record × WalReader :=
  let buf := reader.data
  let start := reader.pos
  if buf.length < start + 8 then (none, reader)
  else
    let len := fromBE ((buf.drop start).take 4)
    let crc := fromBE ((buf.drop (start + 4)).take 4)
    let bodyStart := start + 8
    let bodyEnd := bodyStart + len
    if buf.length < bodyEnd then (none, reader)
    else
      let body := (buf.drop bodyStart).take len
      if (crc32c body).toNat ≠ crc then (none, reader)
      else if body.length < 8 then (none, reader)
      else (some ⟨fromBE (body.take 8), body.drop 8⟩, { reader with pos := bodyEnd })

def after : Nat → WalReader → WalReader
  | 0, reader => reader
  | calls + 1, reader => after calls reader.nextRecord.2

theorem nextRecord_eq (reader : WalReader) :
    reader.nextRecord = match Wal.nextRecord (reader.data.drop reader.pos) with
      | none => (none, reader)
      | some (r, _) => (some r, { reader with pos := reader.pos + r.frame.length }) := by
  obtain ⟨data, pos⟩ := reader
  have left : (data.drop pos).length = data.length - pos := length_drop
  simp only [nextRecord, Wal.nextRecord, drop_drop]
  by_cases header : (data.drop pos).length < 8
  · rw [if_pos header, if_pos (by omega)]
  · rw [if_neg header, if_neg (by omega)]
    generalize fromBE ((data.drop pos).take 4) = len
    by_cases short : (data.drop pos).length < 8 + len
    · rw [if_pos short, if_pos (by omega)]
    · rw [if_neg short, if_neg (by omega)]
      have whole : ((data.drop (pos + 8)).take len).length = len := by
        rw [length_take, length_drop]
        omega
      split
      · rfl
      · split
        · rfl
        · rename_i long
          have frame : 8 + (((data.drop (pos + 8)).take len).drop 8).length = len := by
            rw [length_drop, whole]
            rw [whole] at long
            omega
          simp only [Record.frame_length, Record.body_length, frame, Nat.add_assoc]

variable {r : Record} {rs : List Record} {front torn : Bytes}

theorem nextRecord_frame (fits : r.Fits) (front rest : Bytes) :
    nextRecord ⟨front ++ (r.frame ++ rest), front.length⟩ =
      (some r, ⟨front ++ (r.frame ++ rest), (front ++ r.frame).length⟩) := by
  rw [nextRecord_eq, drop_left, Wal.nextRecord_frame fits, length_append]

theorem nextRecord_stops (stops : Wal.nextRecord torn = none) (front : Bytes) :
    nextRecord ⟨front ++ torn, front.length⟩ = (none, ⟨front ++ torn, front.length⟩) := by
  rw [nextRecord_eq, drop_left, stops]

theorem after_stops {reader : WalReader} (stops : reader.nextRecord = (none, reader)) (calls : Nat) :
    reader.after calls = reader := by
  induction calls with
  | zero => rfl
  | succ calls ih => rw [after, stops, ih]

theorem after_frames (fits : ∀ r ∈ rs, r.Fits) (stops : Wal.nextRecord torn = none) (front : Bytes) (calls : Nat) :
    (after calls ⟨front ++ (frames rs ++ torn), front.length⟩).nextRecord.1 = rs[calls]? ∧
    (rs.length ≤ calls →
      (after calls ⟨front ++ (frames rs ++ torn), front.length⟩).validLen = (front ++ frames rs).length) := by
  induction rs generalizing front calls with
  | nil =>
    have ends := nextRecord_stops stops front
    have same : frames [] ++ torn = torn := rfl
    rw [same, after_stops ends, ends]
    exact ⟨rfl, fun _ => by rw [validLen, frames, flatMap_nil, append_nil]⟩
  | cons r rest ih =>
    obtain ⟨here, later⟩ := forall_mem_cons.mp fits
    have split : frames (r :: rest) ++ torn = r.frame ++ (frames rest ++ torn) := append_assoc ..
    have first := nextRecord_frame here front (frames rest ++ torn)
    rw [split]
    cases calls with
    | zero => exact ⟨by rw [after, first]; rfl, by simp⟩
    | succ calls =>
      have next := ih later (front ++ r.frame) calls
      rw [append_assoc] at next
      rw [after, first, getElem?_cons_succ]
      refine ⟨next.1, fun past => ?_⟩
      rw [next.2 (Nat.le_of_succ_le_succ past), append_assoc]
      rfl

theorem openData_frames (fits : ∀ r ∈ rs, r.Fits) (stops : Wal.nextRecord torn = none) (calls : Nat) :
    (after calls (openData (frames rs ++ torn))).nextRecord.1 = rs[calls]? ∧
    (rs.length ≤ calls → (after calls (openData (frames rs ++ torn))).validLen = (frames rs).length) :=
  after_frames fits stops [] calls

end WalReader

theorem frames_take_le (rs : List Record) {i j : Nat} (le : i ≤ j) :
    (frames (rs.take i)).length ≤ (frames (rs.take j)).length := by
  obtain ⟨between, same⟩ := take_prefix_take_left (l := rs) le
  rw [← same, frames_append, length_append]
  exact Nat.le_add_right ..

theorem kept_iff {rs : List Record} (fits : ∀ r ∈ rs, r.Fits) {kept n : Nat} {torn : Bytes} (bound : kept ≤ rs.length)
    (same : (frames rs).take n = frames (rs.take kept) ++ torn) (stops : nextRecord torn = none) {i : Nat}
    (inside : i < rs.length) : i < kept ↔ (frames (rs.take (i + 1))).length ≤ n := by
  constructor
  · intro early
    have length := congrArg length same
    rw [length_take, length_append] at length
    have ends : (frames (rs.take (i + 1))).length ≤ (frames (rs.take kept)).length := frames_take_le rs early
    omega
  · intro whole
    by_contra late
    have more : kept < rs.length := by omega
    have ends := (frames_take_le rs (Nat.succ_le_succ (Nat.le_of_not_lt late))).trans whole
    -- The torn tail would start with the frame of the next record.
    have front : frames (rs.take (kept + 1)) = frames (rs.take kept) ++ rs[kept].frame := by
      rw [take_succ_eq_append_getElem more, frames_append]
      simp [frames]
    have all : frames rs = frames (rs.take (kept + 1)) ++ frames (rs.drop (kept + 1)) := by
      rw [← frames_append, take_append_drop]
    rw [all, take_append, take_of_length_le ends, front, append_assoc] at same
    have next := append_cancel_left same
    rw [← next, nextRecord_frame (fits _ (getElem_mem more))] at stops
    cases stops

def segment (rs : List Record) : Bytes := (rs.foldl WalWriter.append WalWriter.create).file

theorem segment_eq (rs : List Record) : segment rs = frames rs := WalWriter.file_foldl WalWriter.create rs

open WalWriter WalReader in
theorem replays_intact_records (rs more : List Record) (fits : ∀ r ∈ rs ++ more, r.Fits) (cut : Nat) :
    ∃ n ≤ rs.length,
      (∀ i < rs.length, i < n ↔ (segment (rs.take (i + 1))).length ≤ cut) ∧
      (∀ i, (after i (openData ((segment rs).take cut))).nextRecord.1 = (rs.take n)[i]?) ∧
      ∀ i, n ≤ i → (after i (openData ((segment rs).take cut))).validLen = (segment (rs.take n)).length ∧
        ∀ restarted, restarted = ((segment rs).take cut).take (after i (openData ((segment rs).take cut))).validLen →
          ∀ j, (after j (openData (more.foldl append (openAppend restarted)).file)).nextRecord.1 =
            (rs.take n ++ more)[j]? := by
  obtain ⟨old, new⟩ := forall_mem_append.mp fits
  obtain ⟨n, torn, bound, same, stops⟩ := take_frames old cut
  have kept : ∀ r ∈ rs.take n, r.Fits := fun r member => old r (mem_of_mem_take member)
  simp only [segment_eq]
  refine ⟨n, bound, fun i inside => kept_iff old bound same stops inside, ?_, fun i past => ?_⟩
  · rw [same]
    exact fun i => (openData_frames kept stops i).1
  · have ends := (openData_frames kept stops i).2 (by rwa [length_take_of_le bound])
    rw [same]
    refine ⟨ends, ?_⟩
    rintro restarted rfl j
    have rewritten : (more.foldl append (openAppend ((frames (rs.take n) ++ torn).take
        (after i (openData (frames (rs.take n) ++ torn))).validLen))).file = frames (rs.take n ++ more) ++ [] := by
      rw [ends, file_foldl, openAppend, take_left, append_nil, frames_append]
    rw [rewritten]
    exact (openData_frames (forall_mem_append.mpr ⟨kept, new⟩) nextRecord_nil j).1

end

open scoped Castagnoli in
theorem replays_intact_records_torn :
    ∃ n ≤ 2, (∀ i < 2, i < n ↔ (segment ([⟨1, [5, 6]⟩, ⟨2, []⟩].take (i + 1))).length ≤ 24) ∧
      ∀ i, (WalReader.after i (.openData ((segment [⟨1, [5, 6]⟩, ⟨2, []⟩]).take 24))).nextRecord.1 =
        ([⟨1, [5, 6]⟩, ⟨2, []⟩].take n)[i]? := by
  obtain ⟨n, bound, whole, answers, -⟩ :=
    replays_intact_records [⟨1, [5, 6]⟩, ⟨2, []⟩] [⟨3, [7]⟩] (by decide) 24
  exact ⟨n, bound, whole, answers⟩

end Wal

end Arcux.Engine
