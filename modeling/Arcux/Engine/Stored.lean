import Arcux.Engine.Layered
import Mathlib.Data.List.Sort

namespace Arcux.Engine

open Codec List
open scoped Codec.ByteOrder

theorem foldl_max (l : List Nat) (a b : Nat) : l.foldl max (max a b) = max (l.foldl max a) b := by
  induction l generalizing a with
  | nil => rfl
  | cons x rest ih =>
    rw [foldl_cons, foldl_cons, ← ih]
    congr 1
    omega

theorem foldl_max_le {l : List Nat} {a n : Nat} : l.foldl max a ≤ n ↔ a ≤ n ∧ ∀ x ∈ l, x ≤ n := by
  induction l generalizing a with
  | nil => simp
  | cons x rest ih =>
    rw [foldl_cons, ih, forall_mem_cons, max_le_iff, and_assoc]

def recordOf (p : Nat × WriteBatch) : Wal.Record := ⟨p.1, p.2.encode⟩

def recordsFrom (last : Nat) (log : Journal) : List Wal.Record := (entriesFrom last log).map recordOf

theorem ascending_recordsFrom (last : Nat) (log : Journal) :
    (recordsFrom last log).Pairwise (fun r r' => r.seq < r'.seq) :=
  pairwise_map.mpr (ascending_entriesFrom last log)

structure Recorded (rs : List Wal.Record) (flushed : Nat) (log : Journal) : Prop where
  ascending : rs.Pairwise (fun r r' => r.seq < r'.seq)
  logged : ∀ r ∈ rs, ∃ p ∈ entriesFrom 0 log, r = recordOf p
  complete : ∀ p ∈ entriesFrom 0 log, flushed < p.1 → recordOf p ∈ rs
  fits : ∀ r ∈ rs, r.Fits

namespace Recorded

variable {rs : List Wal.Record} {flushed : Nat} {log : Journal}

section

variable (recorded : Recorded rs flushed log)

include recorded

theorem seq_le {r : Wal.Record} (member : r ∈ rs) : r.seq ≤ log.length := by
  obtain ⟨p, numbered, rfl⟩ := recorded.logged r member
  have := (mem_entriesFrom numbered).2
  simpa [recordOf] using this

theorem append {b : WriteBatch} (fits : (recordOf (log.length + 1, b)).Fits) :
    Recorded (rs ++ [recordOf (log.length + 1, b)]) flushed (log ++ [some b]) := by
  have numbers : entriesFrom 0 (log ++ [some b]) = entriesFrom 0 log ++ [(log.length + 1, b)] := by
    rw [entriesFrom_append, Nat.zero_add]
    rfl
  constructor
  case ascending =>
    refine pairwise_append.mpr ⟨recorded.ascending, pairwise_singleton _ _, fun r member r' last => ?_⟩
    rw [mem_singleton.mp last]
    exact Nat.lt_succ_of_le (recorded.seq_le member)
  case logged =>
    rw [numbers]
    intro r member
    rcases mem_append.mp member with old | new
    · obtain ⟨p, numbered, same⟩ := recorded.logged r old
      exact ⟨p, mem_append_left _ numbered, same⟩
    · exact ⟨_, mem_append_right _ (mem_singleton_self _), mem_singleton.mp new⟩
  case complete =>
    rw [numbers]
    intro p member above
    rcases mem_append.mp member with old | new
    · exact mem_append_left _ (recorded.complete p old above)
    · rw [mem_singleton.mp new]
      exact mem_append_right _ (mem_singleton_self _)
  case fits =>
    intro r member
    rcases mem_append.mp member with old | new
    · exact recorded.fits r old
    · rwa [mem_singleton.mp new]

theorem skip : Recorded rs flushed (log ++ [none]) := by
  have numbers : entriesFrom 0 (log ++ [none]) = entriesFrom 0 log := by
    rw [entriesFrom_append]
    exact append_nil _
  exact { recorded with logged := numbers.symm ▸ recorded.logged, complete := numbers.symm ▸ recorded.complete }

theorem raise {higher : Nat} (raised : flushed ≤ higher) : Recorded rs higher log :=
  { recorded with complete := fun p member above => recorded.complete p member (raised.trans_lt above) }

theorem sublist {rs' : List Wal.Record} (fewer : rs'.Sublist rs)
    (live : ∀ r ∈ rs, flushed < r.seq → r ∈ rs') : Recorded rs' flushed log where
  ascending := recorded.ascending.sublist fewer
  logged r member := recorded.logged r (fewer.subset member)
  complete p member above := live _ (recorded.complete p member above) above
  fits r member := recorded.fits r (fewer.subset member)

end

theorem cut {base : List Wal.Record} {durable : Nat}
    (recorded : Recorded (base ++ recordsFrom durable (log.drop durable)) flushed log) (bound : durable ≤ log.length)
    (kept : Nat) :
    Recorded (base ++ recordsFrom durable ((log.drop durable).take kept)) flushed (log.take (durable + kept)) := by
  have whole := entriesFrom_split bound
  have part : entriesFrom 0 (log.take (durable + kept)) =
      entriesFrom 0 (log.take durable) ++ entriesFrom durable ((log.drop durable).take kept) := by
    rw [take_add, entriesFrom_append, length_take_of_le bound, Nat.zero_add]
  have split : entriesFrom durable (log.drop durable) = entriesFrom durable ((log.drop durable).take kept) ++
      entriesFrom (durable + ((log.drop durable).take kept).length) ((log.drop durable).drop kept) := by
    rw [← entriesFrom_append, take_append_drop]
  have fewer : (base ++ recordsFrom durable ((log.drop durable).take kept)).Sublist
      (base ++ recordsFrom durable (log.drop durable)) := by
    refine (Sublist.refl base).append ?_
    rw [recordsFrom, recordsFrom, split, map_append]
    exact sublist_append_left ..
  refine ⟨recorded.ascending.sublist fewer, fun r member => ?_, fun p member above => ?_,
    fun r member => recorded.fits r (fewer.subset member)⟩
  · rcases mem_append.mp member with old | new
    · obtain ⟨p, numbered, rfl⟩ := recorded.logged r (mem_append_left _ old)
      refine ⟨p, ?_, rfl⟩
      rw [part]
      rw [whole] at numbered
      rcases mem_append.mp numbered with early | late
      · exact mem_append_left _ early
      · -- a record of the base comes before those of the batches after `durable`
        have after := (pairwise_append.mp recorded.ascending).2.2 _ old _ (mem_map_of_mem late)
        exact absurd after (Nat.lt_irrefl _)
    · obtain ⟨p, numbered, rfl⟩ := mem_map.mp new
      exact ⟨p, by rw [part]; exact mem_append_right _ numbered, rfl⟩
  · rw [part] at member
    rcases mem_append.mp member with early | late
    · have there := recorded.complete p (by rw [whole]; exact mem_append_left _ early) above
      rcases mem_append.mp there with old | new
      · exact mem_append_left _ old
      · obtain ⟨q, numbered, same⟩ := mem_map.mp new
        have low := (mem_entriesFrom early).2
        have high := (mem_entriesFrom numbered).1
        have equal : q.1 = p.1 := congrArg Wal.Record.seq same
        rw [length_take_of_le bound] at low
        omega
    · exact mem_append_right _ (mem_map_of_mem late)

def top (rs : List Wal.Record) (flushed : Nat) : Nat := (rs.map Wal.Record.seq).foldl max flushed

theorem seq_le_top {r : Wal.Record} (member : r ∈ rs) (flushed : Nat) : r.seq ≤ top rs flushed :=
  (foldl_max_le.mp (Nat.le_refl _)).2 r.seq (mem_map_of_mem member)

theorem flushed_le_top (rs : List Wal.Record) (flushed : Nat) : flushed ≤ top rs flushed :=
  (foldl_max_le.mp (Nat.le_refl _)).1

section

variable (recorded : Recorded rs flushed log)

include recorded

theorem top_le (bound : flushed ≤ log.length) : top rs flushed ≤ log.length := by
  refine foldl_max_le.mpr ⟨bound, fun seq member => ?_⟩
  obtain ⟨r, there, rfl⟩ := mem_map.mp member
  exact recorded.seq_le there

theorem entry_le_top {p : Nat × WriteBatch} (member : p ∈ entriesFrom 0 log) : p.1 ≤ top rs flushed := by
  by_cases above : flushed < p.1
  · exact seq_le_top (recorded.complete p member above) flushed
  · exact (Nat.le_of_not_lt above).trans (flushed_le_top rs flushed)

theorem trim : Recorded rs flushed (log.take (top rs flushed)) where
  __ := recorded
  logged r member := by
    obtain ⟨p, numbered, rfl⟩ := recorded.logged r member
    exact ⟨p, mem_entriesFrom_take.mpr ⟨numbered, recorded.entry_le_top numbered⟩, rfl⟩
  complete p member := recorded.complete p (mem_entriesFrom_take.mp member).1

theorem live (bound : flushed ≤ log.length) :
    rs.filter (fun r => flushed < r.seq) = recordsFrom flushed (log.drop flushed) := by
  have whole := entriesFrom_split bound
  have irrefl : Std.Irrefl (fun r r' : Wal.Record => r.seq < r'.seq) := ⟨fun r => Nat.lt_irrefl r.seq⟩
  have asymm : Std.Asymm (fun r r' : Wal.Record => r.seq < r'.seq) := ⟨fun r r' => Nat.lt_asymm⟩
  refine List.Pairwise.eq_of_mem_iff (recorded.ascending.filter _) (ascending_recordsFrom ..) fun r => ?_
  rw [mem_filter, recordsFrom, mem_map, decide_eq_true_eq]
  constructor
  · rintro ⟨member, above⟩
    obtain ⟨p, numbered, rfl⟩ := recorded.logged r member
    refine ⟨p, ?_, rfl⟩
    rw [whole] at numbered
    rcases mem_append.mp numbered with early | late
    · have := (mem_entriesFrom early).2
      rw [length_take_of_le bound, Nat.zero_add] at this
      exact absurd above (Nat.not_lt.mpr this)
    · exact late
  · rintro ⟨p, numbered, rfl⟩
    have above := (mem_entriesFrom numbered).1
    exact ⟨recorded.complete p (by rw [whole]; exact mem_append_right _ numbered) above, above⟩

end

end Recorded

variable [Wal.Crc]

def Disk.loaded (disk : Disk) : Except Error Manifest :=
  match disk.manifest with
  | none => .ok {}
  | some data => Manifest.decode data

structure Disk.Flushed (disk : Disk) (m : Manifest) (tables : List Table) (log : List WriteBatch) : Prop where
  loaded : disk.loaded = .ok m
  listed : m.sstables = tables.map Table.fileNo
  finished : ∀ t ∈ tables, disk.tables.find? t.fileNo = some (some t.cfs)
  bound : m.lastFlushedSeq ≤ log.length
  displays : Displays (tables.reverse.map Table.cfs) (log.take m.lastFlushedSeq)

theorem Disk.Flushed.mono {disk : Disk} {m : Manifest} {tables : List Table} {log log' : List WriteBatch}
    (flushed : disk.Flushed m tables log) (longer : log <+: log') : disk.Flushed m tables log' := by
  obtain ⟨rest, rfl⟩ := longer
  refine { flushed with bound := ?_, displays := ?_ }
  · rw [length_append]
    exact flushed.bound.trans (Nat.le_add_right ..)
  · rw [take_append_of_le_length flushed.bound]
    exact flushed.displays

theorem Disk.Flushed.take {disk : Disk} {m : Manifest} {tables : List Table} {log : List WriteBatch}
    (flushed : disk.Flushed m tables log) {n : Nat} (enough : m.lastFlushedSeq ≤ n) :
    disk.Flushed m tables (log.take n) := by
  refine { flushed with bound := ?_, displays := ?_ }
  · rw [length_take]
    exact le_min enough flushed.bound
  · rw [take_take, min_eq_left enough]
    exact flushed.displays

theorem Disk.Flushed.congr {disk disk' : Disk} {m : Manifest} {tables : List Table} {log : List WriteBatch}
    (flushed : disk.Flushed m tables log) (manifest : disk'.manifest = disk.manifest)
    (kept : ∀ n ∈ m.sstables, disk'.tables.find? n = disk.tables.find? n) : disk'.Flushed m tables log := by
  refine { flushed with loaded := ?_, finished := fun t member => ?_ }
  · rw [Disk.loaded, manifest]
    exact flushed.loaded
  · rw [kept t.fileNo (by rw [flushed.listed]; exact mem_map_of_mem member)]
    exact flushed.finished t member

def segmentRecords (entries : List (Nat × Segment)) : List Wal.Record := entries.flatMap fun e => Wal.records e.2.bytes

namespace World

structure Stored (w : World) (m : Manifest) (tables : List Table) (log : Journal) : Prop where
  flushed : w.disk.Flushed m tables log.batches
  recorded : Recorded (segmentRecords w.disk.segments.entries) m.lastFlushedSeq log
  logged : log.batches <+: w.logged
  acked : ∀ p ∈ w.acked, p ∈ entriesFrom 0 log
  lasting : ∀ e ∈ w.disk.segments.entries, e.2.Lasting

structure AtRest (w : World) (m : Manifest) (tables : List Table) (log : Journal) : Prop
    extends w.Stored m tables log where
  down : w.core = none
  ends : log.length = Recorded.top (segmentRecords w.disk.segments.entries) m.lastFlushedSeq

/-- A process runs that writes segment `c`: the first `durable` numbers of the log survive any crash, the records of the
others are at the end of that segment, before what an append that failed has left there. -/
structure Running (whole : Prop) (w : World) (c : Nat) (m : Manifest) (tables : List Table) (log : Journal)
    (durable : Nat) : Prop where
  flushed : w.disk.Flushed m tables log.batches
  recorded : Recorded (segmentRecords w.disk.segments.entries) m.lastFlushedSeq log
  logged : log.batches <+: w.logged
  acked : ∀ p ∈ w.acked, p ∈ entriesFrom 0 (log.take durable)
  covered : m.lastFlushedSeq ≤ durable
  bound : durable ≤ log.length
  tail : ∃ front rs torn synced, w.disk.segments.entries =
      front ++ [(c, ⟨Wal.frames (rs ++ recordsFrom durable (log.drop durable)) ++ torn, synced⟩)] ∧
    (∀ r ∈ rs ++ recordsFrom durable (log.drop durable), r.Fits) ∧ Wal.Torn torn ∧ (whole → torn = []) ∧
    (Wal.frames rs).length ≤ synced ∧ ∀ e ∈ front, e.2.Lasting

/-- Wherever the process is stopped: every crash leaves the files recoverable, the manifest covers no more than its
tables hold, and reads return what the newest batches wrote. -/
structure Sane (w : World) : Prop where
  recoverable : ∀ cut, ∃ m tables log, (w.crash cut).AtRest m tables log
  watermark : ∃ m tables, w.disk.Flushed m tables w.logged
  readable : ∀ core ∈ w.core, Displays core.levels (w.logged.take core.newest)

variable {whole : Prop} {w : World} {c : Nat} {m : Manifest} {tables : List Table} {log : Journal} {durable : Nat}

def cutSegment (cut : Nat → Nat) (e : Nat × Segment) : Nat × Segment :=
  (e.1, ⟨e.2.bytes.take (max e.2.synced (cut e.1)), (e.2.bytes.take (max e.2.synced (cut e.1))).length⟩)

omit [Wal.Crc] in
theorem crash_entries (cut : Nat → Nat) (w : World) :
    (w.crash cut).disk.segments.entries = w.disk.segments.entries.map (cutSegment cut) := rfl

theorem cutSegment_lasting (cut : Nat → Nat) (e : Nat × Segment) : (cutSegment cut e).2.Lasting :=
  Segment.lasting_of_synced rfl

theorem segmentRecords_append (front back : List (Nat × Segment)) :
    segmentRecords (front ++ back) = segmentRecords front ++ segmentRecords back := flatMap_append

theorem segmentRecords_frames {c count : Nat} {rs : List Wal.Record} {torn : Bytes} (fits : ∀ r ∈ rs, r.Fits)
    (stops : Wal.nextRecord torn = none) : segmentRecords [(c, ⟨Wal.frames rs ++ torn, count⟩)] = rs := by
  rw [segmentRecords, flatMap_cons, flatMap_nil, append_nil, Wal.records_frames fits stops]

theorem segmentRecords_cut {front : List (Nat × Segment)} (cut : Nat → Nat) (lasting : ∀ e ∈ front, e.2.Lasting) :
    segmentRecords (front.map (cutSegment cut)) = segmentRecords front := by
  rw [segmentRecords, flatMap_map, segmentRecords]
  exact flatMap_congr fun e member => lasting e member _ (le_max_left ..)

theorem AtRest.crash (atRest : w.AtRest m tables log) (cut : Nat → Nat) : (w.crash cut).AtRest m tables log := by
  have records : segmentRecords (w.crash cut).disk.segments.entries = segmentRecords w.disk.segments.entries :=
    segmentRecords_cut cut atRest.lasting
  refine ⟨⟨atRest.flushed.congr rfl fun _ _ => rfl, ?_, atRest.logged, atRest.acked, fun e member => ?_⟩, rfl, ?_⟩
  · rw [records]
    exact atRest.recorded
  · obtain ⟨old, -, rfl⟩ := mem_map.mp member
    exact cutSegment_lasting cut old
  · rw [records]
    exact atRest.ends

theorem AtRest.sane (atRest : w.AtRest m tables log) : w.Sane where
  recoverable cut := ⟨m, tables, log, atRest.crash cut⟩
  watermark := ⟨m, tables, atRest.flushed.mono atRest.logged⟩
  readable core present := by
    rw [atRest.down] at present
    cases present

theorem Running.crash (running : w.Running whole c m tables log durable) (cut : Nat → Nat) :
    ∃ kept, (w.crash cut).AtRest m tables (log.take kept) := by
  obtain ⟨front, rs, torn, synced, entries, fits, ends, -, spared, lasting⟩ := running.tail
  have fitsTail : ∀ r ∈ recordsFrom durable (log.drop durable), r.Fits := fun r member =>
    fits r (mem_append_right _ member)
  obtain ⟨count, torn', -, same, stops⟩ := Wal.take_torn fitsTail ends (spared.trans (le_max_left synced (cut c)))
  obtain ⟨k, shorter⟩ := entriesFrom_take durable (log.drop durable) count
  have late : (recordsFrom durable (log.drop durable)).take count = recordsFrom durable ((log.drop durable).take k) := by
    rw [recordsFrom, ← map_take, shorter, recordsFrom]
  rw [late] at same
  have fewer : ∀ r ∈ rs ++ recordsFrom durable ((log.drop durable).take k), r.Fits := by
    refine forall_mem_append.mpr ⟨fun r old => fits r (mem_append_left _ old), fun r new => ?_⟩
    rw [← late] at new
    exact fitsTail r (mem_of_mem_take new)
  have records : segmentRecords (w.crash cut).disk.segments.entries =
      segmentRecords front ++ (rs ++ recordsFrom durable ((log.drop durable).take k)) := by
    rw [crash_entries, entries, map_append, segmentRecords_append, segmentRecords_cut cut lasting, map_singleton,
      cutSegment, same, segmentRecords_frames fewer stops]
  have recorded := running.recorded
  rw [entries, segmentRecords_append, segmentRecords_frames fits ends.stops, ← append_assoc] at recorded
  have remaining := recorded.cut running.bound k
  rw [append_assoc, ← records] at remaining
  have longer : (log.take (durable + k)).length = min (durable + k) log.length := length_take
  have enough := running.covered
  have bound := running.bound
  have inside := remaining.top_le (show m.lastFlushedSeq ≤ _ by omega)
  have low := Recorded.flushed_le_top (segmentRecords (w.crash cut).disk.segments.entries) m.lastFlushedSeq
  have trimmed := remaining.trim
  rw [take_take, min_eq_left (by omega)] at trimmed
  refine ⟨_, ⟨?_, trimmed, ?_, fun p member => ?_, fun e member => ?_⟩, rfl, ?_⟩
  · rw [Journal.batches, map_take]
    exact (running.flushed.take low).congr rfl fun _ _ => rfl
  · rw [Journal.batches, map_take]
    exact ( take_prefix _ _).trans running.logged
  · obtain ⟨numbered, early⟩ := mem_entriesFrom_take.mp (running.acked p member)
    have kept : p ∈ entriesFrom 0 (log.take (durable + k)) := mem_entriesFrom_take.mpr ⟨numbered, by omega⟩
    exact mem_entriesFrom_take.mpr ⟨numbered, remaining.entry_le_top kept⟩
  · obtain ⟨old, -, rfl⟩ := mem_map.mp member
    exact cutSegment_lasting cut old
  · rw [length_take, min_eq_left (by omega)]

theorem Running.sane (running : w.Running whole c m tables log durable)
    (readable : ∀ core ∈ w.core, Displays core.levels (w.logged.take core.newest)) : w.Sane where
  recoverable cut := by
    obtain ⟨kept, atRest⟩ := running.crash cut
    exact ⟨m, tables, _, atRest⟩
  watermark := ⟨m, tables, running.flushed.mono running.logged⟩
  readable := readable

end World

end Arcux.Engine
