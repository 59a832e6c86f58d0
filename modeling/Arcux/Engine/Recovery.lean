import Arcux.Engine.Stored
import Arcux.Engine.SstRoundTrip
import Mathlib.Data.List.Flatten

namespace Arcux.Engine

open Data List
open scoped Codec.ByteOrder

theorem Disk.modifySegment_last {disk : Disk} {front : List (Nat × Segment)} {c : Nat} {s : Segment}
    (entries : disk.segments.entries = front ++ [(c, s)]) (change : Segment → Segment) :
    (disk.modifySegment c change).segments.entries = front ++ [(c, change s)] ∧
      (disk.modifySegment c change).manifest = disk.manifest ∧
      (disk.modifySegment c change).tables = disk.tables := by
  have present : disk.segments.find? c = some s := by
    rw [OrdMap.find?_eq_some, entries]
    exact mem_append_right _ (mem_singleton_self _)
  rw [modifySegment, present]
  refine ⟨?_, rfl, rfl⟩
  exact (congrArg _ entries).trans (OrdMap.insertEntry_last_again (OrdMap.lt_of_entries entries))

variable [Wal.Crc]

def Disk.Intact (disk : Disk) (n : Nat) : Prop :=
  ∀ s ∈ disk.segments.find? n, Wal.frames (Wal.records s.bytes) = s.bytes

namespace World.Running

variable {whole : Prop} {w w' : World} {c : Nat} {m m' : Manifest} {tables : List Table} {log : Journal} {durable : Nat}

section

variable (running : w.Running whole c m tables log durable)

include running

theorem publish (core : Core) :
    (Call.exec (.publish core) w).1.Running whole c m tables log durable := { running with }

theorem le_last : ∀ e ∈ w.disk.segments.entries, e.1 ≤ c := by
  obtain ⟨front, rs, torn, synced, entries, -⟩ := running.tail
  have before := OrdMap.lt_of_entries entries
  rw [entries]
  exact forall_mem_append.mpr ⟨fun e old => (before e old).le, forall_mem_singleton.mpr (Nat.le_refl c)⟩

theorem of_tables (segments : w'.disk.segments = w.disk.segments) (manifest : w'.disk.manifest = w.disk.manifest)
    (kept : ∀ n ∈ m.sstables, w'.disk.tables.find? n = w.disk.tables.find? n) (logged : w'.logged = w.logged)
    (acked : w'.acked = w.acked) : w'.Running whole c m tables log durable := by
  obtain ⟨flushed, recorded, log', acked', covered, bound, tail⟩ := running
  rw [← segments] at recorded tail
  rw [← logged] at log'
  rw [← acked] at acked'
  exact ⟨flushed.congr manifest kept, recorded, log', acked', covered, bound, tail⟩

omit [Wal.Crc] in
omit running in
theorem recordsFrom_concat (bound : durable ≤ log.length) (b : WriteBatch) :
    recordsFrom durable ((log ++ [some b]).drop durable) =
      recordsFrom durable (log.drop durable) ++ [recordOf (log.length + 1, b)] := by
  rw [drop_append_of_le_length bound, recordsFrom, entriesFrom_append, map_append, length_drop,
    Nat.add_sub_cancel' bound]
  rfl

omit [Wal.Crc] in
omit running in
theorem recordsFrom_skip (bound : durable ≤ log.length) :
    recordsFrom durable ((log ++ [none]).drop durable) = recordsFrom durable (log.drop durable) := by
  rw [drop_append_of_le_length bound, recordsFrom, entriesFrom_append]
  exact congrArg _ (append_nil _)

theorem untorn (intact : whole ∨ w.disk.Intact c) :
    ∃ front rs synced, w.disk.segments.entries =
        front ++ [(c, ⟨Wal.frames (rs ++ recordsFrom durable (log.drop durable)), synced⟩)] ∧
      (∀ r ∈ rs ++ recordsFrom durable (log.drop durable), r.Fits) ∧ (Wal.frames rs).length ≤ synced ∧
      ∀ e ∈ front, e.2.Lasting := by
  obtain ⟨front, rs, torn, synced, entries, fit, ends, clear, spared, lasting⟩ := running.tail
  have empty : torn = [] := by
    rcases intact with holds | intact
    · exact clear holds
    · have present : w.disk.segments.find? c = some ⟨_, synced⟩ := OrdMap.find?_eq_some.mpr
        (entries.symm ▸ mem_append_right _ (mem_singleton_self _))
      have same := intact _ present
      rw [Wal.records_frames fit ends.stops] at same
      exact self_eq_append_right.mp same
  rw [empty, append_nil] at entries
  exact ⟨front, rs, synced, entries, fit, spared, lasting⟩

theorem taken : w.logged.take log.length = log.batches := by
  have front := prefix_iff_eq_take.mp running.logged
  rw [Journal.batches, length_map] at front
  exact front.symm

variable {b : WriteBatch}

theorem append (intact : whole ∨ w.disk.Intact c) (fits : (recordOf (log.length + 1, b)).Fits) :
    (w.append c (log.length + 1) b).Running whole c m tables (log ++ [some b]) durable := by
  obtain ⟨front, rs, synced, entries, fit, spared, lasting⟩ := running.untorn intact
  have longer : Wal.frames (rs ++ recordsFrom durable (log.drop durable)) ++ (recordOf (log.length + 1, b)).frame =
      Wal.frames (rs ++ recordsFrom durable ((log ++ [some b]).drop durable)) ++ [] := by
    rw [recordsFrom_concat running.bound, ← append_assoc, Wal.frames_append _ [_]]
    simp [Wal.frames]
  obtain ⟨after, manifest, tables'⟩ := Disk.modifySegment_last entries
    fun s => { s with bytes := s.bytes ++ (recordOf (log.length + 1, b)).frame }
  dsimp only at after
  rw [longer] at after
  have fit' : ∀ r ∈ rs ++ recordsFrom durable ((log ++ [some b]).drop durable), r.Fits := by
    rw [recordsFrom_concat running.bound, ← append_assoc]
    exact forall_mem_append.mpr ⟨fit, forall_mem_singleton.mpr fits⟩
  have recorded := running.recorded.append fits
  have batches : Journal.batches (log ++ [some b]) = log.batches ++ [b] := map_append
  refine ⟨?_, ?_, ?_, fun p member => ?_, running.covered, ?_, front, rs, [], synced, after, fit', Wal.torn_nil,
    fun _ => rfl, spared, lasting⟩
  · rw [batches]
    exact (running.flushed.mono (prefix_append ..)).congr manifest fun n _ => congrArg (·.find? n) tables'
  · rw [entries, segmentRecords_append, ← append_nil (Wal.frames _),
      segmentRecords_frames fit Wal.nextRecord_nil, append_assoc, append_assoc,
      ← recordsFrom_concat running.bound] at recorded
    rw [show (w.append c (log.length + 1) b).disk.segments.entries = _ from after, segmentRecords_append,
      segmentRecords_frames fit' Wal.nextRecord_nil]
    exact recorded
  · have grown : w.logged.take log.length ++ [b] = Journal.batches (log ++ [some b]) := by rw [running.taken, batches]
    exact grown ▸ prefix_rfl
  · rw [take_append_of_le_length running.bound]
    exact running.acked p member
  · rw [length_append]
    exact running.bound.trans (Nat.le_add_right ..)

theorem appendPart (intact : whole ∨ w.disk.Intact c)
    (fails : ¬ whole) (fits : (recordOf (log.length + 1, b)).Fits) (written : Nat) :
    (w.appendPart c (log.length + 1) b written).Running whole c m tables (log ++ [none]) durable := by
  obtain ⟨front, rs, synced, entries, fit, spared, lasting⟩ := running.untorn intact
  obtain ⟨after, manifest, tables'⟩ := Disk.modifySegment_last entries
    fun s => { s with bytes := s.bytes ++ (recordOf (log.length + 1, b)).frame.dropLast.take written }
  dsimp only at after
  rw [← recordsFrom_skip running.bound] at after fit
  have ends := Wal.torn_frame fits written
  have recorded := running.recorded.skip
  have batches : Journal.batches (log ++ [none]) = log.batches ++ [⟨[]⟩] := map_append
  refine ⟨?_, ?_, ?_, fun p member => ?_, running.covered, ?_, front, rs, _, synced, after, fit, ends,
    fun holds => absurd holds fails, spared, lasting⟩
  · rw [batches]
    exact (running.flushed.mono (prefix_append ..)).congr manifest fun n _ => congrArg (·.find? n) tables'
  · rw [entries, segmentRecords_append, ← append_nil (Wal.frames _), ← recordsFrom_skip running.bound,
      segmentRecords_frames fit Wal.nextRecord_nil] at recorded
    rw [show (w.appendPart c (log.length + 1) b written).disk.segments.entries = _ from after, segmentRecords_append,
      segmentRecords_frames fit ends.stops]
    exact recorded
  · have grown : w.logged.take log.length ++ [⟨[]⟩] = Journal.batches (log ++ [none]) := by rw [running.taken, batches]
    exact grown ▸ prefix_rfl
  · rw [take_append_of_le_length running.bound]
    exact running.acked p member
  · rw [length_append]
    exact running.bound.trans (Nat.le_add_right ..)

theorem sync : (Call.exec (.sync c) w).1.Running whole c m tables log log.length := by
  obtain ⟨front, rs, torn, synced, entries, fit, ends, clear, -, lasting⟩ := running.tail
  obtain ⟨after, manifest, tables'⟩ := Disk.modifySegment_last entries fun s => { s with synced := s.bytes.length }
  have none : recordsFrom log.length (log.drop log.length) = [] := by rw [drop_length]; rfl
  refine ⟨?_, ?_, running.logged, fun p member => ?_, running.covered.trans running.bound, Nat.le_refl _,
    front, rs ++ recordsFrom durable (log.drop durable), torn,
    (Wal.frames (rs ++ recordsFrom durable (log.drop durable)) ++ torn).length, ?_, ?_, ends, clear, ?_, lasting⟩
  · exact running.flushed.congr manifest fun n _ => congrArg (·.find? n) tables'
  · have recorded := running.recorded
    rw [entries] at recorded
    rw [show (Call.exec (.sync c) w).1.disk.segments.entries = _ from after]
    simpa [segmentRecords] using recorded
  · rw [take_length]
    exact (mem_entriesFrom_take.mp (running.acked p member)).1
  · rw [none, append_nil]
    exact after
  · rw [none, append_nil]
    exact fit
  · rw [length_append]
    exact Nat.le_add_right ..

omit running in
theorem stored (running : w.Running whole c m tables log log.length) : w.Stored m tables log := by
  obtain ⟨front, rs, torn, synced, entries, fit, ends, -, spared, lasting⟩ := running.tail
  have none : recordsFrom log.length (log.drop log.length) = [] := by rw [drop_length]; rfl
  rw [none, append_nil] at entries fit
  refine ⟨running.flushed, running.recorded, running.logged, fun p member => ?_, ?_⟩
  · exact (mem_entriesFrom_take.mp (running.acked p member)).1
  · rw [entries]
    exact forall_mem_append.mpr ⟨lasting,
      forall_mem_singleton.mpr (Segment.lasting_of_frames rfl fit ends spared)⟩

theorem ack {p : Nat × WriteBatch} (early : p ∈ entriesFrom 0 (log.take durable)) :
    (Call.exec (.ack p.1 p.2) w).1.Running whole c m tables log durable := by
  refine ⟨running.flushed, running.recorded, running.logged, fun q member => ?_, running.covered, running.bound,
    running.tail⟩
  rcases mem_cons.mp member with rfl | old
  · exact early
  · exact running.acked q old

theorem settle (none : recordsFrom durable (log.drop durable) = []) : w.Running whole c m tables log log.length := by
  obtain ⟨front, rs, torn, synced, entries, fit, rest⟩ := running.tail
  have none' : recordsFrom log.length (log.drop log.length) = [] := by rw [drop_length]; rfl
  rw [none, ← none'] at entries fit
  refine { running with
    acked := fun p member => ?_
    covered := running.covered.trans running.bound
    bound := Nat.le_refl _
    tail := ⟨front, rs, torn, synced, entries, fit, rest⟩ }
  rw [take_length]
  exact (mem_entriesFrom_take.mp (running.acked p member)).1

theorem rename {tables' : List Table}
    (drafted : w.disk.manifestTmp = some m'.encode) (fits : m'.Fits) (listed : m'.sstables = tables'.map Table.fileNo)
    (finished : ∀ t ∈ tables', w.disk.tables.find? t.fileNo = some (some t.cfs))
    (raised : m.lastFlushedSeq ≤ m'.lastFlushedSeq) (covered : m'.lastFlushedSeq ≤ durable)
    (displays : Displays (tables'.reverse.map Table.cfs) (Journal.batches (log.take m'.lastFlushedSeq))) :
    (Call.exec .renameManifest w).1.Running whole c m' tables' log durable := by
  have bound : m'.lastFlushedSeq ≤ log.batches.length := by
    rw [Journal.batches, length_map]
    exact covered.trans running.bound
  rw [Journal.batches, map_take] at displays
  refine ⟨⟨?_, listed, finished, bound, displays⟩, running.recorded.raise raised,
    running.logged, running.acked, covered, running.bound, running.tail⟩
  simp only [Disk.loaded, Call.exec, drafted]
  exact Manifest.decode_encode fits

theorem removeSegment {n : Nat} (other : n ≠ c)
    (dead : ∀ s, (n, s) ∈ w.disk.segments.entries → ∀ r ∈ Wal.records s.bytes, r.seq ≤ m.lastFlushedSeq) :
    (Call.exec (.removeSegment n) w).1.Running whole c m tables log durable := by
  obtain ⟨front, rs, torn, synced, entries, fit, ends, clear, spared, lasting⟩ := running.tail
  have after : (Call.exec (.removeSegment n) w).1.disk.segments.entries =
      w.disk.segments.entries.filter fun e => e.1 ≠ n := rfl
  refine ⟨running.flushed.congr rfl fun _ _ => rfl, running.recorded.sublist ?_ ?_, running.logged, running.acked,
    running.covered, running.bound, front.filter fun e => e.1 ≠ n, rs, torn, synced, ?_, fit, ends, clear, spared, ?_⟩
  · rw [after]
    exact filter_sublist.flatMap _
  · intro r member above
    obtain ⟨⟨n', s⟩, present, found⟩ := mem_flatMap.mp member
    refine mem_flatMap.mpr ⟨(n', s), ?_, found⟩
    rw [after, mem_filter, decide_eq_true_eq]
    refine ⟨present, ?_⟩
    rintro rfl
    exact absurd above (Nat.not_lt.mpr (dead s present r found))
  · rw [after, entries, filter_append, filter_cons_of_pos (by simpa using other.symm), filter_nil]
  · exact fun e member => lasting e (mem_of_mem_filter member)

end

end World.Running

variable {n : Nat}

theorem World.Stored.createSegment {w : World} {m : Manifest} {tables : List Table} {log : Journal}
    (stored : w.Stored m tables log) (whole : Prop) (above : ∀ e ∈ w.disk.segments.entries, e.1 < n) :
    (Call.exec (.createSegment n) w).1.Running whole n m tables log log.length := by
  have after : (Call.exec (.createSegment n) w).1.disk.segments.entries = w.disk.segments.entries ++ [(n, ⟨[], 0⟩)] :=
    OrdMap.insertEntry_last above
  have none : recordsFrom log.length (log.drop log.length) = [] := by rw [drop_length]; rfl
  have bound : m.lastFlushedSeq ≤ log.length := by simpa [Journal.batches] using stored.flushed.bound
  refine ⟨stored.flushed.congr rfl fun _ _ => rfl, ?_, stored.logged, fun p member => ?_, bound,
    Nat.le_refl _, w.disk.segments.entries, [], [], 0, ?_, ?_, Wal.torn_nil, fun _ => rfl, Nat.le_refl _,
    stored.lasting⟩
  · rw [after, World.segmentRecords_append]
    simpa [segmentRecords, Wal.records, Wal.readOn] using stored.recorded
  · rw [take_length]
    exact stored.acked p member
  · rw [after, none]
    rfl
  · rw [none]
    exact forall_mem_nil _

namespace Call

def Fits : Call → Prop
  | append _ seq batch => (recordOf (seq, batch)).Fits
  | draftManifest m => m.Fits
  | finishTable _ cfs => (writeSst { cfs }).length < 2 ^ 32
  | _ => True

/-- What `finishTable` leaves of a table is its entries: they are what its file returns, if it fits. -/
theorem finishTable_read {n : Nat} {cfs : Families} (fits : (finishTable n cfs).Fits) :
    ∃ reader, SstReader.openFile (writeSst { cfs }) n = .ok reader ∧ (∀ cf key, reader.get cf key = .ok ((cfs cf).find? key)) ∧
      ∀ cf low, reader.seek cf low = .ok ((cfs cf).seek low) :=
  writeSst_read fits n

def Calm : Call → World → Prop
  | publish core, w => ∀ old ∈ w.core, old.immutable.length = 0 ∨ core.immutable.length ≤ old.immutable.length
  | _, _ => True

instance (call : Call) : Decidable call.Fits := by
  unfold Fits
  split <;> infer_instance

instance (call : Call) (w : World) : Decidable (call.Calm w) := by
  unfold Calm
  split <;> infer_instance

def Intact : Call → World → Prop
  | append n _ _, w => w.disk.Intact n
  | _, _ => True

instance (disk : Disk) (n : Nat) : Decidable (disk.Intact n) :=
  inferInstanceAs (Decidable (∀ s ∈ disk.segments.find? n, Wal.frames (Wal.records s.bytes) = s.bytes))

instance (call : Call) (w : World) : Decidable (call.Intact w) := by
  unfold Intact
  split <;> infer_instance

def Guard (clean whole : Prop) (call : Call) (w : World) : Prop :=
  call.Fits ∧ (clean ∨ call.Calm w) ∧ (whole ∨ call.Intact w)

end Call

structure Core.Settled (core : Core) (m : Manifest) (tables : List Table) (log : Journal) : Prop where
  active : core.active = fill m.lastFlushedSeq (log.drop m.lastFlushedSeq)
  flushed : core.lastFlushedSeq = m.lastFlushedSeq
  opened : core.sstables = tables
  fresh : ∀ t ∈ tables, t.fileNo < core.nextSst

structure Core.UpToDate (core : Core) (log : Journal) : Prop where
  displays : Displays core.levels log.batches
  newest : core.newest ≤ log.length
  hollow : log.HollowAfter core.newest

structure World.Open (whole : Prop) (w : World) (core : Core) (m : Manifest) (tables : List Table) (log : Journal)
    (durable : Nat) : Prop where
  running : w.Running whole core.wal m tables log durable
  published : w.core = some core
  seq : core.seq = log.length
  below : core.wal < core.nextSeg
  upToDate : core.UpToDate log

structure World.Serves (clean whole : Prop) (w : World) (core : Core) (m : Manifest) (tables : List Table)
    (log : Journal) (durable : Nat) : Prop extends w.Open whole core m tables log durable where
  syncs : core.opts.fsyncMode ≠ .none
  settled : core.immutable = [] → core.Settled m tables log
  clean : clean → core.immutable = [] ∧ w.faults = []
  whole : whole → w.tears = []

section

variable {clean whole : Prop} {w : World} {core : Core} {m : Manifest} {tables : List Table} {log : Journal}
  {durable : Nat}

variable {c : Nat}

theorem World.Running.flushed_le (running : w.Running whole c m tables log durable) :
    m.lastFlushedSeq ≤ log.length := running.covered.trans running.bound

omit [Wal.Crc] in
theorem Core.UpToDate.readable (upToDate : core.UpToDate log) {logged : List WriteBatch}
    (longer : log.batches <+: logged) : Displays core.levels (logged.take core.newest) := by
  have front : logged.take core.newest = Journal.batches (log.take core.newest) := by
    obtain ⟨rest, rfl⟩ := longer
    have inside : core.newest ≤ log.batches.length := by
      rw [Journal.batches, length_map]
      exact upToDate.newest
    rw [take_append_of_le_length inside, Journal.batches, ← map_take]
    rfl
  rw [front]
  exact upToDate.hollow.displays.mpr upToDate.displays

theorem World.Running.sane_of {log' : Journal} (running : w.Running whole c m tables log durable)
    (published : w.core = some core) (upToDate : core.UpToDate log') (longer : log' <+: log) : w.Sane := by
  refine running.sane fun core' present => ?_
  rw [published] at present
  cases present
  exact upToDate.readable ((longer.map _).trans running.logged)

theorem World.Open.sane (opened : w.Open whole core m tables log durable) : w.Sane :=
  opened.running.sane_of opened.published opened.upToDate prefix_rfl

omit [Wal.Crc] in
theorem Core.UpToDate.of_newest (newest : core.newest = n) (displays : Displays core.levels log.batches)
    (bound : n ≤ log.length) (hollow : log.HollowAfter n) : core.UpToDate log :=
  ⟨displays, newest ▸ bound, newest ▸ hollow⟩

omit [Wal.Crc] in
theorem Core.newest_apply (core : Core) (seq : Nat) (b : WriteBatch) :
    ({ core with seq, active := core.active.apply seq b } : Core).newest = max core.newest seq := by
  rw [Core.newest, Core.newest, ← foldl_max]
  congr 1
  simp only [Memtable.apply]
  omega

omit [Wal.Crc] in
theorem Core.UpToDate.apply (upToDate : core.UpToDate log) (b : WriteBatch) :
    ({ core with seq := log.length + 1, active := core.active.apply (log.length + 1) b } : Core).UpToDate
      (log ++ [some b]) := by
  have length : (log ++ [some b]).length = log.length + 1 := length_append
  have old := upToDate.newest
  have batches : Journal.batches (log ++ [some b]) = log.batches ++ [b] := map_append
  refine ⟨?_, ?_, fun slot member => ?_⟩
  · rw [batches]
    exact upToDate.displays.apply _ b
  · rw [Core.newest_apply]
    omega
  · rw [Core.newest_apply, drop_of_length_le (by omega)] at member
    cases member

omit [Wal.Crc] in
theorem Core.UpToDate.skip (upToDate : core.UpToDate log) (seq : Nat) :
    ({ core with seq } : Core).UpToDate (log ++ [none]) := by
  have batches : Journal.batches (log ++ [none]) = log.batches ++ [⟨[]⟩] := map_append
  refine ⟨?_, ?_, fun slot member => ?_⟩
  · rw [batches]
    exact displays_skip.mpr upToDate.displays
  · rw [length_append]
    exact upToDate.newest.trans (Nat.le_add_right ..)
  · change slot ∈ (log ++ [none]).drop core.newest at member
    rw [drop_append_of_le_length upToDate.newest] at member
    rcases mem_append.mp member with old | new
    · exact upToDate.hollow slot old
    · exact mem_singleton.mp new

omit [Wal.Crc] in
theorem Core.Settled.apply (settled : core.Settled m tables log) (bound : m.lastFlushedSeq ≤ log.length)
    (b : WriteBatch) :
    ({ core with seq := log.length + 1, active := core.active.apply (log.length + 1) b } : Core).Settled m tables
      (log ++ [some b]) := by
  refine { settled with active := ?_ }
  have place : log.length + 1 = m.lastFlushedSeq + (log.drop m.lastFlushedSeq).length + 1 := by
    rw [length_drop]
    omega
  rw [drop_append_of_le_length bound, fill_concat, ← settled.active, ← place]

omit [Wal.Crc] in
theorem Core.Settled.skip (settled : core.Settled m tables log) (bound : m.lastFlushedSeq ≤ log.length) (seq : Nat) :
    ({ core with seq } : Core).Settled m tables (log ++ [none]) := by
  refine { settled with active := ?_ }
  rw [drop_append_of_le_length bound, fill_skip]
  exact settled.active

abbrev Survives (clean whole : Prop) {α : Type} (p : Script α) (w : World) (post : α → World → Prop) : Prop :=
  p.Endures Call.exec (Call.Guard clean whole) World.Sane post w

theorem survives_perform {call : Call} {α : Type} {next : call.Reply → Script α} {post : α → World → Prop}
    (after : call.Guard clean whole w →
      (call.exec w).1.Sane ∧ Survives clean whole (next (call.exec w).2) (call.exec w).1 post) :
    Survives clean whole (perform call >>= next) w post := after

section

variable (serves : w.Serves clean whole core m tables log durable)

include serves

variable {w' : World}

theorem World.Serves.logs {seq : Nat} {active : Memtable} {slot : Option WriteBatch}
    (running : w'.Running whole core.wal m tables (log ++ [slot]) durable) (published : w'.core = some { core with seq, active })
    (faults : w'.faults = w.faults) (tears : w'.tears = w.tears.tail) (next : seq = log.length + 1)
    (upToDate : ({ core with seq, active } : Core).UpToDate (log ++ [slot]))
    (settled : core.Settled m tables log → ({ core with seq, active } : Core).Settled m tables (log ++ [slot])) :
    w'.Serves clean whole { core with seq, active } m tables (log ++ [slot]) durable := by
  refine ⟨⟨running, published, ?_, serves.below, upToDate⟩, serves.syncs, fun queue => settled (serves.settled queue), ?_,
    fun holds => ?_⟩
  · rw [length_append]
    exact next
  · rw [faults]
    exact serves.clean
  · rw [tears, serves.whole holds, tail_nil]

theorem World.Serves.logRequests (group : List Op) :
    Survives clean whole (logRequests group core) w fun out w' => ∃ log', w'.Serves clean whole out.1 m tables log' durable ∧
      log <+: log' ∧ out.2.2 = entriesFrom log.length (log'.drop log.length) := by
  induction group generalizing w core log with
  | nil => exact ⟨log, serves, prefix_rfl, by rw [drop_length]; rfl⟩
  | cons op rest ih =>
    rw [Engine.logRequests]
    cases plan : core.reads.plan op with
    | error e => exact (ih serves).bind fun out w' done => done
    | ok batch =>
      cases batch with
      | none => exact (ih serves).bind fun out w' done => done
      | some batch =>
        dsimp only
        rw [serves.seq]
        refine survives_perform fun _ => ?_
        have upToDate : ({ core with seq := log.length + 1 } : Core).UpToDate log := { serves.upToDate with }
        have started := serves.running.publish { core with seq := log.length + 1 }
        refine ⟨started.sane_of rfl upToDate prefix_rfl, survives_perform fun guarded => ?_⟩
        obtain ⟨fits, -, intact⟩ := guarded
        cases tears : w.tears.headD none with
        | none =>
          have done : Call.exec (.append core.wal (log.length + 1) batch)
              (Call.exec (.publish { core with seq := log.length + 1 }) w).1 =
                ((Call.exec (.publish { core with seq := log.length + 1 }) w).1.append core.wal (log.length + 1) batch,
                  true) := by
            simp only [Call.exec, tears]
          have appended := started.append intact fits
          rw [done]
          -- the memtable does not have the batch yet
          refine ⟨appended.sane_of rfl upToDate (prefix_append ..), survives_perform fun _ => ?_⟩
          have next := serves.logs (appended.publish _) rfl rfl rfl rfl (serves.upToDate.apply batch)
            fun settled => settled.apply serves.running.flushed_le batch
          refine ⟨next.sane, (ih next).bind fun out w' done => ?_⟩
          obtain ⟨log', serves', longer, logged⟩ := done
          refine ⟨log', serves', (prefix_append ..).trans longer, ?_⟩
          rw [entriesFrom_drop longer, ← logged]
          rfl
        | some written =>
          have done : Call.exec (.append core.wal (log.length + 1) batch)
              (Call.exec (.publish { core with seq := log.length + 1 }) w).1 =
                ((Call.exec (.publish { core with seq := log.length + 1 }) w).1.appendPart core.wal (log.length + 1) batch
                  written, false) := by
            simp only [Call.exec, tears]
          have fails : ¬ whole := fun holds => by
            rw [serves.whole holds] at tears
            cases tears
          have appended := started.appendPart intact fails fits written
          rw [done]
          have next := serves.logs appended rfl rfl rfl rfl (serves.upToDate.skip _)
            fun settled => settled.skip serves.running.flushed_le _
          refine ⟨next.sane, (ih next).bind fun out w' done => ?_⟩
          obtain ⟨log', serves', longer, logged⟩ := done
          exact ⟨log', serves', (prefix_append ..).trans longer, by rw [entriesFrom_drop longer, ← logged]; rfl⟩

omit serves in
theorem World.Serves.syncWal {logged : List (Nat × WriteBatch)} {before : Journal}
    (serves : w.Serves clean whole core m tables log before.length)
    (batches : logged = entriesFrom before.length (log.drop before.length)) :
    Survives clean whole (syncWal core logged) w fun _ w' => w'.Serves clean whole core m tables log log.length := by
  unfold Engine.syncWal
  split_ifs with skip
  · -- no append succeeded
    have none : logged = [] := skip.resolve_right serves.syncs
    have records : recordsFrom before.length (log.drop before.length) = [] := by
      rw [recordsFrom, ← batches, none]
      rfl
    exact { serves with running := serves.running.settle records }
  · have after : (Call.exec (.sync core.wal) w).1.Serves clean whole core m tables log log.length :=
      { serves with running := serves.running.sync }
    exact fun _ => ⟨after.sane, after⟩

theorem World.Serves.ackAll {logged : List (Nat × WriteBatch)}
    (early : ∀ p ∈ logged, p ∈ entriesFrom 0 (log.take durable)) :
    Survives clean whole (ackAll logged) w fun _ w' => w'.Serves clean whole core m tables log durable := by
  induction logged generalizing w with
  | nil => exact serves
  | cons p rest ih =>
    obtain ⟨here, later⟩ := forall_mem_cons.mp early
    have after : (Call.exec (.ack p.1 p.2) w).1.Serves clean whole core m tables log durable :=
      { serves with running := serves.running.ack here }
    exact survives_perform fun _ => ⟨after.sane, ih after later⟩

end

structure World.Flushing (clean whole : Prop) (w : World) (core : Core) (frozen : Memtable) (m : Manifest)
    (tables : List Table) (log : Journal) : Prop extends w.Open whole core m tables log log.length where
  syncs : core.opts.fsyncMode ≠ .none
  queue : core.immutable = [frozen]
  active : core.active = {}
  holds : frozen = fill m.lastFlushedSeq (log.drop m.lastFlushedSeq)
  clean : clean → w.faults = []
  whole : whole → w.tears = []

variable {frozen : Memtable}

section

variable (flushing : w.Flushing clean whole core frozen m tables log)

include flushing

theorem World.Flushing.serves (failed : ¬ clean) : w.Serves clean whole core m tables log log.length := by
  refine ⟨flushing.toOpen, flushing.syncs, fun queue => ?_, fun holds => absurd holds failed, flushing.whole⟩
  rw [flushing.queue] at queue
  cases queue

theorem World.Flushing.watermark :
    max m.lastFlushedSeq frozen.maxSeq ≤ log.length ∧ log.HollowAfter (max m.lastFlushedSeq frozen.maxSeq) := by
  have top := fill_watermark flushing.running.flushed_le
  rwa [← flushing.holds] at top

theorem World.Flushing.displays_frozen : Displays (frozen.cfs :: tables.reverse.map Table.cfs) log.batches := by
  have all := flushing.running.flushed.displays.fill m.lastFlushedSeq (log.drop m.lastFlushedSeq)
  rwa [Journal.batches, Journal.batches, map_drop, take_append_drop, ← Journal.batches, ← flushing.holds] at all

omit [Wal.Crc] in
omit flushing in
theorem Core.UpToDate.freeze (upToDate : core.UpToDate log) (queue : core.immutable = []) :
    ({ core with active := {}, immutable := core.immutable ++ [core.active] } : Core).UpToDate log := by
  have newest : ({ core with active := {}, immutable := core.immutable ++ [core.active] } : Core).newest = core.newest := by
    simp [Core.newest, queue]
  refine ⟨?_, newest ▸ upToDate.newest, newest ▸ upToDate.hollow⟩
  have before := upToDate.displays
  rw [Core.levels, queue] at before
  rw [Core.levels, queue]
  exact displays_empty.mpr before

omit flushing in
theorem World.Serves.rotate (serves : w.Serves clean whole core m tables log log.length) :
    Survives clean whole (rotate core) w fun core' w' => w'.Flushing clean whole core' core.active m tables log ∧
      core.immutable = [] ∧ core'.sstables = tables ∧ core'.lastFlushedSeq = m.lastFlushedSeq ∧
      ∀ t ∈ tables, t.fileNo < core'.nextSst := by
  unfold Engine.rotate
  refine survives_perform fun guarded => ?_
  have queue : core.immutable = [] := by
    rcases guarded.2.1 with holds | calm
    · exact (serves.clean holds).1
    · rcases calm core serves.published with none | fewer
      · exact length_eq_zero_iff.mp none
      · simp at fewer
  have settled := serves.settled queue
  have frozen := serves.upToDate.freeze queue
  have started := serves.running.publish { core with active := {}, immutable := core.immutable ++ [core.active] }
  refine ⟨started.sane_of rfl frozen prefix_rfl, survives_perform fun _ => ?_⟩
  have above : ∀ e ∈ w.disk.segments.entries, e.1 < core.nextSeg := fun e member =>
    (serves.running.le_last e member).trans_lt serves.below
  have created := started.stored.createSegment whole above
  refine ⟨created.sane_of rfl frozen prefix_rfl, survives_perform fun _ => ?_⟩
  have moved := created.publish { core with
    active := {}, immutable := core.immutable ++ [core.active], wal := core.nextSeg, nextSeg := core.nextSeg + 1 }
  have upToDate : ({ core with
      active := {}, immutable := core.immutable ++ [core.active], wal := core.nextSeg, nextSeg := core.nextSeg + 1 } :
        Core).UpToDate log := { frozen with }
  refine ⟨moved.sane_of rfl upToDate prefix_rfl, ?_⟩
  refine ⟨⟨⟨moved, rfl, serves.seq, Nat.lt_succ_self _, upToDate⟩, serves.syncs, ?_, rfl, settled.active, ?_, serves.whole⟩,
    queue, settled.opened, settled.flushed, settled.fresh⟩
  · rw [queue]
    rfl
  · exact fun holds => (serves.clean holds).2

theorem World.Flushing.step {w' : World} (running : w'.Running whole core.wal m tables log log.length)
    (published : w'.core = w.core) (faults : w.faults = [] → w'.faults = []) (tears : w'.tears = w.tears) :
    w'.Flushing clean whole core frozen m tables log :=
  { flushing with
    running, published := published.trans flushing.published, clean := fun holds => faults (flushing.clean holds)
    whole := fun holds => tears.trans (flushing.whole holds) }

theorem World.Flushing.fault :
    (Call.exec .fault w).1.Flushing clean whole core frozen m tables log ∧ ((Call.exec .fault w).2 = true → ¬ clean) := by
  refine ⟨flushing.step { flushing.running with } rfl (fun none => ?_) rfl, fun fails holds => ?_⟩
  · simp only [Call.exec, none, tail_nil]
  · simp only [Call.exec, flushing.clean holds, headD_nil] at fails
    cases fails

theorem World.Flushing.writeFile (fresh : ∀ t ∈ tables, t.fileNo < n) (content : Option Families) :
    World.Flushing clean whole { w with disk.tables := w.disk.tables.insert n content } core frozen m tables log := by
  refine flushing.step (flushing.running.of_tables rfl rfl (fun n' member => ?_) rfl rfl) rfl id rfl
  rw [flushing.running.flushed.listed] at member
  obtain ⟨t, there, rfl⟩ := mem_map.mp member
  exact (OrdMap.find?_insert ..).trans (if_neg (fresh t there).ne)

theorem World.Flushing.writeTable (fresh : ∀ t ∈ tables, t.fileNo < core.nextSst) :
    Survives clean whole (writeTable core frozen) w fun out w' =>
      out.1 = { core with nextSst := core.nextSst + 1 } ∧ w'.Flushing clean whole out.1 frozen m tables log ∧
        (out.2 = none ∧ ¬ clean ∨
          out.2 = some frozen.cfs ∧ w'.disk.tables.find? core.nextSst = some (some frozen.cfs)) := by
  unfold Engine.writeTable
  have numbered : (Call.exec (.publish { core with nextSst := core.nextSst + 1 }) w).1.Flushing clean whole
      { core with nextSst := core.nextSst + 1 } frozen m tables log :=
    { flushing with running := flushing.running.publish _, published := rfl, upToDate := { flushing.upToDate with } }
  refine survives_perform fun _ => ⟨numbered.sane, survives_perform fun _ => ?_⟩
  have created := numbered.writeFile fresh none
  refine ⟨created.sane, survives_perform fun _ => ?_⟩
  obtain ⟨asked, broken⟩ := created.fault
  refine ⟨asked.sane, ?_⟩
  split_ifs with fails
  · exact ⟨rfl, asked, .inl ⟨rfl, broken fails⟩⟩
  · refine survives_perform fun _ => ?_
    have finished := asked.writeFile fresh (some frozen.cfs)
    refine ⟨finished.sane, survives_perform fun _ => ?_⟩
    obtain ⟨asked', broken'⟩ := finished.fault
    refine ⟨asked'.sane, ?_⟩
    split_ifs with fails'
    · exact ⟨rfl, asked', .inl ⟨rfl, broken' fails'⟩⟩
    · refine survives_perform fun _ => ⟨asked'.sane, rfl, asked', .inr ?_⟩
      have there := OrdMap.find?_insert (w.disk.tables.insert core.nextSst none) core.nextSst core.nextSst (some frozen.cfs)
      rw [if_pos rfl] at there
      exact ⟨by simp only [Call.exec]; rw [there]; rfl, there⟩

theorem World.Flushing.persistManifest (raised : m.lastFlushedSeq ≤ core.lastFlushedSeq)
    (bound : core.lastFlushedSeq ≤ log.length) (hollow : log.HollowAfter core.lastFlushedSeq)
    (finished : ∀ t ∈ core.sstables, w.disk.tables.find? t.fileNo = some (some t.cfs))
    (holds : Displays (core.sstables.reverse.map Table.cfs) log.batches) :
    Survives clean whole (persistManifest core) w fun stored w' =>
      stored = false ∧ ¬ clean ∧ w'.Flushing clean whole core frozen m tables log ∨
      stored = true ∧ w'.Running whole core.wal ⟨core.lastFlushedSeq, core.sstables.map Table.fileNo⟩ core.sstables log
        log.length ∧ (clean → w'.faults = []) ∧ (whole → w'.tears = []) := by
  unfold Engine.persistManifest
  refine survives_perform fun _ => ?_
  obtain ⟨asked, broken⟩ := flushing.fault
  refine ⟨asked.sane, ?_⟩
  split_ifs with fails
  · exact .inl ⟨rfl, broken fails, asked⟩
  · refine survives_perform fun guarded => ?_
    have drafted : World.Flushing clean whole
        (Call.exec (.draftManifest ⟨core.lastFlushedSeq, core.sstables.map Table.fileNo⟩) (Call.exec .fault w).1).1 core
        frozen m tables log :=
      asked.step (asked.running.of_tables rfl rfl (fun _ _ => rfl) rfl rfl) rfl id rfl
    refine ⟨drafted.sane, survives_perform fun _ => ?_⟩
    obtain ⟨asked', broken'⟩ := drafted.fault
    refine ⟨asked'.sane, ?_⟩
    split_ifs with fails'
    · exact .inl ⟨rfl, broken' fails', asked'⟩
    · refine survives_perform fun _ => ?_
      have renamed := asked'.running.rename rfl guarded.1 rfl finished raised bound (hollow.displays.mpr holds)
      exact ⟨renamed.sane_of asked'.published asked'.upToDate prefix_rfl,
        .inr ⟨rfl, renamed, asked'.clean, asked'.whole⟩⟩

theorem World.Flushing.finishFlush (watermark : core.lastFlushedSeq = m.lastFlushedSeq)
    (finished : ∀ t ∈ core.sstables, w.disk.tables.find? t.fileNo = some (some t.cfs))
    (holds : Displays (core.sstables.reverse.map Table.cfs) log.batches)
    (fresh : ∀ t ∈ core.sstables, t.fileNo < core.nextSst) :
    Survives clean whole (finishFlush core frozen 0) w fun core' w' =>
      ∃ m' tables', w'.Serves clean whole core' m' tables' log log.length := by
  unfold Engine.finishFlush
  rw [watermark]
  obtain ⟨bound, hollow⟩ := flushing.watermark
  have newest : ({ core with lastFlushedSeq := max m.lastFlushedSeq frozen.maxSeq } : Core).newest =
      max m.lastFlushedSeq frozen.maxSeq := by
    simp [Core.newest, flushing.queue, flushing.active]
  have raised : (Call.exec (.publish { core with lastFlushedSeq := max m.lastFlushedSeq frozen.maxSeq }) w).1.Flushing
      clean whole { core with lastFlushedSeq := max m.lastFlushedSeq frozen.maxSeq } frozen m tables log :=
    { flushing with
      running := flushing.running.publish _
      published := rfl
      upToDate := .of_newest newest flushing.upToDate.displays bound hollow }
  refine survives_perform fun _ => ⟨raised.sane,
    (raised.persistManifest (le_max_left ..) bound hollow finished holds).bind fun stored w' done => ?_⟩
  rcases done with ⟨rfl, failed, flushing'⟩ | ⟨rfl, renamed, clear, untorn⟩
  · exact ⟨m, tables, flushing'.serves failed⟩
  · have queue : core.immutable.eraseIdx 0 = [] := by rw [flushing.queue]; rfl
    have newest' : ({ core with
        lastFlushedSeq := max m.lastFlushedSeq frozen.maxSeq, immutable := core.immutable.eraseIdx 0 } : Core).newest =
        max m.lastFlushedSeq frozen.maxSeq := by
      simp [Core.newest, queue, flushing.active]
    refine survives_perform fun _ => ?_
    have after : (Call.exec (.publish { core with
        lastFlushedSeq := max m.lastFlushedSeq frozen.maxSeq, immutable := core.immutable.eraseIdx 0 }) w').1.Serves clean
        whole { core with
          lastFlushedSeq := max m.lastFlushedSeq frozen.maxSeq, immutable := core.immutable.eraseIdx 0 }
        ⟨max m.lastFlushedSeq frozen.maxSeq, core.sstables.map Table.fileNo⟩ core.sstables log log.length := by
      refine ⟨⟨renamed.publish _, rfl, flushing.seq, flushing.below, .of_newest newest' ?_ bound hollow⟩,
        flushing.syncs, fun _ => ?_, fun clear' => ?_, untorn⟩
      · rw [Core.levels, queue, flushing.active]
        exact displays_empty.mpr holds
      · refine ⟨?_, rfl, rfl, fresh⟩
        rw [fill_hollow hollow]
        exact flushing.active
      · exact ⟨queue, clear clear'⟩
    exact ⟨after.sane, _, _, after⟩

theorem World.Flushing.flushMemtable (opened : core.sstables = tables)
    (watermark : core.lastFlushedSeq = m.lastFlushedSeq) (fresh : ∀ t ∈ tables, t.fileNo < core.nextSst) :
    Survives clean whole (flushMemtable core frozen 0) w fun core' w' =>
      ∃ m' tables', w'.Serves clean whole core' m' tables' log log.length := by
  unfold Engine.flushMemtable
  split_ifs with empty
  · have nothing : frozen.cfs = fun _ => .empty := by
      rw [flushing.holds] at empty ⊢
      exact fill_empty empty
    refine flushing.finishFlush watermark ?_ ?_ ?_
    · rw [opened]
      exact flushing.running.flushed.finished
    · have all := flushing.displays_frozen
      rw [nothing] at all
      rw [opened]
      exact displays_empty.mp all
    · rwa [opened]
  · refine (flushing.writeTable fresh).bind ?_
    rintro ⟨core', written⟩ w' ⟨rfl, flushing', outcome⟩
    dsimp only at flushing' outcome ⊢
    rcases outcome with ⟨rfl, failed⟩ | ⟨rfl, there⟩
    · exact ⟨m, tables, flushing'.serves failed⟩
    · have stack : Displays ((core.sstables ++ [Table.mk core.nextSst frozen.cfs]).reverse.map Table.cfs) log.batches := by
        rw [reverse_append, opened]
        exact flushing'.displays_frozen
      refine survives_perform fun _ => ?_
      have installed : (Call.exec (.publish { core with
          nextSst := core.nextSst + 1, sstables := core.sstables ++ [⟨core.nextSst, frozen.cfs⟩] }) w').1.Flushing clean whole
          { core with nextSst := core.nextSst + 1, sstables := core.sstables ++ [⟨core.nextSst, frozen.cfs⟩] } frozen m
          tables log := by
        refine { flushing' with
          running := flushing'.running.publish _, published := rfl, upToDate := { flushing'.upToDate with displays := ?_ } }
        have levels := flushing'.upToDate.displays
        rw [Core.levels, flushing.queue] at levels
        rw [Core.levels, flushing.queue, reverse_append]
        exact Displays.twice levels
      refine ⟨installed.sane, installed.finishFlush watermark ?_ stack ?_⟩
      · intro t member
        rcases mem_append.mp member with old | new
        · exact flushing'.running.flushed.finished t (opened ▸ old)
        · rw [mem_singleton.mp new]
          exact there
      · intro t member
        rcases mem_append.mp member with old | new
        · exact (fresh t (opened ▸ old)).trans (Nat.lt_succ_self _)
        · rw [mem_singleton.mp new]
          exact Nat.lt_succ_self _

end

section

variable (serves : w.Serves clean whole core m tables log log.length)

include serves

theorem World.Serves.flushIfFull :
    Survives clean whole (flushIfFull core) w fun core' w' =>
      ∃ m' tables', w'.Serves clean whole core' m' tables' log log.length := by
  unfold Engine.flushIfFull
  split_ifs
  · refine serves.rotate.bind ?_
    rintro rotated w' ⟨flushing, queue, opened, watermark, fresh⟩
    rw [queue]
    exact flushing.flushMemtable opened watermark fresh
  · exact ⟨m, tables, serves⟩

theorem World.Serves.processGroup (group : List Op) :
    Survives clean whole (processGroup core group) w fun out w' =>
      ∃ m' tables' log', w'.Serves clean whole out.1 m' tables' log' log'.length := by
  unfold Engine.processGroup
  refine (serves.logRequests group).bind ?_
  rintro ⟨core₁, results, logged⟩ w₁ ⟨log', serves₁, longer, batches⟩
  refine (serves₁.syncWal batches).bind fun _ w₂ serves₂ => ?_
  refine serves₂.flushIfFull.bind ?_
  rintro core₂ w₃ ⟨m', tables', serves₃⟩
  refine (serves₃.ackAll fun p member => ?_).bind fun _ w₄ serves₄ => ⟨m', tables', log', serves₄⟩
  rw [take_length, entriesFrom_split longer.length_le]
  rw [show logged = _ from batches] at member
  exact mem_append_right _ member

theorem World.Serves.runCommitter (groups : List (List Op)) :
    Survives clean whole (runCommitter groups core) w fun _ _ => True := by
  induction groups generalizing w core m tables log with
  | nil => trivial
  | cons group rest ih =>
    refine (serves.processGroup group).bind ?_
    rintro ⟨core', results⟩ w' ⟨m', tables', log', serves'⟩
    exact ih serves'

end

end

end Arcux.Engine
