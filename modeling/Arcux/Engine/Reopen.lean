import Arcux.Engine.Recovery

namespace Arcux.Engine

open Concurrency Data List
open scoped Codec.ByteOrder

section

variable {w : World} {m : Manifest} {tables : List Table} {log : Journal}

variable [Wal.Crc]

abbrev Recovers {α : Type} (p : ExceptT Error Script α) (w : World) (post : α → World → Prop) : Prop :=
  p.run.Endures Call.exec (fun _ _ => True) World.Sane (fun result w' => ∃ a, result = .ok a ∧ post a w') w

variable {α β : Type} {next : α → ExceptT Error Script β} {post : β → World → Prop} {mid : α → World → Prop}

theorem Recovers.bind {p : ExceptT Error Script α} (first : Recovers p w mid)
    (second : ∀ a w', mid a w' → Recovers (next a) w' post) : Recovers (p >>= next) w post :=
  Prog.Endures.bind first fun result w' done => by
    obtain ⟨a, rfl, holds⟩ := done
    exact second a w' holds

theorem recovers_lift {p : Script α} (first : p.Endures Call.exec (fun _ _ => True) World.Sane mid w)
    (second : ∀ a w', mid a w' → Recovers (next a) w' post) : Recovers (liftM p >>= next) w post :=
  Recovers.bind (Prog.Endures.bind first fun a _ holds => ⟨a, rfl, holds⟩) second

theorem recovers_perform {call : Call} {α : Type} {next : call.Reply → ExceptT Error Script α} {post : α → World → Prop}
    (sane : (call.exec w).1.Sane) (rest : Recovers (next (call.exec w).2) (call.exec w).1 post) :
    Recovers (liftM (perform call) >>= next) w post := fun _ => ⟨sane, rest⟩

theorem World.AtRest.loadManifest (atRest : w.AtRest m tables log) :
    Recovers loadManifest w fun loaded w' => loaded = m ∧ w' = w := by
  have loaded := atRest.flushed.loaded
  refine recovers_perform atRest.sane ?_
  simp only [Call.exec]
  cases found : w.disk.manifest with
  | none =>
    rw [Disk.loaded, found] at loaded
    cases loaded
    exact ⟨_, rfl, rfl, rfl⟩
  | some data =>
    rw [Disk.loaded, found] at loaded
    dsimp only at loaded ⊢
    rw [loaded]
    exact ⟨_, rfl, rfl, rfl⟩

theorem openTables_recovers (sane : w.Sane) {tables : List Table}
    (finished : ∀ t ∈ tables, w.disk.tables.find? t.fileNo = some (some t.cfs)) :
    Recovers (openTables (tables.map Table.fileNo)) w fun opened w' => opened = tables ∧ w' = w := by
  induction tables with
  | nil => exact ⟨[], rfl, rfl, rfl⟩
  | cons t rest ih =>
    obtain ⟨here, later⟩ := forall_mem_cons.mp finished
    refine recovers_perform sane ?_
    simp only [Call.exec, here]
    refine Recovers.bind (ih later) ?_
    rintro opened w' ⟨rfl, rfl⟩
    exact ⟨_, rfl, rfl, rfl⟩

def batchOf (r : Wal.Record) : WriteBatch := (WriteBatch.decode r.payload).getD {}

omit [Wal.Crc] in
theorem batchOf_recordOf {p : Nat × WriteBatch} (fits : (recordOf p).Fits) :
    WriteBatch.decode (recordOf p).payload = some p.2 := by
  have short := fits.2
  rw [Wal.Record.body_length] at short
  refine WriteBatch.decode_encode ?_
  simp only [recordOf] at short
  omega

variable {rs : List Wal.Record}

omit [Wal.Crc] in
theorem replayRecords_eq (flushed : Nat)
    (good : ∀ r ∈ rs, ∃ b, WriteBatch.decode r.payload = some b) (active : Memtable) (maxSeq : Nat) :
    replayRecords flushed rs (active, maxSeq) =
      .ok ((rs.filter fun r => flushed < r.seq).foldl (fun m r => m.apply r.seq (batchOf r)) active,
        (rs.map Wal.Record.seq).foldl max maxSeq) := by
  induction rs generalizing active maxSeq with
  | nil => rfl
  | cons r rest ih =>
    obtain ⟨⟨b, decoded⟩, later⟩ := forall_mem_cons.mp good
    rw [replayRecords]
    split_ifs with live
    · rw [decoded, filter_cons_of_pos (by simpa using live)]
      dsimp only
      rw [ih later]
      simp [batchOf, decoded]
    · rw [filter_cons_of_neg (by simpa using live), ih later]
      rfl

def deadSegments (flushed : Nat) (entries : List (Nat × Segment)) : List Nat :=
  entries.flatMap fun e => if (Wal.records e.2.bytes).any (flushed < ·.seq) then [] else [e.1]

variable {entries : List (Nat × Segment)}

theorem mem_deadSegments {flushed n : Nat} (member : n ∈ deadSegments flushed entries) :
    ∃ s, (n, s) ∈ entries ∧ ∀ r ∈ Wal.records s.bytes, r.seq ≤ flushed := by
  obtain ⟨e, there, found⟩ := mem_flatMap.mp member
  split_ifs at found with live
  · cases found
  · rw [mem_singleton.mp found]
    refine ⟨e.2, there, fun r inside => ?_⟩
    rw [any_eq_true] at live
    exact Nat.not_lt.mp fun late => live ⟨r, inside, by simpa using late⟩

theorem replaySegments_recovers (sane : w.Sane) (flushed : Nat)
    (present : ∀ e ∈ entries, w.disk.segments.find? e.1 = some e.2)
    (good : ∀ r ∈ segmentRecords entries, ∃ b, WriteBatch.decode r.payload = some b) (gathered : Replay) :
    Recovers (replaySegments flushed (entries.map Prod.fst) gathered) w fun replayed w' => w' = w ∧
      replayed.active = ((segmentRecords entries).filter fun r => flushed < r.seq).foldl
        (fun m r => m.apply r.seq (batchOf r)) gathered.active ∧
      replayed.maxSeq = ((segmentRecords entries).map Wal.Record.seq).foldl max gathered.maxSeq ∧
      replayed.reclaimable = gathered.reclaimable ++ deadSegments flushed entries := by
  induction entries generalizing gathered with
  | nil => exact ⟨gathered, rfl, rfl, rfl, rfl, (append_nil _).symm⟩
  | cons e rest ih =>
    obtain ⟨here, later⟩ := forall_mem_cons.mp present
    have split : segmentRecords (e :: rest) = Wal.records e.2.bytes ++ segmentRecords rest := flatMap_cons ..
    rw [split] at good ⊢
    refine recovers_perform sane ?_
    simp only [Call.exec, here, Option.map_some, Option.getD_some]
    rw [replayRecords_eq flushed fun r member => good r (mem_append_left _ member)]
    dsimp only
    refine Prog.Endures.mono (ih later (fun r member => good r (mem_append_right _ member)) _) ?_
    rintro result w' ⟨replayed, rfl, rfl, active, maxSeq, reclaimable⟩
    refine ⟨replayed, rfl, rfl, ?_, ?_, ?_⟩
    · rw [active, filter_append, foldl_append]
    · rw [maxSeq, map_append, foldl_append]
    · rw [reclaimable, append_assoc]
      rfl

omit [Wal.Crc] in
theorem Recorded.fill_eq {flushed : Nat} (recorded : Recorded rs flushed log) (bound : flushed ≤ log.length) :
    (rs.filter fun r => flushed < r.seq).foldl (fun m r => m.apply r.seq (batchOf r)) {} =
      fill flushed (log.drop flushed) := by
  have kept : ∀ r ∈ recordsFrom flushed (log.drop flushed), r.Fits := by
    rw [← recorded.live bound]
    exact fun r member => recorded.fits r (mem_of_mem_filter member)
  rw [recorded.live bound, recordsFrom, foldl_map, fill]
  refine foldl_ext _ _ _ fun m p member => ?_
  rw [batchOf, batchOf_recordOf (kept _ (mem_map_of_mem member))]
  rfl

variable {whole : Prop} {c durable : Nat}

theorem World.Running.sane_down (running : w.Running whole c m tables log durable) (down : w.core = none) : w.Sane :=
  running.sane fun core present => by
    rw [down] at present
    cases present

theorem removeSegments_endures (running : w.Running whole c m tables log durable) (down : w.core = none)
    {dead : List Nat} (other : ∀ n ∈ dead, n ≠ c)
    (covered : ∀ e ∈ w.disk.segments.entries, e.1 ∈ dead → ∀ r ∈ Wal.records e.2.bytes, r.seq ≤ m.lastFlushedSeq) :
    (removeSegments dead).Endures Call.exec (fun _ _ => True) World.Sane (fun _ w' =>
      w'.Running whole c m tables log durable ∧ w'.core = none ∧ w'.faults = w.faults ∧ w'.tears = w.tears) w := by
  induction dead generalizing w with
  | nil => exact ⟨running, down, rfl, rfl⟩
  | cons n rest ih =>
    obtain ⟨here, later⟩ := forall_mem_cons.mp other
    have removed := running.removeSegment here fun s present => covered (n, s) present (mem_cons_self ..)
    have fewer : ∀ e ∈ (Call.exec (.removeSegment n) w).1.disk.segments.entries, e ∈ w.disk.segments.entries :=
      fun e member => mem_of_mem_filter member
    exact fun _ => ⟨removed.sane_down down, ih removed down later fun e member dead =>
      covered e (fewer e member) (mem_cons_of_mem _ dead)⟩

theorem removeOrphans_endures (running : w.Running whole c m tables log durable) (down : w.core = none)
    (found : List Nat) :
    (removeOrphans m.sstables found).Endures Call.exec (fun _ _ => True) World.Sane (fun _ w' =>
      w'.Running whole c m tables log durable ∧ w'.core = none ∧ w'.faults = w.faults ∧ w'.tears = w.tears) w := by
  induction found generalizing w with
  | nil => exact ⟨running, down, rfl, rfl⟩
  | cons n rest ih =>
    rw [removeOrphans]
    split_ifs with live
    · exact ih running down
    · have removed : (Call.exec (.removeTable n) w).1.Running whole c m tables log durable := by
        refine running.of_tables rfl rfl (fun n' member => ?_) rfl rfl
        have differ : n' ≠ n := fun same => live (same ▸ member)
        exact (OrdMap.find?_erase ..).trans (if_neg differ)
      exact fun _ => ⟨removed.sane_down down, ih removed down⟩

theorem World.AtRest.openEngine (atRest : w.AtRest m tables log) (whole : Prop) (opts : Options) :
    Recovers (openEngine opts) w fun core w' => w'.Open whole core m tables log log.length ∧ core.opts = opts ∧
      core.immutable = [] ∧ core.Settled m tables log ∧ w'.faults = w.faults ∧ w'.tears = w.tears := by
  unfold Engine.openEngine
  refine atRest.loadManifest.bind ?_
  rintro m w ⟨rfl, rfl⟩
  have bound : m.lastFlushedSeq ≤ log.length := by simpa [Journal.batches] using atRest.flushed.bound
  have opens : Recovers (openTables m.sstables) w fun opened w' => opened = tables ∧ w' = w := by
    rw [atRest.flushed.listed]
    exact openTables_recovers atRest.sane atRest.flushed.finished
  refine opens.bind ?_
  rintro tables w ⟨rfl, rfl⟩
  refine recovers_perform atRest.sane ?_
  have good : ∀ r ∈ segmentRecords w.disk.segments.entries, ∃ b, WriteBatch.decode r.payload = some b := by
    intro r member
    obtain ⟨p, -, rfl⟩ := atRest.recorded.logged r member
    exact ⟨p.2, batchOf_recordOf (atRest.recorded.fits _ member)⟩
  have present : ∀ e ∈ w.disk.segments.entries, w.disk.segments.find? e.1 = some e.2 := fun e member =>
    OrdMap.find?_eq_some.mpr member
  refine Recovers.bind (replaySegments_recovers atRest.sane m.lastFlushedSeq present good _) ?_
  rintro replayed w ⟨rfl, active, maxSeq, reclaimable⟩
  rw [atRest.recorded.fill_eq bound] at active
  have last : replayed.maxSeq = log.length := maxSeq.trans atRest.ends.symm
  dsimp only [Call.exec] at reclaimable ⊢
  rw [nil_append] at reclaimable
  -- the new segment comes after all others
  have above : ∀ e ∈ w.disk.segments.entries, e.1 < (w.disk.segments.entries.map Prod.fst).foldl max 0 + 1 :=
    fun e member => Nat.lt_succ_of_le ((foldl_max_le.mp (Nat.le_refl _)).2 e.1 (mem_map_of_mem member))
  have created := atRest.toStored.createSegment whole above
  refine recovers_perform (created.sane_down atRest.down) ?_
  refine recovers_lift (removeSegments_endures created atRest.down (fun n member => ?_) fun e member dead => ?_) ?_
  · rw [reclaimable] at member
    obtain ⟨s, there, -⟩ := mem_deadSegments member
    exact (above _ there).ne
  · rw [reclaimable] at dead
    obtain ⟨s, there, low⟩ := mem_deadSegments dead
    rcases OrdMap.mem_insertEntry member with new | old
    · rw [new]
      rintro _ ⟨⟩
    · rwa [OrdMap.eq_of_sorted w.disk.segments.sorted old there rfl]
  rintro _ w₁ ⟨running₁, down₁, faults₁, tears₁⟩
  refine recovers_perform (running₁.sane_down down₁) ?_
  refine recovers_lift (removeOrphans_endures running₁ down₁ _) ?_
  rintro _ w₂ ⟨running₂, down₂, faults₂, tears₂⟩
  have fresh : ∀ t ∈ tables, t.fileNo < m.sstables.foldl max 0 + 1 := by
    rw [atRest.flushed.listed]
    exact fun t member =>
      Nat.lt_succ_of_le ((foldl_max_le.mp (Nat.le_refl _)).2 t.fileNo (mem_map_of_mem member))
  have displays := atRest.flushed.displays.fill m.lastFlushedSeq (log.drop m.lastFlushedSeq)
  rw [Journal.batches, Journal.batches, map_drop, take_append_drop, ← Journal.batches, ← active] at displays
  obtain ⟨newest, hollow⟩ := fill_watermark bound
  rw [← active] at newest hollow
  have upToDate : Core.UpToDate
      { opts, active := replayed.active, immutable := [], sstables := tables,
        wal := (w.disk.segments.entries.map Prod.fst).foldl max 0 + 1, seq := replayed.maxSeq,
        lastFlushedSeq := m.lastFlushedSeq, nextSeg := (w.disk.segments.entries.map Prod.fst).foldl max 0 + 1 + 1,
        nextSst := m.sstables.foldl max 0 + 1 } log :=
    ⟨displays, newest, hollow⟩
  have opened := running₂.publish
    { opts, active := replayed.active, immutable := [], sstables := tables,
      wal := (w.disk.segments.entries.map Prod.fst).foldl max 0 + 1, seq := replayed.maxSeq,
      lastFlushedSeq := m.lastFlushedSeq, nextSeg := (w.disk.segments.entries.map Prod.fst).foldl max 0 + 1 + 1,
      nextSst := m.sstables.foldl max 0 + 1 }
  refine recovers_perform (opened.sane_of rfl upToDate prefix_rfl)
    ⟨_, rfl, ?_, rfl, rfl, ?_, faults₂.trans faults₁, tears₂.trans tears₁⟩
  · exact ⟨opened, rfl, last, Nat.lt_succ_self _, upToDate⟩
  · exact ⟨active, rfl, rfl, fresh⟩

end

section

variable [Wal.Crc]

def Lives.Guarded (guard : Call → World → Prop) : World → List Life → Prop
  | _, [] => True
  | w, life :: rest =>
    life.program.GuardedFor Call.exec guard life.steps { w with faults := life.faults } ∧ Guarded guard (w.live life) rest

instance Lives.decideGuarded (guard : Call → World → Prop) [∀ call w, Decidable (guard call w)] :
    (w : World) → (lives : List Life) → Decidable (Guarded guard w lives)
  | _, [] => .isTrue trivial
  | w, life :: rest =>
    have := decideGuarded guard (w.live life) rest
    inferInstanceAs (Decidable (_ ∧ _))

section

variable {clean whole : Prop} {w : World} {m : Manifest} {tables : List Table} {log : Journal} {life : Life}

theorem World.AtRest.program (atRest : w.AtRest m tables log) (syncs : life.opts.fsyncMode ≠ .none)
    (reliable : clean → w.faults = []) (untorn : whole → w.tears = []) :
    Survives clean whole life.program w fun _ _ => True := by
  unfold Life.program
  refine (Prog.Endures.strengthen (atRest.openEngine whole life.opts) fun _ _ _ => trivial).bind ?_
  rintro _ w' ⟨core, rfl, opened, configured, queue, settled, faults, tears⟩
  refine World.Serves.runCommitter ⟨opened, ?_, fun _ => settled, fun holds => ⟨queue, ?_⟩, fun holds => ?_⟩ life.groups
  · rwa [configured]
  · rw [faults]
    exact reliable holds
  · rw [tears]
    exact untorn holds

theorem World.AtRest.runLife (atRest : w.AtRest m tables log) (syncs : life.opts.fsyncMode ≠ .none)
    (reliable : clean → life.faults = []) (untorn : whole → w.tears = [])
    (guarded : life.program.GuardedFor Call.exec (Call.Guard clean whole) life.steps { w with faults := life.faults }) :
    (w.runLife life).Sane := by
  have start : World.AtRest { w with faults := life.faults } m tables log :=
    { atRest with }
  exact (start.program syncs reliable untorn).evalFor start.sane guarded

theorem Call.exec_tears (call : Call) (w : World) (none : w.tears = []) : (call.exec w).1.tears = [] := by
  cases call with
  | append n seq batch => simp only [exec, none, headD_nil, World.append, tail_nil]
  | _ => exact none

theorem World.live_tears (none : w.tears = []) (life : Life) : (w.live life).tears = [] :=
  have start : World.tears { w with faults := life.faults } = [] := none
  Prog.evalFor_keeps Call.exec_tears life.program life.steps start

theorem World.AtRest.lives (atRest : w.AtRest m tables log) (untorn : w.tears = []) {lives : List Life}
    (syncs : ∀ life ∈ lives, life.opts.fsyncMode ≠ .none) (reliable : clean → ∀ life ∈ lives, life.faults = [])
    (guarded : Lives.Guarded (Call.Guard clean True) w lives) :
    (∃ m' tables' log', (lives.foldl World.live w).AtRest m' tables' log') ∧ (lives.foldl World.live w).tears = [] := by
  induction lives generalizing w m tables log with
  | nil => exact ⟨⟨m, tables, log, atRest⟩, untorn⟩
  | cons life rest ih =>
    obtain ⟨here, later⟩ := forall_mem_cons.mp syncs
    have sane := atRest.runLife here (fun holds => reliable holds life (mem_cons_self ..)) (fun _ => untorn) guarded.1
    obtain ⟨m', tables', log', next⟩ := sane.recoverable life.cut
    exact ih next (World.live_tears untorn life) later
      (fun holds other member => reliable holds other (mem_cons_of_mem _ member)) guarded.2

end

theorem World.atRest_fresh : World.AtRest {} {} [] [] where
  down := rfl
  flushed := ⟨rfl, rfl, nofun, Nat.le_refl _, displays_nil⟩
  recorded := ⟨.nil, nofun, nofun, nofun⟩
  logged := prefix_rfl
  acked := nofun
  lasting := nofun
  ends := rfl

/-- The engine opens with the batches of a prefix of what was logged, applied in order: all acknowledged ones among them,
and every record left in a segment is of the batch that has its number. -/
def World.RecoversExactly (w : World) (opts : Options) : Prop :=
  ∃ core w' log, (openEngine opts).run.eval Call.exec w = (w', some (.ok core)) ∧ log <+: w.logged ∧
    core.reads = (replay log).reads ∧ core.seq = log.length ∧ (∀ p ∈ w.acked, p ∈ numberFrom 0 log) ∧
    (∀ r ∈ segmentRecords w'.disk.segments.entries, ∃ p ∈ numberFrom 0 log, r = recordOf p) ∧
    ∀ r ∈ segmentRecords w'.disk.segments.entries, ∀ r' ∈ segmentRecords w'.disk.segments.entries,
      r.seq = r'.seq → r = r'

omit [Wal.Crc] in
theorem Recorded.unique {rs : List Wal.Record} {flushed : Nat} {log : Journal} (recorded : Recorded rs flushed log)
    {r r' : Wal.Record} (member : r ∈ rs) (member' : r' ∈ rs) (same : r.seq = r'.seq) : r = r' := by
  obtain ⟨⟨n, b⟩, numbered, rfl⟩ := recorded.logged r member
  obtain ⟨⟨n', b'⟩, numbered', rfl⟩ := recorded.logged r' member'
  obtain rfl : n = n' := same
  have here := (mem_entriesFrom_iff.mp numbered).2
  have there := (mem_entriesFrom_iff.mp numbered').2
  rw [Option.some.inj (Option.some.inj (here.symm.trans there))]

theorem World.AtRest.recoversExactly {w : World} {m : Manifest} {tables : List Table} {log : Journal}
    (atRest : w.AtRest m tables log) (opts : Options) : w.RecoversExactly opts := by
  obtain ⟨_, w', done, core, rfl, opened, -⟩ := (atRest.openEngine True opts).eval
  have recorded := opened.running.recorded
  refine ⟨core, w', log.batches, done, atRest.logged, Core.reads_eq opened.upToDate.displays, ?_, fun p member => ?_,
    fun r member => ?_, fun r member r' member' => recorded.unique member member'⟩
  · rw [opened.seq, Journal.batches, length_map]
  · exact mem_numberFrom_batches (atRest.acked p member)
  · obtain ⟨p, numbered, same⟩ := recorded.logged r member
    exact ⟨p, mem_numberFrom_batches numbered, same⟩

theorem Lives.Guarded.mono {guard guard' : Call → World → Prop} {w : World} {lives : List Life}
    (guarded : Guarded guard w lives) (weaker : ∀ call w, guard call w → guard' call w) : Guarded guard' w lives := by
  induction lives generalizing w with
  | nil => trivial
  | cons life rest ih => exact ⟨guarded.1.mono weaker, ih guarded.2⟩

/-- Recovery is exact after any lives that sync what they acknowledge, crashes during recovery included. -/
theorem recovery_exact (lives : List Life) (opts : Options) (syncs : ∀ life ∈ lives, life.opts.fsyncMode ≠ .none)
    (reliable : ∀ life ∈ lives, life.faults = []) (fits : Lives.Guarded (fun call _ => call.Fits) {} lives) :
    (lives.foldl World.live {}).RecoversExactly opts := by
  have guarded : Lives.Guarded (Call.Guard True True) {} lives :=
    fits.mono fun call w fit => ⟨fit, .inl trivial, .inl trivial⟩
  obtain ⟨⟨m, tables, log, atRest⟩, -⟩ := World.atRest_fresh.lives rfl syncs (fun _ => reliable) guarded
  exact atRest.recoversExactly opts

end

def twoFlushes : Life where
  opts := { memtableSizeThreshold := 1 }
  groups := [[.write ⟨[.put .default [1] [7], .put .default [2] [9]]⟩], [.write ⟨[.put .default [1] [8]]⟩]]
  steps := 100

open scoped Wal.Castagnoli in
theorem recovery_exact_twoFlushes : (World.live {} twoFlushes).RecoversExactly {} :=
  recovery_exact [twoFlushes] {} (by decide) (by decide) (by decide +kernel)

def unsynced : Life where
  opts := { fsyncMode := .none }
  groups := [[.write ⟨[.put .default [1] [7]]⟩]]
  steps := 100

open scoped Wal.Castagnoli in
/-- The write was acknowledged, and is gone after recovery. -/
theorem unsynced_write_lost :
    (World.live {} unsynced).acked = [(1, ⟨[.put .default [1] [7]]⟩)] ∧
      ((openEngine {}).run.eval Call.exec (World.live {} unsynced)).2.map
        (fun opened => opened.toOption.map fun core => (core.seq, core.reads.getCf .default [1])) =
          some (some (0, none)) := by
  decide +kernel

section

variable [Wal.Crc]

/-- What the manifest's watermark covers is in its tables, and reads return what the newest batches wrote. -/
def World.Covered (w : World) : Prop :=
  (∃ m tables, w.disk.Flushed m tables w.logged) ∧
    ∀ core ∈ w.core, core.reads = (replay (w.logged.take core.newest)).reads

theorem World.Sane.covered {w : World} (sane : w.Sane) : w.Covered :=
  ⟨sane.watermark, fun core present => Core.reads_eq (sane.readable core present)⟩

theorem Lives.guarded_append {guard : Call → World → Prop} {w : World} {front back : List Life} :
    Guarded guard w (front ++ back) ↔ Guarded guard w front ∧ Guarded guard (front.foldl World.live w) back := by
  induction front generalizing w with
  | nil => exact (and_iff_right trivial).symm
  | cons life rest ih => exact (and_congr_right' ih).trans and_assoc.symm

/-- In every state of a life, after any lives before it, the flushed batches are in the tables and reads are right, as
long as no memtable is frozen while another one waits for its flush. -/
theorem flushes_cover (lives : List Life) (life : Life) (syncs : ∀ l ∈ lives ++ [life], l.opts.fsyncMode ≠ .none)
    (guarded : Lives.Guarded (fun call w => call.Fits ∧ call.Calm w) {} (lives ++ [life])) :
    ((lives.foldl World.live {}).runLife life).Covered := by
  have guarded : Lives.Guarded (Call.Guard False True) {} (lives ++ [life]) :=
    guarded.mono fun call w meets => ⟨meets.1, .inr meets.2, .inl trivial⟩
  obtain ⟨before, here⟩ := Lives.guarded_append.mp guarded
  obtain ⟨syncsBefore, syncsHere⟩ := forall_mem_append.mp syncs
  obtain ⟨⟨m, tables, log, atRest⟩, untorn⟩ := World.atRest_fresh.lives rfl syncsBefore False.elim before
  exact (atRest.runLife (syncsHere life (mem_singleton_self _)) False.elim (fun _ => untorn) here.1).covered

end

open scoped Wal.Castagnoli

def oneFault : Life where
  opts := { memtableSizeThreshold := 1 }
  groups := [[.write ⟨[.put .default [1] [7], .put .default [2] [9]]⟩]]
  faults := [true]
  steps := 100

theorem flushes_cover_oneFault : (World.runLife {} oneFault).Covered :=
  flushes_cover [] oneFault (by decide) (by decide +kernel)

def faultThenFlush : Life := { twoFlushes with faults := [true] }

theorem faultThenFlush_state :
    (World.runLife {} faultThenFlush).disk.loaded.toOption.map (fun m => (m.lastFlushedSeq, m.sstables)) = some (2, [2]) ∧
      (World.runLife {} faultThenFlush).core.map (fun core => core.reads.getCf .default [1]) = some (some [7]) ∧
      (World.runLife {} faultThenFlush).core.map (fun core =>
        (replay ((World.runLife {} faultThenFlush).logged.take core.newest)).reads.getCf .default [1]) =
          some (some [8]) := by
  decide +kernel

/-- The manifest claims both batches and lists only the second one's table; a read returns the value of the first, and
after a restart the first batch is gone. -/
theorem faultThenFlush_not_covered :
    ¬ (World.runLife {} faultThenFlush).Covered ∧
      ((openEngine {}).run.eval Call.exec (World.live {} faultThenFlush)).2.map
        (fun opened => opened.toOption.map fun core => core.reads.getCf .default [2]) = some (some none) := by
  constructor
  · rintro ⟨-, reads⟩
    obtain ⟨-, stale, right⟩ := faultThenFlush_state
    obtain ⟨core, present, value⟩ := Option.map_eq_some_iff.mp stale
    rw [present, Option.map_some, ← reads core present, value] at right
    exact absurd right (by decide)
  · decide +kernel

end Arcux.Engine
