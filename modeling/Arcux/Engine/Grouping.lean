import Arcux.Engine.FailedRequests

namespace Arcux.Engine

open Codec Concurrency Data List
open scoped Codec.ByteOrder

def Group.clean (ops : List Op) : Group := { requests := ops.map ({ op := · }) }

namespace Core

variable {core core' : Core}

theorem serveAll_append (before after : List Request) :
    (core.serveAll (before ++ after)).1 = ((core.serveAll before).1.serveAll after).1 ∧
      (core.serveAll (before ++ after)).2.1 = (core.serveAll before).2.1 ++ ((core.serveAll before).1.serveAll after).2.1 := by
  induction before generalizing core with
  | nil => exact ⟨rfl, rfl⟩
  | cons r rest ih => exact ⟨ih.1, congrArg (cons _) ih.2⟩

structure Matches (core core' : Core) : Prop where
  lookup (cf : Cf) (key : Bytes) : core.lookup cf key = core'.lookup cf key
  seq : core.seq = core'.seq

namespace Matches

theorem reads (same : Matches core core') : core.reads = core'.reads := reads_congr same.lookup

theorem serve (same : Matches core core') (r : Request) :
    (core.serve r).2.1 = (core'.serve r).2.1 ∧ Matches (core.serve r).1 (core'.serve r).1 := by
  unfold Core.serve
  rw [← same.reads, ← same.seq]
  split
  · exact ⟨rfl, same⟩
  · exact ⟨rfl, same⟩
  · rename_i batch planned
    split
    · refine ⟨rfl, fun cf key => ?_, ?_⟩
      · rw [lookup_applyBatch, lookup_applyBatch, same.lookup]
      · exact congrArg (· + 1) same.seq
    · exact ⟨rfl, same.lookup, rfl⟩

theorem serveAll (same : Matches core core') (requests : List Request) :
    (core.serveAll requests).2.1 = (core'.serveAll requests).2.1 ∧
      Matches (core.serveAll requests).1 (core'.serveAll requests).1 := by
  induction requests generalizing core core' with
  | nil => exact ⟨rfl, same⟩
  | cons r rest ih =>
    obtain ⟨answer, next⟩ := same.serve r
    obtain ⟨answers, last⟩ := ih next
    exact ⟨congrArg₂ cons answer answers, last⟩

end Matches

theorem serve_active_filled (filled : core.active.Filled) (r : Request) : (core.serve r).1.active.Filled := by
  unfold Core.serve
  split
  · exact filled
  · exact filled
  · split
    · exact filled.apply _ _
    · exact filled

@[simp] theorem serve_immutable (r : Request) : (core.serve r).1.immutable = core.immutable := by
  unfold Core.serve
  split
  · rfl
  · rfl
  · split <;> rfl

/-- No frozen memtable that waits for its table holds an entry. -/
def Bare (core : Core) : Prop := ∀ m ∈ core.immutable, m.cfs = fun _ => .empty

structure Tidy (core : Core) : Prop where
  filled : core.active.Filled
  bare : core.Bare

theorem Bare.lookup (bare : core.Bare) (cf : Cf) (key : Bytes) : core.lookup cf key =
    Layers.find? (core.active.cfs cf :: core.sstables.reverse.map (·.cfs cf)) key := by
  have hollow : ∀ layer ∈ core.immutable.reverse.map (·.cfs cf), layer = .empty := by
    intro layer member
    obtain ⟨m, queued, rfl⟩ := mem_map.mp member
    exact congrFun (bare m (mem_reverse.mp queued)) cf
  have skip (below : List (OrdMap Bytes MemValue)) : Layers.find? (core.immutable.reverse.map (·.cfs cf) ++ below) key =
      Layers.find? below key := by
    rw [Layers.find?_append, Layers.find?, findSome?_eq_none_iff.mpr, Option.none_or]
    intro layer member
    rw [hollow layer member, OrdMap.find?_empty]
  simp only [Core.lookup, levels, map_cons, map_append, map_map, Function.comp_def, Layers.find?_cons, skip]

theorem Tidy.serve (tidy : core.Tidy) (r : Request) : (core.serve r).1.Tidy :=
  ⟨serve_active_filled tidy.filled r, fun m queued => tidy.bare m (serve_immutable r ▸ queued)⟩

theorem Tidy.serveAll (tidy : core.Tidy) (requests : List Request) : (core.serveAll requests).1.Tidy := by
  induction requests generalizing core with
  | nil => exact tidy
  | cons r rest ih => exact ih (tidy.serve r)

theorem flushed_immutable (core : Core) :
    (core.freeze.flushFrozen core.active core.immutable.length .done).immutable = core.immutable := by
  have queue : (core.freeze.install core.active).immutable = core.immutable ++ [core.active] := install_immutable core.active
  rw [flushFrozen, forget, queue, dequeue]

theorem flushed_active (core : Core) : (core.freeze.flushFrozen core.active core.immutable.length .done).active = {} :=
  install_active core.active

theorem flushed_tables (core : Core) : (core.freeze.flushFrozen core.active core.immutable.length .done).sstables =
    (core.freeze.install core.active).sstables := rfl

theorem Tidy.rotateIfFull (tidy : core.Tidy) :
    (core.rotateIfFull .done).Tidy ∧ Matches (core.rotateIfFull .done) core := by
  unfold Core.rotateIfFull
  split
  · have bare : (core.freeze.flushFrozen core.active core.immutable.length .done).Bare := fun m queued =>
      tidy.bare m (core.flushed_immutable ▸ queued)
    refine ⟨⟨core.flushed_active ▸ Memtable.filled_new, bare⟩, fun cf key => ?_, ?_⟩
    · rw [bare.lookup, tidy.bare.lookup, flushed_active, flushed_tables]
      by_cases empty : core.active.size = 0
      · rw [install, if_pos empty, tidy.filled empty]
        rfl
      · rw [install, if_neg empty]
        simp [freeze]
    · rw [flushFrozen]
      unfold install
      split <;> rfl
  · exact ⟨tidy, fun _ _ => rfl, rfl⟩

theorem Tidy.processGroups (tidy : core.Tidy) (same : Matches core core') (parts : List (List Op)) :
    (core.processGroups (parts.map .clean)).2.flatten = (core'.serveAll (parts.flatten.map ({ op := · }))).2.1 ∧
      Matches (core.processGroups (parts.map .clean)).1 (core'.serveAll (parts.flatten.map ({ op := · }))).1 := by
  induction parts generalizing core core' with
  | nil => exact ⟨rfl, same⟩
  | cons part rest ih =>
    let requests : List Request := part.map ({ op := · })
    obtain ⟨answers, served⟩ := same.serveAll requests
    obtain ⟨rotated, unseen⟩ := (tidy.serveAll requests).rotateIfFull
    have next : Matches ((core.serveAll requests).1.rotateIfFull .done) (core'.serveAll requests).1 :=
      ⟨fun cf key => (unseen.lookup cf key).trans (served.lookup cf key), unseen.seq.trans served.seq⟩
    obtain ⟨later, last⟩ := ih rotated next
    rw [flatten_cons, map_append, (serveAll_append ..).1, (serveAll_append ..).2]
    exact ⟨congrArg₂ (· ++ ·) answers later, last⟩

theorem serve_resolve_foreign {spec : ResolveSpec}
    (foreign : ∀ lock, core.reads.currentLock spec.key = .ok (some lock) → lock.startTs ≠ spec.startTs) :
    (core.serve ⟨.resolve spec, true⟩).1 = core := by
  simp only [Core.serve, Reads.plan]
  cases held : core.reads.currentLock spec.key with
  | error e => rfl
  | ok lock? =>
    cases lock? with
    | none => rfl
    | some lock => simp only [foreign lock held, if_false]

theorem lastOp_resolve (spec : ResolveSpec) : lastOp (buildResolveBatch spec).ops .lock spec.key = some .delete := by
  cases action : spec.action <;> simp [lastOp, buildResolveBatch, action, WriteBatch.put, WriteBatch.delete, WriteOp.cf,
    WriteOp.key, WriteOp.memValue]

theorem resolved_unlocked (spec : ResolveSpec) :
    (core.applyBatch (buildResolveBatch spec)).reads.currentLock spec.key = .ok none := by
  have gone : (core.applyBatch (buildResolveBatch spec)).reads.getCf .lock spec.key = none := by
    change ((core.applyBatch (buildResolveBatch spec)).lookup .lock spec.key).bind MemValue.intoPresent = none
    rw [lookup_applyBatch, lastOp_resolve]
    rfl
  rw [Reads.currentLock, gone]

theorem serve_resolve_again (spec : ResolveSpec) :
    ((core.serve ⟨.resolve spec, true⟩).1.serve ⟨.resolve spec, true⟩).1 = (core.serve ⟨.resolve spec, true⟩).1 := by
  apply serve_resolve_foreign
  intro lock held equal
  by_cases own : ∃ lock, core.reads.currentLock spec.key = .ok (some lock) ∧ lock.startTs = spec.startTs
  · obtain ⟨lock', found, owned⟩ := own
    have applied : (core.serve ⟨.resolve spec, true⟩).1 = core.applyBatch (buildResolveBatch spec) := by
      simp only [Core.serve, Reads.plan, found, owned, if_true]
    rw [applied, resolved_unlocked] at held
    cases held
  · have foreign : ∀ lock, core.reads.currentLock spec.key = .ok (some lock) → lock.startTs ≠ spec.startTs :=
      fun lock found owned => own ⟨lock, found, owned⟩
    rw [serve_resolve_foreign foreign] at held
    exact foreign lock held equal

/-- The states of a running engine: opened on any files, after any groups whose calls may fail. -/
inductive Reached : Core → Prop
  | opened (opts : Options) (records : List (Nat × WriteBatch)) (sstables : List Table)
      (wal seq lastFlushedSeq nextSeg nextSst : Nat) :
      Reached { opts, active := records.foldl (fun m r => m.apply r.1 r.2) {}, immutable := [], sstables, wal, seq,
                lastFlushedSeq, nextSeg, nextSst }
  | served {core : Core} (reached : Reached core) (group : Group) : Reached (core.processGroup group).1

theorem rotateIfFull_active_filled (filled : core.active.Filled) (flush : FlushOutcome) :
    (core.rotateIfFull flush).active.Filled := by
  unfold Core.rotateIfFull
  split
  · have emptied : (core.freeze.flushFrozen core.active core.immutable.length flush).active = {} := by
      cases flush with
      | done => exact install_active core.active
      | tableFails =>
        rw [flushFrozen]
        split <;> rfl
      | manifestFails => exact install_active core.active
    exact emptied ▸ Memtable.filled_new
  · exact filled

theorem serveAll_active_filled (filled : core.active.Filled) (requests : List Request) :
    (core.serveAll requests).1.active.Filled := by
  induction requests generalizing core with
  | nil => exact filled
  | cons r rest ih => exact ih (serve_active_filled filled r)

theorem Reached.filled (reached : core.Reached) : core.active.Filled := by
  induction reached with
  | opened opts records sstables wal seq lastFlushedSeq nextSeg nextSst =>
    induction records using reverseRecOn with
    | nil => exact Memtable.filled_new
    | append_singleton records r ih =>
      rw [foldl_append]
      exact ih.apply r.1 r.2
  | @served core reached group ih =>
    have served := serveAll_active_filled ih group.requests
    have rotated := rotateIfFull_active_filled served group.flush
    simp only [processGroup, finish]
    split
    · split
      · exact served
      · exact rotated
    · exact rotated

theorem serve_size (r : Request) : core.active.size ≤ (core.serve r).1.active.size := by
  unfold serve
  split
  · exact le_rfl
  · exact le_rfl
  · split
    · exact (Memtable.foldl_applyOp_size _ core.active).1
    · exact le_rfl

theorem serveAll_size (requests : List Request) : core.active.size ≤ (core.serveAll requests).1.active.size := by
  induction requests generalizing core with
  | nil => exact le_rfl
  | cons r rest ih => exact (serve_size r).trans ih

theorem processGroup_clean (core : Core) (ops : List Op) : core.processGroup (.clean ops) =
    ((core.serveAll (ops.map ({ op := · }))).1.rotateIfFull .done, (core.serveAll (ops.map ({ op := · }))).2.1) :=
  processGroup_synced (.inl rfl)

theorem processGroups_unfilled (parts : List (List Op))
    (unfilled : (core.serveAll (parts.flatten.map ({ op := · }))).1.active.size < core.opts.memtableSizeThreshold) :
    (core.processGroups (parts.map .clean)).2.flatten = (core.serveAll (parts.flatten.map ({ op := · }))).2.1 ∧
      (core.processGroups (parts.map .clean)).1 = (core.serveAll (parts.flatten.map ({ op := · }))).1 := by
  induction parts generalizing core with
  | nil => exact ⟨rfl, rfl⟩
  | cons part rest ih =>
    rw [flatten_cons, map_append, (serveAll_append ..).1] at unfilled
    rw [← serveAll_opts (part.map ({ op := · }))] at unfilled
    have small := ((serveAll_size _).trans_lt unfilled).not_ge
    obtain ⟨answers, last⟩ := ih unfilled
    rw [flatten_cons, map_append, (serveAll_append ..).1, (serveAll_append ..).2, map_cons]
    simp only [processGroups, processGroup_clean, rotateIfFull, if_neg small, flatten_cons]
    exact ⟨congrArg _ answers, last⟩

/-- A queued entry is read instead of a later write that fills the memtable by itself. -/
theorem bare_of_grouping (same : ∀ op : Op, (core.processGroups [.clean [op]]).1.reads = (core.serve { op }).1.reads) :
    core.Bare := by
  intro m queued
  funext cf
  refine OrdMap.ext (eq_nil_iff_forall_not_mem.mpr fun (key, v) member => ?_)
  obtain ⟨old, held⟩ : ∃ old, Layers.find? (core.immutable.reverse.map (·.cfs cf)) key = some old := by
    refine Option.isSome_iff_exists.mp (findSome?_isSome_iff.mpr ⟨m.cfs cf, ?_, ?_⟩)
    · exact mem_map.mpr ⟨m, mem_reverse.mpr queued, rfl⟩
    · rw [OrdMap.find?_eq_some.mpr member]
      rfl
  obtain ⟨large, fills, differs⟩ : ∃ large : Bytes, core.opts.memtableSizeThreshold ≤ large.length ∧ old ≠ .put large := by
    by_cases equal : old = .put (replicate core.opts.memtableSizeThreshold 0)
    · refine ⟨replicate (core.opts.memtableSizeThreshold + 1) 0, by simp, fun equal' => ?_⟩
      have lengths := congrArg (Option.map length ∘ MemValue.intoPresent) (equal.symm.trans equal')
      simp [MemValue.intoPresent] at lengths
    · exact ⟨_, by simp, equal⟩
  let batch : WriteBatch := ⟨[.put cf key large]⟩
  let next := core.applyBatch batch
  have full : next.opts.memtableSizeThreshold ≤ next.active.size := by
    have size : next.active.size = core.active.size + (key.length + large.length + 24) := rfl
    have opts : next.opts = core.opts := rfl
    rw [opts, size]
    omega
  have grouped : (core.processGroups [.clean [.write batch]]).1 =
      next.freeze.flushFrozen next.active next.immutable.length .done := if_pos full
  have read := lookup_of_reads (same (.write batch)) cf key
  rw [grouped] at read
  have below : (next.freeze.flushFrozen next.active next.immutable.length .done).lookup cf key = some old := by
    rw [lookup, levels, flushed_active, flushed_immutable, map_cons, map_append, map_map, Layers.find?_cons,
      Layers.find?_append]
    change ((none : Option MemValue).or ((Layers.find? (core.immutable.reverse.map (·.cfs cf)) key).or _)) = _
    rw [held]
    rfl
  have written : (core.serve { op := .write batch }).1.lookup cf key = some (.put large) := by
    change (core.applyBatch batch).lookup cf key = _
    rw [lookup_applyBatch, lastOp_singleton]
    simp [WriteOp.cf, WriteOp.key, WriteOp.memValue]
  exact differs (Option.some.inj (below.symm.trans (read.trans written)))

end Core

/-- However a list of requests is cut into groups, and whatever memtables are rotated and flushed on the way, it is
answered and read as if its requests had been executed one by one, if no memtable that was frozen before and still waits
for its table holds an entry, and only then. It is also if the list does not fill the active memtable. A resolution acts on
a lock of its own transaction only, and not twice. -/
theorem grouping_unseen {core : Core} (reached : core.Reached) :
    let Unseen (parts : List (List Op)) : Prop :=
      (core.processGroups (parts.map .clean)).2.flatten = (core.serveAll (parts.flatten.map ({ op := · }))).2.1 ∧
        (core.processGroups (parts.map .clean)).1.reads = (core.serveAll (parts.flatten.map ({ op := · }))).1.reads
    ((∀ parts, Unseen parts) ↔ core.Bare) ∧
      (∀ parts : List (List Op), (core.serveAll (parts.flatten.map ({ op := · }))).1.active.size <
        core.opts.memtableSizeThreshold → Unseen parts) ∧
      ∀ (now : Core) (spec : ResolveSpec),
        ((∀ lock, now.reads.currentLock spec.key = .ok (some lock) → lock.startTs ≠ spec.startTs) →
          (now.serve ⟨.resolve spec, true⟩).1 = now) ∧
        ((now.serve ⟨.resolve spec, true⟩).1.serve ⟨.resolve spec, true⟩).1 = (now.serve ⟨.resolve spec, true⟩).1 := by
  refine ⟨⟨fun unseen => Core.bare_of_grouping fun op => (unseen [[op]]).2, fun bare parts => ?_⟩, fun parts unfilled => ?_,
    fun now spec => ⟨Core.serve_resolve_foreign, Core.serve_resolve_again spec⟩⟩
  · have tidy : core.Tidy := ⟨reached.filled, bare⟩
    obtain ⟨answers, same⟩ := tidy.processGroups ⟨fun _ _ => rfl, rfl⟩ parts
    exact ⟨answers, same.reads⟩
  · obtain ⟨answers, same⟩ := Core.processGroups_unfilled parts unfilled
    exact ⟨answers, congrArg Core.reads same⟩

theorem grouping_unseen_filled :
    ((Core.fresh { memtableSizeThreshold := 50 }).processGroups ([[.write ⟨[.put .default [1] [7]]⟩,
      .write ⟨[.put .default [2] [8]]⟩], [.write ⟨[.put .default [1] [9]]⟩]].map .clean)).1.reads =
      ((Core.fresh { memtableSizeThreshold := 50 }).serveAll [{ op := .write ⟨[.put .default [1] [7]]⟩ },
        { op := .write ⟨[.put .default [2] [8]]⟩ }, { op := .write ⟨[.put .default [1] [9]]⟩ }]).1.reads :=
  ((grouping_unseen (Core.Reached.opened { memtableSizeThreshold := 50 } [] [] 1 0 0 2 1)).1.mpr nofun
    [[.write ⟨[.put .default [1] [7]]⟩, .write ⟨[.put .default [2] [8]]⟩], [.write ⟨[.put .default [1] [9]]⟩]]).2

def leftQueued : Core :=
  ((Core.fresh { memtableSizeThreshold := 30 }).processGroup
    { Group.clean [.write ⟨[.put .default [1] [0, 0, 0, 0, 0, 1]]⟩] with flush := .tableFails }).1

def overwrites : List Op := [.write ⟨[.put .default [1] [0, 0, 0, 0, 0, 2]]⟩, .write ⟨[.put .default [1] [3]]⟩]

/-- In one group they are flushed below the memtable that was left; in two groups the second one is read. -/
theorem leftQueued_overwrites :
    (leftQueued.processGroups ([overwrites].map .clean)).1.reads.getCf .default [1] = some [0, 0, 0, 0, 0, 1] ∧
      (leftQueued.processGroups ((overwrites.map ([·])).map .clean)).1.reads.getCf .default [1] = some [3] := by
  decide +kernel

end Arcux.Engine
