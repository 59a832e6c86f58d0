import Arcux.Engine.Groups

namespace Arcux.Engine

open Codec Concurrency Data List
open scoped Codec.ByteOrder

/-- `kept` is left of the requests when some that were answered with an error are taken out, and `left` are the answers
of the others. -/
inductive Spared : List Request → List (Except Error Nat) → List Request → List (Except Error Nat) → Prop
  | nil : Spared [] [] [] []
  | keep (r : Request) (answer : Except Error Nat) {requests kept : List Request} {answers left : List (Except Error Nat)}
      (later : Spared requests answers kept left) : Spared (r :: requests) (answer :: answers) (r :: kept) (answer :: left)
  | drop (r : Request) (e : Error) {requests kept : List Request} {answers left : List (Except Error Nat)}
      (later : Spared requests answers kept left) : Spared (r :: requests) (.error e :: answers) kept left

theorem spared_of_sublist {requests kept : List Request} {answers : List (Except Error Nat)}
    (sublist : kept.Sublist requests) (length : answers.length = requests.length) (failed : ∀ answer ∈ answers, ∃ e, answer = .error e) :
    ∃ left, Spared requests answers kept left := by
  induction sublist generalizing answers with
  | slnil =>
    obtain rfl := length_eq_zero_iff.mp length
    exact ⟨[], .nil⟩
  | cons r _ ih =>
    obtain _ | ⟨answer, answers⟩ := answers
    · cases length
    · rw [forall_mem_cons] at failed
      obtain ⟨e, rfl⟩ := failed.1
      obtain ⟨left, spared⟩ := ih (Nat.succ.inj length) failed.2
      exact ⟨left, .drop r e spared⟩
  | cons_cons r _ ih =>
    obtain _ | ⟨answer, answers⟩ := answers
    · cases length
    · rw [forall_mem_cons] at failed
      obtain ⟨left, spared⟩ := ih (Nat.succ.inj length) failed.2
      exact ⟨answer :: left, .keep r answer spared⟩

theorem Spared.sublist {requests kept : List Request} {answers left : List (Except Error Nat)} (spared : Spared requests answers kept left) :
    kept.Sublist requests := by
  induction spared with
  | nil => exact .slnil
  | keep r answer _ ih => exact ih.cons_cons r
  | drop r e _ ih => exact ih.cons r

def Request.logs (reads : Reads) (r : Request) : Option WriteBatch :=
  if r.appends then (reads.plan r.op).toOption.join else none

namespace Core

def content (core : Core) : Options × (Families × Nat) × List (Families × Nat) × List Families :=
  (core.opts, (core.active.cfs, core.active.size), core.immutable.map (fun m => (m.cfs, m.size)), core.sstables.map Table.cfs)

def verdict (answer : Except Error Nat) : Except Error Bool := answer.map (0 < ·)

variable {core core' : Core}

theorem content_levels (same : core.content = core'.content) : core.levels = core'.levels := by
  have levels (c : Core) : c.levels = c.content.2.1.1 ::
      (c.content.2.2.1.reverse.map Prod.fst ++ c.content.2.2.2.reverse) := by
    simp [Core.levels, content, map_reverse, Function.comp_def]
  rw [levels core, levels core', same]

theorem content_reads (same : core.content = core'.content) : core.reads = core'.reads := by
  rw [reads, reads, content_levels same]

end Core

theorem Memtable.apply_content {m m' : Memtable} (same : (m.cfs, m.size) = (m'.cfs, m'.size)) (seq seq' : Nat)
    (batch : WriteBatch) :
    ((m.apply seq batch).cfs, (m.apply seq batch).size) = ((m'.apply seq' batch).cfs, (m'.apply seq' batch).size) := by
  have folded (ops : List WriteOp) : ((ops.foldl applyOp m).cfs, (ops.foldl applyOp m).size) =
      ((ops.foldl applyOp m').cfs, (ops.foldl applyOp m').size) := by
    induction ops using reverseRecOn with
    | nil => exact same
    | append_singleton ops op ih =>
      obtain ⟨cfs, size⟩ := Prod.mk.inj ih
      simp only [foldl_append, foldl_cons, foldl_nil, applyOp, cfs, size]
  exact folded batch.ops

namespace Core

variable {core core' : Core}

theorem applyBatch_content (same : core.content = core'.content) (batch : WriteBatch) :
    (core.applyBatch batch).content = (core'.applyBatch batch).content := by
  simp only [content, Prod.mk.injEq] at same
  obtain ⟨opts, active, immutable, sstables⟩ := same
  have applied := Memtable.apply_content (Prod.ext active.1 active.2) (core.seq + 1) (core'.seq + 1) batch
  simp only [content, applyBatch, opts, applied, immutable, sstables]

theorem serve_failed {r : Request} {e : Error} (failed : (core.serve r).2.1 = .error e) :
    (core.serve r).1.content = core.content ∧ (core.serve r).2.2 = false := by
  unfold serve at failed ⊢
  split at failed
  · exact ⟨rfl, rfl⟩
  · cases failed
  · split_ifs at failed ⊢
    exact ⟨rfl, rfl⟩

def Alike (ran ran' : Core × List (Except Error Nat) × Bool) : Prop :=
  ran.1.content = ran'.1.content ∧ ran.2.1.map verdict = ran'.2.1.map verdict ∧ ran.2.2 = ran'.2.2

theorem serve_alike (same : core.content = core'.content) (r : Request) :
    (core.serve r).1.content = (core'.serve r).1.content ∧ verdict (core.serve r).2.1 = verdict (core'.serve r).2.1 ∧
      (core.serve r).2.2 = (core'.serve r).2.2 := by
  unfold serve
  rw [← content_reads same]
  split
  · exact ⟨same, rfl, rfl⟩
  · exact ⟨same, rfl, rfl⟩
  · rename_i batch planned
    split
    · exact ⟨applyBatch_content same batch, rfl, rfl⟩
    · exact ⟨same, rfl, rfl⟩

theorem serveAll_alike (same : core.content = core'.content) (requests : List Request) :
    Alike (core.serveAll requests) (core'.serveAll requests) := by
  induction requests generalizing core core' with
  | nil => exact ⟨same, rfl, rfl⟩
  | cons r rest ih =>
    obtain ⟨content, answer, appended⟩ := serve_alike same r
    obtain ⟨last, answers, appended'⟩ := ih content
    exact ⟨last, congrArg₂ cons answer answers, congrArg₂ or appended appended'⟩

theorem serveAll_spared (same : core.content = core'.content) {requests kept : List Request}
    {left : List (Except Error Nat)} (spared : Spared requests (core.serveAll requests).2.1 kept left) :
    (core.serveAll requests).1.content = (core'.serveAll kept).1.content ∧
      left.map verdict = (core'.serveAll kept).2.1.map verdict ∧
      (core.serveAll requests).2.2 = (core'.serveAll kept).2.2 := by
  induction requests generalizing core core' kept left with
  | nil =>
    cases spared
    exact ⟨same, rfl, rfl⟩
  | cons r rest ih =>
    generalize answered : (core.serveAll (r :: rest)).2.1 = answers at spared
    cases spared with
    | keep _ answer later =>
      obtain ⟨rfl, rfl⟩ := cons.inj answered
      obtain ⟨content, verdict, appended⟩ := serve_alike same r
      obtain ⟨last, answers, appended'⟩ := ih content later
      exact ⟨last, congrArg₂ cons verdict answers, congrArg₂ or appended appended'⟩
    | drop _ e later =>
      obtain ⟨failed, rfl⟩ := cons.inj answered
      obtain ⟨content, silent⟩ := serve_failed failed
      obtain ⟨last, answers, appended⟩ := ih (content.trans same) later
      refine ⟨last, answers, ?_⟩
      change ((core.serve r).2.2 || _) = _
      rw [silent, Bool.false_or]
      exact appended

theorem dequeue (queue : List Memtable) (frozen : Memtable) : (queue ++ [frozen]).eraseIdx queue.length = queue := by
  rw [eraseIdx_append_of_length_le (Nat.le_refl _), Nat.sub_self, eraseIdx_cons_zero, append_nil]

theorem rotateIfFull_content (same : core.content = core'.content) (flush : FlushOutcome) :
    (core.rotateIfFull flush).content = (core'.rotateIfFull flush).content := by
  simp only [content, Prod.mk.injEq] at same
  obtain ⟨opts, ⟨cfs, size⟩, immutable, sstables⟩ := same
  unfold rotateIfFull
  rw [opts, size]
  split
  · cases flush <;> by_cases empty : core'.active.size = 0 <;>
      simp [flushFrozen, freeze, install, forget, content, opts, cfs, size, immutable, sstables, empty, dequeue]
  · simp only [content, opts, cfs, size, immutable, sstables]

theorem invalidate_verdict (msg : String) {answers answers' : List (Except Error Nat)}
    (same : answers.map verdict = answers'.map verdict) :
    (answers.map (invalidate msg)).map verdict = (answers'.map (invalidate msg)).map verdict := by
  have through (answer : Except Error Nat) : verdict (invalidate msg answer) = match verdict answer with
      | .ok _ => .error (.corruption ("group fsync failed: " ++ msg))
      | .error e => .error e := by
    cases answer <;> rfl
  have whole (list : List (Except Error Nat)) : (list.map (invalidate msg)).map verdict = (list.map verdict).map
      fun | .ok _ => .error (.corruption ("group fsync failed: " ++ msg)) | .error e => .error e := by
    simp only [map_map, Function.comp_def, through]
  rw [whole, whole, same]

theorem processGroup_alike (same : core.content = core'.content) (group : Group) :
    (core.processGroup group).1.content = (core'.processGroup group).1.content ∧
      (core.processGroup group).2.map verdict = (core'.processGroup group).2.map verdict := by
  obtain ⟨served, agree, appended⟩ := serveAll_alike same group.requests
  have opts : (core.serveAll group.requests).1.opts = (core'.serveAll group.requests).1.opts := congrArg Prod.fst served
  have rotated := rotateIfFull_content served group.flush
  simp only [processGroup, finish, opts, appended]
  split
  · split
    · exact ⟨served, invalidate_verdict _ agree⟩
    · exact ⟨rotated, agree⟩
  · exact ⟨rotated, agree⟩

theorem processGroups_alike (same : core.content = core'.content) (groups : List Group) :
    (core.processGroups groups).1.content = (core'.processGroups groups).1.content ∧
      (core.processGroups groups).2.map (map verdict) = (core'.processGroups groups).2.map (map verdict) := by
  induction groups generalizing core core' with
  | nil => exact ⟨same, rfl⟩
  | cons group rest ih =>
    obtain ⟨content, answers⟩ := processGroup_alike same group
    obtain ⟨last, later⟩ := ih content
    exact ⟨last, congrArg₂ cons answers later⟩

variable {settled : Core} {requests kept : List Request}

theorem lookup_of_reads (same : core.reads = core'.reads) (cf : Cf) (key : Bytes) :
    core.lookup cf key = core'.lookup cf key := by
  have sought : Layers.seek (core.levels.map (· cf)) key = Layers.seek (core'.levels.map (· cf)) key :=
    congrFun (congrFun (congrArg Reads.seekCf same) cf) key
  have spec := Layers.seek_spec (core.levels.map (· cf)) key
  have spec' := Layers.seek_spec (core'.levels.map (· cf)) key
  rw [← sought] at spec'
  change Layers.find? (core.levels.map (· cf)) key = Layers.find? (core'.levels.map (· cf)) key
  cases found : Layers.seek (core.levels.map (· cf)) key with
  | none =>
    rw [found] at spec spec'
    have absent {layers : List (OrdMap Bytes MemValue)} (spec : ∀ k v, Layers.find? layers k = some v → k < key) :
        Layers.find? layers key = none :=
      Option.eq_none_iff_forall_ne_some.mpr fun v bound => lt_irrefl key (spec key v bound)
    rw [absent spec, absent spec']
  | some e =>
    rw [found] at spec spec'
    have here {layers : List (OrdMap Bytes MemValue)} {v : MemValue} (bound : Layers.find? layers key = some v)
        (spec : Layers.find? layers e.1 = some e.2 ∧ key ≤ e.1 ∧ ∀ k v, Layers.find? layers k = some v → key ≤ k → e.1 ≤ k) :
        e.1 = key := le_antisymm (spec.2.2 key v bound le_rfl) spec.2.1
    by_cases same : e.1 = key
    · rw [← same, spec.1, spec'.1]
    · rw [Option.eq_none_iff_forall_ne_some.mpr fun v bound => same (here bound spec),
        Option.eq_none_iff_forall_ne_some.mpr fun v bound => same (here bound spec')]

theorem lookup_of_content (same : core.content = core'.content) (cf : Cf) (key : Bytes) :
    core.lookup cf key = core'.lookup cf key := by rw [lookup, lookup, content_levels same]

theorem serve_logged {r : Request} {batch : WriteBatch} (logged : r.logs core.reads = some batch) :
    core.serve r = (core.applyBatch batch, .ok (core.seq + 1), true) := by
  unfold Request.logs at logged
  unfold serve
  split_ifs at logged with appends
  cases planned : core.reads.plan r.op with
  | error e =>
    rw [planned] at logged
    cases logged
  | ok batch? =>
    rw [planned] at logged
    obtain rfl : batch? = some batch := logged
    simp only [appends, if_true]

theorem serve_unlogged {r : Request} (logged : r.logs core.reads = none) :
    (core.serve r).1.content = core.content ∧ (core.serve r).2.2 = false := by
  unfold Request.logs at logged
  unfold serve
  cases planned : core.reads.plan r.op with
  | error e => exact ⟨rfl, rfl⟩
  | ok batch? =>
    cases batch? with
    | none => exact ⟨rfl, rfl⟩
    | some batch =>
      rw [planned] at logged
      split_ifs at logged ⊢ with appends
      · cases logged
      · exact ⟨rfl, rfl⟩

/-- If the request is logged at `now`, its batch takes the reads to those of `settled`. -/
def Idle (now settled : Core) (r : Request) : Prop :=
  ∀ batch ∈ r.logs now.reads, ∀ cf key, (lastOp batch.ops cf key).or (now.lookup cf key) = settled.lookup cf key

/-- Whichever requests are logged, reads become those of `settled`. Where these are the reads of `core` itself, it says that
every batch repeats what is read. -/
structure Repeats (core settled : Core) (requests : List Request) : Prop where
  first : ∀ r ∈ requests, core.Idle settled r
  again : requests.Pairwise fun r r' => (r.logs core.reads).isSome → settled.Idle settled r'

theorem Idle.congr {r : Request} (idle : core.Idle settled r) (same : ∀ cf key, core.lookup cf key = core'.lookup cf key) :
    core'.Idle settled r := by
  intro batch logged cf key
  rw [← same]
  exact idle batch (reads_congr same ▸ logged) cf key

theorem serveAll_settled (idle : ∀ r ∈ requests, settled.Idle settled r)
    (same : ∀ cf key, core.lookup cf key = settled.lookup cf key) (cf : Cf) (key : Bytes) :
    (core.serveAll requests).1.lookup cf key = settled.lookup cf key := by
  induction requests generalizing core with
  | nil => exact same cf key
  | cons r rest ih =>
    rw [forall_mem_cons] at idle
    refine ih idle.2 fun cf key => ?_
    change (core.serve r).1.lookup cf key = _
    cases logged : r.logs core.reads with
    | none => exact (lookup_of_content (serve_unlogged logged).1 cf key).trans (same cf key)
    | some batch =>
      rw [serve_logged logged, lookup_applyBatch]
      exact (idle.1.congr fun cf key => (same cf key).symm) batch logged cf key

theorem serveAll_unlogged {r : Request} (logged : r.logs core.reads = none) :
    (core.serveAll (r :: requests)).2.2 = ((core.serve r).1.serveAll requests).2.2 := by
  rw [show (core.serveAll (r :: requests)).2.2 = ((core.serve r).2.2 || ((core.serve r).1.serveAll requests).2.2) from rfl,
    (serve_unlogged logged).2, Bool.false_or]

theorem serveAll_logged {r : Request} (logged : (r.logs core.reads).isSome) :
    (core.serveAll (r :: requests)).2.2 = true := by
  obtain ⟨batch, logged⟩ := Option.isSome_iff_exists.mp logged
  change ((core.serve r).2.2 || _) = _
  rw [serve_logged logged, Bool.true_or]

theorem Repeats.serveAll (repeats : core.Repeats settled requests) :
    ((core.serveAll requests).2.2 = true → ∀ cf key, (core.serveAll requests).1.lookup cf key = settled.lookup cf key) ∧
      ((core.serveAll requests).2.2 = false → (core.serveAll requests).1.content = core.content) := by
  induction requests generalizing core with
  | nil => exact ⟨nofun, fun _ => rfl⟩
  | cons r rest ih =>
    obtain ⟨first, again⟩ := repeats
    rw [forall_mem_cons] at first
    rw [pairwise_cons] at again
    cases logged : r.logs core.reads with
    | none =>
      have content := (serve_unlogged logged).1
      have same := lookup_of_content content.symm
      have later : (core.serve r).1.Repeats settled rest := by
        refine ⟨fun r' member => (first.2 r' member).congr same, again.2.imp fun {r₁ r₂} idle => ?_⟩
        rw [← reads_congr same]
        exact idle
      rw [serveAll_unlogged logged]
      exact ⟨(ih later).1, fun quiet => ((ih later).2 quiet).trans content⟩
    | some batch =>
      have some : (r.logs core.reads).isSome := by rw [logged]; rfl
      have settles (cf : Cf) (key : Bytes) : (core.serve r).1.lookup cf key = settled.lookup cf key := by
        rw [serve_logged logged, lookup_applyBatch]
        exact first.1 batch logged cf key
      have after := serveAll_settled (fun r' member => again.1 r' member some) settles
      refine ⟨fun _ => after, fun quiet => ?_⟩
      cases (serveAll_logged some).symm.trans quiet

theorem serveAll_appended {r : Request} (member : r ∈ requests) (logged : (r.logs core.reads).isSome) :
    (core.serveAll requests).2.2 = true := by
  induction requests generalizing core with
  | nil => cases member
  | cons r' rest ih =>
    cases logs : r'.logs core.reads with
    | some batch => exact serveAll_logged (by rw [logs]; rfl)
    | none =>
      rw [serveAll_unlogged logs]
      rcases mem_cons.mp member with rfl | later
      · rw [logs] at logged
        cases logged
      · exact ih later (content_reads (serve_unlogged logs).1 ▸ logged)

theorem serveAll_length (requests : List Request) : (core.serveAll requests).2.1.length = requests.length := by
  induction requests generalizing core with
  | nil => rfl
  | cons r rest ih => exact congrArg (· + 1) ih

theorem Repeats.sublist (repeats : core.Repeats settled requests) (sublist : kept.Sublist requests) :
    core.Repeats settled kept :=
  ⟨fun r member => repeats.first r (sublist.subset member), repeats.again.sublist sublist⟩

variable {group : Group}

theorem serveAll_opts (requests : List Request) : (core.serveAll requests).1.opts = core.opts := by
  induction requests generalizing core with
  | nil => rfl
  | cons r rest ih =>
    have later : ((core.serve r).1.serveAll rest).1.opts = (core.serve r).1.opts := ih
    refine later.trans ?_
    unfold serve
    split
    · rfl
    · rfl
    · split <;> rfl

theorem processGroup_synced (synced : group.syncError = none ∨ core.opts.fsyncMode = .none ∨
    (core.serveAll group.requests).2.2 = false) : core.processGroup group =
      ((core.serveAll group.requests).1.rotateIfFull group.flush, (core.serveAll group.requests).2.1) := by
  simp only [processGroup, finish, serveAll_opts]
  cases error : group.syncError with
  | none => rfl
  | some msg =>
    rw [error] at synced
    refine if_neg fun failing => ?_
    rcases synced with none | none | silent
    · cases none
    · exact failing.2 none
    · cases silent.symm.trans failing.1

theorem processGroup_unsynced {msg : String} (error : group.syncError = some msg) (mode : core.opts.fsyncMode ≠ .none)
    (appended : (core.serveAll group.requests).2.2 = true) : core.processGroup group =
      ((core.serveAll group.requests).1, (core.serveAll group.requests).2.1.map (invalidate msg)) := by
  simp only [processGroup, finish, serveAll_opts, error]
  exact if_pos ⟨appended, mode⟩

theorem unseen_of_spared {left : List (Except Error Nat)} (later : List Group)
    (synced : group.syncError = none ∨ core.opts.fsyncMode = .none ∨ (core.serveAll group.requests).2.2 = false)
    (spared : Spared group.requests (core.processGroup group).2 kept left) :
    (core.processGroups (group :: later)).1.reads = (core.processGroups ({ group with requests := kept } :: later)).1.reads ∧
      (core.processGroups (group :: later)).2.tail.map (map verdict) =
        (core.processGroups ({ group with requests := kept } :: later)).2.tail.map (map verdict) ∧
      left.map verdict = (core.processGroup { group with requests := kept }).2.map verdict := by
  have whole := processGroup_synced synced
  rw [whole] at spared
  obtain ⟨content, answers, appended⟩ := serveAll_spared rfl spared
  rw [appended] at synced
  have rest : core.processGroup { group with requests := kept } = _ := processGroup_synced synced
  obtain ⟨last, later⟩ := processGroups_alike (rotateIfFull_content content group.flush) later
  simp only [processGroups, whole, rest, tail_cons]
  exact ⟨content_reads last, later, answers⟩

/-- Any of the failed requests may be left out when all are redundant. -/
theorem Repeats.unseen {msg : String} (error : group.syncError = some msg) (mode : core.opts.fsyncMode ≠ .none)
    (repeats : core.Repeats (core.rotateIfFull group.flush) group.requests)
    (appended : (core.serveAll group.requests).2.2 = true) {left : List (Except Error Nat)}
    (spared : Spared group.requests (core.processGroup group).2 kept left) :
    (core.processGroup group).1.reads = (core.processGroup { group with requests := kept }).1.reads := by
  have settled : (core.processGroup group).1.reads = (core.rotateIfFull group.flush).reads := by
    rw [processGroup_unsynced error mode appended]
    exact reads_congr (repeats.serveAll.1 appended)
  have rest := (repeats.sublist spared.sublist).serveAll
  rw [settled]
  cases logged : (core.serveAll kept).2.2 with
  | true =>
    have ran : core.processGroup { group with requests := kept } = _ := processGroup_unsynced error mode logged
    rw [ran]
    exact (reads_congr (rest.1 logged)).symm
  | false =>
    have ran : core.processGroup { group with requests := kept } = _ := processGroup_synced (.inr (.inr logged))
    rw [ran]
    exact (content_reads (rotateIfFull_content (rest.2 logged) group.flush)).symm

/-- What must be redundant is told by leaving out all requests, all but one and all but two. -/
theorem repeats_of_unseen {msg : String} (error : group.syncError = some msg) (mode : core.opts.fsyncMode ≠ .none)
    (unseen : ∀ kept left, Spared group.requests (core.processGroup group).2 kept left →
      (core.processGroup group).1.reads = (core.processGroup { group with requests := kept }).1.reads) :
    core.Repeats (core.rotateIfFull group.flush) group.requests := by
  have known (kept : List Request) (sublist : kept.Sublist group.requests)
      (appended : (core.serveAll group.requests).2.2 = true) :
      (core.processGroup group).1.reads = (core.processGroup { group with requests := kept }).1.reads := by
    have answers := congrArg Prod.snd (processGroup_unsynced error mode appended)
    obtain ⟨left, spared⟩ := spared_of_sublist sublist
      (show (core.processGroup group).2.length = _ by rw [answers, length_map, serveAll_length]) fun answer member => by
        rw [answers] at member
        obtain ⟨given, -, rfl⟩ := mem_map.mp member
        cases given <;> exact ⟨_, rfl⟩
    exact unseen kept left spared
  have settles (kept : List Request) (sublist : kept.Sublist group.requests)
      (logged : (core.serveAll kept).2.2 = true) (cf : Cf) (key : Bytes)
      (appended : (core.serveAll group.requests).2.2 = true) :
      (core.serveAll kept).1.lookup cf key = (core.rotateIfFull group.flush).lookup cf key := by
    have none : core.processGroup { group with requests := [] } = _ := processGroup_synced (.inr (.inr rfl))
    have ran : core.processGroup { group with requests := kept } = _ := processGroup_unsynced error mode logged
    have same := (known kept sublist appended).symm.trans (known [] (nil_sublist _) appended)
    rw [none, ran] at same
    exact lookup_of_reads same cf key
  have one {r : Request} (member : r ∈ group.requests) : core.Idle (core.rotateIfFull group.flush) r := by
    intro batch logged cf key
    have some : (r.logs core.reads).isSome := by rw [logged]; rfl
    have after := settles [r] (singleton_sublist.mpr member) (serveAll_logged some) cf key (serveAll_appended member some)
    rw [← lookup_applyBatch, ← after]
    change _ = (core.serve r).1.lookup cf key
    rw [serve_logged logged]
  refine ⟨fun r member => one member, pairwise_iff_forall_sublist.mpr fun {r r'} pair some batch logged cf key => ?_⟩
  have member : r ∈ group.requests := pair.subset (mem_cons_self ..)
  have appended := serveAll_appended member some
  have after (cf : Cf) (key : Bytes) : (core.serve r).1.lookup cf key = (core.rotateIfFull group.flush).lookup cf key :=
    settles [r] (singleton_sublist.mpr member) (serveAll_logged some) cf key appended
  have both := settles [r, r'] pair (serveAll_logged some) cf key appended
  change ((core.serve r).1.serve r').1.lookup cf key = _ at both
  rw [serve_logged (reads_congr after ▸ logged), lookup_applyBatch, after] at both
  exact both

end Core

def failedSync : Group where
  requests := [⟨.write ⟨[.put .default [1] [7]]⟩, true⟩]
  syncError := some "i/o error: Input/output error (os error 5)"

end Arcux.Engine
