import Arcux.RaftWal.Refinement

namespace Arcux.RaftWal

open Codec Concurrency Engine List Raft

/-- A crash keeps the durable bytes of the log file and some of the others; the temporary file may hold anything. -/
def Dir.crash (cut : Nat) (tmp : Segment) (dir : Dir) : Dir :=
  { dir with
    log := dir.log.map fun s =>
      let bytes := s.bytes.take (max s.synced cut)
      ⟨bytes, bytes.length⟩
    logTmp := tmp }

section

variable [Wal.Crc]

def Dir.Recovers (p : MemStorage → Prop) (dir : Dir) : Prop := ∀ cut tmp, ∃ m, p m ∧ Yields openStorage (dir.crash cut tmp) m

variable {dir dir' : Dir} {m : MemStorage} {p : MemStorage → Prop}

theorem Dir.Recovers.congr (recovers : dir.Recovers p) (hardState : dir'.hardState = dir.hardState)
    (snapshot : dir'.snapshot = dir.snapshot) (log : dir'.log = dir.log) : dir'.Recovers p := by
  intro cut tmp
  have same : dir'.crash cut tmp = dir.crash cut tmp := by simp only [Dir.crash, hardState, snapshot, log]
  rw [same]
  exact recovers cut tmp

theorem Dir.Holds.recovers (holds : dir.Holds m) (allowed : p m) : dir.Recovers p := by
  intro cut tmp
  obtain ⟨filed, log, fits, above⟩ := holds.files
  have kept : (dir.crash cut tmp).log = some (durable filed) := by
    simp only [Dir.crash, log, Option.map_some, durable, take_of_length_le (Nat.le_max_left _ cut)]
  refine ⟨m, allowed, Dir.Holds.openStorage ?_⟩
  exact { holds with files := ⟨filed, kept, fits, above⟩ }

abbrev Survives {α : Type} (p : MemStorage → Prop) (script : Script α) (dir : Dir) (post : α → Dir → Prop) : Prop :=
  script.Endures Call.exec (fun _ _ => True) (Dir.Recovers p) post dir

theorem appendTmpAll_survives (entries : List Entry) (recovers : dir.Recovers p) :
    Survives p (WalStorage.appendTmpAll entries) dir fun _ dir' => dir'.Recovers p ∧
      dir' = { dir with logTmp.bytes := dir.logTmp.bytes ++ Wal.frames (entries.map recordOf) } := by
  induction entries generalizing dir with
  | nil => exact ⟨recovers, by simp [Wal.frames]⟩
  | cons e rest ih =>
    have kept : Dir.Recovers p { dir with logTmp.bytes := dir.logTmp.bytes ++ (recordOf e).frame } :=
      recovers.congr rfl rfl rfl
    refine fun _ => ⟨kept, (ih kept).mono fun _ dir' done => ⟨done.1, ?_⟩⟩
    rw [done.2]
    simp only [Wal.frames, map_cons, flatMap_cons, append_assoc]

theorem rewriteLog_survives (prepared : dir.Prepared m) (recovers : dir.Recovers p) (allowed : p m) :
    Survives p (mirror m).rewriteLog dir fun _ _ => True := by
  have created : Dir.Recovers p { dir with logTmp := {} } := recovers.congr rfl rfl rfl
  refine fun _ => ⟨created, (appendTmpAll_survives _ created).bind fun _ dir' done => ?_⟩
  obtain ⟨written, rfl⟩ := done
  have holds : Dir.Holds { dir with log := some (durable m.log), logTmp := {} } m :=
    Dir.Prepared.holds { prepared with } rfl
  have renamed := holds.recovers allowed
  exact fun _ => ⟨written.congr rfl rfl rfl, fun _ => ⟨renamed, fun _ => ⟨renamed, trivial⟩⟩⟩

def Request.Leaves (request : Request) (m m' : MemStorage) : Prop :=
  m' = m ∨ m' = request.apply m ∨ ∃ entries n, request = .append entries ∧ m' = m.append (entries.take n)

theorem saveHardState_survives (holds : dir.Holds m) {hs : HardState} (small : hs.currentTerm < 2 ^ 64) :
    Survives (Request.Leaves (.saveHardState hs) m) ((mirror m).saveHardState hs) dir fun _ _ => True := by
  obtain ⟨dir', done, holds'⟩ := holds.saveHardState small
  cases done
  exact fun _ => ⟨holds'.recovers (.inr (.inl rfl)), trivial⟩

theorem truncateSuffix_survives (holds : dir.Holds m) (cut : Nat) :
    Survives (Request.Leaves (.truncateSuffix cut) m) ((mirror m).truncateSuffix cut) dir fun _ _ => True := by
  rw [mirror_truncateSuffix]
  split
  case isTrue => trivial
  case isFalse =>
    have after := (truncateSuffix_eq m cut).symm
    exact (rewriteLog_survives (holds.truncated cut) (holds.recovers (.inl rfl)) (.inr (.inl after))).bind
      fun _ _ _ => trivial

variable {log : List Entry} {snap : Snapshot}

theorem installSnapshot_survives (holds : dir.Holds m) (fits : SnapshotFits snap)
    (kept : ∀ e ∈ log, e ∈ m.log) (contiguous : MemStorage.Contiguous { m with log, snap := some snap })
    (remains : ∀ filed, dir.Files m filed → filed.filter (snap.lastIncludedIndex < ·.index) = log)
    (allowed : p { m with log, snap := some snap }) :
    Survives p (WalStorage.installSnapshot { mirror m with log } snap) dir fun _ _ => True := by
  have prepared := holds.superseded fits kept contiguous
  obtain ⟨filed, files⟩ := holds.files
  have written : Dir.Holds { dir with snapshot := some (encodeSnapshot snap) } { m with log, snap := some snap } :=
    { prepared with files := ⟨filed, files.log, files.fits, remains filed files⟩ }
  exact fun _ => ⟨written.recovers allowed,
    (rewriteLog_survives prepared (written.recovers allowed) allowed).bind fun _ _ _ => trivial⟩

variable {first : Nat}

omit [Wal.Crc] in
theorem filter_above (numbered : ∀ i e, log[i]? = some e → e.index = first + i)
    (index : Nat) : log.filter (index < ·.index) = log.drop (index + 1 - first) := by
  induction log generalizing first with
  | nil => rw [filter_nil, drop_nil]
  | cons e rest ih =>
    have here : e.index = first := numbered 0 e rfl
    have later : rest.filter (index < ·.index) = rest.drop (index - first) := by
      have shifted := ih fun i e' found => (numbered (i + 1) e' found).trans (Nat.add_right_comm first i 1)
      rwa [Nat.add_sub_add_right] at shifted
    rw [filter_cons, here, later]
    split
    case isTrue above =>
      have above := of_decide_eq_true above
      rw [Nat.sub_eq_zero_of_le above.le, Nat.sub_eq_zero_of_le above]
      rfl
    case isFalse below =>
      have next : index + 1 - first = index - first + 1 := by
        have := of_decide_eq_false (Bool.eq_false_iff.mpr below)
        omega
      rw [next, drop_succ_cons]

theorem Dir.Files.filter_above {filed : List Entry} (files : dir.Files m filed) (contiguous : m.Contiguous)
    {index : Nat} (later : m.base ≤ index) : filed.filter (index < ·.index) = m.log.drop (index - m.base) := by
  have nested : filed.filter (index < ·.index) = (filed.filter (m.base < ·.index)).filter (index < ·.index) := by
    rw [filter_filter]
    refine filter_congr fun e _ => ?_
    by_cases above : index < e.index
    · simp [above, later.trans_lt above]
    · simp [above]
  have numbered (i : Nat) (e : Entry) (found : m.log[i]? = some e) : e.index = m.base + 1 + i := by
    have position : m.base + 1 + i - m.base - 1 = i := by omega
    exact contiguous (m.base + 1 + i) e ⟨by omega, position.symm ▸ found⟩
  rw [nested, files.above, RaftWal.filter_above numbered, Nat.add_sub_add_right]

theorem compact_survives (holds : dir.Holds m) {index term : Nat} {confState learners : List NodeId} {data : Bytes}
    (fits : SnapshotFits ⟨index, term, confState, learners, data⟩) :
    Survives (Request.Leaves (.compact index term confState learners data) m)
      ((mirror m).compact index term confState learners data) dir fun _ _ => True := by
  have contiguous : (m.compact index term confState learners data).Contiguous :=
    holds.contiguous.of_at fun _ _ => MemStorage.at_compact
  have allowed : Request.Leaves (.compact index term confState learners data) m
    (m.compact index term confState learners data) := .inr (.inl rfl)
  rw [MemStorage.compact] at contiguous allowed
  rw [WalStorage.compact]
  by_cases done : index ≤ m.base
  · rw [if_pos (show index ≤ (mirror m).base from done)]
    trivial
  · rw [if_neg done] at contiguous allowed
    rw [if_neg (show ¬ index ≤ (mirror m).base from done)]
    refine installSnapshot_survives holds fits (fun _ => mem_of_mem_drop) contiguous (fun filed files => ?_) allowed
    rw [files.filter_above holds.contiguous (Nat.le_of_not_le done)]
    exact drop_eq_drop_iff.mpr (Nat.min_eq_left (Nat.min_le_right ..)).symm

theorem applySnapshot_survives (holds : dir.Holds m) (fits : SnapshotFits snap)
    (covering : m.lastIndex ≤ snap.lastIncludedIndex) :
    Survives (Request.Leaves (.applySnapshot snap) m) ((mirror m).applySnapshot snap) dir fun _ _ => True := by
  refine installSnapshot_survives holds fits nofun (fun _ _ held => absurd held MemStorage.at_applySnapshot)
    (fun filed files => ?_) (.inr (.inl rfl))
  have last := holds.contiguous.lastIndex
  rw [files.filter_above holds.contiguous (by omega)]
  exact drop_eq_nil_of_le (by omega)

variable {entries : List Entry}

omit [Wal.Crc] in
theorem numbered_take (next : entries.map Entry.index = range' first entries.length) (n : Nat) :
    (entries.take n).map Entry.index = range' first (entries.take n).length := by
  rw [map_take, next, length_take, range'_eq_map_range, ← map_take, take_range,
    ← range'_eq_map_range]

def Dir.appending (dir : Dir) (filed part : List Entry) : Dir :=
  { dir with log := some ⟨Wal.frames ((filed ++ part).map recordOf), (durable filed).synced⟩ }

theorem appending_recovers (holds : dir.Holds m) {filed part : List Entry} (files : dir.Files m filed)
    (next : part.map Entry.index = range' (m.lastIndex + 1) part.length) (fits : ∀ e ∈ part, EntryFits e)
    (allowed : ∀ n, p (m.append (part.take n))) : (dir.appending filed part).Recovers p := by
  intro cut tmp
  have records : ∀ r ∈ part.map recordOf, r.Fits := by
    intro r member
    obtain ⟨e, logged, rfl⟩ := mem_map.mp member
    exact (fits e logged).record
  obtain ⟨kept, torn, -, same, stops⟩ := Wal.take_frames_append records (Nat.le_max_left (durable filed).synced cut)
  have fits' : ∀ e ∈ part.take kept, EntryFits e := fun e member => fits e (mem_of_mem_take member)
  have bytes : (Wal.frames ((filed ++ part).map recordOf)).take (max (durable filed).synced cut) =
      Wal.frames ((filed ++ part.take kept).map recordOf) ++ torn := by
    rw [map_append, same, map_append, map_take]
  have snap : dir.snapshot.bind decodeSnapshot = m.snap := by rw [holds.snapshot, decode_snapshot holds.snapFits]
  have prepared := holds.toPrepared.append (numbered_take next kept) fits'
  have files' := files.append prepared
  have log : (filed ++ part.take kept).filter (m.base < ·.index) = m.log ++ part.take kept := files'.above
  have opened : openStorage.eval Call.exec ((dir.appending filed part).crash cut tmp) = _ :=
    openStorage_eval snap rfl bytes stops files'.fits
  refine ⟨m.append (part.take kept), allowed kept,
    { dir with log := some (durable (filed ++ part.take kept)), logTmp := tmp }, opened.trans ?_,
    { prepared with files := ⟨_, rfl, files'.fits, files'.above⟩ }⟩
  rw [← MemStorage.base, log]
  change (_, some (WalStorage.mk (loadHardState dir.hardState) _ _)) = _
  rw [holds.hardState]
  rfl

theorem appendAll_survives {filed todo done : List Entry} (s : WalStorage)
    (recovers : ∀ part, part <+: done ++ todo → (dir.appending filed part).Recovers p) :
    Survives p (s.appendAll todo) (dir.appending filed done) fun _ dir' => dir' = dir.appending filed (done ++ todo) := by
  induction todo generalizing done s with
  | nil => exact congrArg (dir.appending filed) (append_nil done).symm
  | cons e rest ih =>
    have frame : (recordOf e).frame = Wal.frames [recordOf e] := (append_nil _).symm
    have written : ((Call.append (recordOf e)).exec (dir.appending filed done)).1 = dir.appending filed (done ++ [e]) := by
      simp only [Call.exec, Dir.appending, Option.map_some, map_append, Wal.frames_append, append_assoc, frame,
        map_cons, map_nil]
    rw [append_cons] at recovers ⊢
    exact fun _ => ⟨written ▸ recovers _ (prefix_append ..), written ▸ ih _ recovers⟩

theorem append_survives (holds : dir.Holds m)
    (next : entries.map Entry.index = range' (m.lastIndex + 1) entries.length)
    (fits : ∀ e ∈ entries, EntryFits e) :
    Survives (Request.Leaves (.append entries) m) ((mirror m).append entries) dir fun _ _ => True := by
  obtain ⟨filed, files⟩ := holds.files
  have written (part : List Entry) (first : part <+: [] ++ entries) :
      (dir.appending filed part).Recovers (Request.Leaves (.append entries) m) := by
    obtain ⟨k, rfl⟩ : ∃ k, part = entries.take k := ⟨_, prefix_iff_eq_take.mp first⟩
    have fits' : ∀ e ∈ entries.take k, EntryFits e := fun e member => fits e (mem_of_mem_take member)
    refine appending_recovers holds files (numbered_take next k) fits' fun n => .inr (.inr ⟨entries, min n k, rfl, ?_⟩)
    rw [take_take]
  have start : dir.appending filed [] = dir := by
    rw [Dir.appending, append_nil]
    change { dir with log := some (durable filed) } = dir
    rw [← files.log]
  have appended := appendAll_survives (mirror m) written
  rw [start] at appended
  refine appended.bind fun _ dir' done => ?_
  have prepared := holds.toPrepared.append next fits
  have holds' : Dir.Holds { dir with log := some (durable (filed ++ entries)) } (m.append entries) :=
    { prepared with files := ⟨_, files.append prepared⟩ }
  cases done
  exact fun _ => ⟨holds'.recovers (.inr (.inl rfl)), trivial⟩

theorem openLog_survives (base : Nat) (holds : dir.Holds m) (recovers : dir.Recovers p) :
    Survives p (openLog base) dir fun _ dir' => dir' = dir := by
  obtain ⟨filed, log, fits, -⟩ := holds.files
  have whole : (replay base (Wal.records (durable filed).bytes)).2 = (durable filed).synced := by
    have records := records_filed fits Wal.nextRecord_nil
    rw [append_nil] at records
    rw [durable, records, replay_records base fits]
  have cut : ((Call.setLen (replay base (Wal.records (durable filed).bytes)).2).exec dir).1 = dir := by
    have all : (durable filed).bytes.take (durable filed).synced = (durable filed).bytes := take_length
    simp only [Call.exec, whole, log, Option.map_some, Nat.min_self, all]
    exact log ▸ rfl
  have synced : (Call.sync.exec dir).1 = dir := by
    simp only [Call.exec, log, Option.map_some]
    exact log ▸ rfl
  refine fun _ => ⟨recovers, ?_⟩
  simp only [Call.exec, log, Option.map_some]
  refine fun _ => ⟨?_, fun _ => ?_⟩
  · rw [cut]
    exact recovers
  · rw [cut, synced]
    exact ⟨recovers, rfl⟩

theorem openStorage_survives (holds : dir.Holds m) (recovers : dir.Recovers p) :
    Survives p openStorage dir fun _ _ => True := by
  obtain ⟨filed, log, -⟩ := holds.files
  refine fun _ => ⟨recovers, (openLog_survives _ holds recovers).bind fun _ dir' done => ?_⟩
  subst done
  have opened : (Call.openAppend.exec dir').1 = dir' := by
    simp only [Call.exec, log, Option.getD_some]
    rw [← log]
  exact fun _ => ⟨recovers, fun _ => ⟨opened.symm ▸ recovers, trivial⟩⟩

def Request.Covering (s : WalStorage) : Request → Prop
  | applySnapshot snap => s.lastIndex ≤ snap.lastIncludedIndex
  | _ => True

variable {request : Request}

theorem Dir.Holds.run_survives (holds : dir.Holds m) (fits : request.Fits m)
    (covering : request.Covering (mirror m)) :
    Survives (request.Leaves m) (request.run (mirror m)) dir fun _ _ => True := by
  cases request with
  | saveHardState hs => exact saveHardState_survives holds fits
  | append entries => exact append_survives holds fits.1 fits.2
  | truncateSuffix cut => exact truncateSuffix_survives holds cut
  | compact index term confState learners data => exact compact_survives holds fits
  | applySnapshot snap => exact applySnapshot_survives holds fits covering
  | reopen => exact openStorage_survives holds (holds.recovers (.inl rfl))

def WalStorage.mem (s : WalStorage) : MemStorage := ⟨s.hard, s.log, s.snap⟩

def Request.crash (request : Request) (s : WalStorage) (dir : Dir) (steps cut : Nat) (tmp : Segment) : Dir :=
  ((request.run s).evalFor Call.exec steps dir).1.crash cut tmp

inductive Reached : Dir → WalStorage → Prop
  | opened {dir s} (done : openStorage.eval Call.exec {} = (dir, some s)) : Reached dir s
  | called {dir s dir' s'} {request : Request} (reached : Reached dir s) (fits : request.Fits s.mem)
      (done : (request.run s).eval Call.exec dir = (dir', some s')) : Reached dir' s'
  | crashed {dir s dir' s'} {request : Request} (steps cut : Nat) (tmp : Segment) (reached : Reached dir s)
      (fits : request.Fits s.mem) (covering : request.Covering s)
      (done : openStorage.eval Call.exec (request.crash s dir steps cut tmp) = (dir', some s')) : Reached dir' s'

theorem Dir.Holds.crash_yields (holds : dir.Holds m) (fits : request.Fits m)
    (covering : request.Covering (mirror m)) (steps cut : Nat) (tmp : Segment) :
    ∃ m', request.Leaves m m' ∧ Yields RaftWal.openStorage (request.crash (mirror m) dir steps cut tmp) m' :=
  (holds.run_survives fits covering).evalFor (holds.recovers (.inl rfl)) (Prog.guardedFor_free ..) cut tmp

variable {s : WalStorage}

theorem Yields.holds {script : Script WalStorage} (yields : Yields script dir m)
    (done : script.eval Call.exec dir = (dir', some s)) : s = mirror m ∧ dir'.Holds m := by
  obtain ⟨dir₁, done₁, holds⟩ := yields
  cases done₁.symm.trans done
  exact ⟨rfl, holds⟩

theorem Reached.holds (reached : Reached dir s) : ∃ m, s = mirror m ∧ dir.Holds m := by
  induction reached with
  | opened done => exact ⟨_, openStorage_fresh.holds done⟩
  | called reached fits done ih =>
    obtain ⟨m, rfl, holds⟩ := ih
    exact ⟨_, (holds.run fits).holds done⟩
  | crashed steps cut tmp reached fits covering done ih =>
    obtain ⟨m, rfl, holds⟩ := ih
    obtain ⟨m', -, yields⟩ := holds.crash_yields fits covering steps cut tmp
    exact ⟨m', yields.holds done⟩

/-- What a crash inside a call leaves opens as the storage before the call or after it; of an append there may also be
the first entries only. -/
theorem storage_calls_atomic {s : WalStorage} (reached : Reached dir s) {request : Request} (fits : request.Fits s.mem)
    (covering : request.Covering s) (steps cut : Nat) (tmp : Segment) :
    ∃ dir' s', openStorage.eval Call.exec (request.crash s dir steps cut tmp) = (dir', some s') ∧
      (s' = s ∨ (∃ after, (request.run s).eval Call.exec dir = (after, some s')) ∨
        ∃ entries n after, request = .append entries ∧
          (s.append (entries.take n)).eval Call.exec dir = (after, some s')) := by
  obtain ⟨m, rfl, holds⟩ := reached.holds
  obtain ⟨m', leaves, dir', opened, -⟩ := holds.crash_yields fits covering steps cut tmp
  refine ⟨dir', mirror m', opened, ?_⟩
  rcases leaves with rfl | rfl | ⟨entries, n, rfl, rfl⟩
  case inl => exact .inl rfl
  case inr.inl =>
    obtain ⟨after, done, -⟩ := holds.run fits
    exact .inr (.inl ⟨after, done⟩)
  case inr.inr =>
    have part : ∀ e ∈ entries.take n, EntryFits e := fun e member => fits.2 e (mem_of_mem_take member)
    obtain ⟨after, done, -⟩ := holds.append (numbered_take fits.1 n) part
    exact .inr (.inr ⟨entries, n, after, rfl, done⟩)

end

open scoped Wal.Castagnoli

def filled : Dir × WalStorage :=
  let s : WalStorage := ⟨{}, [], none⟩
  let entries : List Entry := [.normal 1 1 [5], .normal 1 2 [6], .normal 1 3 [7]]
  (((s.append entries).eval Call.exec { log := some {} }).1, ⟨{}, entries, none⟩)

theorem filled_reached : Reached filled.1 filled.2 := by
  have fresh : Reached { log := some {} } ⟨{}, [], none⟩ := .opened rfl
  have fits : (Request.append filled.2.log).Fits {} := by decide +kernel
  exact .called fresh fits rfl

theorem storage_calls_atomic_compaction : ∃ dir' s',
    openStorage.eval Call.exec ((Request.compact 2 1 [1] [] [9]).crash filled.2 filled.1 1 0 {}) = (dir', some s') ∧
      (s' = filled.2 ∨ (∃ after, (filled.2.compact 2 1 [1] [] [9]).eval Call.exec filled.1 = (after, some s')) ∨
        ∃ entries n after, Request.compact 2 1 [1] [] [9] = .append entries ∧
          (filled.2.append (entries.take n)).eval Call.exec filled.1 = (after, some s')) :=
  have fits : (Request.compact 2 1 [1] [] [9]).Fits filled.2.mem := by decide +kernel
  storage_calls_atomic filled_reached fits trivial 1 0 {}

/-- A snapshot that ends below the log is installed, and the crash comes before the log is cleared: the entries above the
snapshot are there again. -/
theorem installed_snapshot_keeps_log :
    Reached filled.1 filled.2 ∧ (Request.applySnapshot ⟨1, 1, [1], [], []⟩).Fits filled.2.mem ∧
    ∃ s', (openStorage.eval Call.exec
        ((Request.applySnapshot ⟨1, 1, [1], [], []⟩).crash filled.2 filled.1 1 0 {})).2 = some s' ∧
      s' = ⟨{}, [.normal 1 2 [6], .normal 1 3 [7]], some ⟨1, 1, [1], [], []⟩⟩ ∧ s' ≠ filled.2 ∧
      ((filled.2.applySnapshot ⟨1, 1, [1], [], []⟩).eval Call.exec filled.1).2 ≠ some s' := by
  refine ⟨filled_reached, by decide +kernel, _, ?_, rfl, ?_, ?_⟩ <;> decide +kernel

end Arcux.RaftWal
