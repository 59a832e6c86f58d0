import Arcux.RaftWal.WalStorage

namespace Arcux.RaftWal

open Codec Concurrency Engine List Raft

def mirror (m : MemStorage) : WalStorage := ⟨m.hard, m.log, m.snap⟩

structure WalStorage.Agrees (s : WalStorage) (m : MemStorage) : Prop where
  hardState : s.hard = m.hard
  lastIndex : s.lastIndex = m.lastIndex
  firstIndex : s.firstIndex = m.firstIndex
  snapshot : s.snap = m.snap
  term : ∀ index, s.term index = m.term index
  entries : ∀ low high, s.entries low high = m.entries low high

theorem mirror_agrees (m : MemStorage) : (mirror m).Agrees m :=
  ⟨rfl, rfl, rfl, rfl, fun _ => rfl, fun _ _ => rfl⟩

structure Dir.Prepared (dir : Dir) (m : MemStorage) : Prop where
  hardState : loadHardState dir.hardState = m.hard
  snapshot : dir.snapshot = m.snap.map encodeSnapshot
  snapFits : ∀ snap ∈ m.snap, SnapshotFits snap
  logFits : ∀ e ∈ m.log, EntryFits e
  contiguous : m.Contiguous

section

variable [Wal.Crc]

def durable (filed : List Entry) : Segment :=
  ⟨Wal.frames (filed.map recordOf), (Wal.frames (filed.map recordOf)).length⟩

structure Dir.Files (dir : Dir) (m : MemStorage) (filed : List Entry) : Prop where
  log : dir.log = some (durable filed)
  fits : ∀ e ∈ filed, EntryFits e
  above : filed.filter (m.base < ·.index) = m.log

structure Dir.Holds (dir : Dir) (m : MemStorage) : Prop extends dir.Prepared m where
  files : ∃ filed, dir.Files m filed

variable {filed : List Entry}

theorem replay_records (base : Nat) (fits : ∀ e ∈ filed, EntryFits e) :
    replay base (filed.map recordOf) = (filed.filter (base < ·.index), (Wal.frames (filed.map recordOf)).length) := by
  induction filed with
  | nil => rfl
  | cons e rest ih =>
    obtain ⟨fit, fits⟩ := forall_mem_cons.mp fits
    have decoded : decodeEntry (recordOf e).seq (recordOf e).payload = some e := decodeEntry_encode fit.term e.index
    have length : (Wal.frames ((e :: rest).map recordOf)).length =
        (recordOf e).frame.length + (Wal.frames (rest.map recordOf)).length := by
      rw [map_cons, Wal.frames, flatMap_cons, length_append]
      rfl
    rw [map_cons, replay, decoded, ih fits, ← map_cons, length, filter_cons]
    simp only [decide_eq_true_eq]

def Yields (p : Script WalStorage) (dir : Dir) (m : MemStorage) : Prop :=
  ∃ dir', p.eval Call.exec dir = (dir', some (mirror m)) ∧ dir'.Holds m

variable {dir : Dir} {m : MemStorage}

omit [Wal.Crc] in
theorem Dir.Prepared.above (prepared : dir.Prepared m) : ∀ e ∈ m.log, m.base < e.index := by
  intro e member
  obtain ⟨i, found⟩ := getElem?_of_mem member
  have position : m.base + 1 + i - m.base - 1 = i := by omega
  have numbered := prepared.contiguous (m.base + 1 + i) e ⟨by omega, position.symm ▸ found⟩
  omega

theorem Dir.Prepared.holds (prepared : dir.Prepared m) (log : dir.log = some (durable m.log)) : dir.Holds m where
  toPrepared := prepared
  files := ⟨m.log, log, prepared.logFits, filter_eq_self.mpr fun e member =>
    decide_eq_true (prepared.above e member)⟩

omit [Wal.Crc] in
theorem decode_snapshot (fits : ∀ snap ∈ m.snap, SnapshotFits snap) :
    (m.snap.map encodeSnapshot).bind decodeSnapshot = m.snap := by
  cases found : m.snap with
  | none => rfl
  | some snap => rw [Option.map_some, Option.bind_some, decodeSnapshot_encode (fits snap found)]

variable {torn : Bytes}

theorem records_filed (fits : ∀ e ∈ filed, EntryFits e) (stops : Wal.nextRecord torn = none) :
    Wal.records (Wal.frames (filed.map recordOf) ++ torn) = filed.map recordOf := by
  refine Wal.records_frames (fun r member => ?_) stops
  obtain ⟨e, logged, rfl⟩ := mem_map.mp member
  exact (fits e logged).record

variable {segment : Segment}

theorem openLog_eval (base : Nat)
    (found : dir.log = some segment) (bytes : segment.bytes = Wal.frames (filed.map recordOf) ++ torn)
    (stops : Wal.nextRecord torn = none) (fits : ∀ e ∈ filed, EntryFits e) :
    (openLog base).eval Call.exec dir =
      ({ dir with log := some (durable filed) }, some (filed.filter (base < ·.index))) := by
  have records : Wal.records segment.bytes = filed.map recordOf := bytes ▸ records_filed fits stops
  have kept : segment.bytes.take (Wal.frames (filed.map recordOf)).length = Wal.frames (filed.map recordOf) := by
    rw [bytes, take_left]
  simp only [openLog, perform, Prog.bind_perform, Prog.eval, Call.exec, found, Option.map_some, records,
    replay_records base fits, Prog.pure_eq, kept]
  rfl

theorem openStorage_eval {snap : Option Snapshot}
    (snapshot : dir.snapshot.bind decodeSnapshot = snap) (found : dir.log = some segment)
    (bytes : segment.bytes = Wal.frames (filed.map recordOf) ++ torn) (stops : Wal.nextRecord torn = none)
    (fits : ∀ e ∈ filed, EntryFits e) :
    openStorage.eval Call.exec dir = ({ dir with log := some (durable filed) },
      some ⟨loadHardState dir.hardState, filed.filter ((snap.map Snapshot.lastIncludedIndex).getD 0 < ·.index), snap⟩) := by
  rw [openStorage, perform, Prog.bind_perform, Prog.eval]
  simp only [Call.exec, snapshot]
  rw [Prog.eval_bind, openLog_eval _ found bytes stops fits]
  simp only [perform, Prog.bind_perform, Prog.eval, Call.exec, Prog.pure_eq, Option.getD_some]

theorem Dir.Holds.openStorage (holds : dir.Holds m) : Yields openStorage dir m := by
  obtain ⟨filed, log, fits, above⟩ := holds.files
  have snap : dir.snapshot.bind decodeSnapshot = m.snap := by rw [holds.snapshot, decode_snapshot holds.snapFits]
  refine ⟨{ dir with log := some (durable filed) }, ?_, { holds with files := ⟨filed, rfl, fits, above⟩ }⟩
  rw [openStorage_eval snap log (append_nil _).symm Wal.nextRecord_nil fits, holds.hardState, ← MemStorage.base, above]
  rfl

theorem appendTmpAll_eval (entries : List Entry) (dir : Dir) :
    (WalStorage.appendTmpAll entries).eval Call.exec dir =
      ({ dir with logTmp.bytes := dir.logTmp.bytes ++ Wal.frames (entries.map recordOf) }, some ()) := by
  induction entries generalizing dir with
  | nil => simp [WalStorage.appendTmpAll, Prog.eval, Wal.frames]
  | cons e rest ih =>
    rw [WalStorage.appendTmpAll, perform, Prog.bind_perform, Prog.eval, ih]
    simp only [Call.exec, Wal.frames, map_cons, flatMap_cons, append_assoc]

theorem Dir.Prepared.rewriteLog (prepared : dir.Prepared m) :
    ∃ dir', (mirror m).rewriteLog.eval Call.exec dir = (dir', some ()) ∧ dir'.Holds m := by
  refine ⟨{ dir with log := some (durable m.log), logTmp := {} }, ?_, Dir.Prepared.holds { prepared with } rfl⟩
  rw [WalStorage.rewriteLog, perform, Prog.bind_perform, Prog.eval, Prog.eval_bind, appendTmpAll_eval]
  rfl

theorem Dir.Prepared.rewritten (prepared : dir.Prepared m) :
    Yields (do (mirror m).rewriteLog; return mirror m) dir m := by
  obtain ⟨dir', done, holds⟩ := prepared.rewriteLog
  refine ⟨dir', ?_, holds⟩
  rw [Prog.eval_bind, done]
  rfl

theorem Dir.Holds.saveHardState (holds : dir.Holds m) {hs : HardState} (small : hs.currentTerm < 2 ^ 64) :
    Yields ((mirror m).saveHardState hs) dir (m.saveHardState hs) := by
  obtain ⟨filed, log, fits, above⟩ := holds.files
  exact ⟨_, rfl, { holds with
    hardState := decodeHardState_encode small
    contiguous := holds.contiguous.of_body rfl
    files := ⟨filed, log, fits, above⟩ }⟩

theorem appendAll_eval (s : WalStorage) (entries : List Entry) (dir : Dir) :
    (s.appendAll entries).eval Call.exec dir =
      ({ dir with log := dir.log.map fun segment =>
          { segment with bytes := segment.bytes ++ Wal.frames (entries.map recordOf) } },
        some { s with log := s.log ++ entries }) := by
  induction entries generalizing dir s with
  | nil => simp [WalStorage.appendAll, Prog.eval, Wal.frames]
  | cons e rest ih =>
    rw [WalStorage.appendAll, perform, Prog.bind_perform, Prog.eval, ih]
    simp only [Call.exec, Wal.frames, map_cons, flatMap_cons, append_assoc, Option.map_map,
      Function.comp_def, singleton_append]

variable {entries : List Entry}

omit [Wal.Crc] in
theorem Dir.Prepared.append (prepared : dir.Prepared m)
    (next : entries.map Entry.index = range' (m.lastIndex + 1) entries.length)
    (fits : ∀ e ∈ entries, EntryFits e) : dir.Prepared (m.append entries) := by
  have contiguous : (m.append entries).Contiguous := by
    intro i e held
    rcases MemStorage.at_append.mp held with old | ⟨past, new⟩
    · exact prepared.contiguous i e old
    · have inside := (List.getElem?_eq_some_iff.mp new).1
      have numbered := congrArg (·[i - m.base - m.log.length - 1]?) next
      simp only [getElem?_map, new, Option.map_some, getElem?_range' inside, Option.some.injEq] at numbered
      rw [prepared.contiguous.lastIndex] at numbered
      omega
  exact { prepared with
    logFits := forall_mem_append.mpr ⟨prepared.logFits, fits⟩
    contiguous := contiguous }

theorem Dir.Files.append {filed entries : List Entry} (files : dir.Files m filed)
    (prepared : dir.Prepared (m.append entries)) :
    Dir.Files { dir with log := some (durable (filed ++ entries)) } (m.append entries) (filed ++ entries) where
  log := rfl
  fits := by
    refine forall_mem_append.mpr ⟨files.fits, fun e member => ?_⟩
    exact prepared.logFits e (mem_append_right _ member)
  above := by
    have new : entries.filter (m.base < ·.index) = entries :=
      filter_eq_self.mpr fun e member => decide_eq_true (prepared.above e (mem_append_right _ member))
    rw [filter_append]
    exact congrArg₂ (· ++ ·) files.above new

theorem Dir.Holds.append (holds : dir.Holds m)
    (next : entries.map Entry.index = range' (m.lastIndex + 1) entries.length)
    (fits : ∀ e ∈ entries, EntryFits e) : Yields ((mirror m).append entries) dir (m.append entries) := by
  obtain ⟨filed, files⟩ := holds.files
  have log : Wal.frames (filed.map recordOf) ++ Wal.frames (entries.map recordOf) =
      Wal.frames ((filed ++ entries).map recordOf) := by
    rw [map_append, Wal.frames_append]
  have prepared := holds.toPrepared.append next fits
  refine ⟨{ dir with log := some (durable (filed ++ entries)) }, ?_,
    { prepared with files := ⟨_, files.append prepared⟩ }⟩
  rw [WalStorage.append, Prog.eval_bind, appendAll_eval, files.log, Option.map_some, durable, log]
  rfl

def kept (m : MemStorage) (cut : Nat) : Nat := if cut ≤ m.base + 1 then 0 else min (cut - m.base - 1) m.log.length

omit [Wal.Crc] in
theorem truncateSuffix_eq (m : MemStorage) (cut : Nat) :
    m.truncateSuffix cut = { m with log := m.log.take (kept m cut) } := by
  rw [MemStorage.truncateSuffix, kept]
  split
  · rw [take_zero]
  · rw [take_eq_take_min]

omit [Wal.Crc] in
theorem mirror_truncateSuffix (m : MemStorage) (cut : Nat) : (mirror m).truncateSuffix cut =
    if m.log.length ≤ kept m cut then return mirror m
    else do (mirror { m with log := m.log.take (kept m cut) }).rewriteLog
            return mirror { m with log := m.log.take (kept m cut) } := rfl

theorem Dir.Holds.truncated (holds : dir.Holds m) (cut : Nat) :
    dir.Prepared { m with log := m.log.take (kept m cut) } := by
  have contiguous : (m.truncateSuffix cut).Contiguous :=
    holds.contiguous.of_at fun _ _ held => (MemStorage.at_truncateSuffix held).2
  rw [truncateSuffix_eq] at contiguous
  exact { holds with
    logFits := fun e member => holds.logFits e (mem_of_mem_take member)
    contiguous := contiguous }

theorem Dir.Holds.truncateSuffix (holds : dir.Holds m) (cut : Nat) :
    Yields ((mirror m).truncateSuffix cut) dir (m.truncateSuffix cut) := by
  rw [truncateSuffix_eq, mirror_truncateSuffix]
  split
  case isTrue all =>
    rw [take_of_length_le all]
    exact ⟨dir, rfl, holds⟩
  case isFalse => exact (holds.truncated cut).rewritten

variable {snap : Snapshot} {log : List Entry}

theorem Dir.Holds.superseded (holds : dir.Holds m) (fits : SnapshotFits snap)
    (kept : ∀ e ∈ log, e ∈ m.log) (contiguous : MemStorage.Contiguous { m with log, snap := some snap }) :
    Dir.Prepared { dir with snapshot := some (encodeSnapshot snap) } { m with log, snap := some snap } :=
  { holds with
    snapshot := rfl
    snapFits := fun _ found => Option.some.inj found ▸ fits
    logFits := fun e member => holds.logFits e (kept e member)
    contiguous := contiguous }

theorem Dir.Holds.installSnapshot (holds : dir.Holds m) (fits : SnapshotFits snap)
    (kept : ∀ e ∈ log, e ∈ m.log) (contiguous : MemStorage.Contiguous { m with log, snap := some snap }) :
    Yields (WalStorage.installSnapshot { mirror m with log } snap) dir { m with log, snap := some snap } :=
  (holds.superseded fits kept contiguous).rewritten

theorem Dir.Holds.compact (holds : dir.Holds m) {index term : Nat} {confState learners : List NodeId} {data : Bytes}
    (fits : SnapshotFits ⟨index, term, confState, learners, data⟩) :
    Yields ((mirror m).compact index term confState learners data) dir
      (m.compact index term confState learners data) := by
  have contiguous : (m.compact index term confState learners data).Contiguous :=
    holds.contiguous.of_at fun _ _ => MemStorage.at_compact
  rw [MemStorage.compact] at contiguous ⊢
  rw [WalStorage.compact]
  by_cases done : index ≤ m.base
  · rw [if_pos done, if_pos (show index ≤ (mirror m).base from done)]
    exact ⟨dir, rfl, holds⟩
  · rw [if_neg done] at contiguous
    rw [if_neg done, if_neg (show ¬ index ≤ (mirror m).base from done)]
    exact holds.installSnapshot fits (fun _ => mem_of_mem_drop) contiguous

theorem Dir.Holds.applySnapshot (holds : dir.Holds m) (fits : SnapshotFits snap) :
    Yields ((mirror m).applySnapshot snap) dir (m.applySnapshot snap) :=
  holds.installSnapshot fits nofun fun _ _ held => absurd held MemStorage.at_applySnapshot

theorem Dir.Holds.run (holds : dir.Holds m) {request : Request} (fits : request.Fits m) :
    Yields (request.run (mirror m)) dir (request.apply m) := by
  cases request with
  | saveHardState hs => exact holds.saveHardState fits
  | append entries => exact holds.append fits.1 fits.2
  | truncateSuffix cut => exact holds.truncateSuffix cut
  | compact index term confState learners data => exact holds.compact fits
  | applySnapshot snap => exact holds.applySnapshot fits
  | reopen => exact holds.openStorage

theorem Dir.Holds.runAll (holds : dir.Holds m) {requests : List Request} (fits : Request.AllFit m requests) :
    Yields (Request.runAll requests (mirror m)) dir (requests.foldl Request.apply m) := by
  induction requests generalizing dir m with
  | nil => exact ⟨dir, rfl, holds⟩
  | cons request rest ih =>
    obtain ⟨dir', done, holds'⟩ := holds.run fits.1
    obtain ⟨dir'', later, holds''⟩ := ih holds' fits.2
    refine ⟨dir'', ?_, holds''⟩
    rw [Request.runAll, Prog.eval_bind, done]
    exact later

theorem openStorage_fresh : Yields openStorage {} {} :=
  ⟨{ log := some {} }, rfl, ⟨rfl, rfl, nofun, nofun, fun _ _ held => by simp [MemStorage.At] at held⟩,
    [], rfl, forall_mem_nil _, rfl⟩

/-- Whatever the calls, and wherever among them the directory is closed and opened again, the durable storage returns
what the one in memory does. -/
theorem wal_refines_memory (requests : List Request) (fits : Request.AllFit {} requests) :
    ∃ dir s, (useStorage requests).eval Call.exec {} = (dir, some s) ∧ s.Agrees (requests.foldl Request.apply {}) := by
  obtain ⟨dir, opened, holds⟩ := openStorage_fresh
  obtain ⟨dir', done, -⟩ := holds.runAll fits
  refine ⟨dir', _, ?_, mirror_agrees _⟩
  rw [useStorage, Prog.eval_bind, opened]
  exact done

end

def compactedTail : List Request :=
  [.saveHardState ⟨2, some 3⟩, .append [.normal 1 1 [5], .normal 1 2 [6], .normal 2 3 [7]], .reopen, .truncateSuffix 3,
    .compact 1 1 [1, 2, 3] [] [9], .reopen, .append [.normal 3 3 [8]], .reopen]

open scoped Wal.Castagnoli in
theorem wal_refines_memory_compactedTail : ∃ dir s, (useStorage compactedTail).eval Call.exec {} = (dir, some s) ∧
    s.Agrees (compactedTail.foldl Request.apply {}) :=
  wal_refines_memory compactedTail (by decide +kernel)

end Arcux.RaftWal
