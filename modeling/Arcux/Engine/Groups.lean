import Arcux.Engine.LsmReads

namespace Arcux.Engine

open Codec Concurrency Data List
open scoped Codec.ByteOrder

structure Request where
  op : Op
  appends : Bool := true

inductive FlushOutcome where
  | done
  -- the table is not written, or not opened
  | tableFails
  -- the manifest is not stored
  | manifestFails
  deriving DecidableEq

structure Group where
  requests : List Request
  -- the message of a group sync that fails
  syncError : Option String := none
  flush : FlushOutcome := .done

def invalidate (msg : String) : Except Error Nat → Except Error Nat
  | .ok _ => .error (.corruption ("group fsync failed: " ++ msg))
  | .error e => .error e

namespace Core

def serve (core : Core) (r : Request) : Core × Except Error Nat × Bool :=
  match core.reads.plan r.op with
  | .error e => (core, .error e, false)
  | .ok none => (core, .ok 0, false)
  | .ok (some batch) =>
    if r.appends then (core.applyBatch batch, .ok (core.seq + 1), true)
    else ({ core with seq := core.seq + 1 }, .error .io, false)

def serveAll (core : Core) : List Request → Core × List (Except Error Nat) × Bool
  | [] => (core, [], false)
  | r :: rest =>
    let (next, answer, appended) := core.serve r
    let (last, answers, appended') := next.serveAll rest
    (last, answer :: answers, appended || appended')

def flushFrozen (core : Core) (frozen : Memtable) (pos : Nat) : FlushOutcome → Core
  | .done => (core.install frozen).forget frozen pos
  | .tableFails =>
    -- an empty memtable has no table to fail
    if frozen.size = 0 then core.forget frozen pos else { core with nextSst := core.nextSst + 1 }
  | .manifestFails => { core.install frozen with lastFlushedSeq := max core.lastFlushedSeq frozen.maxSeq }

def rotateIfFull (core : Core) (flush : FlushOutcome) : Core :=
  if core.opts.memtableSizeThreshold ≤ core.active.size then
    core.freeze.flushFrozen core.active core.immutable.length flush
  else core

def finish (core : Core) (answers : List (Except Error Nat)) (appended : Bool) (group : Group) :
    Core × List (Except Error Nat) :=
  match group.syncError with
  | some msg =>
    if appended ∧ core.opts.fsyncMode ≠ .none then (core, answers.map (invalidate msg))
    else (core.rotateIfFull group.flush, answers)
  | none => (core.rotateIfFull group.flush, answers)

def processGroup (core : Core) (group : Group) : Core × List (Except Error Nat) :=
  let (served, answers, appended) := core.serveAll group.requests
  served.finish answers appended group

def processGroups (core : Core) : List Group → Core × List (List (Except Error Nat))
  | [] => (core, [])
  | group :: rest =>
    let (next, answers) := core.processGroup group
    let (last, later) := next.processGroups rest
    (last, answers :: later)

end Core

variable [Wal.Crc]

theorem logRequests_cons (core : Core) (w : World) (op : Op) (rest : List Op) : ∃ r w₁ extra, r.op = op ∧
    (w.tears = [] → r.appends ∧ w₁.tears = []) ∧ w₁.faults = w.faults ∧
    (logRequests (op :: rest) core).eval Call.exec w = (logRequests rest (core.serve r).1 >>= fun (last, answers, logged) =>
      pure (last, (core.serve r).2.1 :: answers, extra ++ logged)).eval Call.exec w₁ := by
  cases planned : core.reads.plan op with
  | error e =>
    refine ⟨⟨op, true⟩, w, [], rfl, fun calm => ⟨rfl, calm⟩, rfl, ?_⟩
    simp only [logRequests, planned, Core.serve, nil_append]
  | ok batch? =>
    cases batch? with
    | none =>
      refine ⟨⟨op, true⟩, w, [], rfl, fun calm => ⟨rfl, calm⟩, rfl, ?_⟩
      simp only [logRequests, planned, Core.serve, nil_append]
    | some batch =>
      let numbered : World := { w with core := some { core with seq := core.seq + 1 } }
      cases torn : w.tears.headD none with
      | none =>
        refine ⟨⟨op, true⟩, { numbered.append core.wal (core.seq + 1) batch with core := some (core.applyBatch batch) },
          [(core.seq + 1, batch)], rfl, fun calm => ⟨rfl, ?_⟩, rfl, ?_⟩
        · change w.tears.tail = []
          rw [calm]
          rfl
        · simp only [logRequests, planned, Core.serve, perform, Prog.bind_perform, Prog.eval, Call.exec, torn]
          rfl
      | some written =>
        refine ⟨⟨op, false⟩, numbered.appendPart core.wal (core.seq + 1) batch written, [], rfl, fun calm => ?_, rfl, ?_⟩
        · rw [calm] at torn
          cases torn
        · simp only [logRequests, planned, Core.serve, perform, Prog.bind_perform, Prog.eval, Call.exec, torn]
          rfl

theorem logRequests_eval (group : List Op) (core : Core) (w : World) : ∃ requests w' logged,
    requests.map Request.op = group ∧ (w.tears = [] → ∀ r ∈ requests, r.appends) ∧ w'.faults = w.faults ∧
    (logRequests group core).eval Call.exec w =
      (w', some ((core.serveAll requests).1, (core.serveAll requests).2.1, logged)) := by
  induction group generalizing core w with
  | nil => exact ⟨[], w, [], rfl, fun _ => nofun, rfl, rfl⟩
  | cons op rest ih =>
    obtain ⟨r, w₁, extra, first, calm, faults, ran⟩ := logRequests_cons core w op rest
    obtain ⟨requests, w', logged, ops, calm', faults', later⟩ := ih (core.serve r).1 w₁
    refine ⟨r :: requests, w', extra ++ logged, congrArg₂ cons first ops, fun quiet => ?_, faults'.trans faults, ?_⟩
    · exact forall_mem_cons.mpr ⟨(calm quiet).1, calm' (calm quiet).2⟩
    · rw [ran, Prog.eval_bind, later]
      rfl

theorem rotate_eval (core : Core) (w : World) : ∃ w', w'.faults = w.faults ∧
    (rotate core).eval Call.exec w = (w', some core.freeze) := ⟨((rotate core).eval Call.exec w).1, rfl, rfl⟩

theorem syncWal_eval (core : Core) (logged : List (Nat × WriteBatch)) (w : World) : ∃ w', w'.faults = w.faults ∧
    (syncWal core logged).eval Call.exec w = (w', some ()) := by
  unfold syncWal
  split
  · exact ⟨w, rfl, rfl⟩
  · exact ⟨(Call.exec (.sync core.wal) w).1, rfl, rfl⟩

theorem ackAll_eval (logged : List (Nat × WriteBatch)) (w : World) :
    ∃ w', (ackAll logged).eval Call.exec w = (w', some ()) := by
  induction logged generalizing w with
  | nil => exact ⟨w, rfl⟩
  | cons p rest ih => exact ih _

theorem persistManifest_eval (core : Core) (w : World) : ∃ stored w', (w.faults = [] → stored = true) ∧
    (persistManifest core).eval Call.exec w = (w', some stored) := by
  obtain ⟨disk, published, logged, acked, faults, tears⟩ := w
  rcases faults with _ | ⟨_ | _, _ | ⟨_ | _, faults⟩⟩
  · exact ⟨true, _, fun _ => rfl, rfl⟩
  · exact ⟨true, _, nofun, rfl⟩
  · exact ⟨true, _, nofun, rfl⟩
  all_goals exact ⟨false, _, nofun, rfl⟩

theorem writeTable_eval (core : Core) (frozen : Memtable) (w : World) : ∃ opened w',
    (w.faults = [] → opened = true ∧ w'.faults = []) ∧ (writeTable core frozen).eval Call.exec w =
      (w', some ({ core with nextSst := core.nextSst + 1 }, if opened then some frozen.cfs else none)) := by
  have written (tables : OrdMap Nat (Option Families)) (core' : Core) :
      some (core', (((tables.insert core.nextSst none).insert core.nextSst (some frozen.cfs)).find? core.nextSst).join) =
        some (core', some frozen.cfs) := by
    rw [OrdMap.find?_insert, if_pos rfl]
    rfl
  obtain ⟨disk, published, logged, acked, faults, tears⟩ := w
  rcases faults with _ | ⟨_ | _, _ | ⟨_ | _, faults⟩⟩
  · exact ⟨true, _, fun _ => ⟨rfl, rfl⟩, Prod.ext rfl (written disk.tables _)⟩
  · exact ⟨true, _, nofun, Prod.ext rfl (written disk.tables _)⟩
  · exact ⟨true, _, nofun, Prod.ext rfl (written disk.tables _)⟩
  all_goals exact ⟨false, _, nofun, rfl⟩

theorem finishFlush_eval (core : Core) (frozen : Memtable) (pos : Nat) (w : World) : ∃ stored w',
    (w.faults = [] → stored = true) ∧ (finishFlush core frozen pos).eval Call.exec w = (w', some
      (if stored then core.forget frozen pos else { core with lastFlushedSeq := max core.lastFlushedSeq frozen.maxSeq })) := by
  let marked : Core := { core with lastFlushedSeq := max core.lastFlushedSeq frozen.maxSeq }
  obtain ⟨stored, w₁, calm, ran⟩ := persistManifest_eval marked (Call.exec (.publish marked) w).1
  have unfolded : (finishFlush core frozen pos).eval Call.exec w = (persistManifest marked >>= fun stored =>
      if stored then do
        perform (.publish { marked with immutable := marked.immutable.eraseIdx pos })
        return { marked with immutable := marked.immutable.eraseIdx pos }
      else return marked).eval Call.exec (Call.exec (.publish marked) w).1 := rfl
  rw [unfolded, Prog.eval_bind, ran]
  cases stored with
  | true => exact ⟨true, _, fun _ => rfl, rfl⟩
  | false => exact ⟨false, _, calm, rfl⟩

theorem flushMemtable_eval (core : Core) (frozen : Memtable) (pos : Nat) (w : World) : ∃ flush w',
    (w.faults = [] → flush = .done) ∧
    (flushMemtable core frozen pos).eval Call.exec w = (w', some (core.flushFrozen frozen pos flush)) := by
  unfold flushMemtable
  split
  · rename_i empty
    obtain ⟨stored, w', calm, ran⟩ := finishFlush_eval core frozen pos w
    refine ⟨if stored then .done else .manifestFails, w', fun quiet => by rw [calm quiet]; rfl, ?_⟩
    rw [ran]
    cases stored <;> simp [Core.flushFrozen, Core.install, empty]
  · rename_i filled
    obtain ⟨opened, w₁, calm, ran⟩ := writeTable_eval core frozen w
    rw [Prog.eval_bind, ran]
    cases opened with
    | false =>
      refine ⟨.tableFails, w₁, fun quiet => absurd (calm quiet).1 Bool.false_ne_true, ?_⟩
      simp only [Core.flushFrozen, filled, if_false]
      rfl
    | true =>
      have install : core.install frozen = { core with
          sstables := core.sstables ++ [⟨core.nextSst, frozen.cfs⟩], nextSst := core.nextSst + 1 } := if_neg filled
      obtain ⟨stored, w', calm', ran'⟩ := finishFlush_eval (core.install frozen) frozen pos
        (Call.exec (.publish (core.install frozen)) w₁).1
      refine ⟨if stored then .done else .manifestFails, w', fun quiet => ?_, ?_⟩
      · rw [calm' (calm quiet).2]
        rfl
      · rw [install] at ran'
        refine Eq.trans ran' ?_
        cases stored <;> simp [Core.flushFrozen, install]

theorem processGroup_eval (core : Core) (group : List Op) (w : World) : ∃ requests flush w',
    requests.map Request.op = group ∧ (w.tears = [] → ∀ r ∈ requests, r.appends) ∧ (w.faults = [] → flush = .done) ∧
    (processGroup core group).eval Call.exec w = (w', some (core.processGroup ⟨requests, none, flush⟩)) := by
  obtain ⟨requests, w₁, logged, ops, calm, faults₁, ran₁⟩ := logRequests_eval group core w
  obtain ⟨w₂, faults₂, ran₂⟩ := syncWal_eval (core.serveAll requests).1 logged w₁
  have flushed : ∃ flush w₃, (w.faults = [] → flush = .done) ∧ (flushIfFull (core.serveAll requests).1).eval Call.exec w₂ =
      (w₃, some ((core.serveAll requests).1.rotateIfFull flush)) := by
    unfold flushIfFull Core.rotateIfFull
    split
    · obtain ⟨w', faults', rotated⟩ := rotate_eval (core.serveAll requests).1 w₂
      obtain ⟨flush, w₃, calm', ran'⟩ := flushMemtable_eval (core.serveAll requests).1.freeze (core.serveAll requests).1.active
        (core.serveAll requests).1.immutable.length w'
      refine ⟨flush, w₃, fun quiet => calm' (by rw [faults', faults₂, faults₁, quiet]), ?_⟩
      rw [Prog.eval_bind, rotated]
      exact ran'
    · exact ⟨.done, w₂, fun _ => rfl, rfl⟩
  obtain ⟨flush, w₃, calm', ran₃⟩ := flushed
  obtain ⟨w₄, ran₄⟩ := ackAll_eval logged w₃
  refine ⟨requests, flush, w₄, ops, calm, calm', ?_⟩
  simp only [processGroup, Prog.eval_bind, ran₁, ran₂, ran₃, ran₄]
  rfl

end Arcux.Engine
