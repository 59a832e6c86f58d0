import Arcux.Engine.Lsm
import Arcux.Engine.View

namespace Arcux.Engine

open Codec Data List
open scoped Codec.ByteOrder

def lastOp (ops : List WriteOp) (cf : Cf) (key : Bytes) : Option MemValue :=
  (ops.reverse.find? fun op => op.cf = cf ∧ op.key = key).map WriteOp.memValue

theorem lastOp_append (ops later : List WriteOp) (cf : Cf) (key : Bytes) :
    lastOp (ops ++ later) cf key = (lastOp later cf key).or (lastOp ops cf key) := by
  rw [lastOp, reverse_append, find?_append, Option.map_or]
  rfl

theorem lastOp_singleton (op : WriteOp) (cf : Cf) (key : Bytes) :
    lastOp [op] cf key = if cf = op.cf ∧ key = op.key then some op.memValue else none := by
  by_cases hit : op.cf = cf ∧ op.key = key
  · simp [lastOp, hit]
  · have missed : ¬ (cf = op.cf ∧ key = op.key) := fun found => hit ⟨found.1.symm, found.2.symm⟩
    simp [lastOp, hit, missed]

theorem foldl_lastOp {σ : Type} {apply : σ → WriteOp → σ} (find : σ → Option MemValue) {cf : Cf} {key : Bytes}
    (step : ∀ s op, find (apply s op) = if cf = op.cf ∧ key = op.key then some op.memValue else find s)
    (ops : List WriteOp) (s : σ) : find (ops.foldl apply s) = (lastOp ops cf key).or (find s) := by
  induction ops using reverseRecOn with
  | nil => rfl
  | append_singleton ops op ih =>
    rw [foldl_append, foldl_cons, foldl_nil, step, lastOp_append, lastOp_singleton, ih]
    split <;> rfl

theorem Db.find?_foldl_applyOp (ops : List WriteOp) (db : Db) (cf : Cf) (key : Bytes) :
    ((ops.foldl applyOp db).family cf).find? key = (lastOp ops cf key).or ((db.family cf).find? key) :=
  foldl_lastOp (fun db : Db => (db.family cf).find? key) (fun db op => find_applyOp db op cf key) ops db

theorem Memtable.find?_applyOp (m : Memtable) (op : WriteOp) (cf : Cf) (key : Bytes) : ((m.applyOp op).cfs cf).find? key =
    if cf = op.cf ∧ key = op.key then some op.memValue else (m.cfs cf).find? key := by
  simp only [applyOp]
  by_cases hit : cf = op.cf
  · simp only [hit, if_true, true_and, OrdMap.find?_insert]
    split_ifs <;> rfl
  · simp only [hit, if_false, false_and]

theorem Memtable.find?_foldl_applyOp (ops : List WriteOp) (m : Memtable) (cf : Cf) (key : Bytes) :
    ((ops.foldl applyOp m).cfs cf).find? key = (lastOp ops cf key).or ((m.cfs cf).find? key) :=
  foldl_lastOp (fun m : Memtable => (m.cfs cf).find? key) (fun m op => m.find?_applyOp op cf key) ops m

def replay (batches : List WriteBatch) : Db := batches.foldl Db.commitBatch .empty

theorem replay_concat (batches : List WriteBatch) (b : WriteBatch) :
    replay (batches ++ [b]) = (replay batches).commitBatch b := by
  rw [replay, foldl_append]
  rfl

def Displays (levels : List Families) (batches : List WriteBatch) : Prop :=
  ∀ cf key, Layers.find? (levels.map (· cf)) key = ((replay batches).family cf).find? key

theorem displays_nil : Displays [] [] := fun cf _ => by cases cf <;> rfl

section

variable {batches : List WriteBatch} {levels : List Families}

theorem displays_empty : Displays ((fun _ => .empty) :: levels) batches ↔ Displays levels batches := by
  simp [Displays]

theorem Displays.twice {top repeated : Families} (displays : Displays (top :: repeated :: levels) batches) :
    Displays (top :: repeated :: repeated :: levels) batches := by
  intro cf key
  rw [← displays cf key]
  exact Layers.find?_repeated [top cf] _ (repeated cf) key

theorem Displays.apply {m : Memtable} {below : List Families} (displays : Displays (m.cfs :: below) batches)
    (seq : Nat) (b : WriteBatch) : Displays ((m.apply seq b).cfs :: below) (batches ++ [b]) := by
  intro cf key
  rw [replay_concat, Db.family_commitBatch, Db.find?_foldl_applyOp, ← displays cf key]
  have applied : (m.apply seq b).cfs = (b.ops.foldl Memtable.applyOp m).cfs := rfl
  simp only [map_cons, Layers.find?_cons, applied, Memtable.find?_foldl_applyOp, Option.or_assoc]

def Db.reads (db : Db) : Reads := ⟨db.getCf, db.seekCf⟩

theorem Core.reads_eq {core : Core} (displays : Displays core.levels batches) :
    core.reads = (replay batches).reads := by
  rw [Core.reads, Db.reads, Reads.mk.injEq]
  constructor
  · funext cf key
    rw [displays cf key]
    rfl
  · funext cf low
    exact Layers.seek_eq (displays cf) low

end

def numberFrom (last : Nat) : List WriteBatch → List (Nat × WriteBatch)
  | [] => []
  | b :: rest => (last + 1, b) :: numberFrom (last + 1) rest

variable {b : WriteBatch}

abbrev Journal := List (Option WriteBatch)

def Journal.batches (log : Journal) : List WriteBatch := log.map (·.getD {})

def entriesFrom (last : Nat) (log : Journal) : List (Nat × WriteBatch) :=
  match log with
  | [] => []
  | none :: rest => entriesFrom (last + 1) rest
  | some b :: rest => (last + 1, b) :: entriesFrom (last + 1) rest

theorem entriesFrom_append (last : Nat) (log log' : Journal) :
    entriesFrom last (log ++ log') = entriesFrom last log ++ entriesFrom (last + log.length) log' := by
  induction log generalizing last with
  | nil => rfl
  | cons slot rest ih =>
    have place : last + (slot :: rest).length = last + 1 + rest.length := by
      rw [length_cons]
      omega
    rw [place, cons_append]
    cases slot with
    | none => exact ih (last + 1)
    | some b => exact congrArg _ (ih (last + 1))

variable {log : Journal} {n : Nat}

theorem entriesFrom_split (bound : n ≤ log.length) :
    entriesFrom 0 log = entriesFrom 0 (log.take n) ++ entriesFrom n (log.drop n) := by
  conv_lhs => rw [← take_append_drop n log]
  rw [entriesFrom_append, length_take_of_le bound, Nat.zero_add]

theorem entriesFrom_drop {log' : Journal} {slot : Option WriteBatch} (longer : log ++ [slot] <+: log') :
    entriesFrom log.length (log'.drop log.length) =
      (slot.map (log.length + 1, ·)).toList ++ entriesFrom (log ++ [slot]).length (log'.drop (log ++ [slot]).length) := by
  obtain ⟨more, rfl⟩ := longer
  rw [drop_left' rfl, append_assoc, drop_left' rfl, length_append]
  cases slot <;> rfl

theorem mem_entriesFrom_iff {last seq : Nat} :
    (seq, b) ∈ entriesFrom last log ↔ last < seq ∧ log[seq - last - 1]? = some (some b) := by
  induction log generalizing last with
  | nil => simp [entriesFrom]
  | cons slot rest ih =>
    have unfolded : (seq, b) ∈ entriesFrom last (slot :: rest) ↔
        seq = last + 1 ∧ slot = some b ∨ (seq, b) ∈ entriesFrom (last + 1) rest := by
      cases slot with
      | none => simp [entriesFrom]
      | some b' => simp [entriesFrom, eq_comm]
    rw [unfolded, ih]
    rcases Nat.lt_trichotomy seq (last + 1) with before | here | after
    · omega
    · subst here
      simp
    · have place : seq - last - 1 = (seq - (last + 1) - 1) + 1 := by omega
      rw [place, getElem?_cons_succ]
      constructor
      · rintro (⟨same, -⟩ | found)
        · omega
        · exact ⟨by omega, found.2⟩
      · exact fun found => .inr ⟨after, found.2⟩

theorem entriesFrom_map_some (last : Nat) (bs : List WriteBatch) : entriesFrom last (bs.map some) = numberFrom last bs := by
  induction bs generalizing last with
  | nil => rfl
  | cons b rest ih => exact congrArg _ (ih (last + 1))

theorem mem_numberFrom_iff {last seq : Nat} {bs : List WriteBatch} :
    (seq, b) ∈ numberFrom last bs ↔ last < seq ∧ bs[seq - last - 1]? = some b := by
  rw [← entriesFrom_map_some, mem_entriesFrom_iff, getElem?_map]
  simp

variable {p : Nat × WriteBatch} {last : Nat}

theorem mem_entriesFrom (member : p ∈ entriesFrom last log) : last < p.1 ∧ p.1 ≤ last + log.length := by
  obtain ⟨above, found⟩ := mem_entriesFrom_iff.mp member
  have := (List.getElem?_eq_some_iff.mp found).1
  omega

theorem mem_entriesFrom_take : p ∈ entriesFrom 0 (log.take n) ↔ p ∈ entriesFrom 0 log ∧ p.1 ≤ n := by
  obtain ⟨seq, b⟩ := p
  rw [mem_entriesFrom_iff, mem_entriesFrom_iff, getElem?_take]
  constructor
  · rintro ⟨above, found⟩
    split_ifs at found with inside
    exact ⟨⟨above, found⟩, by omega⟩
  · rintro ⟨⟨above, found⟩, inside⟩
    exact ⟨above, by rw [if_pos (by omega)]; exact found⟩

theorem ascending_entriesFrom (last : Nat) (log : Journal) :
    (entriesFrom last log).Pairwise (fun p q => p.1 < q.1) := by
  induction log generalizing last with
  | nil => exact .nil
  | cons slot rest ih =>
    cases slot with
    | none => exact ih _
    | some b => exact pairwise_cons.mpr ⟨fun q later => (mem_entriesFrom later).1, ih _⟩

theorem entriesFrom_take (last : Nat) (log : Journal) (n : Nat) :
    ∃ k, (entriesFrom last log).take n = entriesFrom last (log.take k) := by
  induction log generalizing last n with
  | nil => exact ⟨0, take_nil⟩
  | cons slot rest ih =>
    cases slot with
    | none =>
      obtain ⟨k, same⟩ := ih (last + 1) n
      exact ⟨k + 1, same⟩
    | some b =>
      cases n with
      | zero => exact ⟨0, rfl⟩
      | succ n =>
        obtain ⟨k, same⟩ := ih (last + 1) n
        exact ⟨k + 1, congrArg _ same⟩

theorem mem_numberFrom_batches (member : p ∈ entriesFrom 0 log) : p ∈ numberFrom 0 log.batches := by
  obtain ⟨above, found⟩ := mem_entriesFrom_iff.mp member
  refine mem_numberFrom_iff.mpr ⟨above, ?_⟩
  rw [Journal.batches, getElem?_map, found]
  rfl

def Journal.HollowAfter (log : Journal) (n : Nat) : Prop := ∀ slot ∈ log.drop n, slot = none

theorem displays_skip : Displays levels (batches ++ [⟨[]⟩]) ↔ Displays levels batches := by
  simp only [Displays, replay_concat, Db.family_commitBatch, foldl_nil]

theorem Journal.HollowAfter.displays (hollow : log.HollowAfter n) :
    Displays levels (Journal.batches (log.take n)) ↔ Displays levels log.batches := by
  suffices all : ∀ rest : Journal, (∀ slot ∈ rest, slot = none) →
      (Displays levels (Journal.batches (log.take n)) ↔ Displays levels (Journal.batches (log.take n ++ rest))) by
    have whole := all _ hollow
    rwa [take_append_drop] at whole
  intro rest empty
  induction rest using reverseRecOn with
  | nil => rw [append_nil]
  | append_singleton rest slot ih =>
    obtain ⟨before, last⟩ := forall_mem_append.mp empty
    have concat : Journal.batches (log.take n ++ (rest ++ [slot])) = Journal.batches (log.take n ++ rest) ++ [⟨[]⟩] := by
      rw [last slot (mem_singleton_self _), ← append_assoc, Journal.batches, map_append]
      rfl
    rw [concat, displays_skip]
    exact ih before

def fill (last : Nat) (log : Journal) : Memtable := (entriesFrom last log).foldl (fun m p => m.apply p.1 p.2) {}

theorem fill_concat (last : Nat) (log : Journal) (b : WriteBatch) :
    fill last (log ++ [some b]) = (fill last log).apply (last + log.length + 1) b := by
  rw [fill, entriesFrom_append, foldl_append]
  rfl

theorem fill_skip (last : Nat) (log : Journal) : fill last (log ++ [none]) = fill last log := by
  rw [fill, entriesFrom_append]
  exact congrArg (foldl _ _) (append_nil _)

theorem fill_hollow (empty : ∀ slot ∈ log, slot = none) : fill last log = {} := by
  induction log using reverseRecOn with
  | nil => rfl
  | append_singleton log slot ih =>
    obtain ⟨before, here⟩ := forall_mem_append.mp empty
    rw [here slot (mem_singleton_self _), fill_skip, ih before]

theorem fill_maxSeq (last : Nat) (log : Journal) :
    (fill last log).maxSeq ≤ last + log.length ∧
      Journal.HollowAfter log (max last (fill last log).maxSeq - last) := by
  induction log using reverseRecOn with
  | nil => exact ⟨Nat.zero_le _, fun _ member => by rw [drop_nil] at member; cases member⟩
  | append_singleton log slot ih =>
    rw [length_append, length_singleton]
    cases slot with
    | none =>
      rw [fill_skip]
      refine ⟨ih.1.trans (Nat.le_succ _), fun slot member => ?_⟩
      rw [drop_append_of_le_length (by omega)] at member
      rcases mem_append.mp member with old | new
      · exact ih.2 slot old
      · exact mem_singleton.mp new
    | some b =>
      have grown : (fill last (log ++ [some b])).maxSeq = max (fill last log).maxSeq (last + log.length + 1) := by
        rw [fill_concat]
        rfl
      rw [grown]
      refine ⟨by omega, fun slot member => ?_⟩
      rw [drop_of_length_le (by rw [length_append, length_singleton]; omega)] at member
      cases member

theorem fill_watermark {flushed : Nat} (bound : flushed ≤ log.length) :
    max flushed (fill flushed (log.drop flushed)).maxSeq ≤ log.length ∧
      log.HollowAfter (max flushed (fill flushed (log.drop flushed)).maxSeq) := by
  obtain ⟨top, hollow⟩ := fill_maxSeq flushed (log.drop flushed)
  rw [length_drop] at top
  rw [Journal.HollowAfter, drop_drop, Nat.add_sub_cancel' (le_max_left ..)] at hollow
  exact ⟨by omega, hollow⟩

theorem Displays.fill {below : List Families} {before : List WriteBatch} (displays : Displays below before) (last : Nat)
    (log : Journal) : Displays ((fill last log).cfs :: below) (before ++ log.batches) := by
  induction log using reverseRecOn with
  | nil =>
    rw [Journal.batches, map_nil, append_nil]
    exact displays_empty.mpr displays
  | append_singleton log slot ih =>
    rw [Journal.batches, map_append, ← append_assoc]
    cases slot with
    | none =>
      rw [fill_skip]
      exact displays_skip.mpr ih
    | some b =>
      rw [fill_concat]
      exact ih.apply _ b

theorem Memtable.foldl_applyOp_size (ops : List WriteOp) (m : Memtable) :
    m.size ≤ (ops.foldl applyOp m).size ∧ ((ops.foldl applyOp m).size = m.size → ops.foldl applyOp m = m) := by
  induction ops generalizing m with
  | nil => exact ⟨Nat.le_refl _, fun _ => rfl⟩
  | cons op rest ih =>
    have grown : m.size < (m.applyOp op).size := by
      have : 0 < op.footprint := by cases op <;> simp [WriteOp.footprint]
      exact Nat.lt_add_of_pos_right this
    have := (ih (m.applyOp op)).1
    rw [foldl_cons]
    exact ⟨by omega, fun same => by omega⟩

theorem fill_empty (empty : (fill last log).size = 0) : (fill last log).cfs = fun _ => .empty := by
  induction log using reverseRecOn with
  | nil => rfl
  | append_singleton log slot ih =>
    cases slot with
    | none =>
      rw [fill_skip] at empty ⊢
      exact ih empty
    | some b =>
      rw [fill_concat] at empty ⊢
      have size : (b.ops.foldl Memtable.applyOp (fill last log)).size = 0 := empty
      obtain ⟨grown, same⟩ := Memtable.foldl_applyOp_size b.ops (fill last log)
      have before : (fill last log).size = 0 := by omega
      have unchanged : b.ops.foldl Memtable.applyOp (fill last log) = fill last log := same (by omega)
      have cfs : ((fill last log).apply (last + log.length + 1) b).cfs =
        (b.ops.foldl Memtable.applyOp (fill last log)).cfs := rfl
      rw [cfs, unchanged, ih before]

end Arcux.Engine
