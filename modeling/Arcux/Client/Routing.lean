import Arcux.Codec.ByteOrder
import Arcux.Data.BinarySearch
import Arcux.Data.Intervals

namespace Arcux.Client

open Codec Data List
open scoped Codec.ByteOrder

structure CachedRegion where
  id : UInt64
  start : Bytes
  stop : Bytes
  epoch : UInt64
  address : String
  deriving DecidableEq

namespace CachedRegion

def contains (r : CachedRegion) (key : Bytes) : Bool := r.start ≤ key ∧ (r.stop = [] ∨ key < r.stop)

def rangesOverlap (a b : CachedRegion) : Bool :=
  let aBeforeB : Bool := a.stop ≠ [] ∧ a.stop ≤ b.start
  let bBeforeA : Bool := b.stop ≠ [] ∧ b.stop ≤ a.start
  !(aBeforeB || bBeforeA)

theorem contains_iff {r : CachedRegion} {key : Bytes} : r.contains key = true ↔ Within start stop key r :=
  decide_eq_true_iff

theorem not_rangesOverlap_iff {a b : CachedRegion} :
    (!a.rangesOverlap b) = true ↔ Before start stop a b ∨ Before start stop b a := by
  rw [rangesOverlap, Bool.not_not, Bool.or_eq_true, decide_eq_true_iff, decide_eq_true_iff]
  rfl

end CachedRegion

namespace Routing

abbrev Cache := List CachedRegion

def lookup (cache : Cache) (key : Bytes) : Option CachedRegion :=
  let idx := partitionPoint (fun r => r.start ≤ key) cache
  if idx = 0 then none
  else do
    let r ← cache[idx - 1]?
    if r.contains key then some r else none

def insert (cache : Cache) (region : CachedRegion) : Cache :=
  let kept := cache.filter fun r => !r.rangesOverlap region
  let pos := partitionPoint (fun r => r.start < region.start) kept
  kept.take pos ++ region :: kept.drop pos

def invalidate (cache : Cache) (key : Bytes) : Cache := cache.filter fun r => !r.contains key

inductive Op where
  | insert (region : CachedRegion)
  | invalidate (key : Bytes)
  deriving DecidableEq

def exec (cache : Cache) : Op → Cache
  | .insert region => insert cache region
  | .invalidate key => invalidate cache key

def run (ops : List Op) : Cache := ops.foldl exec []

structure Sound (cache : Cache) : Prop where
  apart : cache.Pairwise (Before CachedRegion.start CachedRegion.stop)
  proper : ∀ r ∈ cache, Proper CachedRegion.start CachedRegion.stop r

variable {cache : Cache} {region r : CachedRegion} {key : Bytes}

theorem Sound.sorted (sound : Sound cache) : cache.Pairwise fun a b => a.start < b.start :=
  sound.apart.imp_of_mem fun member _ before => before.start_lt (sound.proper _ member)

theorem Sound.filter (sound : Sound cache) (p : CachedRegion → Bool) : Sound (cache.filter p) :=
  ⟨sound.apart.filter p, fun r member => sound.proper r (mem_filter.mp member).1⟩

theorem lookup_eq_some_iff (sound : Sound cache) : lookup cache key = some r ↔ r ∈ cache ∧ r.contains key := by
  have ordered : cache.Pairwise fun a b => decide (b.start ≤ key) → decide (a.start ≤ key) := by
    refine sound.sorted.imp fun ascending reached => ?_
    rw [decide_eq_true_iff] at reached ⊢
    exact ascending.le.trans reached
  obtain ⟨front, back, rfl, under, past, idx⟩ := partitionPoint_cut ordered
  rw [lookup, idx]
  have inFront (member : r ∈ front ++ back) (inside : r.contains key) : r ∈ front := by
    refine (mem_append.mp member).resolve_right fun later => past r later ?_
    rw [decide_eq_true_iff]
    exact (CachedRegion.contains_iff.mp inside).1
  rcases front.eq_nil_or_concat' with rfl | ⟨earlier, last, rfl⟩
  · simp only [length_nil, if_true, reduceCtorEq, false_iff, not_and]
    intro member inside
    exact absurd (inFront member inside) (not_mem_nil)
  · have at_last : (earlier ++ [last] ++ back)[(earlier ++ [last]).length - 1]? = some last := by simp
    rw [if_neg (by simp), at_last]
    simp only [Option.bind_eq_bind, Option.bind_some, Option.ite_none_right_eq_some, Option.some.injEq]
    constructor
    · rintro ⟨inside, rfl⟩
      exact ⟨by simp, inside⟩
    · rintro ⟨member, inside⟩
      suffices last = r by subst this; exact ⟨inside, rfl⟩
      rcases mem_append.mp (inFront member inside) with early | here
      · -- An earlier region ends before the last one starts, so it does not reach the key.
        have before := (pairwise_append.mp (pairwise_append.mp sound.apart).1).2.2 r early last (by simp)
        have reached : last.start ≤ key := by simpa using under last (by simp)
        have ends := (CachedRegion.contains_iff.mp inside).2.resolve_left before.1
        exact absurd (before.2.trans reached) ends.not_ge
      · exact (mem_singleton.mp here).symm

theorem mem_insert : r ∈ insert cache region ↔ r = region ∨ r ∈ cache ∧ (!r.rangesOverlap region) = true := by
  rw [insert, mem_append, mem_cons, or_left_comm, ← mem_append, take_append_drop, mem_filter]

theorem Sound.insert (sound : Sound cache) (proper : Proper CachedRegion.start CachedRegion.stop region) :
    Sound (insert cache region) := by
  refine ⟨?_, fun r member => ?_⟩
  · have kept := sound.filter fun r => !r.rangesOverlap region
    have ordered : (cache.filter fun r => !r.rangesOverlap region).Pairwise fun a b =>
        decide (b.start < region.start) → decide (a.start < region.start) := by
      refine kept.sorted.imp fun ascending below => ?_
      rw [decide_eq_true_iff] at below ⊢
      exact ascending.trans below
    obtain ⟨front, back, split, under, past, pos⟩ := partitionPoint_cut ordered
    have clear {r : CachedRegion} (member : r ∈ front ++ back) :
        Before CachedRegion.start CachedRegion.stop r region ∨
          Before CachedRegion.start CachedRegion.stop region r := by
      rw [← split] at member
      exact CachedRegion.not_rangesOverlap_iff.mp (mem_filter.mp member).2
    rw [Routing.insert, pos, split, take_left, drop_left]
    rw [split] at kept
    obtain ⟨left, right, across⟩ := pairwise_append.mp kept.apart
    rw [pairwise_append, pairwise_cons]
    refine ⟨left, ⟨fun r later => ?_, right⟩, fun r early next member => ?_⟩
    · refine (clear (mem_append_right _ later)).resolve_left fun before => past r later ?_
      exact decide_eq_true (before.start_lt (kept.proper r (mem_append_right _ later)))
    · rcases mem_cons.mp member with rfl | later
      · refine (clear (mem_append_left _ early)).resolve_right fun before => ?_
        exact (before.start_lt proper).not_gt (of_decide_eq_true (under r early))
      · exact across r early next later
  · rcases mem_insert.mp member with rfl | ⟨old, -⟩
    · exact proper
    · exact sound.proper r old

def Op.Spares (r : CachedRegion) : Op → Prop
  | .insert region => ¬ ∃ key, region.contains key ∧ r.contains key
  | .invalidate key => ¬ r.contains key

def Op.Proper : Op → Prop
  | .insert region => Data.Proper CachedRegion.start CachedRegion.stop region
  | .invalidate _ => True

theorem Sound.exec (sound : Sound cache) {op : Op} (proper : op.Proper) : Sound (exec cache op) := by
  cases op with
  | insert region => exact sound.insert proper
  | invalidate key => exact sound.filter _

theorem mem_exec (sound : Sound cache) {op : Op} (proper : op.Proper) :
    r ∈ exec cache op ↔ op = .insert r ∨ r ∈ cache ∧ op.Spares r := by
  cases op with
  | insert region =>
    rw [exec, mem_insert, Op.insert.injEq, eq_comm (a := r)]
    refine or_congr_right (and_congr_right fun member => ?_)
    rw [CachedRegion.not_rangesOverlap_iff, or_comm, before_or_before_iff proper (sound.proper r member)]
    simp only [Op.Spares, CachedRegion.contains_iff]
  | invalidate key => simp [exec, invalidate, Op.Spares]

theorem run_concat (ops : List Op) (op : Op) : run (ops ++ [op]) = exec (run ops) op := by
  rw [run, foldl_append]
  rfl

theorem Sound.run {ops : List Op} (proper : ∀ op ∈ ops, op.Proper) : Sound (run ops) := by
  induction ops using reverseRecOn with
  | nil => exact ⟨.nil, forall_mem_nil _⟩
  | append_singleton ops op ih =>
    rw [run_concat]
    exact (ih fun op member => proper op (mem_append_left _ member)).exec (proper op (by simp))

theorem mem_run {ops : List Op} (proper : ∀ op ∈ ops, op.Proper) :
    r ∈ run ops ↔ ∃ before after, ops = before ++ .insert r :: after ∧ ∀ op ∈ after, op.Spares r := by
  induction ops using reverseRecOn with
  | nil => simp [run]
  | append_singleton ops op ih =>
    have earlier : ∀ op ∈ ops, op.Proper := fun op member => proper op (mem_append_left _ member)
    rw [run_concat, mem_exec (Sound.run earlier) (proper op (by simp)), ih earlier]
    constructor
    · rintro (rfl | ⟨⟨before, after, rfl, spared⟩, spares⟩)
      · exact ⟨ops, [], rfl, forall_mem_nil _⟩
      · refine ⟨before, after ++ [op], by simp, ?_⟩
        rw [forall_mem_append, forall_mem_singleton]
        exact ⟨spared, spares⟩
    · rintro ⟨before, after, same, spared⟩
      rcases after.eq_nil_or_concat' with rfl | ⟨after, last, rfl⟩
      · exact Or.inl (singleton_inj.mp (append_inj_right' same rfl))
      · rw [← cons_append, ← append_assoc] at same
        obtain ⟨rfl, lasts⟩ := append_inj' same rfl
        cases lasts
        rw [forall_mem_append, forall_mem_singleton] at spared
        exact Or.inr ⟨⟨before, after, rfl, spared.1⟩, spared.2⟩

theorem serves_latest_route (ops : List Op)
    (proper : ∀ region, .insert region ∈ ops → region.stop = [] ∨ region.start < region.stop) :
    (run ops).Pairwise (fun a b => a.start < b.start) ∧
    (run ops).Pairwise (fun a b => ¬ ∃ key, a.contains key ∧ b.contains key) ∧
    ∀ key r, lookup (run ops) key = some r ↔
      ∃ before after, ops = before ++ .insert r :: after ∧ r.contains key ∧
        (∀ region, .insert region ∈ after → ¬ region.contains key) ∧
        (∀ region, .insert region ∈ after → ¬ ∃ key', region.contains key' ∧ r.contains key') ∧
        ∀ key', .invalidate key' ∈ after → ¬ r.contains key' := by
  have fair : ∀ op ∈ ops, op.Proper := by
    rintro (region | key) member
    · exact proper region member
    · exact True.intro
  have sound := Sound.run fair
  refine ⟨sound.sorted, sound.apart.imp ?_, fun key r => ?_⟩
  · rintro a b before ⟨key, inA, inB⟩
    exact before.not_within (CachedRegion.contains_iff.mp inA) (CachedRegion.contains_iff.mp inB)
  · rw [lookup_eq_some_iff sound, mem_run fair]
    constructor
    · rintro ⟨⟨before, after, rfl, spared⟩, inside⟩
      refine ⟨before, after, rfl, inside, ?_, fun region later => spared _ later, fun key' later => spared _ later⟩
      exact fun region later within => spared _ later ⟨key, within, inside⟩
    · rintro ⟨before, after, rfl, inside, -, inserted, invalidated⟩
      refine ⟨⟨before, after, rfl, ?_⟩, inside⟩
      rintro (region | key') later
      · exact inserted region later
      · exact invalidated key' later

theorem serves_latest_route_split :
    lookup (run [.insert ⟨1, [], [], 0, "a"⟩, .insert ⟨2, [5], [], 1, "b"⟩, .invalidate [1]]) [7] =
      some ⟨2, [5], [], 1, "b"⟩ := by
  refine ((serves_latest_route _ ?_).2.2 [7] ⟨2, [5], [], 1, "b"⟩).mpr
    ⟨[.insert ⟨1, [], [], 0, "a"⟩], [.invalidate [1]], rfl, by decide, ?_, ?_, ?_⟩
  · simp
  · simp
  · simp
  · simp only [mem_singleton, Op.invalidate.injEq, forall_eq]
    decide

end Routing

end Arcux.Client
