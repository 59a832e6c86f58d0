import Arcux.Engine.PointReads
import Arcux.Engine.Scan

namespace Arcux.Engine

open Codec Data List
open scoped Codec.ByteOrder

variable {db : Db}

def Db.committed (db : Db) : Set Bytes := {k | ∃ c s, db.view.commit k c = some s}

theorem Db.Legible.recorded_committed (legible : db.Legible) : db.Recorded db.committed := by
  intro key stored found
  obtain ⟨k, -, c, s, rfl, rfl⟩ := legible.recorded key stored found
  exact ⟨k, ⟨c, s, legible.recorded.commit_eq_some.mpr found⟩, c, s, rfl, rfl⟩

/-- The records of the picked keys of a range lie as the keys do: none of a key below the range is met, none of a key
behind it is met before them, and they are met in the order of the keys. -/
structure Db.Straight (db : Db) (start stop : Bytes) (pick : Bytes → Ts → Ts → Prop) : Prop where
  within : ∀ k c s, db.First start k c s → db.Open stop start k c → pick k c s → start ≤ k
  reached : ∀ k c s, start ≤ k → BelowEnd stop k → db.First start k c s → pick k c s → db.Open stop start k c
  sorted : ∀ k c s k' c' s', start ≤ k → k < k' → BelowEnd stop k' → db.First start k c s → pick k c s →
    db.First start k' c' s' → pick k' c' s' → encodeDataKey k c < encodeDataKey k' c'

variable {start stop : Bytes} {β : Type} {listed : List (Bytes × β)}

theorem Db.Lists.exact_iff {pick : Bytes → Ts → Ts → Option β} (lists : db.Lists stop pick start [] listed) :
    (listed.Pairwise (·.1 < ·.1) ∧ ∀ k b, (k, b) ∈ listed ↔
      start ≤ k ∧ BelowEnd stop k ∧ ∃ c s, db.First start k c s ∧ pick k c s = some b) ↔
    db.Straight start stop fun k c s => ∃ b, pick k c s = some b := by
  constructor
  · rintro ⟨ascending, exact⟩
    have picked {k : Bytes} {c s : Ts} (inside : start ≤ k) (below : BelowEnd stop k) (first : db.First start k c s)
        (some : ∃ b, pick k c s = some b) : ∃ b, (k, b) ∈ listed :=
      some.imp fun b same => (exact k b).mpr ⟨inside, below, c, s, first, same⟩
    refine ⟨fun k c s first reached ⟨b, same⟩ => ?_, fun k c s inside below first some => ?_, ?_⟩
    · exact ((exact k b).mp ((lists.exact k b).mpr ⟨not_mem_nil, c, s, first, reached, same⟩)).1
    · obtain ⟨b, member⟩ := picked inside below first some
      obtain ⟨-, c', s', first', reached, -⟩ := (lists.exact k b).mp member
      rwa [(first.unique first').1]
    · intro k c s k' c' s' inside less below first some first' some'
      obtain ⟨b, member⟩ := picked inside (below.imp_right less.trans) first some
      obtain ⟨b', member'⟩ := picked (inside.trans less.le) below first' some'
      -- the two keys stand in the list as their records lie, and as the keys are ordered
      let Both (e e' : Bytes × β) : Prop :=
        e.1 < e'.1 ∧ db.Before start e.1 e'.1 ∨ e'.1 < e.1 ∧ db.Before start e'.1 e.1
      have symmetric : Std.Symm Both := ⟨fun _ _ => Or.symm⟩
      have both : listed.Pairwise Both := (ascending.and lists.ordered).imp .inl
      have differ : (k, b) ≠ (k', b') := fun same => less.ne (congrArg Prod.fst same)
      rcases both.forall member member' differ with ⟨-, before⟩ | ⟨greater, -⟩
      · exact before c s c' s' first first'
      · exact absurd greater less.not_gt
  · intro straight
    have exact (k : Bytes) (b : β) : (k, b) ∈ listed ↔
        start ≤ k ∧ BelowEnd stop k ∧ ∃ c s, db.First start k c s ∧ pick k c s = some b := by
      rw [lists.exact]
      constructor
      · rintro ⟨-, c, s, first, reached, same⟩
        exact ⟨straight.within k c s first reached ⟨b, same⟩, reached k c s first.1 first.2.1 le_rfl, c, s, first, same⟩
      · rintro ⟨inside, below, c, s, first, same⟩
        exact ⟨not_mem_nil, c, s, first, straight.reached k c s inside below first ⟨b, same⟩, same⟩
    refine ⟨lists.ordered.imp_of_mem fun {e e'} member member' before => lt_of_not_ge fun le => ?_, exact⟩
    obtain ⟨-, below, c, s, first, same⟩ := (exact e.1 e.2).mp member
    obtain ⟨inside, -, c', s', first', same'⟩ := (exact e'.1 e'.2).mp member'
    have ahead := before c s c' s' first first'
    rcases le.lt_or_eq with less | equal
    · exact ahead.not_gt (straight.sorted _ c' s' _ c s inside less below first' ⟨_, same'⟩ first ⟨_, same⟩)
    · rw [equal] at first'
      rw [equal, (first.unique first').1] at ahead
      exact lt_irrefl _ ahead

/-- Whatever the limit, the call lists the first entries of the range among those shown, in the order of their keys. -/
def Db.Listing (db : Db) (run : Nat → Program (List (Bytes × β))) (start stop : Bytes) (shown : Bytes → β → Prop) : Prop :=
  ∀ limit, ∃ all, all.Pairwise (·.1 < ·.1) ∧
    (∀ k b, (k, b) ∈ all ↔ start ≤ k ∧ BelowEnd stop k ∧ shown k b) ∧ Runs (run limit).run db db (.ok (capped limit all))

theorem Db.listing_iff {run : Nat → Program (List (Bytes × β))} {shown : Bytes → β → Prop}
    (runs : ∀ limit, Runs (run limit).run db db (.ok (capped limit listed))) :
    db.Listing run start stop shown ↔
      listed.Pairwise (·.1 < ·.1) ∧ ∀ k b, (k, b) ∈ listed ↔ start ≤ k ∧ BelowEnd stop k ∧ shown k b := by
  refine ⟨fun listing => ?_, fun ⟨ascending, exact⟩ limit => ⟨listed, ascending, exact, runs limit⟩⟩
  obtain ⟨all, ascending, exact, answer⟩ := listing 0
  have same : all = listed := Except.ok.inj (answer.unique (runs 0))
  exact same ▸ ⟨ascending, exact⟩

variable {readTs : Ts} {rounds : Nat}

theorem scanVersions_listing (legible : db.Legible) (enough : db.remaining start < rounds) :
    db.Listing (scanVersions rounds start stop) start stop (fun k b => ∃ v, db.Latest k b.1 v ∧ b.2 = v.versioned) ↔
      db.Straight start stop fun k _ s => ∃ v, db.view.value k s = some v := by
  let pick (k : Bytes) (c s : Ts) := (db.view.value k s).map fun v => (c, v.versioned)
  obtain ⟨listed, lists, runs⟩ := legible.recorded.walked stop pick rounds start [] enough
  have valued : (fun k c s => ∃ b, pick k c s = some b) = fun k _ s => ∃ v, db.view.value k s = some v := by
    funext k c s
    simp only [pick, ← Option.isSome_iff_exists, Option.isSome_map]
  have answers (limit : Nat) : Runs (scanVersions rounds start stop limit).run db db (.ok (capped limit listed)) :=
    runs (scanVersions_walks stop limit) [] (Nat.eq_zero_or_pos limit)
  rw [Db.listing_iff answers, ← valued, ← lists.exact_iff]
  refine and_congr_right fun _ => forall_congr' fun k => forall_congr' fun b => iff_congr Iff.rfl ?_
  refine and_congr_right fun inside => and_congr_right fun _ => ?_
  simp only [Db.latest_iff_first fun c s _ => inside.trans (le_append k _), pick, Option.map_eq_some_iff]
  constructor
  · rintro ⟨v, ⟨s, first, stored⟩, shape⟩
    exact ⟨b.1, s, first, v, stored, Prod.ext rfl shape.symm⟩
  · rintro ⟨c, s, first, v, stored, rfl⟩
    exact ⟨v, ⟨s, first, stored⟩, rfl⟩

theorem gives_free {k : Bytes} {value : Option Bytes} (resolve : Bool) (free : db.getCf .lock k = none)
    (read : Runs (readCommitted k readTs).run db db (.ok value)) : db.Gives resolve readTs k value := by
  obtain ⟨resolved, unresolved⟩ := mvccGet_free free read
  refine ⟨.ok value, ?_, .inl rfl⟩
  cases resolve with
  | true => exact resolved
  | false => exact unresolved

/-- What a point read without locks shows: a put that is in sight. -/
def Db.Read (db : Db) (readTs : Ts) (k v : Bytes) : Prop :=
  db.view.Shows k readTs (some (.put v)) ∧ db.Sighted (encodeDataKey k readTs) k fun c _ => c ≤ readTs

theorem Db.first_of_shows {k v : Bytes} (inside : start ≤ k) (shows : db.view.Shows k readTs (some (.put v))) :
    ∃ c s, db.First start k c s := by
  rcases shows with ⟨c, s, committed, -⟩ | ⟨-, missing⟩
  · exact Db.Reaches.first ⟨c, s, committed, inside.trans (le_append k _)⟩
  · cases missing

theorem Db.Recorded.sighted {keys : Set Bytes} (recorded : db.Recorded keys) (apart : Apart keys) (k : Bytes) (readTs : Ts) :
    db.Sighted (encodeDataKey k readTs) k fun c _ => c ≤ readTs := by
  rintro ⟨c, s, seen, le⟩
  exact ⟨c, s, seen, le, (recorded.alone apart (recorded.mem seen)).inSight (Db.cut_at k readTs) c⟩

theorem scan_listing (legible : db.Legible) (free : ∀ key, db.getCf .lock key = none)
    (enough : db.remaining start < rounds) :
    (∀ resolve, db.Listing (fun limit => scan rounds start stop readTs limit resolve) start stop fun k v =>
      db.view.Shows k readTs (some (.put v))) ↔
    db.Straight start stop (fun k _ _ => ∃ v, db.Read readTs k v) ∧ ∀ k v, start ≤ k → BelowEnd stop k →
      db.view.Shows k readTs (some (.put v)) → db.Sighted (encodeDataKey k readTs) k fun c _ => c ≤ readTs := by
  have reads (k : Bytes) := readCommitted_value legible k readTs
  choose value read exact using reads
  obtain ⟨listed, lists, runs⟩ := legible.recorded.walked stop (fun k _ _ => value k) rounds start [] enough
  have answers (resolve : Bool) (limit : Nat) :
      Runs (scan rounds start stop readTs limit resolve).run db db (.ok (capped limit listed)) :=
    runs (scan_walks stop limit fun k _ _ _ => gives_free resolve (free k) (read k)) [] (Nat.eq_zero_or_pos limit)
  have picked : (fun k _ _ => ∃ v, db.Read readTs k v) = fun k (_ _ : Ts) => ∃ v, value k = some v := by
    funext k c s
    simp only [exact, Db.Read]
  rw [forall_congr' fun resolve => Db.listing_iff (answers resolve), forall_const, picked, ← lists.exact_iff]
  constructor
  · rintro ⟨ascending, exactly⟩
    have sighted (k v : Bytes) (inside : start ≤ k) (below : BelowEnd stop k)
        (shows : db.view.Shows k readTs (some (.put v))) : value k = some v := by
      obtain ⟨-, c, s, -, -, same⟩ := (lists.exact k v).mp ((exactly k v).mpr ⟨inside, below, shows⟩)
      exact same
    refine ⟨⟨ascending, fun k v => (exactly k v).trans ?_⟩, fun k v inside below shows =>
      ((exact k v).mp (sighted k v inside below shows)).2⟩
    refine and_congr_right fun inside => and_congr_right fun below => ⟨fun shows => ?_, fun ⟨_, _, _, same⟩ =>
      ((exact k v).mp same).1⟩
    obtain ⟨c, s, first⟩ := Db.first_of_shows inside shows
    exact ⟨c, s, first, sighted k v inside below shows⟩
  · rintro ⟨⟨ascending, exactly⟩, sighted⟩
    refine ⟨ascending, fun k v => (exactly k v).trans ?_⟩
    refine and_congr_right fun inside => and_congr_right fun below => ⟨fun ⟨_, _, _, same⟩ => ((exact k v).mp same).1,
      fun shows => ?_⟩
    obtain ⟨c, s, first⟩ := Db.first_of_shows inside shows
    exact ⟨c, s, first, (exact k v).mpr ⟨shows, sighted k v inside below shows⟩⟩

def Db.RangesExact (db : Db) (rounds : Nat) (start stop : Bytes) (readTs : Ts) : Prop :=
  (∀ resolve, db.Listing (fun limit => scan rounds start stop readTs limit resolve) start stop fun k v =>
    db.view.Shows k readTs (some (.put v))) ∧
  db.Listing (scanVersions rounds start stop) start stop fun k b => ∃ v, db.Latest k b.1 v ∧ b.2 = v.versioned

/-- The records of a range lie as its keys do, for the keys that reads show at the timestamp and for those with a latest
version, and every put of the range is in sight of its read. -/
structure Db.Orderly (db : Db) (start stop : Bytes) (readTs : Ts) : Prop where
  read : db.Straight start stop fun k _ _ => ∃ v, db.Read readTs k v
  sighted : ∀ k v, start ≤ k → BelowEnd stop k → db.view.Shows k readTs (some (.put v)) →
    db.Sighted (encodeDataKey k readTs) k fun c _ => c ≤ readTs
  stored : db.Straight start stop fun k _ s => ∃ v, db.view.value k s = some v

/-- The only version of `[1]` sorts in front of those of `[1, 9]`, as the keys do. -/
def nestedLate : List Op := committedTxn [1] (.put [7]) 5 maxTs ++ committedTxn [1, 9] (.put [8]) 6 11

theorem commit_nestedLate {k : Bytes} {c s : Ts} (seen : (Db.requests nestedLate).view.commit k c = some s) :
    k = [1] ∧ c = maxTs ∨ k = [1, 9] ∧ c = 11 := by
  have entries : (Db.requests nestedLate).writeCf.entries =
      [(encodeDataKey [1] maxTs, .put (encodeWriteValue 5)), (encodeDataKey [1, 9] 11, .put (encodeWriteValue 6))] := by
    decide
  obtain ⟨bytes, member⟩ := Db.mem_of_commit seen
  rw [entries] at member
  simp only [mem_cons, Prod.mk.injEq, encodeDataKey_inj, not_mem_nil, or_false] at member
  exact member.imp And.left And.left

def halfCommitted : List Op :=
  let txn : Transaction := ⟨5, ⟨[1], .put [8]⟩, [⟨[2], .put [9]⟩]⟩
  committedTxn [2] (.put [7]) 1 3 ++
    [.prewrite ⟨[1], (Value.put [8]).encode, txn.primary, 5, 50, .put⟩,
      .prewrite ⟨[2], (Value.put [9]).encode, txn.primary, 5, 50, .put⟩, .write (txn.primaryBatch 10)]

theorem issued_halfCommitted : ∀ op ∈ halfCommitted, op.Issued := by
  refine forall_mem_append.mpr ⟨issued_committedTxn _ _ _ _, forall_mem_cons.mpr ⟨⟨.put [8], rfl⟩,
    forall_mem_cons.mpr ⟨⟨.put [9], rfl⟩, forall_mem_singleton.mpr ?_⟩⟩⟩
  exact forall_mem_cons.mpr ⟨⟨_, _, _, rfl, rfl⟩, forall_mem_singleton.mpr trivial⟩

theorem Db.unblocked_of_entries (each : ∀ e ∈ db.lockCf.entries,
    (e.2.intoPresent.bind Lock.decode).all fun lock => readTs < lock.startTs) (k : Bytes) : ¬ db.Blocked k readTs := by
  rintro ⟨held, seen, early⟩
  obtain ⟨lock, decoded, rfl⟩ := Option.map_eq_some_iff.mp seen
  obtain ⟨bytes, found, decoded⟩ := Option.bind_eq_some_iff.mp decoded
  have later := each _ (OrdMap.find?_eq_some.mp (Db.getCf_eq_some.mp found))
  simp only [MemValue.intoPresent, Option.bind_some, decoded, Option.all_some, decide_eq_true_eq] at later
  exact later.not_ge early

def Db.ScanAgrees (db : Db) (rounds : Nat) (start stop : Bytes) (readTs : Ts) : Prop :=
  ∃ found, Runs (scan rounds start stop readTs 0 false).run db db (.ok found) ∧
    (∀ k v, (k, v) ∈ found → start ≤ k ∧ BelowEnd stop k) ∧
    ∀ k, start ≤ k → BelowEnd stop k → ∃ value, Runs (mvccGetUnresolved k readTs).run db db (.ok value) ∧
      ∀ v, (k, v) ∈ found ↔ value = some v

/-- A key that is blocked the scan takes for one without a value. -/
theorem mvccGetUnresolved_value (legible : db.Legible) (k : Bytes) : ∃ value, db.Gives false readTs k value ∧
    (∀ v, value = some v ↔ ¬ db.Blocked k readTs ∧ db.Read readTs k v) ∧
    (db.Blocked k readTs ∧ (∃ msg, Runs (mvccGetUnresolved k readTs).run db db (.error (.keyIsLocked msg))) ∨
      ¬ db.Blocked k readTs ∧ Runs (mvccGetUnresolved k readTs).run db db (.ok value)) := by
  obtain ⟨value, read, exact⟩ := readCommitted_value legible k readTs
  rcases mvccGetUnresolved_runs legible read with ⟨blocked, msg, runs⟩ | ⟨free, runs⟩
  · exact ⟨none, ⟨_, runs, .inr ⟨rfl, msg, rfl⟩⟩, fun v => ⟨nofun, fun shown => absurd blocked shown.1⟩,
      .inl ⟨blocked, msg, runs⟩⟩
  · exact ⟨value, ⟨_, runs, .inl rfl⟩, fun v => (exact v).trans ⟨fun shown => ⟨free, shown⟩, And.right⟩, .inr ⟨free, runs⟩⟩

theorem Db.Lists.mem_iff {keys : Set Bytes} {value : Bytes → Option Bytes} {listed : List (Bytes × Bytes)}
    (lists : db.Lists stop (fun k _ _ => value k) start [] listed) (recorded : db.Recorded keys) (apart : Apart keys)
    (k v : Bytes) : (k, v) ∈ listed ↔ db.Reaches start k ∧ BelowEnd stop k ∧ value k = some v := by
  rw [lists.exact]
  constructor
  · rintro ⟨-, c, s, first, reached, same⟩
    exact ⟨⟨c, s, first.1, first.2.1⟩, (recorded.open_iff apart first).mp reached, same⟩
  · rintro ⟨reaches, below, same⟩
    obtain ⟨c, s, first⟩ := reaches.first
    exact ⟨not_mem_nil, c, s, first, (recorded.open_iff apart first).mpr below, same⟩

/-- A scan without resolution lists what point reads show, over keys of which none starts with another, exactly if no key
of the range has a lock at or below the timestamp and none in front of it with a record behind its start is read. -/
theorem scan_agrees_with_reads (ops : List Op) (issued : ∀ op ∈ ops, op.Issued) (apart : Apart (Db.requests ops).committed)
    (start stop : Bytes) (readTs : Ts) (rounds : Nat) (enough : (Db.requests ops).remaining start < rounds) :
    (Db.requests ops).ScanAgrees rounds start stop readTs ↔
      (∀ k, start ≤ k → BelowEnd stop k → ¬ (Db.requests ops).Blocked k readTs) ∧
      ∀ k v, k < start → BelowEnd stop k → (Db.requests ops).Reaches start k → ¬ (Db.requests ops).Blocked k readTs →
        ¬ (Db.requests ops).view.Shows k readTs (some (.put v)) := by
  have legible := Db.legible_requests issued
  choose value gives exact answer using mvccGetUnresolved_value legible
  obtain ⟨listed, lists, walks⟩ := legible.recorded_committed.walked stop (fun k _ _ => value k) rounds start [] enough
  have runs := walks (scan_walks stop 0 fun k _ _ _ => gives k) [] (.inl rfl)
  have listed_iff := lists.mem_iff legible.recorded_committed apart
  constructor
  · rintro ⟨found, answered, inside, agrees⟩
    obtain rfl : listed = found := Except.ok.inj (Runs.unique runs answered)
    refine ⟨fun k above below blocked => ?_, fun k v less below reaches free shows => ?_⟩
    · obtain ⟨value', read, -⟩ := agrees k above below
      rcases answer k with ⟨-, msg, refused⟩ | ⟨free, -⟩
      · cases read.unique refused
      · exact free blocked
    · have sighted := legible.recorded_committed.sighted apart k readTs
      have shown : value k = some v := (exact k v).mpr ⟨free, shows, sighted⟩
      exact less.not_ge (inside k v ((listed_iff k v).mpr ⟨reaches, below, shown⟩)).1
  · rintro ⟨unblocked, unread⟩
    refine ⟨listed, runs, fun k v member => ?_, fun k above below => ⟨value k, ?_, fun v => ?_⟩⟩
    · obtain ⟨reaches, below, same⟩ := (listed_iff k v).mp member
      obtain ⟨free, shows, -⟩ := (exact k v).mp same
      exact ⟨le_of_not_gt fun less => unread k v less below reaches free shows, below⟩
    · exact ((answer k).resolve_left fun refused => unblocked k above below refused.1).2
    · refine (listed_iff k v).trans ⟨fun member => member.2.2, fun same => ⟨?_, below, same⟩⟩
      obtain ⟨c, s, first⟩ := Db.first_of_shows above ((exact k v).mp same).2.1
      exact ⟨c, s, first.1, first.2.1⟩

theorem apart_halfCommitted : Apart (Db.requests halfCommitted).committed := by
  have keys (k : Bytes) (mem : k ∈ (Db.requests halfCommitted).committed) : k = [1] ∨ k = [2] := by
    have entries : (Db.requests halfCommitted).writeCf.entries =
        [(encodeDataKey [1] 10, .put (encodeWriteValue 5)), (encodeDataKey [2] 3, .put (encodeWriteValue 1))] := by
      decide
    obtain ⟨c, s, seen⟩ := mem
    obtain ⟨bytes, member⟩ := Db.mem_of_commit seen
    rw [entries] at member
    simp only [mem_cons, Prod.mk.injEq, encodeDataKey_inj, not_mem_nil, or_false] at member
    exact member.imp (·.1.1) (·.1.1)
  intro k mem k' mem' part
  rcases keys k mem with rfl | rfl <;> rcases keys k' mem' with rfl | rfl
  · rfl
  · exact absurd part (by decide)
  · exact absurd part (by decide)
  · rfl

theorem scan_agrees_with_reads_halfCommitted : (Db.requests halfCommitted).ScanAgrees 3 [] [] 4 := by
  refine (scan_agrees_with_reads halfCommitted issued_halfCommitted apart_halfCommitted [] [] 4 3 (by decide)).mpr
    ⟨fun k _ _ => Db.unblocked_of_entries (by decide) k, fun k v less => ?_⟩
  exact absurd less (le_append [] k).not_gt

/-- The scan at 20 shows the new value of `[1]` and nothing of `[2]`, on which a point read reports the lock. -/
theorem locked_key_not_listed : (∀ op ∈ halfCommitted, op.Issued) ∧ Apart (Db.requests halfCommitted).committed ∧
    Runs (scan 3 [] [] 20 0 false).run (.requests halfCommitted) (.requests halfCommitted) (.ok [([1], [8])]) ∧
    ∃ msg, Runs (mvccGetUnresolved [2] 20).run (.requests halfCommitted) (.requests halfCommitted)
      (.error (.keyIsLocked msg)) :=
  ⟨issued_halfCommitted, apart_halfCommitted, fun _ => rfl, _, fun _ => rfl⟩

end Arcux.Engine
