import Arcux.Engine.Sequential

namespace Arcux.Engine

open Codec Data List
open scoped Codec.ByteOrder

def BelowEnd (stop key : Bytes) : Prop := stop = [] ∨ key < stop
  deriving Decidable

def scanFrom (stop : Bytes) (readTs : Ts) (limit : Nat) (resolve : Bool) :
    Nat → Bytes → List Bytes → List (Bytes × Bytes) → Program (List (Bytes × Bytes))
  | 0, _, _, _ => ExceptT.lift .halt
  | rounds + 1, cursor, seen, out => do
    let some (writeKey, _) ← seekCfRaw .write cursor | return out
    match decodeDataKey writeKey with
    | none => scanFrom stop readTs limit resolve rounds (writeKey ++ [0]) seen out
    | some (userKey, _) =>
      if ¬ BelowEnd stop userKey then return out
      else if userKey ∈ seen then scanFrom stop readTs limit resolve rounds (writeKey ++ [0]) seen out
      else do
        let resolved ← ExceptT.lift
          (if resolve then mvccGet userKey readTs else mvccGetUnresolved userKey readTs).run
        match resolved with
        | .ok (some value) =>
          if limit ≠ 0 ∧ limit ≤ (out ++ [(userKey, value)]).length then return out ++ [(userKey, value)]
          else scanFrom stop readTs limit resolve rounds (writeKey ++ [0]) (userKey :: seen) (out ++ [(userKey, value)])
        | .ok none => scanFrom stop readTs limit resolve rounds (writeKey ++ [0]) (userKey :: seen) out
        | .error (.keyIsLocked _) => scanFrom stop readTs limit resolve rounds (writeKey ++ [0]) (userKey :: seen) out
        | .error e => throw e

def scan (rounds : Nat) (start stop : Bytes) (readTs : Ts) (limit : Nat) (resolve : Bool) :
    Program (List (Bytes × Bytes)) :=
  scanFrom stop readTs limit resolve rounds start [] []

abbrev VersionedKv := Bytes × Ts × Bytes × Bool

def Value.versioned : Value → Bytes × Bool
  | put v => (v, false)
  | delete => ([], true)

def versionValue (userKey : Bytes) : MemValue → Program (Option Value)
  | .delete => return none
  | .put startBytes =>
    match decodeWriteValue startBytes with
    | none => return none
    | some startTs => do
      match ← getCfRaw .default (encodeDataKey userKey startTs) with
      | none => return none
      | some bytes => return Value.decode bytes

def scanVersionsFrom (stop : Bytes) (limit : Nat) :
    Nat → Bytes → List Bytes → List VersionedKv → Program (List VersionedKv)
  | 0, _, _, _ => ExceptT.lift .halt
  | rounds + 1, cursor, seen, out => do
    match ← seekCfRaw .write cursor with
    | none => return out
    | some (writeKey, stored) =>
      match decodeDataKey writeKey with
      | none => scanVersionsFrom stop limit rounds (writeKey ++ [0]) seen out
      | some (userKey, commitTs) =>
        if ¬ BelowEnd stop userKey then return out
        else if userKey ∈ seen then scanVersionsFrom stop limit rounds (writeKey ++ [0]) seen out
        else do
          match ← versionValue userKey stored with
          | none => scanVersionsFrom stop limit rounds (writeKey ++ [0]) (userKey :: seen) out
          | some value =>
            let out := out ++ [(userKey, commitTs, value.versioned)]
            if limit ≠ 0 ∧ limit ≤ out.length then return out
            else scanVersionsFrom stop limit rounds (writeKey ++ [0]) (userKey :: seen) out

def scanVersions (rounds : Nat) (start stop : Bytes) (limit : Nat) : Program (List VersionedKv) :=
  scanVersionsFrom stop limit rounds start [] []

variable {keys : Set Bytes} {db : Db}

def Db.Reaches (db : Db) (cursor k : Bytes) : Prop := ∃ c s, db.view.commit k c = some s ∧ cursor ≤ encodeDataKey k c

def Db.remaining (db : Db) (cursor : Bytes) : Nat := (db.writeCf.entries.filter (cursor ≤ ·.1)).length

theorem successor_le (key x : Bytes) : key ++ [0] ≤ x ↔ key < x := concat_le_iff (fun _ => UInt8.zero_le) key x

variable {stored : MemValue}

theorem Db.remaining_lt {cursor key : Bytes}
    (found : db.seekCf .write cursor = some (key, stored)) : db.remaining (key ++ [0]) < db.remaining cursor := by
  obtain ⟨bound, above, -⟩ := OrdMap.seek_eq_some.mp found
  have nested : db.writeCf.entries.filter (key ++ [0] ≤ ·.1) =
      (db.writeCf.entries.filter (cursor ≤ ·.1)).filter (key ++ [0] ≤ ·.1) := by
    rw [filter_filter]
    refine filter_congr fun e _ => ?_
    by_cases later : key < e.1
    · simp [successor_le, later, above.trans later.le]
    · simp [successor_le, later]
  rw [Db.remaining, nested, Db.remaining, length_filter_lt_length_iff_exists]
  refine ⟨(key, stored), mem_filter.mpr ⟨OrdMap.find?_eq_some.mp bound, by simpa using above⟩, ?_⟩
  simp [successor_le]

variable {c s : Ts}

theorem Db.Recorded.visits (recorded : db.Recorded keys) {cursor k₀ : Bytes} {c₀ : Ts}
    (found : db.seekCf .write cursor = some (encodeDataKey k₀ c₀, stored)) {k : Bytes}
    (seen : db.view.commit k c = some s) :
    cursor ≤ encodeDataKey k c ↔ k = k₀ ∧ c = c₀ ∨ encodeDataKey k₀ c₀ ++ [0] ≤ encodeDataKey k c := by
  obtain ⟨bound, above, least⟩ := OrdMap.seek_eq_some.mp found
  have there := recorded.commit_eq_some.mp seen
  rw [successor_le]
  constructor
  · intro reached
    rcases (least _ _ there reached).lt_or_eq with less | equal
    · exact .inr less
    · exact .inl (encodeDataKey_inj.mp equal.symm)
  · rintro (⟨rfl, rfl⟩ | less)
    · exact above
    · exact above.trans less.le

theorem Apart.le_of_encode_le (apart : Apart keys) {k k' : Bytes} (mem : k ∈ keys)
    (mem' : k' ∈ keys) {c c' : Ts} (le : encodeDataKey k c ≤ encodeDataKey k' c') : k ≤ k' := by
  rcases eq_or_ne k k' with rfl | differ
  · exact le_rfl
  · refine le_of_not_gt fun less => le.not_gt ?_
    exact (apart.encode_lt_of_ne mem' mem differ.symm _ _).mpr less

def Db.First (db : Db) (cursor k : Bytes) (c s : Ts) : Prop :=
  db.view.commit k c = some s ∧ cursor ≤ encodeDataKey k c ∧
    ∀ c' s', db.view.commit k c' = some s' → cursor ≤ encodeDataKey k c' → c' ≤ c

variable {cursor k : Bytes}

theorem Db.First.unique {c s c' s' : Ts} (first : db.First cursor k c s)
    (first' : db.First cursor k c' s') : c = c' ∧ s = s' := by
  obtain rfl : c = c' := le_antisymm (first'.2.2 c s first.1 first.2.1) (first.2.2 c' s' first'.1 first'.2.1)
  exact ⟨rfl, Option.some.inj (first.1.symm.trans first'.1)⟩

theorem Db.Reaches.first (reaches : db.Reaches cursor k) : ∃ c s, db.First cursor k c s := by
  obtain ⟨c₀, s₀, found⟩ := reaches
  obtain ⟨c, ⟨s, committed, reached⟩, newest⟩ := (measure fun c : Ts => 2 ^ 64 - c.toNat).wf.has_min
    {c | ∃ s, db.view.commit k c = some s ∧ cursor ≤ encodeDataKey k c} ⟨c₀, s₀, found⟩
  refine ⟨c, s, committed, reached, fun c' s' committed' reached' => le_of_not_gt fun later => ?_⟩
  exact newest c' ⟨s', committed', reached'⟩ (Nat.sub_lt_sub_left c.toNat_lt (UInt64.lt_iff_toNat_lt.mp later))

def capped {α : Type} (limit : Nat) (l : List α) : List α := if limit = 0 then l else l.take limit

theorem capped_self {α : Type} {limit : Nat} {l : List α} (room : limit = 0 ∨ l.length ≤ limit) :
    capped limit l = l := by
  unfold capped
  split
  · rfl
  case isFalse capping => exact take_of_length_le (room.resolve_left capping)

section

variable {β : Type}

def visitKey (stop : Bytes) (limit : Nat) (k : Bytes) (picked : Option β)
    (onward : List Bytes → List (Bytes × β) → Program (List (Bytes × β))) (seen : List Bytes) (out : List (Bytes × β)) :
    Program (List (Bytes × β)) :=
  if ¬ BelowEnd stop k then return out
  else if k ∈ seen then onward seen out
  else
    match picked with
    | none => onward (k :: seen) out
    | some b =>
      if limit ≠ 0 ∧ limit ≤ (out ++ [(k, b)]).length then return out ++ [(k, b)]
      else onward (k :: seen) (out ++ [(k, b)])

structure Walks (db : Db) (stop : Bytes) (limit : Nat) (pick : Bytes → Ts → Ts → Option β)
    (walk : Nat → Bytes → List Bytes → List (Bytes × β) → Program (List (Bytes × β))) : Prop where
  finish : ∀ rounds cursor seen out, db.seekCf .write cursor = none →
    Runs (walk (rounds + 1) cursor seen out).run db db (.ok out)
  visit : ∀ rounds cursor seen out k c s result, db.view.commit k c = some s →
    db.seekCf .write cursor = some (encodeDataKey k c, .put (encodeWriteValue s)) →
    Runs (visitKey stop limit k (pick k c s) (walk rounds (encodeDataKey k c ++ [0])) seen out).run db db result →
    Runs (walk (rounds + 1) cursor seen out).run db db result

variable {stop : Bytes} {pick : Bytes → Ts → Ts → Option β}

/-- No key at or behind the end of the range has a record between the cursor and the version `c` of `k`. -/
def Db.Open (db : Db) (stop cursor k : Bytes) (c : Ts) : Prop := ∀ k' c' s', db.view.commit k' c' = some s' →
  cursor ≤ encodeDataKey k' c' → encodeDataKey k' c' ≤ encodeDataKey k c → BelowEnd stop k'

def Db.Before (db : Db) (cursor : Bytes) (k k' : Bytes) : Prop :=
  ∀ c s c' s', db.First cursor k c s → db.First cursor k' c' s' → encodeDataKey k c < encodeDataKey k' c'

/-- What a walk from the cursor lists: each key at its first record, in the order of these records. -/
structure Db.Lists (db : Db) (stop : Bytes) (pick : Bytes → Ts → Ts → Option β) (cursor : Bytes) (seen : List Bytes)
    (listed : List (Bytes × β)) : Prop where
  ordered : listed.Pairwise fun e e' => db.Before cursor e.1 e'.1
  exact : ∀ k b, (k, b) ∈ listed ↔
    k ∉ seen ∧ ∃ c s, db.First cursor k c s ∧ db.Open stop cursor k c ∧ pick k c s = some b
  size : listed.length ≤ db.remaining cursor

variable {seen : List Bytes}

theorem Db.lists_nil {cursor : Bytes} (closed : ∀ k c s, db.First cursor k c s → ¬ db.Open stop cursor k c) :
    db.Lists stop pick cursor seen [] where
  ordered := List.Pairwise.nil
  exact k b := by
    refine ⟨nofun, ?_⟩
    rintro ⟨-, c, s, first, reached, -⟩
    exact absurd reached (closed k c s first)
  size := Nat.zero_le _

structure Db.Found (db : Db) (cursor k : Bytes) (c s : Ts) : Prop where
  committed : db.view.commit k c = some s
  first : db.First cursor k c s
  visits : ∀ k' c' s', db.view.commit k' c' = some s' → (cursor ≤ encodeDataKey k' c' ↔
    k' = k ∧ c' = c ∨ encodeDataKey k c ++ [0] ≤ encodeDataKey k' c')
  fewer : db.remaining (encodeDataKey k c ++ [0]) < db.remaining cursor

theorem Db.Recorded.found (recorded : db.Recorded keys)
    (hit : db.seekCf .write cursor = some (encodeDataKey k c, .put (encodeWriteValue s))) : db.Found cursor k c s := by
  obtain ⟨bound, above, -⟩ := OrdMap.seek_eq_some.mp hit
  have committed : db.view.commit k c = some s := recorded.commit_eq_some.mpr bound
  refine ⟨committed, ⟨committed, above, fun c' s' committed' reached' => ?_⟩, fun k' c' s' => recorded.visits hit,
    Db.remaining_lt hit⟩
  rcases (recorded.visits hit committed').mp reached' with ⟨-, rfl⟩ | later
  · exact le_rfl
  · exact (encodeDataKey_lt_encodeDataKey.mp ((successor_le _ _).mp later)).le

section

variable (found : db.Found cursor k c s)

include found

theorem Db.Found.others {k' : Bytes} (differ : k' ≠ k) (c' s' : Ts) :
    db.First cursor k' c' s' ↔ db.First (encodeDataKey k c ++ [0]) k' c' s' := by
  have visits {c' s' : Ts} (committed : db.view.commit k' c' = some s') :
      cursor ≤ encodeDataKey k' c' ↔ encodeDataKey k c ++ [0] ≤ encodeDataKey k' c' := by
    rw [found.visits k' c' s' committed]
    exact ⟨fun either => either.resolve_left fun same => differ same.1, .inr⟩
  refine and_congr_right fun committed => and_congr (visits committed) ?_
  exact forall_congr' fun c'' => forall_congr' fun s'' => imp_congr_right fun committed' =>
    imp_congr_left (visits committed')

theorem Db.Found.open_after {k' : Bytes} {c' s' : Ts} (first : db.First (encodeDataKey k c ++ [0]) k' c' s')
    (inside : BelowEnd stop k) : db.Open stop (encodeDataKey k c ++ [0]) k' c' ↔ db.Open stop cursor k' c' := by
  refine ⟨fun rest k'' v t committed reached le => ?_, fun all k'' v t committed reached => ?_⟩
  · rcases (found.visits k'' v t committed).mp reached with ⟨rfl, -⟩ | later
    · exact inside
    · exact rest k'' v t committed later le
  · exact all k'' v t committed ((found.visits k'' v t committed).mpr (.inr reached))

theorem Db.Found.closed (outside : ¬ BelowEnd stop k) {k' : Bytes} {c' s' : Ts} (first : db.First cursor k' c' s') :
    ¬ db.Open stop cursor k' c' := by
  intro reached
  refine outside (reached k c s found.committed found.first.2.1 ?_)
  rcases (found.visits k' c' s' first.1).mp first.2.1 with ⟨rfl, rfl⟩ | later
  · exact le_rfl
  · exact ((successor_le _ _).mp later).le

theorem Db.Found.open_here (inside : BelowEnd stop k) : db.Open stop cursor k c := by
  intro k' c' s' committed reached le
  rcases (found.visits k' c' s' committed).mp reached with ⟨rfl, -⟩ | later
  · exact inside
  · exact absurd le ((successor_le _ _).mp later).not_ge

variable {listed : List (Bytes × β)}

/-- What the walk lists behind the record it has found, it lists as well as seen from the record. -/
theorem Db.Found.rest (known : k ∈ seen) (inside : BelowEnd stop k)
    (lists : db.Lists stop pick (encodeDataKey k c ++ [0]) seen listed) : db.Lists stop pick cursor seen listed where
  ordered := by
    refine lists.ordered.imp_of_mem fun {e e'} member member' before c' s' c'' s'' first first' => ?_
    have apart {e : Bytes × β} (member : e ∈ listed) : e.1 ≠ k :=
      fun same => ((lists.exact e.1 e.2).mp member).1 (same ▸ known)
    exact before c' s' c'' s'' ((found.others (apart member) _ _).mp first) ((found.others (apart member') _ _).mp first')
  exact k' b := by
    rw [lists.exact k' b]
    refine and_congr_right fun unseen => exists_congr fun c' => exists_congr fun s' => ?_
    rw [found.others (show k' ≠ k from fun same => unseen (same ▸ known))]
    exact and_congr_right fun first => and_congr_left fun _ => found.open_after first inside
  size := lists.size.trans found.fewer.le

theorem Db.Found.visit (unknown : k ∉ seen) (inside : BelowEnd stop k)
    (lists : db.Lists stop pick (encodeDataKey k c ++ [0]) (k :: seen) listed) :
    db.Lists stop pick cursor seen ((pick k c s).toList.map (k, ·) ++ listed) := by
  have rest := found.rest (mem_cons_self ..) inside lists
  refine ⟨pairwise_append.mpr ⟨?_, rest.ordered, fun e member e' member' => ?_⟩, fun k' b => ?_, ?_⟩
  · cases pick k c s with
    | none => exact List.Pairwise.nil
    | some b => exact pairwise_singleton ..
  · obtain ⟨b, -, rfl⟩ := mem_map.mp member
    obtain ⟨unseen, -⟩ := (rest.exact e'.1 e'.2).mp member'
    intro c₁ s₁ c' s' first first'
    obtain ⟨rfl, -⟩ := first.unique found.first
    rcases (found.visits e'.1 c' s' first'.1).mp first'.2.1 with ⟨same, -⟩ | later
    · exact absurd same (ne_of_not_mem_cons unseen)
    · exact (successor_le _ _).mp later
  · rw [mem_append, rest.exact k' b]
    rcases eq_or_ne k' k with rfl | differ
    · have picked : (∃ c' s', db.First cursor k' c' s' ∧ db.Open stop cursor k' c' ∧ pick k' c' s' = some b) ↔
          pick k' c s = some b := by
        refine ⟨fun ⟨c', s', first, _, picked⟩ => ?_, fun picked => ⟨c, s, found.first, found.open_here inside, picked⟩⟩
        obtain ⟨rfl, rfl⟩ := first.unique found.first
        exact picked
      simp [picked, unknown]
    · simp [differ, Ne.symm differ]
  · have single : ((pick k c s).toList.map (k, ·)).length ≤ 1 := by
      cases pick k c s <;> simp
    have shorter := lists.size
    have fewer := found.fewer
    rw [length_append]
    omega

end

variable {listed : List (Bytes × β)}

theorem Db.Lists.distinct (lists : db.Lists stop pick cursor [] listed) : (listed.map Prod.fst).Nodup := by
  rw [List.Nodup, pairwise_map]
  refine lists.ordered.imp_of_mem fun {e e'} member _ before same => ?_
  obtain ⟨-, c, s, first, -⟩ := (lists.exact e.1 e.2).mp member
  exact lt_irrefl _ (same ▸ before c s c s first (same ▸ first) : encodeDataKey e.1 c < encodeDataKey e.1 c)

theorem Db.Lists.ascending (lists : db.Lists stop pick cursor [] listed) (recorded : db.Recorded keys) (apart : Apart keys) :
    listed.Pairwise (·.1 < ·.1) := by
  have distinct := pairwise_map.mp lists.distinct
  refine (distinct.and lists.ordered).imp_of_mem fun {e e'} member member' ⟨differ, before⟩ => lt_of_le_of_ne ?_ differ
  obtain ⟨-, c, s, first, -⟩ := (lists.exact e.1 e.2).mp member
  obtain ⟨-, c', s', first', -⟩ := (lists.exact e'.1 e'.2).mp member'
  exact apart.le_of_encode_le (recorded.mem first.1) (recorded.mem first'.1) (before c s c' s' first first').le

/-- Over keys of which none starts with another the walk ends where the keys of the range do. -/
theorem Db.Recorded.open_iff (recorded : db.Recorded keys) (apart : Apart keys) (first : db.First cursor k c s) :
    db.Open stop cursor k c ↔ BelowEnd stop k := by
  refine ⟨fun reached => reached k c s first.1 first.2.1 le_rfl, fun inside k' c' s' committed _ le => ?_⟩
  exact inside.imp_right (apart.le_of_encode_le (recorded.mem committed) (recorded.mem first.1) le).trans_lt

theorem Db.Recorded.walked (recorded : db.Recorded keys) (stop : Bytes) (pick : Bytes → Ts → Ts → Option β)
    (rounds : Nat) (cursor : Bytes) (seen : List Bytes) (enough : db.remaining cursor < rounds) :
    ∃ listed, db.Lists stop pick cursor seen listed ∧ ∀ {limit walk}, Walks db stop limit pick walk →
      ∀ out, limit = 0 ∨ out.length < limit →
        Runs (walk rounds cursor seen out).run db db (.ok (capped limit (out ++ listed))) := by
  induction rounds generalizing cursor seen with
  | zero => exact absurd enough (Nat.not_lt_zero _)
  | succ rounds ih =>
    have whole {limit : Nat} {out : List (Bytes × β)} (room : limit = 0 ∨ out.length < limit) :
        capped limit (out ++ []) = out := by
      rw [append_nil]
      exact capped_self (room.imp_right le_of_lt)
    cases hit : db.seekCf .write cursor with
    | none =>
      refine ⟨[], Db.lists_nil fun k c s first => ?_, fun walks out room => ?_⟩
      · have there := recorded.commit_eq_some.mp first.1
        exact absurd first.2.1 (OrdMap.seek_eq_none.mp hit _ _ there).not_ge
      · rw [whole room]
        exact walks.finish rounds cursor seen out hit
    | some entry =>
      obtain ⟨key, stored⟩ := entry
      obtain ⟨k, -, c, s, rfl, rfl⟩ := recorded _ _ (OrdMap.seek_eq_some.mp hit).1
      have found := recorded.found hit
      have fewer : db.remaining (encodeDataKey k c ++ [0]) < rounds :=
        found.fewer.trans_le (Nat.le_of_lt_succ enough)
      by_cases inside : BelowEnd stop k
      · by_cases known : k ∈ seen
        · obtain ⟨listed, lists, runs⟩ := ih (encodeDataKey k c ++ [0]) seen fewer
          refine ⟨listed, found.rest known inside lists, fun walks out room =>
            walks.visit _ _ _ _ _ _ _ _ found.committed hit ?_⟩
          unfold visitKey
          rw [if_neg (not_not.mpr inside), if_pos known]
          exact runs walks out room
        · obtain ⟨listed, lists, runs⟩ := ih (encodeDataKey k c ++ [0]) (k :: seen) fewer
          refine ⟨_, found.visit known inside lists, fun {limit _} walks out room =>
            walks.visit _ _ _ _ _ _ _ _ found.committed hit ?_⟩
          unfold visitKey
          rw [if_neg (not_not.mpr inside), if_neg known]
          cases pick k c s with
          | none => exact runs walks out room
          | some b =>
            dsimp only
            rw [Option.toList_some, map_singleton, ← append_assoc]
            split
            case isTrue full =>
              have reached : (out ++ [(k, b)]).length = limit := by
                have := full.2
                rw [length_append, length_singleton] at this ⊢
                omega
              rw [capped, if_neg full.1, ← reached, take_left]
              exact Runs.ret _
            case isFalse =>
              refine runs walks _ ?_
              omega
      · refine ⟨[], Db.lists_nil fun k' c' s' => found.closed inside, fun walks out room => ?_⟩
        refine walks.visit _ _ _ _ _ _ _ _ found.committed hit ?_
        unfold visitKey
        rw [if_pos inside, whole room]
        exact Runs.ret _

end

def Db.Gives (db : Db) (resolve : Bool) (readTs : Ts) (k : Bytes) (value : Option Bytes) : Prop :=
  ∃ result, Runs (if resolve then mvccGet k readTs else mvccGetUnresolved k readTs).run db db result ∧
    (result = .ok value ∨ value = none ∧ ∃ msg, result = .error (.keyIsLocked msg))

theorem scan_walks (stop : Bytes) {readTs : Ts} (limit : Nat) {resolve : Bool} {value : Bytes → Option Bytes}
    (gives : ∀ k c s, db.view.commit k c = some s → db.Gives resolve readTs k (value k)) :
    Walks db stop limit (fun k _ _ => value k) (scanFrom stop readTs limit resolve) where
  finish rounds cursor seen out missed := (Runs.seekCfRaw missed).ok (Runs.ret _)
  visit rounds cursor seen out k c s result committed hit visited := by
    obtain ⟨got, get, answer⟩ := gives k c s committed
    have enter : Runs (ExceptT.lift (if resolve then mvccGet k readTs else mvccGetUnresolved k readTs).run :
      Program _).run db db (.ok got) := Runs.lift get
    refine (Runs.seekCfRaw hit).ok ?_
    unfold visitKey at visited
    by_cases inside : BelowEnd stop k
    · by_cases known : k ∈ seen
      · simpa [inside, known] using visited
      · simp only [decodeDataKey_encodeDataKey, inside, known, not_true_eq_false, if_false] at visited ⊢
        rcases answer with rfl | ⟨valueless, msg, rfl⟩
        · cases found : value k <;> rw [found] at enter visited <;> exact enter.ok visited
        · rw [valueless] at visited
          exact enter.ok visited
    · simpa [inside] using visited

def Db.Latest (db : Db) (k : Bytes) (c : Ts) (v : Value) : Prop :=
  ∃ s, db.view.commit k c = some s ∧ (∀ c' s', db.view.commit k c' = some s' → c' ≤ c) ∧ db.view.value k s = some v

theorem versionValue_runs (db : Db) (key : Bytes) (startTs : Ts) :
    Runs (versionValue key (.put (encodeWriteValue startTs))).run db db (.ok (db.view.value key startTs)) := by
  rw [versionValue, decodeWriteValue_encodeWriteValue]
  refine (Runs.getCfRaw rfl).ok ?_
  rw [Db.view]
  dsimp only
  cases db.getCf .default (encodeDataKey key startTs) <;> exact Runs.ret _

theorem scanVersions_walks (stop : Bytes) (limit : Nat) :
    Walks db stop limit (fun k c s => (db.view.value k s).map fun v => (c, v.versioned)) (scanVersionsFrom stop limit) where
  finish rounds cursor seen out missed := (Runs.seekCfRaw missed).ok (Runs.ret _)
  visit rounds cursor seen out k c s result committed hit visited := by
    have value := versionValue_runs db k s
    refine (Runs.seekCfRaw hit).ok ?_
    unfold visitKey at visited
    by_cases inside : BelowEnd stop k
    · by_cases known : k ∈ seen
      · simpa [inside, known] using visited
      · simp only [decodeDataKey_encodeDataKey, inside, known, not_true_eq_false, if_false] at visited ⊢
        cases valued : db.view.value k s <;> rw [valued] at value visited <;> exact value.ok visited
    · simpa [inside] using visited

theorem Db.latest_iff_first {c : Ts} {v : Value}
    (ahead : ∀ c s, db.view.commit k c = some s → cursor ≤ encodeDataKey k c) :
    db.Latest k c v ↔ ∃ s, db.First cursor k c s ∧ db.view.value k s = some v := by
  refine exists_congr fun s => ⟨fun ⟨committed, newest, valued⟩ => ?_, fun ⟨⟨committed, _, newest⟩, valued⟩ => ?_⟩
  · exact ⟨⟨committed, ahead c s committed, fun c' s' committed' _ => newest c' s' committed'⟩, valued⟩
  · exact ⟨committed, fun c' s' committed' => newest c' s' committed' (ahead c' s' committed'), valued⟩

end Arcux.Engine
