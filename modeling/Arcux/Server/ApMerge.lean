import Arcux.Server.ApConvergence

namespace Arcux.Server.Ap

open Codec Concurrency Engine List Region
open scoped Codec.ByteOrder

theorem toAeVersion_injective : Function.Injective toAeVersion := by
  rintro ⟨k, c, v, d⟩ ⟨k', c', v', d'⟩ same
  cases same
  rfl

structure Item where
  key : Bytes
  value : Value
  ts : Ts

def Item.version (item : Item) : Version := ofValue item.key item.value item.ts

def pull (region : ApRegion) (rounds node peer : Nat) : Script (Except Error (List Version)) := do
  match ← onNode node (scanVersions rounds region.start region.stop 0) with
  | .error e => return .error e
  | .ok mine =>
    match ← onNode peer (scanVersions rounds region.start region.stop 0) with
    | .error e => return .error e
    | .ok theirs =>
      adopt node (toAdopt (stampOf (mine.map toAeVersion)) (theirs.map toAeVersion))
      return .ok (theirs.map toAeVersion)

structure Replicas where
  cluster : Cluster
  reached : Nat → List Version

inductive Merge where
  | deliver (node : Nat) (item : Item)
  | pull (region : ApRegion) (node peer : Nat)

def Merge.node : Merge → Nat
  | deliver node _ => node
  | pull _ node _ => node

def exchange (region : ApRegion) (a b : Nat) (between : List Merge) : List Merge :=
  .pull region a b :: (between ++ [.pull region b a])

namespace Replicas

def db (s : Replicas) (i : Nat) : Db := (s.cluster.engine i).db

def seeks (s : Replicas) (region : ApRegion) (node peer : Nat) : Nat :=
  max ((s.db node).remaining region.start) ((s.db peer).remaining region.start) + 1

def start (initial : Nat → List Item) (hlc : Nat → Ts) : Replicas where
  cluster := { engine := fun i => ⟨storeAll .empty ((initial i).map Item.version), .fresh⟩, hlc }
  reached i := (initial i).map Item.version

def exec (s : Replicas) : Merge → Replicas
  | .deliver node item =>
    ⟨((apApply node item.key item.value item.ts).eval Call.exec s.cluster).1,
      Function.update s.reached node (item.version :: s.reached node)⟩
  | .pull region node peer =>
    ⟨((Ap.pull region (s.seeks region node peer) node peer).eval Call.exec s.cluster).1,
      Function.update s.reached node (s.cluster.versions region (s.seeks region node peer) peer ++ s.reached node)⟩

end Replicas

structure Mergeable (items : Set Item) : Prop where
  apart : Apart (Item.key '' items)
  unique : ∀ a ∈ items, ∀ b ∈ items, a.key = b.key → a.ts = b.ts → a.value = b.value

def Merge.Within (items : Set Item) : Merge → Prop
  | deliver _ item => item ∈ items
  | pull .. => True

def IsNewest (versions : List Version) (v : Version) : Prop :=
  v ∈ versions ∧ ∀ u ∈ versions, u.key = v.key → u.version ≤ v.version

variable {v : Value}

theorem commit_store_isSome {db : Db} {k k' : Bytes} {c c' : Ts} :
    ((db.commitBatch (committedBatch k v c c)).view.commit k' c').isSome ↔
      k' = k ∧ c' = c ∨ (db.view.commit k' c').isSome := by
  rw [Holds.view_committedBatch]
  simp only [Percolator.Store.putCommitted]
  split_ifs with here <;> simp [here]

variable {versions : List Version}

theorem commit_storeAll_isSome {db : Db} {k : Bytes} {c : Ts} :
    ((storeAll db versions).view.commit k c).isSome ↔
      (∃ u ∈ versions, u.key = k ∧ u.version = c) ∨ (db.view.commit k c).isSome := by
  induction versions generalizing db with
  | nil => simp [storeAll]
  | cons v rest ih =>
    rw [storeAll, foldl_cons, ← storeAll, ih, commit_store_isSome]
    simp only [exists_mem_cons_iff, or_assoc, or_left_comm, eq_comm]

variable {keys : Set Bytes} {reached : List Version} {db : Db}

/-- Everything stored has reached the replica, and of all that has reached it, something at least as new is stored. -/
structure Holding (keys : Set Bytes) (reached : List Version) (db : Db) : Prop where
  holds : Holds keys reached db
  covered : ∀ u ∈ reached, ∃ c, (db.view.commit u.key c).isSome ∧ u.version ≤ c

namespace Holding

theorem empty : Holding keys [] .empty := ⟨Holds.empty, nofun⟩

section

variable (holding : Holding keys reached db)

include holding

variable {k : Bytes}

theorem stored {c : Ts} (committed : (db.view.commit k c).isSome) :
    db.view.commit k c = some c ∧ ∃ v, db.view.value k c = some v ∧ ofValue k v c ∈ reached := by
  obtain ⟨start, found⟩ := Option.isSome_iff_exists.mp committed
  obtain rfl := holding.holds.start_eq found
  obtain ⟨k', -, c', place, -, valued⟩ := holding.holds.writes _ _ (holding.holds.recorded.commit_eq_some.mp found)
  obtain ⟨rfl, rfl⟩ := encodeDataKey_inj.mp place
  obtain ⟨v, value⟩ := Option.isSome_iff_exists.mp valued
  exact ⟨found, v, value, holding.holds.values _ _ _ value⟩

theorem store (mem : k ∈ keys) (v : Value) (c : Ts) :
    Holding keys (ofValue k v c :: reached) (db.commitBatch (committedBatch k v c c)) where
  holds := (holding.holds.mono (subset_cons_self ..)).commit mem (mem_cons_self ..)
  covered := by
    refine forall_mem_cons.mpr ⟨⟨c, commit_store_isSome.mpr (.inl ⟨rfl, rfl⟩), le_rfl⟩, fun u member => ?_⟩
    obtain ⟨c', committed, newer⟩ := holding.covered u member
    exact ⟨c', commit_store_isSome.mpr (.inr committed), newer⟩

theorem storeAll (formed : ∀ u ∈ versions, u.key ∈ keys ∧ ofValue u.key (toValue u) u.version = u) :
    Holding keys (versions ++ reached) (storeAll db versions) := by
  induction versions generalizing db reached with
  | nil => exact holding
  | cons u rest ih =>
    obtain ⟨⟨mem, shaped⟩, others⟩ := forall_mem_cons.mp formed
    have first := holding.store mem (toValue u) u.version
    rw [shaped] at first
    have all := ih first others
    have same : rest ++ u :: reached ⊆ u :: rest ++ reached := by simp
    refine ⟨all.holds.mono same, fun u' member => all.covered u' ?_⟩
    simpa [or_left_comm] using member

theorem exists_latest {u : Version} (arrived : u ∈ reached) : ∃ c v, db.Latest u.key c v ∧ u.version ≤ c := by
  obtain ⟨c₀, committed, newer⟩ := holding.covered u arrived
  obtain ⟨s, found⟩ := Option.isSome_iff_exists.mp committed
  have reaches : db.Reaches ⊥ u.key := ⟨c₀, s, found, bot_le⟩
  obtain ⟨c, start, first⟩ := reaches.first
  obtain ⟨own, v, value, -⟩ := holding.stored (Option.isSome_iff_exists.mpr ⟨start, first.1⟩)
  obtain rfl : c = start := Option.some.inj (own.symm.trans first.1)
  refine ⟨c, v, ⟨c, first.1, fun c' s' found' => first.2.2 c' s' found' bot_le, value⟩, ?_⟩
  exact newer.trans (first.2.2 c₀ s found bot_le)

theorem latest_iff (unique : ∀ a ∈ reached, ∀ b ∈ reached, a.key = b.key → a.version = b.version → a = b)
    {c : Ts} : db.Latest k c v ↔ IsNewest reached (ofValue k v c) := by
  constructor
  · rintro ⟨start, found, newest, value⟩
    obtain rfl := holding.holds.start_eq found
    refine ⟨holding.holds.values _ _ _ value, fun u member named => ?_⟩
    obtain ⟨c', committed, newer⟩ := holding.covered u member
    rw [named] at committed
    obtain ⟨s', found'⟩ := Option.isSome_iff_exists.mp committed
    exact newer.trans (newest c' s' found')
  · rintro ⟨arrived, newest⟩
    obtain ⟨c', v', latest, newer⟩ := holding.exists_latest arrived
    have ⟨start, found, _, value⟩ := latest
    obtain rfl := holding.holds.start_eq found
    have arrived' := holding.holds.values _ _ _ value
    obtain rfl : c = start := le_antisymm newer (newest _ arrived' rfl)
    have same := congrArg toValue (unique _ arrived _ arrived' rfl rfl)
    rw [toValue_ofValue, toValue_ofValue] at same
    exact same ▸ latest

end

end Holding

def Visible (db : Db) (region : ApRegion) (k : Bytes) (c : Ts) : Prop :=
  BelowEnd region.stop k ∧ (db.view.commit k c).isSome ∧ region.start ≤ encodeDataKey k c

section

variable {s : Cluster} {region : ApRegion} {rounds i : Nat}

theorem mem_versions_iff (apart : Apart keys) (holding : Holding keys reached (s.engine i).db)
    (enough : (s.engine i).db.remaining region.start < rounds) {u : Version} :
    u ∈ s.versions region rounds i ↔ (∃ v, (s.engine i).db.view.value u.key u.version = some v ∧
        u = ofValue u.key v u.version) ∧ Visible (s.engine i).db region u.key u.version ∧
      ∀ c, Visible (s.engine i).db region u.key c → c ≤ u.version := by
  obtain ⟨found, lists, -, same⟩ := scan_lists holding.holds.recorded enough
  rw [same, mem_map]
  constructor
  · rintro ⟨⟨k, c, shown⟩, member, rfl⟩
    obtain ⟨-, c', start, first, reached, picked⟩ := (lists.exact _ _).mp member
    have below := (holding.holds.recorded.open_iff apart first).mp reached
    obtain ⟨v, valued, shape⟩ := Option.map_eq_some_iff.mp picked
    cases shape
    obtain rfl := holding.holds.start_eq first.1
    refine ⟨⟨v, valued, rfl⟩, ⟨below, Option.isSome_iff_exists.mpr ⟨_, first.1⟩, first.2.1⟩, ?_⟩
    rintro c' ⟨-, committed, ahead⟩
    exact first.2.2 c' _ (holding.stored committed).1 ahead
  · rintro ⟨⟨v, valued, shape⟩, ⟨below, committed, ahead⟩, newest⟩
    have first : (s.engine i).db.First region.start u.key u.version u.version := by
      refine ⟨(holding.stored committed).1, ahead, fun c' s' found' ahead' => newest c' ⟨below, ?_, ahead'⟩⟩
      exact Option.isSome_iff_exists.mpr ⟨s', found'⟩
    refine ⟨(u.key, u.version, v.versioned), (lists.exact _ _).mpr ⟨not_mem_nil, u.version, u.version, first, ?_, ?_⟩,
      shape.symm⟩
    · exact (holding.holds.recorded.open_iff apart first).mpr below
    · rw [valued]
      rfl

theorem versions_ascending (apart : Apart keys) (holding : Holding keys reached (s.engine i).db)
    (enough : (s.engine i).db.remaining region.start < rounds) :
    (s.versions region rounds i).Pairwise (·.key < ·.key) := by
  obtain ⟨found, lists, -, same⟩ := scan_lists holding.holds.recorded enough
  rw [same, pairwise_map]
  exact lists.ascending holding.holds.recorded apart

theorem exists_listed (apart : Apart keys) (holding : Holding keys reached (s.engine i).db)
    (enough : (s.engine i).db.remaining region.start < rounds) {k : Bytes} {c : Ts}
    (visible : Visible (s.engine i).db region k c) : ∃ u ∈ s.versions region rounds i, u.key = k ∧ c ≤ u.version := by
  obtain ⟨below, committed, ahead⟩ := visible
  have reaches : (s.engine i).db.Reaches region.start k := ⟨c, c, (holding.stored committed).1, ahead⟩
  obtain ⟨c', start, first⟩ := reaches.first
  have committed' := Option.isSome_iff_exists.mpr ⟨start, first.1⟩
  obtain ⟨-, v, valued, -⟩ := holding.stored committed'
  refine ⟨ofValue k v c', (mem_versions_iff apart holding enough).mpr ⟨⟨v, valued, rfl⟩, ?_, ?_⟩, rfl, ?_⟩
  · exact ⟨below, committed', first.2.1⟩
  · rintro c'' ⟨-, committed'', ahead''⟩
    exact first.2.2 c'' _ (holding.stored committed'').1 ahead''
  · exact first.2.2 c c (holding.stored committed).1 ahead

theorem pull_returns {peer : Nat} {theirs : List Version}
    (here : Holding keys reached (s.engine i).db) (there : Holding keys theirs (s.engine peer).db)
    (enough : (s.engine i).db.remaining region.start < rounds)
    (enough' : (s.engine peer).db.remaining region.start < rounds) :
    ∃ s', (pull region rounds i peer).eval Call.exec s = (s', some (.ok (s.versions region rounds peer))) ∧
      s.Stored i (storeAll (s.engine i).db
        (toAdopt (stampOf (s.versions region rounds i)) (s.versions region rounds peer))) s' := by
  obtain ⟨mine, -, reads, same⟩ := scan_lists here.holds.recorded enough
  obtain ⟨found, -, reads', same'⟩ := scan_lists there.holds.recorded enough'
  obtain ⟨s', returned, stored⟩ := adopt_returns i
    (toAdopt (stampOf (s.versions region rounds i)) (s.versions region rounds peer)) s
  refine ⟨s', ?_, stored⟩
  rw [pull, reads.bind]
  dsimp only
  rw [reads'.bind]
  dsimp only
  rw [← same, ← same', Prog.eval_bind, returned]
  rfl

end

namespace Replicas

variable {items : Set Item} {s : Replicas}

structure Sound (items : Set Item) (s : Replicas) : Prop where
  holding : ∀ i, Holding (Item.key '' items) (s.reached i) (s.db i)
  known : ∀ i, ∀ u ∈ s.reached i, ∃ item ∈ items, item.version = u

theorem Sound.unique (sound : Sound items s) (mergeable : Mergeable items) {i j : Nat} :
    ∀ a ∈ s.reached i, ∀ b ∈ s.reached j, a.key = b.key → a.version = b.version → a = b := by
  intro a member b member' sameKey sameTs
  obtain ⟨x, mem, rfl⟩ := sound.known i a member
  obtain ⟨y, mem', rfl⟩ := sound.known j b member'
  have same : x.value = y.value := mergeable.unique x mem y mem' sameKey sameTs
  change ofValue x.key x.value x.ts = ofValue y.key y.value y.ts
  rw [same]
  exact congrArg₂ (fun k c => ofValue k y.value c) sameKey sameTs

theorem enough_here (s : Replicas) (region : ApRegion) (node peer : Nat) :
    (s.db node).remaining region.start < s.seeks region node peer :=
  Nat.lt_succ_of_le (le_max_left ..)

theorem enough_there (s : Replicas) (region : ApRegion) (node peer : Nat) :
    (s.db peer).remaining region.start < s.seeks region node peer :=
  Nat.lt_succ_of_le (le_max_right ..)

theorem Sound.pull_stored (sound : Sound items s) (region : ApRegion) (node peer : Nat) :
    s.cluster.Stored node (storeAll (s.db node)
      (toAdopt (stampOf (s.cluster.versions region (s.seeks region node peer) node))
        (s.cluster.versions region (s.seeks region node peer) peer))) (s.exec (.pull region node peer)).cluster := by
  obtain ⟨s', returned, stored⟩ := pull_returns (sound.holding node) (sound.holding peer)
    (s.enough_here region node peer) (s.enough_there region node peer)
  simp only [exec, returned]
  exact stored

theorem Sound.versions_reached (sound : Sound items s) (mergeable : Mergeable items) {region : ApRegion}
    {rounds i : Nat} (enough : (s.db i).remaining region.start < rounds) :
    s.cluster.versions region rounds i ⊆ s.reached i := by
  intro u listed
  obtain ⟨⟨v, valued, shape⟩, -⟩ := (mem_versions_iff mergeable.apart (sound.holding i) enough).mp listed
  rw [shape]
  exact (sound.holding i).holds.values _ _ _ valued

structure Arrival (items : Set Item) (s : Replicas) (e : Merge) (stored arrived : List Version) : Prop where
  cluster : s.cluster.Stored e.node (storeAll (s.db e.node) stored) (s.exec e).cluster
  reached : (s.exec e).reached = Function.update s.reached e.node (arrived ++ s.reached e.node)
  known : ∀ u ∈ arrived, ∃ item ∈ items, item.version = u
  sub : stored ⊆ arrived
  rest : ∀ u ∈ arrived, u ∈ stored ∨ ∃ c, ((s.db e.node).view.commit u.key c).isSome ∧ u.version ≤ c

variable {e : Merge}

theorem Sound.arrival (sound : Sound items s) (mergeable : Mergeable items) (within : e.Within items) :
    ∃ stored arrived, Arrival items s e stored arrived := by
  cases e with
  | deliver node item =>
    refine ⟨[item.version], [item.version], ?_, rfl, forall_mem_singleton.mpr ⟨item, within, rfl⟩,
      Subset.refl _, fun u member => .inl member⟩
    obtain ⟨s', returned, stored⟩ := apApply_returns node item.key item.value item.ts s.cluster
    have one : storeAll (s.db node) [item.version] =
        (s.db node).commitBatch (committedBatch item.key item.value item.ts item.ts) := by
      rw [storeAll, foldl_cons, foldl_nil, Item.version, toValue_ofValue]
      rfl
    simp only [exec, returned, Merge.node, one]
    exact stored
  | pull region node peer =>
    refine ⟨_, _, sound.pull_stored region node peer, rfl, fun u listed => ?_, filter_subset_self .., ?_⟩
    · exact sound.known peer u (sound.versions_reached mergeable (s.enough_there region node peer) listed)
    · intro u fetched
      by_cases stored : u ∈ toAdopt (stampOf (s.cluster.versions region (s.seeks region node peer) node))
        (s.cluster.versions region (s.seeks region node peer) peer)
      · exact .inl stored
      · obtain ⟨u', listed, named, newer⟩ := listed_of_not_adopted fetched stored
        obtain ⟨-, ⟨-, committed, -⟩, -⟩ := (mem_versions_iff mergeable.apart (sound.holding node)
          (s.enough_here region node peer)).mp listed
        rw [named] at committed
        exact .inr ⟨_, committed, newer⟩

theorem Sound.exec (sound : Sound items s) (mergeable : Mergeable items) (within : e.Within items) :
    Sound items (s.exec e) := by
  obtain ⟨stored, arrived, arrival⟩ := sound.arrival mergeable within
  have formed : ∀ u ∈ stored, u.key ∈ Item.key '' items ∧ ofValue u.key (toValue u) u.version = u := by
    intro u member
    obtain ⟨item, mem, rfl⟩ := arrival.known u (arrival.sub member)
    exact ⟨⟨item, mem, rfl⟩, by rw [Item.version, toValue_ofValue]; rfl⟩
  have grown := (sound.holding e.node).storeAll formed
  have here : Holding (Item.key '' items) (arrived ++ s.reached e.node) (storeAll (s.db e.node) stored) := by
    have sub : stored ++ s.reached e.node ⊆ arrived ++ s.reached e.node :=
      append_subset.mpr ⟨subset_append_of_subset_left _ arrival.sub, subset_append_right ..⟩
    refine ⟨grown.holds.mono sub, forall_mem_append.mpr ⟨?_, ?_⟩⟩
    · intro u member
      rcases arrival.rest u member with adopted | ⟨c, committed, newer⟩
      · exact ⟨u.version, commit_storeAll_isSome.mpr (.inl ⟨u, adopted, rfl, rfl⟩), le_rfl⟩
      · exact ⟨c, commit_storeAll_isSome.mpr (.inr committed), newer⟩
    · exact fun u member => grown.covered u (mem_append_right _ member)
  constructor
  · intro i
    rw [arrival.reached]
    rcases eq_or_ne i e.node with rfl | other
    · rw [Function.update_self, db, arrival.cluster.here]
      exact here
    · rw [Function.update_of_ne other, db, arrival.cluster.others i other]
      exact sound.holding i
  · intro i u member
    rw [arrival.reached] at member
    rcases eq_or_ne i e.node with rfl | other
    · rw [Function.update_self] at member
      rcases mem_append.mp member with new | old
      · exact arrival.known u new
      · exact sound.known _ u old
    · rw [Function.update_of_ne other] at member
      exact sound.known i u member

variable {events : List Merge}

theorem Sound.run (sound : Sound items s) (mergeable : Mergeable items)
    (within : ∀ e ∈ events, e.Within items) : Sound items (events.foldl Replicas.exec s) := by
  induction events generalizing s with
  | nil => exact sound
  | cons e rest ih =>
    obtain ⟨first, later⟩ := forall_mem_cons.mp within
    exact ih (sound.exec mergeable first) later

theorem sound_start {initial : Nat → List Item} (hlc : Nat → Ts) (within : ∀ i, ∀ item ∈ initial i, item ∈ items) :
    Sound items (start initial hlc) := by
  constructor
  · intro i
    have formed : ∀ u ∈ (initial i).map Item.version,
        u.key ∈ Item.key '' items ∧ ofValue u.key (toValue u) u.version = u := by
      refine forall_mem_map.mpr fun item member => ⟨⟨item, within i item member, rfl⟩, ?_⟩
      rw [Item.version, toValue_ofValue]
      rfl
    have none : Holding (Item.key '' items) [] .empty := Holding.empty
    have all := none.storeAll formed
    rw [append_nil] at all
    exact all
  · intro i u member
    obtain ⟨item, listed, rfl⟩ := mem_map.mp member
    exact ⟨item, within i item listed, rfl⟩

theorem reached_exec (s : Replicas) (e : Merge) (i : Nat) : s.reached i ⊆ (s.exec e).reached i := by
  cases e with
  | deliver node item =>
    simp only [exec, Function.update_apply]
    split_ifs with here
    · rw [here]
      exact subset_cons_self ..
    · exact Subset.refl _
  | pull region node peer =>
    simp only [exec, Function.update_apply]
    split_ifs with here
    · rw [here]
      exact subset_append_right ..
    · exact Subset.refl _

theorem reached_run (s : Replicas) (events : List Merge) (i : Nat) : s.reached i ⊆ (events.foldl exec s).reached i := by
  induction events generalizing s with
  | nil => exact Subset.refl _
  | cons e rest ih => exact Subset.trans (reached_exec s e i) (ih _)

theorem Sound.db_run (sound : Sound items s) (mergeable : Mergeable items) (within : ∀ e ∈ events, e.Within items)
    {i : Nat} (elsewhere : ∀ e ∈ events, e.node ≠ i) : (events.foldl Replicas.exec s).db i = s.db i := by
  induction events generalizing s with
  | nil => rfl
  | cons e rest ih =>
    obtain ⟨first, later⟩ := forall_mem_cons.mp within
    obtain ⟨other, others⟩ := forall_mem_cons.mp elsewhere
    obtain ⟨stored, arrived, arrival⟩ := sound.arrival mergeable first
    refine (ih (sound.exec mergeable first) later others).trans ?_
    rw [db, arrival.cluster.others i other.symm]
    rfl

section

variable {region : ApRegion} {node peer : Nat} {k : Bytes} {c : Ts}

theorem Sound.pull_ahead (sound : Sound items s) (mergeable : Mergeable items)
    (visible : Visible (s.db peer) region k c) :
    ∃ c', Visible ((s.exec (.pull region node peer)).db node) region k c' ∧ c ≤ c' := by
  have stored := (sound.pull_stored region node peer).here
  obtain ⟨u, fetched, rfl, newer⟩ := exists_listed mergeable.apart (sound.holding peer)
    (s.enough_there region node peer) visible
  obtain ⟨-, ⟨below, -, ahead⟩, -⟩ := (mem_versions_iff mergeable.apart (sound.holding peer)
    (s.enough_there region node peer)).mp fetched
  by_cases adopted : u ∈ toAdopt (stampOf (s.cluster.versions region (s.seeks region node peer) node))
      (s.cluster.versions region (s.seeks region node peer) peer)
  · refine ⟨u.version, ⟨below, ?_, ahead⟩, newer⟩
    rw [db, stored]
    exact commit_storeAll_isSome.mpr (.inl ⟨u, adopted, rfl, rfl⟩)
  · obtain ⟨u', listed, named, newer'⟩ := listed_of_not_adopted fetched adopted
    obtain ⟨-, ⟨below', committed, ahead'⟩, -⟩ := (mem_versions_iff mergeable.apart (sound.holding node)
      (s.enough_here region node peer)).mp listed
    rw [named] at below' committed ahead'
    refine ⟨u'.version, ⟨below', ?_, ahead'⟩, newer.trans newer'⟩
    rw [db, stored]
    exact commit_storeAll_isSome.mpr (.inr committed)

theorem Sound.pull_visible (sound : Sound items s) (mergeable : Mergeable items)
    (visible : Visible ((s.exec (.pull region node peer)).db node) region k c) :
    Visible (s.db node) region k c ∨ Visible (s.db peer) region k c := by
  obtain ⟨below, committed, ahead⟩ := visible
  rw [db, (sound.pull_stored region node peer).here] at committed
  rcases commit_storeAll_isSome.mp committed with ⟨u, adopted, rfl, rfl⟩ | old
  · obtain ⟨-, visible', -⟩ := (mem_versions_iff mergeable.apart (sound.holding peer)
      (s.enough_there region node peer)).mp (mem_toAdopt.mp adopted).1
    exact .inr visible'
  · exact .inl ⟨below, old, ahead⟩

variable {a b rounds : Nat}

section

variable (sound : Sound items s) (mergeable : Mergeable items) (enough : (s.db a).remaining region.start < rounds)
  (enough' : (s.db b).remaining region.start < rounds)
  (ahead : ∀ k c, Visible (s.db a) region k c → ∃ c', Visible (s.db b) region k c' ∧ c ≤ c')
  (behind : ∀ k c, Visible (s.db b) region k c → ∃ c', Visible (s.db a) region k c' ∧ c ≤ c')

include sound mergeable enough enough' ahead behind

theorem Sound.listed_of_ahead {u : Version}
    (listed : u ∈ s.cluster.versions region rounds a) : u ∈ s.cluster.versions region rounds b := by
  obtain ⟨-, visible, newest⟩ := (mem_versions_iff mergeable.apart (sound.holding a) enough).mp listed
  obtain ⟨c, visible', newer⟩ := ahead _ _ visible
  obtain ⟨u', listed', named, newer'⟩ := exists_listed mergeable.apart (sound.holding b) enough' visible'
  obtain ⟨-, shown, -⟩ := (mem_versions_iff mergeable.apart (sound.holding b) enough').mp listed'
  obtain ⟨c', back, newest'⟩ := behind _ _ shown
  rw [named] at back
  have same : u.version = u'.version := le_antisymm (newer.trans newer') (newest'.trans (newest c' back))
  have arrived := sound.versions_reached mergeable enough listed
  have arrived' := sound.versions_reached mergeable enough' listed'
  rw [sound.unique mergeable u arrived u' arrived' named.symm same]
  exact listed'

theorem Sound.versions_eq : s.cluster.versions region rounds a = s.cluster.versions region rounds b := by
  have ascending := versions_ascending mergeable.apart (sound.holding a) enough
  have ascending' := versions_ascending mergeable.apart (sound.holding b) enough'
  have nodup {l : List Version} (sorted : l.Pairwise (·.key < ·.key)) : l.Nodup :=
    sorted.imp fun less same => less.ne (congrArg Version.key same)
  have perm := (perm_ext_iff_of_nodup (nodup ascending) (nodup ascending')).mpr fun u =>
    ⟨sound.listed_of_ahead mergeable enough enough' ahead behind,
      sound.listed_of_ahead mergeable enough' enough behind ahead⟩
  exact perm.eq_of_pairwise (fun u u' _ _ less greater => absurd less greater.asymm) ascending ascending'

end

theorem Sound.exchange_agrees (sound : Sound items s) (mergeable : Mergeable items)
    {between : List Merge} (within : ∀ e ∈ between, e.Within items) (elsewhere : ∀ e ∈ between, e.node ≠ a ∧ e.node ≠ b)
    {t : Replicas} (reached : t = (exchange region a b between).foldl Replicas.exec s)
    (enough : (t.db a).remaining region.start < rounds) (enough' : (t.db b).remaining region.start < rounds) :
    t.Sound items ∧ t.cluster.versions region rounds a = t.cluster.versions region rounds b := by
  -- `s₁` is after the first pull, `s₂` before the second one
  let s₁ := s.exec (.pull region a b)
  let s₂ := between.foldl Replicas.exec s₁
  have last : t = s₂.exec (.pull region b a) := by
    rw [reached, exchange, foldl_cons, foldl_append]
    rfl
  have sound₁ : Sound items s₁ := sound.exec mergeable trivial
  have sound₂ : Sound items s₂ := sound₁.run mergeable within
  have sound₃ : Sound items t := by
    rw [last]
    exact sound₂.exec mergeable trivial
  refine ⟨sound₃, ?_⟩
  rcases eq_or_ne a b with rfl | differ
  · rfl
  have quiet₁ : s₁.db b = s.db b :=
    congrArg Shared.db ((sound.pull_stored region a b).others b differ.symm)
  have quietA : s₂.db a = s₁.db a := sound₁.db_run mergeable within fun e member => (elsewhere e member).1
  have quietB : s₂.db b = s₁.db b := sound₁.db_run mergeable within fun e member => (elsewhere e member).2
  have quiet₂ : t.db a = s₂.db a := by
    rw [last]
    exact congrArg Shared.db ((sound₂.pull_stored region b a).others a differ)
  have ahead (k : Bytes) (c : Ts) (visible : Visible (t.db a) region k c) :
      ∃ c', Visible (t.db b) region k c' ∧ c ≤ c' := by
    rw [quiet₂] at visible
    rw [last]
    exact sound₂.pull_ahead mergeable visible
  have behind (k : Bytes) (c : Ts) (visible : Visible (t.db b) region k c) :
      ∃ c', Visible (t.db a) region k c' ∧ c ≤ c' := by
    rw [last] at visible
    rw [quiet₂]
    rcases sound₂.pull_visible mergeable visible with own | pulled
    · rw [quietB, quiet₁] at own
      rw [quietA]
      exact sound.pull_ahead mergeable own
    · exact ⟨c, pulled, le_rfl⟩
  exact sound₃.versions_eq mergeable enough enough' ahead behind

end

end Replicas

/-- In every run of deliveries and pulls, whatever the replicas hold at first: the newest version of a key on a replica
never decreases, it is the newest of all that reached the replica, and two replicas that pull from each other list the
same versions. -/
theorem merging_order_independent {items : Set Item} (mergeable : Mergeable items) (initial : Nat → List Item)
    (hlc : Nat → Ts) (distributed : ∀ i, ∀ item ∈ initial i, item ∈ items) (events : List Merge)
    (within : ∀ e ∈ events, e.Within items) (s : Replicas)
    (reached : s = events.foldl Replicas.exec (.start initial hlc)) :
    (∀ later : List Merge, (∀ e ∈ later, e.Within items) → ∀ i k c v, (s.db i).Latest k c v →
        ∃ c' v', ((later.foldl Replicas.exec s).db i).Latest k c' v' ∧ c ≤ c') ∧
      (∀ i k c v, (s.db i).Latest k c v ↔ IsNewest (s.reached i) (ofValue k v c)) ∧
      ∀ region a b between, (∀ e ∈ between, e.Within items) → (∀ e ∈ between, e.node ≠ a ∧ e.node ≠ b) →
        ∀ t rounds, t = (exchange region a b between).foldl Replicas.exec s →
        (t.db a).remaining region.start < rounds → (t.db b).remaining region.start < rounds →
        ∃ found, Reads t.cluster (onNode a (scanVersions rounds region.start region.stop 0)) (.ok found) ∧
          Reads t.cluster (onNode b (scanVersions rounds region.start region.stop 0)) (.ok found) := by
  have sound : s.Sound items := by
    rw [reached]
    exact (Replicas.sound_start hlc distributed).run mergeable within
  have newest (i : Nat) (k : Bytes) (c : Ts) (v : Value) :
      (s.db i).Latest k c v ↔ IsNewest (s.reached i) (ofValue k v c) :=
    (sound.holding i).latest_iff (sound.unique mergeable)
  refine ⟨fun later known i k c v latest => ?_, newest, ?_⟩
  · have arrived := ((newest i k c v).mp latest).1
    exact ((sound.run mergeable known).holding i).exists_latest (Replicas.reached_run s later i arrived)
  · intro region a b between known elsewhere t rounds after enough enough'
    obtain ⟨sound', same⟩ := sound.exchange_agrees mergeable known elsewhere after enough enough'
    obtain ⟨found, -, reads, listed⟩ := scan_lists (sound'.holding a).holds.recorded enough
    obtain ⟨found', -, reads', listed'⟩ := scan_lists (sound'.holding b).holds.recorded enough'
    rw [listed, listed'] at same
    rw [← toAeVersion_injective.list_map same] at reads'
    exact ⟨found, reads, reads'⟩

def sample : List Item := [⟨[1], .put [7], 5⟩, ⟨[1], .delete, 9⟩, ⟨[2], .put [8], 3⟩]

theorem mergeable_sample : Mergeable {item | item ∈ sample} where
  apart := by
    have keys : ∀ a ∈ sample, ∀ b ∈ sample, a.key <+: b.key → a.key = b.key := by decide
    rintro _ ⟨a, mem, rfl⟩ _ ⟨b, mem', rfl⟩
    exact keys a mem b mem'
  unique := by
    change ∀ a ∈ sample, ∀ b ∈ sample, a.key = b.key → a.ts = b.ts → a.value = b.value
    decide

def sampleInitial (i : Nat) : List Item := if i = 0 then sample.take 1 else sample.drop 1

theorem sampleInitial_sub (i : Nat) : sampleInitial i ⊆ sample := by
  unfold sampleInitial
  split_ifs
  · exact take_subset ..
  · exact drop_subset ..

def sampleEvents : List Merge := [.deliver 1 ⟨[1], .put [7], 5⟩]

def sampleMerged : Replicas :=
  (exchange twoReplicas 0 1 []).foldl Replicas.exec (sampleEvents.foldl Replicas.exec (.start sampleInitial fun _ => 0))

theorem merging_order_independent_sample :
    sampleMerged.cluster.versions twoReplicas 4 0 = [ofValue [1] .delete 9, ofValue [2] (.put [8]) 3] ∧
      ∃ found, Reads sampleMerged.cluster (onNode 0 (scanVersions 4 [] [] 0)) (.ok found) ∧
        Reads sampleMerged.cluster (onNode 1 (scanVersions 4 [] [] 0)) (.ok found) := by
  have known : ∀ e ∈ sampleEvents, e.Within {item | item ∈ sample} :=
    forall_mem_singleton.mpr (mem_cons_self ..)
  have all := merging_order_independent mergeable_sample sampleInitial (fun _ => 0) sampleInitial_sub sampleEvents known _ rfl
  exact ⟨by decide +kernel, all.2.2 twoReplicas 0 1 [] nofun nofun _ 4 rfl (by decide +kernel) (by decide +kernel)⟩

end Arcux.Server.Ap
