import Arcux.Server.ApInvariant

namespace Arcux.Server.Ap

open Codec Concurrency Engine List Region
open scoped Codec.ByteOrder

variable {α β : Type} {keys : Set Bytes} {w : List Version} {s : Cluster} {region : ApRegion} {rounds node peer : Nat}

def Reads (s : Cluster) (p : Script α) (a : α) : Prop := p.eval Call.exec s = (s, some a)

theorem Reads.bind {p : Script α} {a : α} (reads : Reads s p a) (next : α → Script β) :
    (p >>= next).eval Call.exec s = (next a).eval Call.exec s := by
  rw [Prog.eval_bind, reads]

theorem eval_onNode (p : Program α) : (onNode node p).eval Call.exec s =
    ({ s with engine := Function.update s.engine node (p.run.eval Access.exec (s.engine node)).1 },
      (p.run.eval Access.exec (s.engine node)).2) :=
  Prog.eval_within (fun s => s.engine node) (fun s shared => { s with engine := Function.update s.engine node shared })
    (by simp) (by simp) (by simp) (fun _ _ => rfl) (fun _ _ => rfl) p.run s

theorem reads_onNode {p : Program α} {r : Except Error α}
    (runs : Runs p.run (s.engine node).db (s.engine node).db r) : Reads s (onNode node p) r := by
  rw [Reads, eval_onNode, runs]
  simp

def Cluster.versions (s : Cluster) (region : ApRegion) (rounds node : Nat) : List Version :=
  match ((onNode node (scanVersions rounds region.start region.stop 0)).eval Call.exec s).2 with
  | some (.ok found) => found.map toAeVersion
  | _ => []

def ApRegion.Covers (region : ApRegion) (keys : Set Bytes) : Prop :=
  ∀ k ∈ keys, region.start ≤ k ∧ BelowEnd region.stop k

theorem scan_lists (recorded : (s.engine node).db.Recorded keys)
    (enough : (s.engine node).db.remaining region.start < rounds) :
    ∃ found, (s.engine node).db.Lists region.stop
        (fun k c start => ((s.engine node).db.view.value k start).map fun v => (c, v.versioned)) region.start [] found ∧
      Reads s (onNode node (scanVersions rounds region.start region.stop 0)) (.ok found) ∧
      s.versions region rounds node = found.map toAeVersion := by
  obtain ⟨found, lists, runs⟩ := recorded.walked region.stop _ rounds region.start [] enough
  have reads := reads_onNode (runs (scanVersions_walks region.stop 0) [] (.inl rfl))
  refine ⟨found, lists, reads, ?_⟩
  rw [Cluster.versions, scanVersions, reads]
  rfl

structure Scans (s : Cluster) (region : ApRegion) (rounds node : Nat) : Prop where
  reads : ∃ found, Reads s (onNode node (scanVersions rounds region.start region.stop 0)) (.ok found) ∧
    s.versions region rounds node = found.map toAeVersion
  latest : ∀ version, version ∈ s.versions region rounds node ↔
    ∃ k c v, version = ofValue k v c ∧ (s.engine node).db.Latest k c v

theorem scans_of_recorded (recorded : (s.engine node).db.Recorded keys) (apart : Apart keys)
    (covers : region.Covers keys) (enough : (s.engine node).db.remaining region.start < rounds) :
    Scans s region rounds node := by
  have ahead (k : Bytes) (c start : Ts) (committed : (s.engine node).db.view.commit k c = some start) :
      region.start ≤ encodeDataKey k c :=
    (covers k (recorded.mem committed)).1.trans (le_append k _)
  obtain ⟨found, lists, reads, same⟩ := scan_lists recorded enough
  refine ⟨⟨found, reads, same⟩, fun version => ?_⟩
  rw [same, mem_map]
  constructor
  · rintro ⟨⟨k, c, shown⟩, member, rfl⟩
    obtain ⟨-, c', start, first, -, picked⟩ := (lists.exact _ _).mp member
    obtain ⟨v, valued, shape⟩ := Option.map_eq_some_iff.mp picked
    cases shape
    exact ⟨k, c, v, rfl, (Db.latest_iff_first (ahead k)).mpr ⟨start, first, valued⟩⟩
  · rintro ⟨k, c, v, rfl, latest⟩
    obtain ⟨start, first, valued⟩ := (Db.latest_iff_first (ahead k)).mp latest
    have reached := (recorded.open_iff apart first).mpr (covers k (recorded.mem first.1)).2
    refine ⟨(k, c, v.versioned), (lists.exact _ _).mpr ⟨not_mem_nil, c, start, first, reached, ?_⟩, rfl⟩
    rw [valued]
    rfl

def adopted (s : Cluster) (region : ApRegion) (rounds node peer : Nat) : List Version :=
  toAdopt (stampOf (s.versions region rounds node)) ((s.versions region rounds peer).filter fun v =>
    bucketOf v.key ∈ diff (digest (s.versions region rounds node)) (digest (s.versions region rounds peer)))

structure Cluster.Stored (s : Cluster) (node : Nat) (db : Db) (s' : Cluster) : Prop where
  here : (s'.engine node).db = db
  others : ∀ other, other ≠ node → s'.engine other = s.engine other

theorem apApply_returns (node : Nat) (key : Bytes) (value : Value) (ts : Ts) (s : Cluster) :
    ∃ s', (apApply node key value ts).eval Call.exec s = (s', some (.ok ())) ∧
      s.Stored node ((s.engine node).db.commitBatch (committedBatch key value ts ts)) s' := by
  refine ⟨_, rfl, ?_, fun other differ => Function.update_of_ne differ ..⟩
  change (Function.update s.engine node _ node).db = _
  rw [Function.update_self]
  rfl

def storeAll (db : Db) (versions : List Version) : Db :=
  versions.foldl (fun db v => db.commitBatch (committedBatch v.key (toValue v) v.version v.version)) db

theorem adopt_returns (node : Nat) (versions : List Version) (s : Cluster) :
    ∃ s', (adopt node versions).eval Call.exec s = (s', some ()) ∧
      s.Stored node (storeAll (s.engine node).db versions) s' := by
  induction versions generalizing s with
  | nil => exact ⟨s, rfl, rfl, fun _ _ => rfl⟩
  | cons v rest ih =>
    obtain ⟨s', applied, first⟩ := apApply_returns node v.key (toValue v) v.version s
    obtain ⟨s'', returned, later⟩ := ih s'
    refine ⟨s'', ?_, ?_, fun other differ => (later.others other differ).trans (first.others other differ)⟩
    · rw [adopt, Prog.eval_bind, applied]
      exact returned
    · rw [later.here, first.here]
      rfl

theorem mergePeer_returns (node : Nat) (scans : Scans s region rounds peer) :
    (mergePeer region rounds node (digest (s.versions region rounds node))
        (stampOf (s.versions region rounds node)) ⟨peer, true, true⟩).eval Call.exec s =
      (((adopt node (adopted s region rounds node peer)).eval Call.exec s).1,
        some (adopted s region rounds node peer)) := by
  obtain ⟨found, reads, listed⟩ := scans.reads
  have digested : Reads s (apDigest region rounds peer) (.ok (digest (s.versions region rounds peer))) := by
    rw [Reads, apDigest, reads.bind, listed]
    rfl
  have fetched {buckets : List Nat} (some : buckets ≠ []) : Reads s (apFetch region rounds peer buckets [])
      (.ok ((s.versions region rounds peer).filter fun v => bucketOf v.key ∈ buckets)) := by
    have nothing : Reads s (fetchKeys rounds peer [] []) (.ok []) := rfl
    rw [Reads, apFetch, nothing.bind]
    dsimp only
    rw [if_neg some, reads.bind, listed]
    rfl
  have full : (digest (s.versions region rounds peer)).leaves.length = leaves := by
    rw [digest, length_map, length_range]
  unfold adopted
  rw [mergePeer, digested.bind]
  dsimp only
  -- the buckets are compared by their names only, or the comparison of two digests would be computed
  generalize diff (digest (s.versions region rounds node)) (digest (s.versions region rounds peer)) = buckets
  by_cases same : buckets = []
  · subst same
    rw [if_pos (.inr (.inr rfl))]
    have none : (s.versions region rounds peer).filter (fun v => bucketOf v.key ∈ []) = [] := by simp
    rw [none]
    rfl
  · obtain ⟨s', returned, -⟩ := adopt_returns node (toAdopt (stampOf (s.versions region rounds node))
      ((s.versions region rounds peer).filter fun v => bucketOf v.key ∈ buckets)) s
    rw [if_neg (by simp [full, same]), (fetched same).bind]
    dsimp only
    rw [if_neg (by simp), Prog.eval_bind, returned]
    rfl

theorem mergePeers_nil_iff {peers : List Nat} (scans : ∀ peer ∈ peers, Scans s region rounds peer) :
    ((mergePeers region rounds node (digest (s.versions region rounds node)) (stampOf (s.versions region rounds node))
        (peers.map fun peer => ⟨peer, true, true⟩)).eval Call.exec s).2 = some [] ↔
      ∀ peer ∈ peers, adopted s region rounds node peer = [] := by
  induction peers with
  | nil => simp [mergePeers, Prog.eval]
  | cons peer rest ih =>
    rw [forall_mem_cons] at scans ⊢
    rw [map_cons, mergePeers, Prog.eval_bind, mergePeer_returns node scans.1]
    dsimp only
    rw [Prog.eval_map, Option.map_eq_some_iff]
    constructor
    · rintro ⟨later, ran, empty⟩
      obtain ⟨nothing, rfl⟩ := append_eq_nil_iff.mp empty
      rw [nothing] at ran
      exact ⟨nothing, (ih scans.2).mp ran⟩
    · rintro ⟨nothing, others⟩
      rw [nothing]
      exact ⟨[], (ih scans.2).mpr others, rfl⟩

theorem reconcile_returns (mine : Scans s region rounds node) (theirs : Scans s region rounds peer)
    {versions : List Version} (differ : adopted s region rounds node peer = versions) :
    (Task.program region rounds (.reconcile node [⟨peer, true, true⟩])).eval Call.exec s =
      (((adopt node versions).eval Call.exec s).1, some ()) := by
  obtain ⟨found, reads, listed⟩ := mine.reads
  rw [Task.program, Prog.eval_bind, reconcileApOnce, reads.bind]
  dsimp only
  rw [← listed, mergePeers, Prog.eval_bind, mergePeer_returns node theirs, differ]
  rfl

def Cluster.Settled (s : Cluster) (region : ApRegion) (rounds node : Nat) : Prop :=
  ((reconcileApOnce region rounds node ((region.peersOf node).map fun peer => ⟨peer, true, true⟩)).eval
    Call.exec s).2 = some []

theorem settled_iff (mine : Scans s region rounds node) (scans : ∀ peer ∈ region.replicas, Scans s region rounds peer) :
    s.Settled region rounds node ↔ ∀ peer ∈ region.peersOf node, adopted s region rounds node peer = [] := by
  obtain ⟨found, reads, listed⟩ := mine.reads
  have others : ∀ peer ∈ region.peersOf node, Scans s region rounds peer :=
    fun peer member => scans peer (mem_of_mem_filter member)
  rw [Cluster.Settled, reconcileApOnce, reads.bind, ← mergePeers_nil_iff others, listed]

theorem settled_of_same_stamps (scans : ∀ i ∈ region.replicas, Scans s region rounds i)
    (same : ∀ i ∈ region.replicas, ∀ j ∈ region.replicas,
      ((s.versions region rounds i).map fun v => (v.key, v.version)) =
        (s.versions region rounds j).map fun v => (v.key, v.version)) :
    ∀ i ∈ region.replicas, s.Settled region rounds i := by
  intro i member
  refine (settled_iff (scans i member) scans).mpr fun j other => ?_
  rw [adopted, digest_congr (same i member j (mem_of_mem_filter other)), diff_self]
  simp [toAdopt]

variable {v : Version}

theorem mem_toAdopt {known : Bytes → Option Ts} {remote : List Version} :
    v ∈ toAdopt known remote ↔ v ∈ remote ∧ ∀ mine, known v.key = some mine → mine < v.version := by
  rw [toAdopt, mem_filter]
  refine and_congr_right fun _ => ?_
  cases known v.key <;> simp

variable {k : Bytes} {c : Ts}

theorem stampOf_eq_some {versions : List Version} (stamp : stampOf versions k = some c) :
    ∃ v ∈ versions, v.key = k ∧ v.version = c := by
  obtain ⟨v, found, rfl⟩ := Option.map_eq_some_iff.mp stamp
  exact ⟨v, mem_reverse.mp (mem_of_find?_eq_some found), by simpa using find?_some found, rfl⟩

theorem listed_of_not_adopted {mine theirs : List Version} (fetched : v ∈ theirs)
    (left : v ∉ toAdopt (stampOf mine) theirs) : ∃ v' ∈ mine, v'.key = v.key ∧ v.version ≤ v'.version := by
  rw [mem_toAdopt, not_and] at left
  obtain ⟨c, later⟩ := not_forall.mp (left fetched)
  obtain ⟨stamp, older⟩ := Classical.not_imp.mp later
  obtain ⟨v', listed, named, rfl⟩ := stampOf_eq_some stamp
  exact ⟨v', listed, named, not_lt.mp older⟩

theorem caught_up (mine : Scans s region rounds node) (theirs : Scans s region rounds peer)
    (distinct : NoCollision (s.versions region rounds node) (s.versions region rounds peer))
    (settled : adopted s region rounds node peer = []) {v : Value}
    (latest : (s.engine peer).db.Latest k c v) : ∃ c' v', (s.engine node).db.Latest k c' v' ∧ c ≤ c' := by
  have listed : ofValue k v c ∈ s.versions region rounds peer := (theirs.latest _).mpr ⟨k, c, v, rfl, latest⟩
  have held {version : Version} (member : version ∈ s.versions region rounds node) (named : version.key = k) :
      ∃ v', (s.engine node).db.Latest k version.version v' := by
    obtain ⟨k', c', v', rfl, latest'⟩ := (mine.latest _).mp member
    exact ⟨v', named ▸ latest'⟩
  by_cases same : leafEntries (s.versions region rounds node) (bucketOf k) =
      leafEntries (s.versions region rounds peer) (bucketOf k)
  · have entry : (k, c) ∈ leafEntries (s.versions region rounds peer) (bucketOf k) :=
      mem_leafEntries.mpr ⟨rfl, ofValue k v c, listed, rfl, rfl⟩
    rw [← same] at entry
    obtain ⟨-, version, member, named, rfl⟩ := mem_leafEntries.mp entry
    obtain ⟨v', latest'⟩ := held member named
    exact ⟨_, v', latest', le_rfl⟩
  · have differs := distinct.mem_diff (bucketOf_lt k) same
    unfold adopted at settled
    generalize diff (digest (s.versions region rounds node)) (digest (s.versions region rounds peer)) = buckets
      at settled differs
    have fetched : ofValue k v c ∈ (s.versions region rounds peer).filter fun v => bucketOf v.key ∈ buckets :=
      mem_filter.mpr ⟨listed, decide_eq_true differs⟩
    obtain ⟨version, member, named, newer⟩ :=
      listed_of_not_adopted fetched (eq_nil_iff_forall_not_mem.mp settled _)
    obtain ⟨v', latest'⟩ := held member named
    exact ⟨_, v', latest', newer⟩

theorem latest_of_caught_up (inv : s.Inv keys w) {v : Value}
    (ahead : ∀ {k c v}, (s.engine node).db.Latest k c v → ∃ c' v', (s.engine peer).db.Latest k c' v' ∧ c ≤ c')
    (behind : ∀ {k c v}, (s.engine peer).db.Latest k c v → ∃ c' v', (s.engine node).db.Latest k c' v' ∧ c ≤ c')
    (latest : (s.engine node).db.Latest k c v) : (s.engine peer).db.Latest k c v := by
  have known {node : Nat} {c : Ts} {v : Value} (latest : (s.engine node).db.Latest k c v) : ofValue k v c ∈ w := by
    obtain ⟨start, committed, -, valued⟩ := latest
    obtain rfl := (inv.holds node).start_eq committed
    exact (inv.holds node).values k start v valued
  obtain ⟨c₁, v₁, latest₁, later₁⟩ := ahead latest
  obtain ⟨c₂, v₂, ⟨_, committed₂, -⟩, later₂⟩ := behind latest₁
  have newest := latest.choose_spec.2.1
  obtain rfl : c = c₁ := le_antisymm later₁ (later₂.trans (newest _ _ committed₂))
  have same := congrArg toValue (inv.unique _ (known latest) _ (known latest₁) rfl rfl)
  rw [toValue_ofValue, toValue_ofValue] at same
  exact same ▸ latest₁

def oneKey : Set Bytes := {[1]}

theorem apart_oneKey : Apart oneKey := by
  rintro _ rfl _ rfl _
  rfl

def twoReplicas : ApRegion := ⟨[], [], [0, 1]⟩

theorem covers_oneKey : twoReplicas.Covers oneKey := by
  rintro _ rfl
  exact ⟨by decide, .inl rfl⟩

def clashing : List Task := [.write 0 0 [1] (.put [7]), .write 1 0 [1] (.put [8])]

def afterClash : Cluster := ((start twoReplicas 4 clashing).run Call.exec [0, 0, 0, 1, 1, 1]).state

structure Stamped (s : Cluster) (newest : Nat → Version) : Prop where
  recorded : ∀ i ∈ [0, 1], (s.engine i).db.Recorded oneKey
  enough : ∀ i ∈ [0, 1], (s.engine i).db.remaining [] < 4
  versions : ∀ i ∈ [0, 1], s.versions twoReplicas 4 i = [newest i]

namespace Stamped

variable {newest : Nat → Version} (stamped : Stamped s newest)

include stamped

theorem scans : ∀ i ∈ [0, 1], Scans s twoReplicas 4 i := fun i member =>
  scans_of_recorded (stamped.recorded i member) apart_oneKey covers_oneKey (stamped.enough i member)

theorem latest {i : Nat} (member : i ∈ [0, 1]) {k : Bytes} {c : Ts} {v : Value} (same : newest i = ofValue k v c) :
    (s.engine i).db.Latest k c v := by
  obtain ⟨k', c', v', shape, latest⟩ := ((stamped.scans i member).latest (newest i)).mp
    (stamped.versions i member ▸ mem_singleton_self _)
  have whole := same.symm.trans shape
  obtain rfl : k = k' := congrArg Version.key whole
  obtain rfl : c = c' := congrArg Version.version whole
  obtain rfl : v = v' := by simpa using congrArg toValue whole
  exact latest

section

variable (alike : ∀ i ∈ [0, 1], ∀ j ∈ [0, 1], (newest i).key = (newest j).key ∧ (newest i).version = (newest j).version)

include alike

theorem stamps : ∀ i ∈ [0, 1], ∀ j ∈ [0, 1],
    ((s.versions twoReplicas 4 i).map fun v => (v.key, v.version)) =
      (s.versions twoReplicas 4 j).map fun v => (v.key, v.version) := by
  intro i member j member'
  rw [stamped.versions i member, stamped.versions j member']
  simp [alike i member j member']

theorem settled : ∀ i ∈ [0, 1], s.Settled twoReplicas 4 i :=
  have settled : ∀ i ∈ twoReplicas.replicas, s.Settled twoReplicas 4 i :=
    settled_of_same_stamps stamped.scans (stamped.stamps alike)
  settled

theorem distinct : ∀ i ∈ [0, 1], ∀ j ∈ [0, 1],
    NoCollision (s.versions twoReplicas 4 i) (s.versions twoReplicas 4 j) :=
  fun i member j member' => .of_same (stamped.stamps alike i member j member')

end

end Stamped

theorem stamped_afterClash : Stamped afterClash fun i => ofValue [1] (.put [7 + UInt8.ofNat i]) 1 := by
  have engine : ∀ i ∈ [0, 1], (afterClash.engine i).db =
      Db.empty.commitBatch (committedBatch [1] (.put [7 + UInt8.ofNat i]) 1 1) := by
    simp only [forall_mem_cons, not_mem_nil, false_implies, implies_true, and_true]
    exact ⟨rfl, rfl⟩
  refine ⟨fun i member => ?_, by decide +kernel, by decide +kernel⟩
  have holds : Holds oneKey _ ((Db.empty).commitBatch (committedBatch [1] (.put [7 + UInt8.ofNat i]) 1 1)) :=
    (Holds.empty.mono (nil_subset _)).commit rfl (mem_singleton_self _)
  exact engine i member ▸ holds.recorded

/-- Two replicas stamp different writes of a key alike. The digests agree, so that no pass adopts anything, and the
contents differ for good. -/
theorem clash_not_converged :
    (∀ i < 2, ((start twoReplicas 4 clashing).run Call.exec [0, 0, 0, 1, 1, 1]).result i = some ()) ∧
      (∀ i ∈ [0, 1], afterClash.Settled twoReplicas 4 i) ∧
      (∀ i ∈ [0, 1], ∀ j ∈ [0, 1],
        NoCollision (afterClash.versions twoReplicas 4 i) (afterClash.versions twoReplicas 4 j)) ∧
      (afterClash.engine 0).db.Latest [1] 1 (.put [7]) ∧ (afterClash.engine 1).db.Latest [1] 1 (.put [8]) :=
  have alike := by decide
  ⟨by decide, stamped_afterClash.settled alike, stamped_afterClash.distinct alike,
    stamped_afterClash.latest (by decide) rfl, stamped_afterClash.latest (by decide) rfl⟩

/-- Once a full pass of every replica adopts nothing, all replicas have the same latest version of every key, if no two
different writes of a key were given the same stamp. -/
theorem replicas_converge {keys : Set Bytes} (apart : Apart keys) {region : ApRegion} (covers : region.Covers keys)
    {rounds : Nat} {tasks : List Task} (keyed : ∀ task ∈ tasks, task.Keyed keys) {schedule : List Nat}
    (guarded : (start region rounds tasks).Guarded Call.exec Call.Guard schedule) {s : Cluster}
    (reached : ((start region rounds tasks).run Call.exec schedule).state = s) {seeks : Nat}
    (enough : ∀ i ∈ region.replicas, (s.engine i).db.remaining region.start < seeks)
    (settled : ∀ i ∈ region.replicas, s.Settled region seeks i)
    (distinct : ∀ i ∈ region.replicas, ∀ j ∈ region.replicas,
      NoCollision (s.versions region seeks i) (s.versions region seeks j)) :
    ∀ i ∈ region.replicas, ∀ j ∈ region.replicas, ∀ k c v,
      (s.engine i).db.Latest k c v ↔ (s.engine j).db.Latest k c v := by
  intro i member j member' k c v
  obtain ⟨w, inv⟩ := Cluster.Inv.run apart region rounds keyed guarded
  rw [reached] at inv
  have scans (i : Nat) (member : i ∈ region.replicas) : Scans s region seeks i :=
    scans_of_recorded (inv.holds i).recorded apart covers (enough i member)
  have behind {i j : Nat} (member : i ∈ region.replicas) (member' : j ∈ region.replicas) {k : Bytes} {c : Ts} {v : Value}
      (latest : (s.engine j).db.Latest k c v) : ∃ c' v', (s.engine i).db.Latest k c' v' ∧ c ≤ c' := by
    rcases eq_or_ne j i with rfl | other
    · exact ⟨c, v, latest, le_rfl⟩
    · have nothing := (settled_iff (scans i member) scans).mp (settled i member) j
        (mem_filter.mpr ⟨member', decide_eq_true other⟩)
      exact caught_up (scans i member) (scans j member') (distinct i member j member') nothing latest
  exact ⟨latest_of_caught_up inv (behind member' member) (behind member member'),
    latest_of_caught_up inv (behind member member') (behind member' member)⟩

def Call.Unstamped : Call → Prop
  | now .. => False
  | _ => True

theorem unstamped_onNode (p : Program α) : (onNode node p).Performs Call.Unstamped :=
  have any : p.run.Performs fun _ => True := Prog.performs_of_forall (fun _ => trivial) _
  any.within fun _ _ => trivial

theorem unstamped_adopt (versions : List Version) : (adopt node versions).Performs Call.Unstamped := by
  induction versions with
  | nil => trivial
  | cons v rest ih =>
    have applied : (apApply node v.key (toValue v) v.version).Performs Call.Unstamped :=
      ⟨trivial, fun _ => (unstamped_onNode _).bind fun r => by cases r <;> trivial⟩
    exact applied.bind fun _ => ih

theorem unstamped_mergePeer (mine : Digest) (known : Bytes → Option Ts) (link : Link) :
    (mergePeer region rounds node mine known link).Performs Call.Unstamped := by
  have digested : (apDigest region rounds link.peer).Performs Call.Unstamped :=
    (unstamped_onNode _).bind fun r => by cases r <;> trivial
  have fetched (buckets : List Nat) : (apFetch region rounds link.peer buckets []).Performs Call.Unstamped := by
    change Prog.Performs _ (if buckets = [] then _ else _)
    split
    · trivial
    · exact (unstamped_onNode _).bind fun r => by cases r <;> trivial
  rw [mergePeer]
  refine digested.bind fun theirs => ?_
  cases theirs with
  | error e => trivial
  | ok theirs =>
    dsimp only
    generalize diff mine theirs = buckets
    split
    · trivial
    · refine (fetched buckets).bind fun remote => ?_
      cases remote with
      | error e => trivial
      | ok remote =>
        dsimp only
        split
        · trivial
        · exact (unstamped_adopt _).bind fun _ => trivial

theorem unstamped_reconcileApOnce (link : Link) :
    (reconcileApOnce region rounds node [link]).Performs Call.Unstamped := by
  refine (unstamped_onNode _).bind fun found => ?_
  cases found with
  | error e => trivial
  | ok found => exact (unstamped_mergePeer ..).bind fun _ => trivial

theorem Call.Unstamped.guard : (call : Call) → call.Unstamped → ∀ s, call.Guard s
  | .observe .., _, _ | .access .., _, _ | .send .., _, _ | .receive _, _, _ => trivial

def outdone : List Task := [.write 0 0 [1] (.put [7]), .write 1 1 [1] .delete, .reconcile 0 [⟨1, true, true⟩]]

-- nothing that is sent arrives
def apartWrites : Pool Cluster Call Call.Reply Unit := (start twoReplicas 4 outdone).run Call.exec [0, 0, 0, 1, 1, 1]

def newer : Version := ofValue [1] .delete (1 <<< logicalBits)

def caughtUp : Cluster := ((adopt 0 [newer]).eval Call.exec apartWrites.state).1

theorem keyed_outdone : ∀ task ∈ outdone, task.Keyed oneKey := by
  simp [outdone, Task.Keyed, oneKey]

theorem stamped_apartWrites :
    Stamped apartWrites.state fun i => if i = 0 then ofValue [1] (.put [7]) 1 else newer := by
  have guarded : (start twoReplicas 4 outdone).Guarded Call.exec Call.Guard [0, 0, 0, 1, 1, 1] := by decide +kernel
  obtain ⟨w, inv⟩ := Cluster.Inv.run apart_oneKey twoReplicas 4 keyed_outdone guarded
  exact ⟨fun i _ => (inv.holds i).recorded, by decide +kernel, by decide +kernel⟩

theorem adopted_apartWrites : adopted apartWrites.state twoReplicas 4 0 1 = [newer] := by
  have mine : apartWrites.state.versions twoReplicas 4 0 = [ofValue [1] (.put [7]) 1] :=
    stamped_apartWrites.versions 0 (by decide)
  have theirs : apartWrites.state.versions twoReplicas 4 1 = [newer] := stamped_apartWrites.versions 1 (by decide)
  have differs : bucketOf [1] ∈ diff (digest [ofValue [1] (.put [7]) 1]) (digest [newer]) :=
    MerkleTree.mem_diff_of_lone (bucketOf_lt _) (fun _ => digest_lone _) (fun _ => digest_lone _) (by decide +kernel)
  rw [adopted, mine, theirs]
  generalize diff (digest [ofValue [1] (.put [7]) 1]) (digest [newer]) = buckets at differs
  have fetched : ([newer].filter fun v => bucketOf v.key ∈ buckets) = [newer] :=
    filter_eq_self.mpr (forall_mem_singleton.mpr (decide_eq_true differs))
  rw [fetched]
  rfl

def pass : Script Unit := Task.program twoReplicas 4 (.reconcile 0 [⟨1, true, true⟩])

theorem pass_pending : apartWrites.tasks[2]? = some pass := Pool.tasks_run_of_notMem Call.exec (by decide) _

theorem caughtUp_run : ∃ n, (apartWrites.run Call.exec (replicate n 2)).state = caughtUp := by
  obtain ⟨n, ran⟩ := Pool.run_eval Call.exec pass_pending (reconcile_returns (stamped_apartWrites.scans 0 (by decide))
    (stamped_apartWrites.scans 1 (by decide)) adopted_apartWrites)
  exact ⟨n, congrArg Pool.state ran⟩

theorem guarded_outdone (n : Nat) :
    (start twoReplicas 4 outdone).Guarded Call.exec Call.Guard ([0, 0, 0, 1, 1, 1] ++ replicate n 2) := by
  have performs : pass.Performs fun call => ∀ s, call.Guard s :=
    ((unstamped_reconcileApOnce _).mono Call.Unstamped.guard).bind fun _ => trivial
  refine (Pool.guarded_append Call.exec).mpr ⟨by decide +kernel, Pool.guarded_replicate Call.exec (fun p task => ?_) n⟩
  exact Option.some.inj (pass_pending.symm.trans task) ▸ performs

theorem replicas_converge_outdone : ∃ n,
    ((start twoReplicas 4 outdone).run Call.exec ([0, 0, 0, 1, 1, 1] ++ replicate n 2)).state = caughtUp ∧
    (apartWrites.state.engine 0).db.Latest [1] 1 (.put [7]) ∧
    (caughtUp.engine 0).db.Latest [1] (1 <<< logicalBits) .delete ∧
    ∀ k c v, (caughtUp.engine 0).db.Latest k c v ↔ (caughtUp.engine 1).db.Latest k c v := by
  obtain ⟨n, ran⟩ := caughtUp_run
  have reached : ((start twoReplicas 4 outdone).run Call.exec ([0, 0, 0, 1, 1, 1] ++ replicate n 2)).state =
      caughtUp := by rw [Pool.run_append]; exact ran
  have stamped : Stamped caughtUp fun _ => newer := by
    obtain ⟨w, inv⟩ := Cluster.Inv.run apart_oneKey twoReplicas 4 keyed_outdone (guarded_outdone n)
    rw [reached] at inv
    exact ⟨fun i _ => (inv.holds i).recorded, by decide +kernel, by decide +kernel⟩
  have alike : ∀ i ∈ [0, 1], ∀ j ∈ [0, 1], newer.key = newer.key ∧ newer.version = newer.version :=
    fun _ _ _ _ => ⟨rfl, rfl⟩
  exact ⟨n, reached, stamped_apartWrites.latest (by decide) rfl, stamped.latest (by decide) rfl,
    replicas_converge apart_oneKey covers_oneKey keyed_outdone (guarded_outdone n) reached stamped.enough
      (stamped.settled alike) (stamped.distinct alike) 0 (by decide) 1 (by decide)⟩

end Arcux.Server.Ap
