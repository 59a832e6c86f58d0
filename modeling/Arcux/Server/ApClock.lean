import Arcux.Server.ApConvergence

namespace Arcux.Server.Ap

open Codec Concurrency Data Engine List Region
open scoped Codec.ByteOrder

def storedStamps (db : Db) (key : Bytes) : List Ts :=
  db.writeCf.entries.filterMap fun e => (decodeDataKey e.1).bind fun (k, c) => if k = key then some c else none

/-- A process of a node: the peers and the requests under way as they are when it starts, what it is to do, and the order
in which the steps are taken. -/
structure Session where
  world : Cluster
  tasks : List Task
  schedule : List Nat

def Session.pool (region : ApRegion) (rounds node : Nat) (db : Db) (session : Session) :
    Pool Cluster Call Call.Reply Unit :=
  ⟨{ session.world with
      engine := Function.update session.world.engine node ⟨db, .fresh⟩
      hlc := Function.update session.world.hlc node 0 },
    session.tasks.map (Task.program region rounds)⟩

def dataAfter (region : ApRegion) (rounds node : Nat) : Db → List Session → Db
  | db, [] => db
  | db, session :: rest => dataAfter region rounds node
      (((session.pool region rounds node db).run Call.exec session.schedule).state.engine node).db rest

def restarted (region : ApRegion) (rounds node : Nat) (earlier : List Session) (session : Session) :
    Pool Cluster Call Call.Reply Unit :=
  session.pool region rounds node (dataAfter region rounds node .empty earlier)

/-- The clock reading of a local write is past every version of the key that the process found, and the node's clock
is not at its end. -/
def Call.InTime (node : Nat) (found : Db) : Call → Cluster → Prop
  | now i nowMs key _, s => i = node → s.hlc node ≠ maxTs ∧ ∀ c ∈ storedStamps found key, c < nowMs <<< logicalBits
  | _, _ => True

instance (node : Nat) (found : Db) : (call : Call) → (s : Cluster) → Decidable (call.InTime node found s)
  -- by a pass over the stored stamps, not over all timestamps there are
  | .now _ nowMs key _, _ =>
    have := decidableBAll (fun c => c < nowMs <<< logicalBits) (storedStamps found key)
    inferInstanceAs (Decidable (_ → _))
  | .observe .., _ | .access .., _ | .send .., _ | .receive _, _ => .isTrue trivial

variable {node : Nat} {found : Db}

theorem mem_storedStamps {db : Db} {key : Bytes} {c : Ts} :
    c ∈ storedStamps db key ↔ ∃ e ∈ db.writeCf.entries, decodeDataKey e.1 = some (key, c) := by
  rw [storedStamps, mem_filterMap]
  refine exists_congr fun e => and_congr_right fun _ => ?_
  rw [Option.bind_eq_some_iff]
  constructor
  · rintro ⟨⟨k, c'⟩, decoded, same⟩
    obtain ⟨rfl, ⟨⟩⟩ := Option.ite_none_right_eq_some.mp same
    exact decoded
  · intro decoded
    exact ⟨_, decoded, if_pos rfl⟩

variable {v : Value}

theorem storedStamps_commit {db : Db} {k key : Bytes} {c c' : Ts}
    (stored : c' ∈ storedStamps (db.commitBatch (committedBatch k v c c)) key) :
    key = k ∧ c' = c ∨ c' ∈ storedStamps db key := by
  obtain ⟨⟨raw, value⟩, member, decoded⟩ := mem_storedStamps.mp stored
  have place : ((db.commitBatch (committedBatch k v c c)).family .write).find? raw = some value :=
    OrdMap.find?_eq_some.mpr member
  simp only [Db.family_commitBatch, committedBatch, WriteBatch.put, nil_append, cons_append,
    foldl_cons, foldl_nil, Db.find_applyOp, WriteOp.cf, WriteOp.key] at place
  split_ifs at place with here there
  · rw [here.2, decodeDataKey_encodeDataKey] at decoded
    cases decoded
    exact .inl ⟨rfl, rfl⟩
  · cases there.1
  · exact .inr (mem_storedStamps.mpr ⟨_, OrdMap.find?_eq_some.mp place, decoded⟩)

structure Behind (node : Nat) (found : Db) (last : Ts) (s : Cluster) : Prop where
  clock : s.hlc node = last
  stored : ∀ key, ∀ c ∈ storedStamps (s.engine node).db key, c ≤ last ∨ c ∈ storedStamps found key

def clocked (node : Nat) (found : Db) : Discipline Call Call.Reply Cluster Ts where
  exec := Call.exec
  guard := Call.InTime node found
  inv := Behind node found
  grows w w' := w ≤ w'
  rely _ w w' := w ≤ w'
  grows_refl _ := le_rfl
  grows_trans := le_trans
  rely_refl _ _ := le_rfl
  rely_trans := le_trans
  rely_grows := id

variable {last : Ts}

theorem Hlc.lt_now (nowMs : UInt64) (room : last ≠ maxTs) : last < Hlc.now last nowMs := by
  have above : last < last + 1 := by
    have bound := (le_maxTs last).lt_of_ne room
    simp only [maxTs, UInt64.lt_iff_toNat_lt, UInt64.toNat_ofNat', UInt64.toNat_add, UInt64.toNat_one] at bound ⊢
    omega
  exact above.trans_le (le_max_left ..)

def Call.Quiet (node : Nat) : Call → Prop
  | access i (.submit _) => i ≠ node
  | _ => True

theorem Behind.mono {last last' : Ts} {s s' : Cluster} (behind : Behind node found last s) (later : last ≤ last')
    (clock : s'.hlc node = last') (same : (s'.engine node).db = (s.engine node).db) : Behind node found last' s' := by
  refine ⟨clock, fun key c stored => ?_⟩
  rw [same] at stored
  exact (behind.stored key c stored).imp_left fun below => below.trans later

theorem Call.Quiet.behind {call : Call} (quiet : call.Quiet node) {s : Cluster} (behind : Behind node found last s)
    (inTime : call.InTime node found s) : ∃ last', last ≤ last' ∧ Behind node found last' (call.exec s).1 := by
  cases call with
  | now i nowMs key value =>
    rcases eq_or_ne i node with rfl | other
    · have later : last < Hlc.now (s.hlc i) nowMs := by
        rw [← behind.clock]
        exact Hlc.lt_now nowMs (inTime rfl).1
      exact ⟨_, later.le, behind.mono later.le (Function.update_self ..) rfl⟩
    · exact ⟨last, le_rfl, behind.mono le_rfl ((Function.update_of_ne other.symm ..).trans behind.clock) rfl⟩
  | observe i remote =>
    rcases eq_or_ne i node with rfl | other
    · have later : last ≤ Hlc.observe (s.hlc i) remote := behind.clock.symm.le.trans (le_max_left ..)
      exact ⟨_, later, behind.mono later (Function.update_self ..) rfl⟩
    · exact ⟨last, le_rfl, behind.mono le_rfl ((Function.update_of_ne other.symm ..).trans behind.clock) rfl⟩
  | access i op =>
    refine ⟨last, le_rfl, behind.mono le_rfl behind.clock ?_⟩
    rcases eq_or_ne i node with rfl | other
    · change (Function.update s.engine i _ i).db = _
      rw [Function.update_self]
      cases op with
      | submit op => exact absurd rfl quiet
      | getCfRaw | seekCfRaw | lastSeq | now | advance => rfl
    · exact congrArg Shared.db (Function.update_of_ne other.symm ..)
  | send peer request => exact ⟨last, le_rfl, behind.mono le_rfl behind.clock rfl⟩
  | receive i => exact ⟨last, le_rfl, behind⟩

def Steady {α : Type} (node : Nat) (found : Db) (p : Script α) : Prop :=
  ∀ i last, (clocked node found).Safe i p last fun _ _ => True

section

variable {α β : Type}

theorem Steady.ret (a : α) : Steady node found (.ret a : Script α) := fun _ _ _ _ => trivial

variable {p : Script α}

theorem Steady.bind {next : α → Script β} (first : Steady node found p)
    (rest : ∀ a, Steady node found (next a)) : Steady node found (p >>= next) :=
  fun i last => (first i last).bind fun last' a _ _ => rest a i last'

theorem Steady.quiet (quiet : p.Performs (Call.Quiet node)) : Steady node found p := by
  intro i last
  induction p generalizing last with
  | ret a => exact fun _ _ => trivial
  | halt => trivial
  | call call next ih =>
    intro last' _ s behind inTime
    obtain ⟨last'', later, kept⟩ := quiet.1.behind behind inTime
    exact ⟨last'', later, fun _ _ => later, kept, ih _ (quiet.2 _) last''⟩

def ReadsOnly : Access → Prop
  | .submit _ => False
  | _ => True

theorem Steady.onNode {i : Nat} {p : Program α} (reads : p.run.Performs ReadsOnly) :
    Steady node found (onNode i p) := by
  refine .quiet (reads.within fun op read => ?_)
  cases op with
  | submit op => exact read.elim
  | getCfRaw | seekCfRaw | lastSeq | now | advance => trivial

theorem reads_versionValue (key : Bytes) (stored : MemValue) : (versionValue key stored).run.Performs ReadsOnly := by
  unfold versionValue
  split
  · trivial
  · split
    · trivial
    · refine Prog.Performs.answered ⟨trivial, fun _ => trivial⟩ fun value => ?_
      cases value <;> trivial

theorem reads_scanVersionsFrom (stop : Bytes) (limit rounds : Nat) (cursor : Bytes) (seen : List Bytes)
    (out : List VersionedKv) : (scanVersionsFrom stop limit rounds cursor seen out).run.Performs ReadsOnly := by
  induction rounds generalizing cursor seen out with
  | zero => trivial
  | succ rounds ih =>
    rw [scanVersionsFrom]
    refine Prog.Performs.answered ⟨trivial, fun _ => trivial⟩ fun hit => ?_
    split
    · trivial
    · split
      · exact ih ..
      · split_ifs
        · exact ih ..
        · refine Prog.Performs.answered (reads_versionValue ..) fun value => ?_
          split
          · exact ih ..
          · dsimp only
            split_ifs
            · trivial
            · exact ih ..
        · trivial

theorem steady_scan (rounds i : Nat) (start stop : Bytes) (limit : Nat) :
    Steady node found (Ap.onNode i (scanVersions rounds start stop limit)) :=
  .onNode (reads_scanVersionsFrom ..)

theorem safe_store {i j : Nat} {k : Bytes} {c : Ts} (reached : i = node → c ≤ last) :
    (clocked node found).Safe j (Ap.onNode i (write (committedBatch k v c c))) last fun _ _ => True := by
  intro last' later s behind _
  refine ⟨last', le_rfl, fun _ _ => le_rfl, ?_, fun _ _ => trivial⟩
  rcases eq_or_ne i node with rfl | other
  · refine ⟨behind.clock, fun key c' stored => ?_⟩
    have here : c' ∈ storedStamps ((s.engine i).db.commitBatch (committedBatch k v c c)) key := by
      change c' ∈ storedStamps (Function.update s.engine i _ i).db key at stored
      rw [Function.update_self] at stored
      exact stored
    rcases storedStamps_commit here with ⟨-, rfl⟩ | old
    · exact .inl ((reached rfl).trans later)
    · exact behind.stored key c' old
  · exact behind.mono le_rfl behind.clock (congrArg Shared.db (Function.update_of_ne other.symm ..))

theorem steady_apApply (i : Nat) (key : Bytes) (value : Value) (ts : Ts) :
    Steady node found (apApply i key value ts) := by
  intro j last last' _ s behind inTime
  have quiet : (Call.observe i ts).Quiet node := trivial
  obtain ⟨last'', later, kept⟩ := quiet.behind behind inTime
  refine ⟨last'', later, fun _ _ => later, kept, (safe_store ?_).bind fun _ r _ _ => ?_⟩
  · rintro rfl
    have clock : ((Call.observe i ts).exec s).1.hlc i = Hlc.observe (s.hlc i) ts := Function.update_self ..
    rw [← kept.clock, clock]
    exact le_max_right ..
  · cases r <;> exact fun _ _ => trivial

theorem steady_fanout (request : Version) (peers : List Nat) : Steady node found (fanout request peers) := by
  refine .quiet ?_
  induction peers with
  | nil => trivial
  | cons peer rest ih => exact ⟨trivial, fun _ => ih⟩

theorem steady_apWrite (region : ApRegion) (i : Nat) (nowMs : UInt64) (key : Bytes) (value : Value) :
    Steady node found (apWrite region i nowMs key value) := by
  intro j last last' _ s behind inTime
  have quiet : (Call.now i nowMs key value).Quiet node := trivial
  obtain ⟨last'', later, kept⟩ := quiet.behind behind inTime
  refine ⟨last'', later, fun _ _ => later, kept, (safe_store ?_).bind fun last r _ _ => ?_⟩
  · rintro rfl
    have clock : ((Call.now i nowMs key value).exec s).1.hlc i = Hlc.now (s.hlc i) nowMs := Function.update_self ..
    rw [← kept.clock, clock]
    exact le_rfl
  · cases r with
    | error e => exact fun _ _ => trivial
    | ok _ => exact Steady.bind (steady_fanout _ _) (fun _ => Steady.ret (Except.ok _)) j last

theorem steady_replicateAp (message : Nat) : Steady node found (replicateAp message) := by
  have received : Steady node found (perform (.receive message)) := .quiet ⟨trivial, fun _ => trivial⟩
  refine received.bind fun request => ?_
  cases request with
  | none => exact .ret _
  | some request => exact steady_apApply _ _ _ _

theorem steady_adopt (i : Nat) (versions : List Version) : Steady node found (adopt i versions) := by
  induction versions with
  | nil => exact .ret _
  | cons v rest ih => exact (steady_apApply _ _ _ _).bind fun _ => ih

theorem steady_apDigest (region : ApRegion) (rounds i : Nat) : Steady node found (apDigest region rounds i) := by
  refine (steady_scan _ _ _ _ _).bind fun r => ?_
  cases r <;> exact .ret _

theorem steady_fetchKeys (rounds i : Nat) (keys : List Bytes) (out : List Version) :
    Steady node found (fetchKeys rounds i keys out) := by
  induction keys generalizing out with
  | nil => exact .ret _
  | cons key rest ih =>
    refine (steady_scan _ _ _ _ _).bind fun r => ?_
    cases r with
    | error e => exact .ret _
    | ok versions => exact ih _

theorem steady_apFetch (region : ApRegion) (rounds i : Nat) (buckets : List Nat) (keys : List Bytes) :
    Steady node found (apFetch region rounds i buckets keys) := by
  refine (steady_fetchKeys _ _ _ _).bind fun r => ?_
  cases r with
  | error e => exact .ret _
  | ok out =>
    dsimp only
    split
    · exact .ret _
    · refine (steady_scan _ _ _ _ _).bind fun r => ?_
      cases r <;> exact .ret _

theorem steady_mergePeer (region : ApRegion) (rounds i : Nat) (localDigest : Digest) (localMap : Bytes → Option Ts)
    (link : Link) : Steady node found (mergePeer region rounds i localDigest localMap link) := by
  refine (steady_apDigest _ _ _).bind fun r => ?_
  cases r with
  | error e => exact .ret _
  | ok theirs =>
    dsimp only
    generalize diff localDigest theirs = buckets
    split
    · exact .ret _
    · refine (steady_apFetch _ _ _ _ _).bind fun r => ?_
      cases r with
      | error e => exact .ret _
      | ok remote =>
        dsimp only
        split
        · exact .ret _
        · exact (steady_adopt _ _).bind fun _ => .ret _

theorem steady_mergePeers (region : ApRegion) (rounds i : Nat) (localDigest : Digest) (localMap : Bytes → Option Ts)
    (links : List Link) : Steady node found (mergePeers region rounds i localDigest localMap links) := by
  induction links with
  | nil => exact .ret _
  | cons link rest ih => exact (steady_mergePeer _ _ _ _ _ _).bind fun _ => ih.bind fun _ => .ret _

theorem steady_reconcileApOnce (region : ApRegion) (rounds i : Nat) (links : List Link) :
    Steady node found (reconcileApOnce region rounds i links) := by
  refine (steady_scan _ _ _ _ _).bind fun r => ?_
  cases r with
  | error e => exact .ret _
  | ok mine => exact steady_mergePeers _ _ _ _ _ _

theorem steady_askPeers (region : ApRegion) (rounds : Nat) (key : Bytes) (links : List Link) (best : Option Version)
    (states : List (Nat × Option Ts)) : Steady node found (askPeers region rounds key links best states) := by
  induction links generalizing best states with
  | nil => exact .ret _
  | cons link rest ih => exact (steady_apFetch _ _ _ _ _).bind fun _ => ih _ _

theorem steady_push (request : Version) (states : List (Nat × Option Ts)) :
    Steady node found (push request states) := by
  induction states with
  | nil => exact .ret _
  | cons state rest ih =>
    have sent : Steady node found (perform (.send state.1 request)) := .quiet ⟨trivial, fun _ => trivial⟩
    rw [push]
    split
    · exact sent.bind fun _ => ih
    · exact ih

theorem steady_apReadRepair (region : ApRegion) (rounds i : Nat) (key : Bytes) (links : List Link) :
    Steady node found (apReadRepair region rounds i key links) := by
  refine (steady_scan _ _ _ _ _).bind fun r => ?_
  cases r with
  | error e => exact .ret _
  | ok mine =>
    refine (steady_askPeers _ _ _ _ _ _).bind fun r => ?_
    obtain ⟨best, states⟩ := r
    cases best with
    | none => exact .ret _
    | some best =>
      have adopted {held : Option Ts} : Steady node found (adoptBest i key best held) := by
        rw [adoptBest]
        split
        · exact steady_apApply _ _ _ _
        · exact .ret _
      refine adopted.bind fun r => ?_
      cases r with
      | error e => exact .ret _
      | ok _ => exact (steady_push _ _).bind fun _ => .ret _

theorem steady_task (region : ApRegion) (rounds : Nat) (task : Task) :
    Steady node found (task.program region rounds) := by
  cases task with
  | write i nowMs key value => exact (steady_apWrite _ _ _ _ _).bind fun _ => .ret _
  | deliver message => exact (steady_replicateAp _).bind fun _ => .ret _
  | reconcile i links => exact (steady_reconcileApOnce _ _ _ _).bind fun _ => .ret _
  | read i key links => exact (steady_apReadRepair _ _ _ _ _).bind fun _ => .ret _

end

theorem Session.behind {region : ApRegion} {rounds : Nat} {session : Session} {schedule : List Nat}
    (inTime : (session.pool region rounds node found).Guarded Call.exec (Call.InTime node found) schedule) :
    ∃ last, Behind node found last ((session.pool region rounds node found).run Call.exec schedule).state := by
  have begin : (clocked node found).Sound (fun _ _ _ => True) 0 (session.pool region rounds node found) := by
    refine ⟨⟨Function.update_self .., fun key c stored => .inr ?_⟩, fun i p task => ?_⟩
    · change c ∈ storedStamps (Function.update session.world.engine node _ node).db key at stored
      rw [Function.update_self] at stored
      exact stored
    · rw [Session.pool, getElem?_map] at task
      obtain ⟨job, -, rfl⟩ := Option.map_eq_some_iff.mp task
      exact steady_task region rounds job i 0
  obtain ⟨last, -, sound⟩ := begin.run inTime
  exact ⟨last, sound.1⟩

theorem fanout_returns (request : Version) (peers : List Nat) (s : Cluster) :
    ∃ s', (fanout request peers).eval Call.exec s = (s', some ()) ∧ s'.engine = s.engine := by
  induction peers generalizing s with
  | nil => exact ⟨s, rfl, rfl⟩
  | cons peer rest ih =>
    obtain ⟨s', returned, same⟩ := ih ((Call.send peer request).exec s).1
    exact ⟨s', returned, same⟩

theorem apWrite_returns (region : ApRegion) (node : Nat) (nowMs : UInt64) (key : Bytes) (value : Value) (s : Cluster) :
    ∃ s', (apWrite region node nowMs key value).eval Call.exec s = (s', some (.ok (Hlc.now (s.hlc node) nowMs))) ∧
      (s'.engine node).db = (s.engine node).db.commitBatch
        (committedBatch key value (Hlc.now (s.hlc node) nowMs) (Hlc.now (s.hlc node) nowMs)) := by
  let stamped := ((Call.now node nowMs key value).exec s).1
  let batch := committedBatch key value (Hlc.now (s.hlc node) nowMs) (Hlc.now (s.hlc node) nowMs)
  obtain ⟨s', returned, same⟩ := fanout_returns (ofValue key value (Hlc.now (s.hlc node) nowMs)) (region.peersOf node)
    ((Call.access node (.submit (.write batch))).exec stamped).1
  refine ⟨s', ?_, ?_⟩
  · change (fanout (ofValue key value (Hlc.now (s.hlc node) nowMs)) (region.peersOf node) >>= fun _ =>
      pure (Except.ok (Hlc.now (s.hlc node) nowMs))).eval Call.exec
        ((Call.access node (.submit (.write batch))).exec stamped).1 = _
    rw [Prog.eval_bind, returned]
    rfl
  · rw [same]
    change (Function.update s.engine node _ node).db = _
    rw [Function.update_self]
    rfl

def Sole (db : Db) (key : Bytes) : Prop := ∀ e ∈ db.writeCf.entries, key <+: e.1 → ∃ c, e.1 = encodeDataKey key c

theorem prefix_of_between {key raw x : Bytes} (above : key ≤ raw) (below : raw < key ++ x) : key <+: raw := by
  by_contra other
  by_cases shorter : raw <+: key
  · obtain ⟨y, rfl⟩ := shorter
    have same : raw = raw ++ y := le_antisymm (le_append raw y) above
    rw [← same] at other
    exact other (prefix_refl raw)
  · rw [← append_nil raw, append_lt_append_of_apart shorter other] at below
    exact above.not_gt below

section

variable {db : Db} {key : Bytes} {value : Value} {ts : Ts}

theorem latest_store (newer : ∀ c ∈ storedStamps db key, c < ts) :
    (db.commitBatch (committedBatch key value ts ts)).Latest key ts value := by
  rw [Db.Latest, Holds.view_committedBatch]
  refine ⟨ts, by simp [Percolator.Store.putCommitted], fun c start committed => ?_,
    by simp [Percolator.Store.putCommitted]⟩
  simp only [Percolator.Store.putCommitted, true_and] at committed
  split_ifs at committed with here
  · exact here.le
  · obtain ⟨bytes, present, -⟩ := Option.bind_eq_some_iff.mp committed
    have bound : db.writeCf.find? (encodeDataKey key c) = some (.put bytes) := Db.getCf_eq_some.mp present
    exact (newer c (mem_storedStamps.mpr ⟨_, OrdMap.find?_eq_some.mp bound, decodeDataKey_encodeDataKey ..⟩)).le

theorem seek_store (newer : ∀ c ∈ storedStamps db key, c < ts) (sole : Sole db key) :
    (db.commitBatch (committedBatch key value ts ts)).seekCf .write key =
      some (encodeDataKey key ts, .put (encodeWriteValue ts)) := by
  have place (raw : Bytes) : ((db.commitBatch (committedBatch key value ts ts)).family .write).find? raw =
      if raw = encodeDataKey key ts then some (.put (encodeWriteValue ts)) else (db.family .write).find? raw := by
    simp only [Db.family_commitBatch, committedBatch, WriteBatch.put, nil_append, cons_append,
      foldl_cons, foldl_nil, Db.find_applyOp, WriteOp.cf, WriteOp.key, WriteOp.memValue, true_and,
      reduceCtorEq, false_and, if_false]
  refine OrdMap.seek_eq_some.mpr ⟨by rw [place, if_pos rfl], le_append key _, fun raw stored bound above => ?_⟩
  rw [place] at bound
  split_ifs at bound with here
  · exact here.symm.le
  · refine le_of_not_gt fun below => ?_
    have member := OrdMap.find?_eq_some.mp bound
    obtain ⟨c, rfl⟩ := sole _ member (prefix_of_between above below)
    have older := newer c (mem_storedStamps.mpr ⟨_, member, decodeDataKey_encodeDataKey ..⟩)
    exact older.not_gt (encodeDataKey_lt_encodeDataKey.mp below)

theorem scan_store (newer : ∀ c ∈ storedStamps db key, c < ts) (sole : Sole db key) (rounds : Nat) :
    Runs (scanVersions (rounds + 1) key (key ++ [0]) 1).run (db.commitBatch (committedBatch key value ts ts))
      (db.commitBatch (committedBatch key value ts ts)) (.ok [(key, ts, value.versioned)]) := by
  have committed : (db.commitBatch (committedBatch key value ts ts)).view.commit key ts = some ts := by
    simp [Holds.view_committedBatch, Percolator.Store.putCommitted]
  have valued : (db.commitBatch (committedBatch key value ts ts)).view.value key ts = some value := by
    simp [Holds.view_committedBatch, Percolator.Store.putCommitted]
  have inside : BelowEnd (key ++ [0]) key := .inr ((successor_le ..).mp le_rfl)
  refine (scanVersions_walks (key ++ [0]) 1).visit rounds key [] [] key ts ts _ committed (seek_store newer sole) ?_
  unfold visitKey
  rw [valued, if_neg (not_not.mpr inside), if_neg not_mem_nil]
  exact Runs.ret _

end

/-- Whatever a node stored in earlier processes: a local write gets a stamp above every version of its key that the node
stores, and read back at once it is the newest, if the local writes of this process are in time. -/
theorem local_writes_newest (region : ApRegion) (rounds node : Nat) (earlier : List Session) (session : Session)
    (before : List Nat) (task : Nat) (nowMs : UInt64) (key : Bytes) (value : Value)
    (inTime : (restarted region rounds node earlier session).Guarded Call.exec
      (Call.InTime node (dataAfter region rounds node .empty earlier)) (before ++ [task]))
    (s : Cluster) (reached : s = ((restarted region rounds node earlier session).run Call.exec before).state)
    (writes : ((restarted region rounds node earlier session).run Call.exec before).pending task =
      some (.now node nowMs key value)) :
    (∀ c ∈ storedStamps (s.engine node).db key, c < Hlc.now (s.hlc node) nowMs) ∧
      ∃ s', (apWrite region node nowMs key value).eval Call.exec s = (s', some (.ok (Hlc.now (s.hlc node) nowMs))) ∧
        (s'.engine node).db.Latest key (Hlc.now (s.hlc node) nowMs) value ∧
        (Sole (s.engine node).db key → ∀ seeks, Reads s' (onNode node (scanVersions (seeks + 1) key (key ++ [0]) 1))
          (.ok [(key, Hlc.now (s.hlc node) nowMs, value.versioned)])) := by
  obtain ⟨first, last⟩ := (Pool.guarded_append Call.exec).mp inTime
  obtain ⟨clock, behind⟩ := Session.behind first
  obtain ⟨room, past⟩ := last.1 _ writes rfl
  rw [restarted] at reached room
  rw [← reached] at behind room
  have newer : ∀ c ∈ storedStamps (s.engine node).db key, c < Hlc.now (s.hlc node) nowMs := by
    intro c stored
    rcases behind.stored key c stored with below | old
    · rw [← behind.clock] at below
      exact below.trans_lt (Hlc.lt_now nowMs room)
    · exact (past c old).trans_le (le_max_right ..)
  obtain ⟨s', returned, stored⟩ := apWrite_returns region node nowMs key value s
  refine ⟨newer, s', returned, ?_, fun sole seeks => reads_onNode ?_⟩
  · rw [stored]
    exact latest_store newer
  · rw [stored]
    exact scan_store newer sole seeks

def soloReplica : ApRegion := ⟨[], [], [0]⟩

def firstProcess : Session := ⟨{}, [.write 0 10 [1] (.put [7])], [0, 0]⟩

def nextProcess (nowMs : UInt64) : Session := ⟨{}, [.write 0 nowMs [1] (.put [8])], [0, 0]⟩

theorem local_writes_newest_later :
    storedStamps (dataAfter soloReplica 4 0 .empty [firstProcess]) [1] = [10 <<< logicalBits] ∧
      ∀ c ∈ storedStamps ((restarted soloReplica 4 0 [firstProcess] (nextProcess 11)).state.engine 0).db [1],
        c < Hlc.now 0 11 :=
  ⟨by decide +kernel, (local_writes_newest soloReplica 4 0 [firstProcess] (nextProcess 11) [] 0 11 [1] (.put [8])
    (by decide +kernel) _ rfl rfl).1⟩

/-- With the clock set back, the next process stamps its write below the stored one: the write is accepted, and a read
still gives the old value. -/
theorem restarted_write_older :
    storedStamps (dataAfter soloReplica 4 0 .empty [firstProcess]) [1] = [10 <<< logicalBits] ∧
      ((apWrite soloReplica 0 5 [1] (.put [8])).eval Call.exec
          (restarted soloReplica 4 0 [firstProcess] (nextProcess 5)).state).2 = some (.ok (5 <<< logicalBits)) ∧
      ((onNode 0 (scanVersions 4 [1] [1, 0] 1)).eval Call.exec
          ((restarted soloReplica 4 0 [firstProcess] (nextProcess 5)).run Call.exec [0, 0]).state).2 =
        some (.ok [([1], 10 <<< logicalBits, [7], false)]) :=
  ⟨by decide +kernel, rfl, rfl⟩

end Arcux.Server.Ap
