import Arcux.Server.ApReplication

namespace Arcux.Server.Ap

open Codec Concurrency Data Engine List Region
open scoped Codec.ByteOrder

variable {keys : Set Bytes} {k : Bytes} {c : Ts} {v : Value} {db : Db}

@[simp] theorem toValue_ofValue (key : Bytes) (value : Value) (ts : Ts) : toValue (ofValue key value ts) = value := by
  cases value <;> rfl

structure Holds (keys : Set Bytes) (written : List Version) (db : Db) : Prop where
  writes : ∀ key stored, db.writeCf.find? key = some stored → ∃ k ∈ keys, ∃ c, key = encodeDataKey k c ∧
    stored = .put (encodeWriteValue c) ∧ (db.view.value k c).isSome
  values : ∀ k c v, db.view.value k c = some v → ofValue k v c ∈ written

namespace Holds

variable {written written' : List Version}

theorem recorded (holds : Holds keys written db) : db.Recorded keys := by
  intro key stored found
  obtain ⟨k, mem, c, place, record, -⟩ := holds.writes key stored found
  exact ⟨k, mem, c, c, place, record⟩

theorem mono (holds : Holds keys written db) (sub : written ⊆ written') : Holds keys written' db :=
  ⟨holds.writes, fun k c v valued => sub (holds.values k c v valued)⟩

theorem empty : Holds keys [] .empty := ⟨nofun, nofun⟩

theorem view_committedBatch (db : Db) (k : Bytes) (v : Value) (c : Ts) :
    (db.commitBatch (committedBatch k v c c)).view = db.view.putCommitted k v c c := by
  simp [Db.view_commitBatch, committedBatch, WriteBatch.put, Percolator.Store.putCommitted]

theorem commit (holds : Holds keys written db) (mem : k ∈ keys) (known : ofValue k v c ∈ written) :
    Holds keys written (db.commitBatch (committedBatch k v c c)) where
  writes key stored found := by
    rw [view_committedBatch]
    have place : ((db.commitBatch (committedBatch k v c c)).family .write).find? key = some stored := found
    simp only [Db.family_commitBatch, committedBatch, WriteBatch.put, nil_append, cons_append,
      foldl_cons, foldl_nil, Db.find_applyOp, WriteOp.cf, WriteOp.key, WriteOp.memValue] at place
    split_ifs at place with here there
    · obtain rfl := Option.some.inj place
      exact ⟨k, mem, c, here.2, rfl, by simp [Percolator.Store.putCommitted]⟩
    · cases there.1
    · obtain ⟨k', mem', c', rfl, rfl, valued⟩ := holds.writes key stored place
      refine ⟨k', mem', c', rfl, rfl, ?_⟩
      simp only [Percolator.Store.putCommitted]
      split_ifs
      · rfl
      · exact valued
  values k' c' v' valued := by
    rw [view_committedBatch] at valued
    simp only [Percolator.Store.putCommitted] at valued
    split_ifs at valued with here
    · obtain ⟨rfl, rfl⟩ := here
      cases valued
      exact known
    · exact holds.values k' c' v' valued

theorem start_eq (holds : Holds keys written db) {s : Ts} (committed : db.view.commit k c = some s) : s = c := by
  obtain ⟨k', -, c', place, record, -⟩ := holds.writes _ _ (holds.recorded.commit_eq_some.mp committed)
  obtain ⟨-, rfl⟩ := encodeDataKey_inj.mp place
  have decoded := congrArg decodeWriteValue (MemValue.put.inj record)
  simpa using decoded

end Holds

def Call.Guard : Call → Cluster → Prop
  | now node nowMs key value, s => ∀ v ∈ s.written, v.key = key → v.version = Hlc.now (s.hlc node) nowMs →
      v = ofValue key value (Hlc.now (s.hlc node) nowMs)
  | _, _ => True

instance (call : Call) (s : Cluster) : Decidable (call.Guard s) := by
  unfold Call.Guard
  split <;> infer_instance

structure Cluster.Inv (keys : Set Bytes) (w : List Version) (s : Cluster) : Prop where
  written : s.written = w
  keyed : ∀ v ∈ w, v.key ∈ keys
  shaped : ∀ v ∈ w, ofValue v.key (toValue v) v.version = v
  unique : ∀ v ∈ w, ∀ v' ∈ w, v.key = v'.key → v.version = v'.version → v = v'
  holds : ∀ node, Holds keys w (s.engine node).db
  sent : ∀ m ∈ s.sent, m.2 ∈ w

def discipline (keys : Set Bytes) : Discipline Call Call.Reply Cluster (List Version) where
  exec := Call.exec
  guard := Call.Guard
  inv w s := s.Inv keys w
  grows w w' := w ⊆ w'
  rely _ w w' := w ⊆ w'
  grows_refl _ := Subset.refl _
  grows_trans := Subset.trans
  rely_refl _ _ := Subset.refl _
  rely_trans := Subset.trans
  rely_grows := id

section

variable {w : List Version} {s : Cluster} {i node : Nat} {α β : Type} {post : List Version → α → Prop}

theorem safe_ret {a : α} (holds : ∀ w', w ⊆ w' → post w' a) : (discipline keys).Safe i (.ret a) w post := holds

theorem safe_call {call : Call} {next : call.Reply → Script α}
    (step : ∀ w' s, w ⊆ w' → s.Inv keys w' → call.Guard s → ∃ w'', w' ⊆ w'' ∧ (call.exec s).1.Inv keys w'' ∧
      (discipline keys).Safe i (next (call.exec s).2) w'' post) :
    (discipline keys).Safe i (.call call next) w post := by
  intro w' grown s inv guarded
  obtain ⟨w'', later, inv', safe⟩ := step w' s grown inv guarded
  exact ⟨w'', later, fun _ _ => later, inv', safe⟩

theorem Cluster.Inv.access (inv : s.Inv keys w) {op : Access} (holds : Holds keys w (op.exec (s.engine node)).1.db) :
    ((Call.access node op).exec s).1.Inv keys w where
  __ := inv
  holds other := by
    simp only [Call.exec, Function.update_apply]
    split
    · exact holds
    · exact inv.holds other

theorem safe_onNode_bind {p : Program α} {next : α → Program β} {P : List Version → α → Prop}
    {Q : List Version → β → Prop} (first : (discipline keys).Safe i (onNode node p) w (Answers P))
    (rest : ∀ w' a, w ⊆ w' → P w' a → (discipline keys).Safe i (onNode node (next a)) w' (Answers Q)) :
    (discipline keys).Safe i (onNode node (p >>= next)) w (Answers Q) := by
  have split : onNode node (p >>= next) =
      (ExceptT.mk (onNode node p) >>= fun a => ExceptT.mk (onNode node (next a)) : ExceptT Error Script β).run := by
    refine (Prog.within_bind ..).trans (congrArg _ (funext fun r => ?_))
    cases r <;> rfl
  rw [split]
  exact Discipline.Safe.answered first rest

theorem safe_seek (low : Bytes) : (discipline keys).Safe i (onNode node (seekCfRaw .write low)) w
    (Answers fun _ found => ∀ key stored, found = some (key, stored) →
      low ≤ key ∧ ∃ k ∈ keys, ∃ c, key = encodeDataKey k c ∧ stored = .put (encodeWriteValue c)) := by
  refine safe_call fun w' s _ inv _ => ⟨w', Subset.refl _, inv.access (inv.holds node), safe_ret ?_⟩
  rintro w'' - _ ⟨⟩ key stored found
  obtain ⟨bound, above, -⟩ := OrdMap.seek_eq_some.mp found
  obtain ⟨k, mem, c, place, record, -⟩ := (inv.holds node).writes _ _ bound
  exact ⟨above, k, mem, c, place, record⟩

theorem safe_versionValue (k : Bytes) (c : Ts) :
    (discipline keys).Safe i (onNode node (versionValue k (.put (encodeWriteValue c)))) w
      (Answers fun w' valued => ∀ v, valued = some v → ofValue k v c ∈ w') := by
  have look : (discipline keys).Safe i (onNode node (getCfRaw .default (encodeDataKey k c))) w
      (Answers fun w' found => ∀ v, found.bind Value.decode = some v → ofValue k v c ∈ w') := by
    refine safe_call fun w' s _ inv _ => ⟨w', Subset.refl _, inv.access (inv.holds node), safe_ret ?_⟩
    rintro w'' later _ ⟨⟩ v valued
    exact later ((inv.holds node).values k c v valued)
  rw [versionValue, decodeWriteValue_encodeWriteValue]
  refine safe_onNode_bind look fun w' found _ valued => ?_
  cases found with
  | none => exact safe_ret fun _ _ => by rintro _ ⟨⟩ v ⟨⟩
  | some bytes => exact safe_ret fun _ later => by rintro _ ⟨⟩ v decoded; exact later (valued v decoded)

def Listed (keys : Set Bytes) (low stop : Bytes) (w : List Version) (found : List VersionedKv) : Prop :=
  ∀ e ∈ found, toAeVersion e ∈ w ∧ e.1 ∈ keys ∧ low ≤ encodeDataKey e.1 e.2.1 ∧ BelowEnd stop e.1

variable {found : List VersionedKv} {low stop : Bytes}

theorem Listed.mono {w w' : List Version}
    (listed : Listed keys low stop w found) (grown : w ⊆ w') : Listed keys low stop w' found :=
  fun e member => ⟨grown (listed e member).1, (listed e member).2⟩

theorem safe_scanVersionsFrom {limit : Nat} (rounds : Nat) (cursor : Bytes) (seen : List Bytes)
    (out : List VersionedKv) (ahead : low ≤ cursor) (listed : Listed keys low stop w out) :
    (discipline keys).Safe i (onNode node (scanVersionsFrom stop limit rounds cursor seen out)) w
      (Answers (Listed keys low stop)) := by
  have done {w : List Version} {out : List VersionedKv} (listed : Listed keys low stop w out) :
      (discipline keys).Safe i (onNode node (pure out)) w (Answers (Listed keys low stop)) :=
    safe_ret fun _ later => by
      rintro _ ⟨⟩
      exact listed.mono later
  induction rounds generalizing w cursor seen out with
  | zero => trivial
  | succ rounds ih =>
    rw [scanVersionsFrom]
    refine safe_onNode_bind (safe_seek cursor) fun w₁ hit grown found => ?_
    cases hit with
    | none => exact done (listed.mono grown)
    | some entry =>
      obtain ⟨key, stored⟩ := entry
      obtain ⟨above, k, mem, c, rfl, rfl⟩ := found key stored rfl
      have onward : low ≤ encodeDataKey k c ++ [0] := (ahead.trans above).trans ((successor_le ..).mp le_rfl).le
      simp only [decodeDataKey_encodeDataKey]
      by_cases inside : BelowEnd stop k
      · by_cases known : k ∈ seen
        · simp only [inside, known, not_true_eq_false, if_false, if_true]
          exact ih _ _ _ onward (listed.mono grown)
        · simp only [inside, known, not_true_eq_false, if_false]
          refine safe_onNode_bind (safe_versionValue k c) fun w₂ value later valued => ?_
          have listed₂ := listed.mono (Subset.trans grown later)
          cases value with
          | none => exact ih _ _ _ onward listed₂
          | some v =>
            have listed₃ : Listed keys low stop w₂ (out ++ [(k, c, v.versioned)]) := by
              intro e member
              rcases mem_append.mp member with old | new
              · exact listed₂ e old
              · obtain rfl := mem_singleton.mp new
                exact ⟨valued v rfl, mem, ahead.trans above, inside⟩
            dsimp only
            split
            · exact done listed₃
            · exact ih _ _ _ onward listed₃
      · simp only [inside, not_false_eq_true, if_true]
        exact done (listed.mono grown)

theorem safe_scanVersions (rounds : Nat) (low stop : Bytes) (limit : Nat) :
    (discipline keys).Safe i (onNode node (scanVersions rounds low stop limit)) w (Answers (Listed keys low stop)) :=
  safe_scanVersionsFrom rounds low [] [] le_rfl nofun

theorem safe_write (mem : k ∈ keys) (known : ofValue k v c ∈ w) :
    (discipline keys).Safe i (onNode node (write (committedBatch k v c c))) w fun _ _ => True :=
  safe_call fun w' _ grown inv _ => ⟨w', Subset.refl _,
    inv.access ((inv.holds node).commit mem (grown known)), safe_ret fun _ _ => trivial⟩

theorem safe_apApply {version : Version} (known : version ∈ w) :
    (discipline keys).Safe i (apApply node version.key (toValue version) version.version) w fun _ _ => True := by
  refine safe_call fun w' s grown inv _ => ⟨w', Subset.refl _,
    { inv with }, ?_⟩
  have known' : ofValue version.key (toValue version) version.version ∈ w' := by
    rw [inv.shaped _ (grown known)]
    exact grown known
  refine (safe_write (inv.keyed _ (grown known)) known').bind fun w'' r _ _ => ?_
  cases r <;> exact safe_ret fun _ _ => trivial

theorem safe_replicateAp (message : Nat) : (discipline keys).Safe i (replicateAp message) w fun _ _ => True := by
  refine safe_call fun w' s _ inv _ => ⟨w', Subset.refl _, inv, ?_⟩
  dsimp only [Call.exec]
  cases found : s.sent[message]? with
  | none => exact safe_ret fun _ _ => trivial
  | some request => exact safe_apApply (inv.sent _ (mem_of_getElem? found))

variable {request : Version}

theorem safe_send (known : request ∈ w) (peer : Nat) :
    (discipline keys).Safe i (perform (.send peer request)) w fun _ _ => True := by
  refine safe_call fun w' s grown inv _ => ⟨w', Subset.refl _,
    { inv with sent := ?_ }, safe_ret fun _ _ => trivial⟩
  intro m member
  rcases mem_append.mp member with old | new
  · exact inv.sent m old
  · obtain rfl := mem_singleton.mp new
    exact grown known

theorem safe_fanout (known : request ∈ w) (peers : List Nat) :
    (discipline keys).Safe i (fanout request peers) w fun _ _ => True := by
  induction peers generalizing w with
  | nil => exact safe_ret fun _ _ => trivial
  | cons peer rest ih => exact (safe_send known peer).bind fun w' _ grown _ => ih (grown known)

theorem Cluster.Inv.now (inv : s.Inv keys w) {nowMs : UInt64} (mem : k ∈ keys)
    (guarded : (Call.now node nowMs k v).Guard s) :
    ((Call.now node nowMs k v).exec s).1.Inv keys (ofValue k v (Hlc.now (s.hlc node) nowMs) :: w) where
  written := congrArg _ inv.written
  keyed := forall_mem_cons.mpr ⟨mem, inv.keyed⟩
  shaped := forall_mem_cons.mpr ⟨by rw [toValue_ofValue]; rfl, inv.shaped⟩
  unique := by
    rw [Call.Guard, inv.written] at guarded
    intro first member second member' sameKey sameTs
    rcases mem_cons.mp member with rfl | old <;> rcases mem_cons.mp member' with rfl | old'
    · rfl
    · exact (guarded second old' sameKey.symm sameTs.symm).symm
    · exact guarded first old sameKey sameTs
    · exact inv.unique first old second old' sameKey sameTs
  holds other := (inv.holds other).mono (subset_cons_self ..)
  sent m member := mem_cons_of_mem _ (inv.sent m member)

theorem safe_apWrite (region : ApRegion) (nowMs : UInt64) (mem : k ∈ keys) :
    (discipline keys).Safe i (apWrite region node nowMs k v) w fun _ _ => True := by
  refine safe_call fun w' s _ inv guarded => ⟨_, subset_cons_self .., inv.now mem guarded, ?_⟩
  refine (safe_write mem (mem_cons_self ..)).bind fun w'' r grown _ => ?_
  cases r with
  | error e => exact safe_ret fun _ _ => trivial
  | ok _ =>
    refine (safe_fanout (grown (mem_cons_self ..)) _).bind fun _ _ _ _ => ?_
    exact safe_ret fun _ _ => trivial

theorem safe_adopt {versions : List Version} (known : versions ⊆ w) :
    (discipline keys).Safe i (adopt node versions) w fun _ _ => True := by
  induction versions generalizing w with
  | nil => exact safe_ret fun _ _ => trivial
  | cons v rest ih =>
    refine (safe_apApply (known (mem_cons_self ..))).bind fun w' _ grown _ => ih fun v' member => ?_
    exact grown (known (mem_cons_of_mem _ member))

theorem safe_apDigest (region : ApRegion) (rounds : Nat) :
    (discipline keys).Safe i (apDigest region rounds node) w fun _ _ => True := by
  refine (safe_scanVersions rounds region.start region.stop 0).bind fun w' r _ _ => ?_
  cases r <;> exact safe_ret fun _ _ => trivial

theorem Listed.versions (listed : Listed keys low stop w found) : found.map toAeVersion ⊆ w :=
  forall_mem_map.mpr fun e member => (listed e member).1

variable {key : Bytes}

theorem Listed.key_eq (apart : Apart keys) (mem : key ∈ keys)
    (listed : Listed keys key (key ++ [0]) w found) {e : VersionedKv} (member : e ∈ found) : e.1 = key := by
  obtain ⟨-, mem', above, below⟩ := listed e member
  have before : e.1 ≤ key := by
    rcases below with nothing | below
    · cases key <;> cases nothing
    · exact le_of_not_gt fun after => below.not_ge ((successor_le ..).mpr after)
  by_contra differ
  have less := (apart.encode_lt_of_ne mem' mem differ (encodeTs e.2.1) []).mpr (before.lt_of_ne differ)
  rw [append_nil] at less
  exact above.not_gt less

def Fetched (asked : List Bytes) (w found : List Version) : Prop := found ⊆ w ∧ ∀ v ∈ found, v.key ∈ asked

variable {asked : List Bytes}

theorem Fetched.mono {w' found : List Version} (fetched : Fetched asked w found)
    (grown : w ⊆ w') : Fetched asked w' found :=
  ⟨Subset.trans fetched.1 grown, fetched.2⟩

theorem safe_fetchKeys (apart : Apart keys) (rounds : Nat) {asked all : List Bytes} (mem : ∀ key ∈ asked, key ∈ keys)
    (sub : asked ⊆ all) {out : List Version} (fetched : Fetched all w out) :
    (discipline keys).Safe i (fetchKeys rounds node asked out) w (Answers (Fetched all)) := by
  induction asked generalizing w out with
  | nil =>
    refine safe_ret fun w' later => ?_
    rintro _ ⟨⟩
    exact fetched.mono later
  | cons key rest ih =>
    refine (safe_scanVersions rounds key (key ++ [0]) 1).bind fun w' r grown answered => ?_
    cases r with
    | error e => exact safe_ret fun _ _ => nofun
    | ok found =>
      have listed := answered found rfl
      have first : ∀ v ∈ (found.head?.map toAeVersion).toList, v ∈ w' ∧ v.key ∈ all := by
        intro v member
        obtain ⟨e, head, rfl⟩ := Option.map_eq_some_iff.mp (Option.mem_toList.mp member)
        have there := mem_of_head? head
        refine ⟨(listed e there).1, ?_⟩
        have same : e.1 = key := listed.key_eq apart (mem key (mem_cons_self ..)) there
        exact sub (same ▸ mem_cons_self ..)
      refine ih (fun k member => mem k (mem_cons_of_mem _ member))
        (fun k member => sub (mem_cons_of_mem _ member)) ⟨?_, ?_⟩
      · exact append_subset.mpr ⟨(fetched.mono grown).1, fun v member => (first v member).1⟩
      · exact forall_mem_append.mpr ⟨fetched.2, fun v member => (first v member).2⟩

theorem safe_apFetch (apart : Apart keys) (region : ApRegion) (rounds : Nat) (buckets : List Nat)
    (mem : ∀ key ∈ asked, key ∈ keys) :
    (discipline keys).Safe i (apFetch region rounds node buckets asked) w
      (Answers fun w' found => found ⊆ w' ∧ (buckets = [] → Fetched asked w' found)) := by
  have nothing : Fetched asked w [] := ⟨nil_subset _, nofun⟩
  refine (safe_fetchKeys apart rounds mem (Subset.refl _) nothing).bind fun w' r _ answered => ?_
  cases r with
  | error e => exact safe_ret fun _ _ => nofun
  | ok out =>
    have fetched := answered out rfl
    dsimp only
    split
    · refine safe_ret fun w'' later => ?_
      rintro _ ⟨⟩
      exact ⟨(fetched.mono later).1, fun _ => fetched.mono later⟩
    · rename_i some
      refine (safe_scanVersions rounds region.start region.stop 0).bind fun w'' r later answered => ?_
      cases r with
      | error e => exact safe_ret fun _ _ => nofun
      | ok versions =>
        refine safe_ret fun w''' latest => ?_
        rintro _ ⟨⟩
        refine ⟨append_subset.mpr ⟨((fetched.mono later).mono latest).1, ?_⟩, fun none => absurd none some⟩
        exact fun v member => latest ((answered versions rfl).versions (mem_of_mem_filter member))

theorem safe_mergePeers (apart : Apart keys) (region : ApRegion) (rounds : Nat) (localDigest : Digest)
    (localMap : Bytes → Option Ts) (links : List Link) :
    (discipline keys).Safe i (mergePeers region rounds node localDigest localMap links) w fun _ _ => True := by
  induction links generalizing w with
  | nil => exact safe_ret fun _ _ => trivial
  | cons link rest ih =>
    have merge : (discipline keys).Safe i (mergePeer region rounds node localDigest localMap link) w fun _ _ => True := by
      refine (safe_apDigest region rounds).bind fun w₁ r _ _ => ?_
      cases r with
      | error e => exact safe_ret fun _ _ => trivial
      | ok theirs =>
        dsimp only
        generalize diff localDigest theirs = buckets
        split
        · exact safe_ret fun _ _ => trivial
        · refine (safe_apFetch apart region rounds buckets (forall_mem_nil _)).bind fun w₂ r _ answered => ?_
          cases r with
          | error e => exact safe_ret fun _ _ => trivial
          | ok remote =>
            dsimp only
            split
            · exact safe_ret fun _ _ => trivial
            · refine (safe_adopt ?_).bind fun _ _ _ _ => safe_ret fun _ _ => trivial
              exact fun v member => (answered remote rfl).1 (mem_of_mem_filter member)
    refine merge.bind fun w' adopted _ _ => ih.bind fun _ _ _ _ => ?_
    exact safe_ret fun _ _ => trivial

theorem safe_reconcileApOnce (apart : Apart keys) (region : ApRegion) (rounds : Nat) (links : List Link) :
    (discipline keys).Safe i (reconcileApOnce region rounds node links) w fun _ _ => True := by
  refine (safe_scanVersions rounds region.start region.stop 0).bind fun w' r _ _ => ?_
  cases r with
  | error e => exact safe_ret fun _ _ => trivial
  | ok found => exact safe_mergePeers apart region rounds _ _ links

theorem mem_better {v : Version} {ver best : Option Version} (member : v ∈ better ver best) : v ∈ ver ∨ v ∈ best := by
  unfold better at member
  split at member
  · split at member
    · exact .inl member
    · exact .inr member
  · exact .inl member
  · exact .inr member

theorem safe_askPeers (apart : Apart keys) (region : ApRegion) (rounds : Nat) (mem : key ∈ keys) (links : List Link)
    {best : Option Version} (states : List (Nat × Option Ts)) (known : ∀ v ∈ best, v ∈ w ∧ v.key = key) :
    (discipline keys).Safe i (askPeers region rounds key links best states) w
      fun w' r => ∀ v ∈ r.1, v ∈ w' ∧ v.key = key := by
  induction links generalizing w best states with
  | nil => exact safe_ret fun w' later v member => ⟨later (known v member).1, (known v member).2⟩
  | cons link rest ih =>
    have only : ∀ k ∈ [key], k ∈ keys := forall_mem_singleton.mpr mem
    refine (safe_apFetch apart region rounds [] only).bind fun w' answer grown answered => ih _ fun v member => ?_
    rcases mem_better member with fresh | old
    · split at fresh
      · cases answer with
        | error e => cases fresh
        | ok found =>
          obtain ⟨known, named⟩ := (answered found rfl).2 rfl
          have there := mem_of_head? fresh
          exact ⟨known there, mem_singleton.mp (named v there)⟩
      · cases fresh
    · exact ⟨grown (known v old).1, (known v old).2⟩

theorem safe_push (known : request ∈ w) (states : List (Nat × Option Ts)) :
    (discipline keys).Safe i (push request states) w fun _ _ => True := by
  induction states generalizing w with
  | nil => exact safe_ret fun _ _ => trivial
  | cons state rest ih =>
    obtain ⟨peer, held⟩ := state
    rw [push]
    split
    · exact (safe_send known peer).bind fun _ _ grown _ => ih (grown known)
    · exact ih known

theorem safe_apReadRepair (apart : Apart keys) (region : ApRegion) (rounds : Nat) (mem : key ∈ keys)
    (links : List Link) : (discipline keys).Safe i (apReadRepair region rounds node key links) w fun _ _ => True := by
  refine (safe_scanVersions rounds key (key ++ [0]) 1).bind fun w₁ r _ answered => ?_
  cases r with
  | error e => exact safe_ret fun _ _ => trivial
  | ok found =>
    have answer := answered found rfl
    refine (safe_askPeers apart region rounds mem links [] ?_).bind fun w₂ r _ known => ?_
    · intro v member
      obtain ⟨e, head, rfl⟩ := Option.map_eq_some_iff.mp member
      have there := mem_of_head? head
      exact ⟨(answer e there).1, answer.key_eq apart mem there⟩
    · obtain ⟨best, states⟩ := r
      cases best with
      | none => exact safe_ret fun _ _ => trivial
      | some best =>
        obtain ⟨listed, rfl⟩ := known best rfl
        have adopted : (discipline keys).Safe i (adoptBest node best.key best
            ((found.head?.map toAeVersion).map Version.version)) w₂ fun _ _ => True := by
          rw [adoptBest]
          split
          · exact safe_apApply listed
          · exact safe_ret fun _ _ => trivial
        refine adopted.bind fun w₃ r grown _ => ?_
        cases r with
        | error e => exact safe_ret fun _ _ => trivial
        | ok _ => exact (safe_push (grown listed) states).bind fun _ _ _ _ => safe_ret fun _ _ => trivial

end

def Task.Keyed (keys : Set Bytes) : Task → Prop
  | write _ _ key _ | read _ key _ => key ∈ keys
  | deliver _ | reconcile _ _ => True

theorem safe_task (apart : Apart keys) (region : ApRegion) (rounds i : Nat) {task : Task} (keyed : task.Keyed keys)
    (w : List Version) : (discipline keys).Safe i (task.program region rounds) w fun _ _ => True := by
  cases task with
  | write node nowMs key value =>
    exact (safe_apWrite region nowMs keyed).bind fun _ _ _ _ => safe_ret fun _ _ => trivial
  | deliver message => exact (safe_replicateAp message).bind fun _ _ _ _ => safe_ret fun _ _ => trivial
  | reconcile node links =>
    exact (safe_reconcileApOnce apart region rounds links).bind fun _ _ _ _ => safe_ret fun _ _ => trivial
  | read node key links =>
    exact (safe_apReadRepair apart region rounds keyed links).bind fun _ _ _ _ => safe_ret fun _ _ => trivial

theorem Cluster.Inv.run (apart : Apart keys) (region : ApRegion) (rounds : Nat) {tasks : List Task}
    (keyed : ∀ task ∈ tasks, task.Keyed keys) {schedule : List Nat}
    (guarded : (start region rounds tasks).Guarded Call.exec Call.Guard schedule) :
    ∃ w, ((start region rounds tasks).run Call.exec schedule).state.Inv keys w := by
  have begin : (discipline keys).Sound (fun _ _ _ => True) [] (start region rounds tasks) := by
    refine ⟨⟨rfl, nofun, nofun, nofun, fun _ => Holds.empty, nofun⟩, fun i p found => ?_⟩
    rw [start, getElem?_map] at found
    obtain ⟨task, there, rfl⟩ := Option.map_eq_some_iff.mp found
    exact safe_task apart region rounds i (keyed task (mem_of_getElem? there)) []
  obtain ⟨w, -, sound⟩ := begin.run guarded
  exact ⟨w, sound.1⟩

end Arcux.Server.Ap
