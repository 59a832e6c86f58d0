import Mathlib.Data.List.Nodup
import Arcux.Pd.Founding
import Arcux.Pd.Restore

namespace Arcux.Pd

open Codec Data List
open scoped Codec.ByteOrder Engine

def tableStart (i : Nat) : Bytes := if i = 0 then [] else toBE tablePrefixLen i

structure RegionRegistry.Tiles (registry : RegionRegistry) (count : Nat) : Prop where
  length : registry.regions.length = count
  nextId : registry.nextId.toNat = count + 1
  each : ∀ i r, registry.regions[i]? = some r → r.id.toNat = i + 1 ∧ r.start = tableStart i ∧
    r.stop = if i + 1 = count then [] else tableStart (i + 1)

theorem toBE_ne_nil (i : Nat) : toBE tablePrefixLen i ≠ [] :=
  fun empty => nomatch (toBE_length _ _).symm.trans (congrArg _ empty)

theorem tableStart_lt {i n : Nat} (less : i < n) (small : n < 2 ^ 32) : tableStart i < toBE tablePrefixLen n := by
  unfold tableStart
  split
  case isTrue => exact lt_of_le_of_ne (le_append [] _) (toBE_ne_nil n).symm
  case isFalse => exact (ByteOrder.toBE_lt_toBE (less.trans small) small).mpr less

namespace RegionRegistry

variable {registry : RegionRegistry} {count : Nat}

theorem Tiles.contains_iff (tiles : registry.Tiles count) (few : count ≤ 2 ^ 32) {i j : Nat} (small : i < 2 ^ 32)
    {r : Region} (found : registry.regions[j]? = some r) (x : Bytes) :
    r.contains (toBE tablePrefixLen i ++ x) = true ↔ j = min i (count - 1) := by
  obtain ⟨-, start, stop⟩ := tiles.each j r found
  have bound : j < count := tiles.length ▸ (List.getElem?_eq_some_iff.mp found).1
  have after : r.start ≤ toBE tablePrefixLen i ++ x ↔ j ≤ i := by
    rw [start, tableStart]
    split
    case isTrue zero => exact iff_of_true (le_append [] _) (zero ▸ Nat.zero_le i)
    case isFalse => rw [← not_lt, ByteOrder.toBE_append_lt_iff small (bound.trans_le few), not_lt]
  have before : (r.stop = [] ∨ toBE tablePrefixLen i ++ x < r.stop) ↔ j + 1 = count ∨ i ≤ j := by
    rw [stop]
    split
    case isTrue last => exact iff_of_true (.inl rfl) (.inl last)
    case isFalse more =>
      have next : tableStart (j + 1) = toBE tablePrefixLen (j + 1) := if_neg (Nat.succ_ne_zero j)
      rw [next, ByteOrder.toBE_append_lt_iff small (lt_of_lt_of_le (by omega : j + 1 < count) few), Nat.lt_succ_iff]
      exact or_congr (iff_of_false (toBE_ne_nil _) more) Iff.rfl
  simp only [Region.contains, decide_eq_true_eq, after, before]
  omega

theorem Tiles.find (tiles : registry.Tiles count) (positive : 0 < count) (few : count ≤ 2 ^ 32) {i : Nat}
    (small : i < 2 ^ 32) (x : Bytes) : ∃ r, registry.regions[min i (count - 1)]? = some r ∧
      registry.regions.findIdx (·.contains (toBE tablePrefixLen i ++ x)) = min i (count - 1) ∧
      registry.route (toBE tablePrefixLen i ++ x) = some r := by
  have length := tiles.length
  have inside : min i (count - 1) < registry.regions.length := by omega
  have here := (tiles.contains_iff few small (getElem?_eq_getElem inside) x).mpr rfl
  have earlier (j : Nat) (less : j < min i (count - 1)) :
      (registry.regions.get ⟨j, less.trans inside⟩).contains (toBE tablePrefixLen i ++ x) = false := by
    rw [Bool.eq_false_iff]
    intro holds
    exact less.ne ((tiles.contains_iff few small (getElem?_eq_getElem (less.trans inside)) x).mp holds)
  refine ⟨_, getElem?_eq_getElem inside, (findIdx_eq inside).mpr ⟨here, earlier⟩, ?_⟩
  refine find?_eq_some_iff_getElem.mpr ⟨here, _, inside, rfl, fun j less => congrArg not (earlier j less)⟩

theorem Tiles.ids (tiles : registry.Tiles count) : (registry.regions.map Region.id).Nodup := by
  refine pairwise_map.mpr (pairwise_iff_getElem.mpr fun i j bound bound' less same => ?_)
  have id := (tiles.each i _ (getElem?_eq_getElem bound)).1
  have id' := (tiles.each j _ (getElem?_eq_getElem bound')).1
  rw [same] at id
  omega

theorem Tiles.split (tiles : registry.Tiles count) (positive : 0 < count) (few : count < 2 ^ 32) :
    (registry.split (toBE tablePrefixLen count)).1.Tiles (count + 1) := by
  obtain ⟨target, last, index, -⟩ := tiles.find positive few.le few []
  rw [append_nil, Nat.min_eq_right (Nat.sub_le count 1)] at index
  rw [Nat.min_eq_right (Nat.sub_le count 1)] at last
  obtain ⟨id, start, stop⟩ := tiles.each _ _ last
  have inside : ¬ toBE tablePrefixLen count ≤ target.start := by
    rw [start]
    exact (tableStart_lt (Nat.sub_lt positive Nat.one_pos) few).not_ge
  have length := tiles.length
  have nextId := tiles.nextId
  unfold RegionRegistry.split
  rw [index]
  simp only [last, inside, if_false]
  refine ⟨?_, ?_, fun i r found => ?_⟩
  · rw [length_insertIdx, length_set, if_pos (by omega), length]
  · rw [UInt64.toNat_add, UInt64.toNat_one, nextId, Nat.mod_eq_of_lt (by omega)]
  · rw [Nat.sub_add_cancel positive, getElem?_insertIdx, getElem?_set] at found
    rcases Nat.lt_trichotomy i count with less | rfl | more
    · rw [if_pos less] at found
      rcases eq_or_ne (count - 1) i with rfl | other
      · rw [if_pos rfl, if_pos (by omega)] at found
        cases found
        refine ⟨id, start, ?_⟩
        rw [Nat.sub_add_cancel positive, if_neg (Nat.succ_ne_self count).symm, tableStart, if_neg positive.ne']
      · rw [if_neg other] at found
        obtain ⟨id, start, stop⟩ := tiles.each i r found
        refine ⟨id, start, ?_⟩
        rw [stop, if_neg (by omega), if_neg (by omega)]
    · rw [if_neg (Nat.lt_irrefl i), if_pos rfl, length_set, if_pos length.ge] at found
      cases found
      refine ⟨nextId, ?_, ?_⟩
      · rw [tableStart, if_neg positive.ne']
      · rw [stop, Nat.sub_add_cancel positive, if_pos rfl, if_pos rfl]
    · rw [if_neg more.not_gt, if_neg more.ne', getElem?_eq_none (by rw [length_set]; omega)] at found
      cases found

end RegionRegistry

def noteDeclared (known : List (String × Regime)) (payload : Bytes) : List (String × Regime) :=
  match PdCmd.decode payload with
  | some (.declareTable name regime) =>
    if name = "" ∨ name ∈ known.map Prod.fst then known else known ++ [(name, regime)]
  | _ => known

def firstDeclared (log : List Bytes) : List (String × Regime) := log.foldl noteDeclared [(defaultTableName, .cp)]

theorem nodup_noteDeclared {known : List (String × Regime)} (distinct : (known.map Prod.fst).Nodup) (payload : Bytes) :
    ((noteDeclared known payload).map Prod.fst).Nodup := by
  unfold noteDeclared
  split
  case _ name regime _ =>
    split
    case isTrue => exact distinct
    case isFalse new =>
      rw [map_append, map_singleton, ← concat_eq_append]
      exact distinct.concat (not_or.mp new).2
  case _ => exact distinct

theorem firstDeclared_concat (log : List Bytes) (payload : Bytes) :
    firstDeclared (log ++ [payload]) = noteDeclared (firstDeclared log) payload := by
  rw [firstDeclared, foldl_append]
  rfl

theorem prefix_noteDeclared (known : List (String × Regime)) (payload : Bytes) :
    known <+: noteDeclared known payload := by
  unfold noteDeclared
  split
  · split
    · exact prefix_rfl
    · exact prefix_append ..
  · exact prefix_rfl

theorem firstDeclared_append (log more : List Bytes) : firstDeclared log <+: firstDeclared (log ++ more) := by
  rw [firstDeclared, firstDeclared, foldl_append]
  generalize log.foldl noteDeclared _ = known
  induction more generalizing known with
  | nil => exact prefix_rfl
  | cons payload rest ih => exact (prefix_noteDeclared known payload).trans (ih _)

theorem firstDeclared_cons (log : List Bytes) : ∃ rest, firstDeclared log = (defaultTableName, .cp) :: rest := by
  obtain ⟨rest, grown⟩ := firstDeclared_append [] log
  exact ⟨rest, grown.symm⟩

theorem nodup_firstDeclared (log : List Bytes) : ((firstDeclared log).map Prod.fst).Nodup := by
  suffices distinct : ∀ known : List (String × Regime), (known.map Prod.fst).Nodup →
      ((log.foldl noteDeclared known).map Prod.fst).Nodup from distinct _ (nodup_singleton _)
  induction log with
  | nil => exact fun _ distinct => distinct
  | cons payload rest ih => exact fun known distinct => ih _ (nodup_noteDeclared distinct payload)

namespace PdFsm

def maxTables : Nat := 2 ^ 32 - 1

/-- The catalog lists the declared tables under consecutive ids, and the regions are those of its tables. -/
structure Tiled (log : List Bytes) (fsm : PdFsm) : Prop where
  tables : fsm.catalog.map (fun t => (t.name, t.regime)) = (firstDeclared log).take maxTables
  ids : ∀ i (t : Table), fsm.catalog[i]? = some t → t.id.toNat = i
  nextTableId : fsm.nextTableId.toNat = fsm.catalog.length
  regions : fsm.regions.Tiles fsm.catalog.length

theorem tiled_fresh (replicas : Nat) : Tiled [] (fresh replicas) where
  tables := rfl
  ids i t found := by
    rcases List.getElem?_eq_some_iff.mp found with ⟨bound, same⟩
    obtain rfl : i = 0 := Nat.lt_one_iff.mp bound
    exact same ▸ rfl
  nextTableId := rfl
  regions := ⟨rfl, rfl, fun i r found => by
    rcases List.getElem?_eq_some_iff.mp found with ⟨bound, same⟩
    obtain rfl : i = 0 := Nat.lt_one_iff.mp bound
    exact same ▸ ⟨rfl, rfl, rfl⟩⟩

structure SameTables (a b : PdFsm) : Prop where
  catalog : a.catalog = b.catalog
  nextTableId : a.nextTableId = b.nextTableId
  regions : a.regions = b.regions

theorem Tiled.congr {log log' : List Bytes} {a b : PdFsm} (tiled : Tiled log a) (same : SameTables b a)
    (declared : (firstDeclared log').take maxTables = (firstDeclared log).take maxTables) : Tiled log' b where
  tables := by rw [same.catalog, tiled.tables, declared]
  ids := same.catalog ▸ tiled.ids
  nextTableId := by rw [same.nextTableId, same.catalog, tiled.nextTableId]
  regions := by rw [same.regions, same.catalog]; exact tiled.regions

theorem sameTables_foundUnfoundedRegions (fsm : PdFsm) : SameTables fsm.foundUnfoundedRegions.1 fsm := by
  unfold foundUnfoundedRegions
  dsimp only
  split <;> exact ⟨rfl, rfl, rfl⟩

theorem SameTables.refl (fsm : PdFsm) : SameTables fsm fsm := ⟨rfl, rfl, rfl⟩

section

variable {log : List Bytes} {fsm : PdFsm} {payload : Bytes} {name : String} {regime : Regime}

theorem Tiled.positive (tiled : Tiled log fsm) : 0 < fsm.catalog.length := by
  obtain ⟨rest, declared⟩ := firstDeclared_cons log
  have length := congrArg length tiled.tables
  rw [declared, length_map, length_take, length_cons, maxTables] at length
  omega

theorem Tiled.length (tiled : Tiled log fsm) : fsm.catalog.length = min maxTables (firstDeclared log).length := by
  rw [← length_take, ← tiled.tables, length_map]

theorem Tiled.known (tiled : Tiled log fsm) {t : Table} (member : t ∈ fsm.catalog) :
    t.name ∈ (firstDeclared log).map Prod.fst := by
  have listed : (t.name, t.regime) ∈ (firstDeclared log).take maxTables := tiled.tables ▸ mem_map_of_mem member
  exact mem_map_of_mem (mem_of_mem_take listed)

theorem firstDeclared_declareTable (log : List Bytes)
    (decoded : PdCmd.decode payload = some (.declareTable name regime)) :
    firstDeclared (log ++ [payload]) = if name = "" ∨ name ∈ (firstDeclared log).map Prod.fst
      then firstDeclared log else firstDeclared log ++ [(name, regime)] := by
  rw [firstDeclared_concat, noteDeclared, decoded]

theorem Tiled.carve (tiled : Tiled log fsm) (room : fsm.catalog.length < maxTables)
    (declared : firstDeclared (log ++ [payload]) = firstDeclared log ++ [(name, regime)]) :
    Tiled (log ++ [payload]) { fsm with
      nextTableId := fsm.nextTableId + 1
      catalog := fsm.catalog ++ [⟨fsm.nextTableId, name, regime⟩]
      regions := (fsm.regions.split (tablePrefix fsm.nextTableId)).1
      version := fsm.version + 1 } where
  tables := by
    have length := tiled.length
    rw [declared, map_append, tiled.tables, take_of_length_le (by omega),
      take_of_length_le (by rw [length_append, length_singleton]; omega)]
    rfl
  ids i t found := by
    rw [getElem?_append] at found
    split at found
    case isTrue => exact tiled.ids i t found
    case isFalse beyond =>
      obtain ⟨bound, same⟩ := List.getElem?_eq_some_iff.mp found
      rw [List.length_singleton] at bound
      have last : i = fsm.catalog.length := by omega
      rw [getElem_singleton] at same
      rw [← same, last]
      exact tiled.nextTableId
  nextTableId := by
    rw [maxTables] at room
    rw [UInt32.toNat_add, UInt32.toNat_one, tiled.nextTableId, length_append, length_singleton,
      Nat.mod_eq_of_lt (by omega)]
  regions := by
    rw [maxTables] at room
    rw [length_append, length_singleton, tablePrefix, tiled.nextTableId]
    exact tiled.regions.split tiled.positive (by omega)

theorem Tiled.declareTable (tiled : Tiled log fsm)
    (decoded : PdCmd.decode payload = some (.declareTable name regime)) :
    Tiled (log ++ [payload]) (fsm.declareTable name regime) := by
  have noted := firstDeclared_declareTable log decoded
  unfold PdFsm.declareTable
  split
  case isTrue built =>
    refine tiled.congr (SameTables.refl fsm) ?_
    rw [noted, if_pos]
    obtain ⟨rest, declared⟩ := firstDeclared_cons log
    refine built.imp_right fun default => ?_
    rw [default, declared]
    exact mem_cons_self ..
  case isFalse custom =>
    split
    case isTrue again =>
      obtain ⟨t, member, same⟩ := any_eq_true.mp again
      refine tiled.congr (SameTables.refl fsm) ?_
      rw [noted, if_pos (.inr (of_decide_eq_true same ▸ tiled.known member))]
    case isFalse new =>
      have length := tiled.length
      have next := tiled.nextTableId
      dsimp only
      split
      case isTrue exhausted =>
        have full : fsm.catalog.length = maxTables := by rw [← next, exhausted]; rfl
        refine tiled.congr (SameTables.refl fsm) ?_
        rw [noted]
        split
        · rfl
        · exact take_append_of_le_length (by omega)
      case isFalse free =>
        have room : fsm.catalog.length < maxTables := by
          have room := room_of_ne_last free
          rw [maxTables]
          omega
        refine tiled.carve room ?_
        rw [noted, if_neg]
        rintro (empty | declared)
        · exact custom (.inl empty)
        · obtain ⟨d, listed, rfl⟩ := mem_map.mp declared
          rw [← take_of_length_le (by omega : (firstDeclared log).length ≤ maxTables), ← tiled.tables] at listed
          obtain ⟨t, member, rfl⟩ := mem_map.mp listed
          exact new (any_eq_true.mpr ⟨t, member, decide_eq_true rfl⟩)

end

theorem sameTables_heartbeat (fsm : PdFsm) (nodeId : UInt64) (address : String) (reported : List ReplicaSet)
    (now : UInt64) (storeId : String) :
    SameTables (fsm.applyCmd (.heartbeat nodeId address reported now storeId)) fsm := by
  obtain ⟨stores, bound⟩ := fsm.bindStore_eq nodeId storeId
  simp only [applyCmd, prepare, bound]
  have founded := sameTables_foundUnfoundedRegions
    { ({ fsm with stores } : PdFsm).adoptGrownVoters nodeId reported |>.1 with
      members := (fsm.members.heartbeat nodeId address reported now).1 }
  split
  · exact { founded with }
  · exact { founded with }

theorem Tiled.apply {log : List Bytes} {fsm : PdFsm} (tiled : Tiled log fsm) (payload : Bytes) :
    Tiled (log ++ [payload]) (fsm.apply payload) := by
  have noted := firstDeclared_concat log payload
  unfold noteDeclared at noted
  unfold PdFsm.apply
  cases decoded : PdCmd.decode payload with
  | none =>
    rw [decoded] at noted
    exact tiled.congr (SameTables.refl fsm) (by rw [noted])
  | some cmd =>
    rw [decoded] at noted
    cases cmd with
    | reserveTs upper => exact tiled.congr ⟨rfl, rfl, rfl⟩ (by rw [noted])
    | heartbeat nodeId address reported now storeId =>
      exact tiled.congr (sameTables_heartbeat ..) (by rw [noted])
    | declareTable name regime =>
      exact (tiled.declareTable decoded).congr (sameTables_foundUnfoundedRegions _) rfl

theorem tiled_applyAll (replicas : Nat) (log : List Bytes) : Tiled log ((fresh replicas).applyAll log) := by
  induction log using reverseRecOn with
  | nil => exact tiled_fresh replicas
  | append_singleton log payload ih =>
    have step := ih.apply payload
    rw [applyAll, foldl_append]
    exact step

def Settled (fsm : PdFsm) : Prop :=
  fsm.members.liveNodes = [] ∨ ∀ r ∈ fsm.regions.regions, membersOf fsm.regionMembers r.id ≠ []

variable {founding : List UInt64} {id : UInt64}

theorem foundRegion_keeps (some : founding ≠ []) (acc : OrdMap UInt64 (List UInt64) × Bool) (region : Region)
    (founded : id = region.id ∨ membersOf acc.1 id ≠ []) : membersOf (foundRegion founding acc region).1 id ≠ [] := by
  unfold foundRegion
  split
  case isTrue empty =>
    rw [membersOf_insert]
    split
    case isTrue => exact some
    case isFalse other => exact founded.resolve_left other
  case isFalse there =>
    rcases founded with rfl | founded
    · exact there
    · exact founded

theorem foldl_foundRegion_keeps (some : founding ≠ []) (regions : List Region)
    (acc : OrdMap UInt64 (List UInt64) × Bool) (founded : id ∈ regions.map Region.id ∨ membersOf acc.1 id ≠ []) :
    membersOf (regions.foldl (foundRegion founding) acc).1 id ≠ [] := by
  induction regions generalizing acc with
  | nil => exact founded.resolve_left not_mem_nil
  | cons r rest ih =>
    refine ih _ ?_
    rw [map_cons, mem_cons, or_right_comm] at founded
    exact founded.symm.imp_right (foundRegion_keeps some acc r)

theorem Settled.foundUnfoundedRegions {fsm : PdFsm} (settled : fsm.Settled) : fsm.foundUnfoundedRegions.1 = fsm := by
  unfold PdFsm.foundUnfoundedRegions
  dsimp only
  split
  case isTrue => rfl
  case isFalse up =>
    dsimp only
    rw [foldl_foundRegion_of_founded (settled.resolve_left up)]

theorem settled_foundUnfoundedRegions {fsm : PdFsm} (positive : 0 < fsm.replicas) :
    fsm.foundUnfoundedRegions.1.Settled := by
  unfold PdFsm.foundUnfoundedRegions
  dsimp only
  split
  case isTrue down => exact .inl down
  case isFalse up =>
    refine .inr fun r member => ?_
    exact foldl_foundRegion_keeps (founding_ne_nil positive up) _ _ (.inl (mem_map_of_mem member))

theorem Settled.applyCmd {fsm : PdFsm} (settled : fsm.Settled) (positive : 0 < fsm.replicas) (cmd : PdCmd) :
    (fsm.applyCmd cmd).Settled := by
  cases cmd with
  | reserveTs upper => exact settled
  | declareTable name regime =>
    refine settled_foundUnfoundedRegions ?_
    rw [prepare, (advances_declareTable fsm name regime).replicas]
    exact positive
  | heartbeat nodeId address reported now storeId =>
    obtain ⟨stores, bound⟩ := fsm.bindStore_eq nodeId storeId
    simp only [PdFsm.applyCmd, prepare, bound]
    have founded : PdFsm.Settled (PdFsm.foundUnfoundedRegions
        { (({ fsm with stores } : PdFsm).adoptGrownVoters nodeId reported).1 with
          members := (fsm.members.heartbeat nodeId address reported now).1 }).1 :=
      settled_foundUnfoundedRegions positive
    split
    · exact founded
    · exact founded

theorem settled_applyAll (replicas : Nat) (log : List Bytes) : ((fresh replicas).applyAll log).Settled := by
  have positive : 0 < (fresh replicas).replicas := Nat.le_max_right replicas 1
  induction log using reverseRecOn with
  | nil => exact .inl rfl
  | append_singleton log payload ih =>
    have replicas := (advances_applyAll positive log).replicas
    rw [applyAll, foldl_append]
    change (PdFsm.apply (applyAll _ log) payload).Settled
    unfold PdFsm.apply
    split
    · exact ih
    · exact ih.applyCmd (replicas ▸ positive) _

section

variable {log : List Bytes} {fsm : PdFsm}

theorem Tiled.names (tiled : Tiled log fsm) : (fsm.catalog.map Table.name).Nodup := by
  have names : fsm.catalog.map Table.name = ((firstDeclared log).take maxTables).map Prod.fst := by
    rw [← tiled.tables, map_map]
    rfl
  rw [names]
  exact (nodup_firstDeclared log).sublist ((take_sublist ..).map _)

theorem tableIdOf_tableKey (id : TableId) (key : Bytes) : tableIdOf (tableKey id key) = id := by
  have long : ¬ (tableKey id key).length < tablePrefixLen := by
    rw [tableKey, tablePrefix, length_append, toBE_length]
    omega
  rw [tableIdOf, if_neg long, tableKey, tablePrefix, take_left' (toBE_length ..),
    fromBE_toBE_of_lt (by exact id.toNat_lt)]
  exact UInt32.ofNat_toNat

variable {t : Table}

theorem Tiled.regimeFor (tiled : Tiled log fsm) (member : t ∈ fsm.catalog) (key : Bytes) :
    fsm.regimeFor (tableKey t.id key) = t.regime := by
  obtain ⟨i, bound, rfl⟩ := getElem_of_mem member
  have found : fsm.catalog.find? (·.id = fsm.catalog[i].id) = some fsm.catalog[i] := by
    refine find?_eq_some_iff_getElem.mpr ⟨decide_eq_true rfl, i, bound, rfl, fun j less => ?_⟩
    have index := tiled.ids i _ (getElem?_eq_getElem bound)
    have index' := tiled.ids j _ (getElem?_eq_getElem (less.trans bound))
    rw [Bool.not_eq_true', decide_eq_false_iff_not]
    intro same
    rw [same] at index'
    omega
  rw [PdFsm.regimeFor, tableIdOf_tableKey, found]
  rfl

theorem Tiled.route (tiled : Tiled log fsm) (member : t ∈ fsm.catalog) (key : Bytes) :
    ∃ region, fsm.regions.regions[t.id.toNat]? = some region ∧ fsm.regions.route (tableKey t.id key) = some region := by
  obtain ⟨i, bound, rfl⟩ := getElem_of_mem member
  have index := tiled.ids i _ (getElem?_eq_getElem bound)
  have length := tiled.length
  have few : fsm.catalog.length ≤ 2 ^ 32 := by
    rw [maxTables] at length
    omega
  obtain ⟨region, found, -, routed⟩ := tiled.regions.find tiled.positive few fsm.catalog[i].id.toNat_lt key
  rw [Nat.min_eq_left (by omega)] at found
  exact ⟨region, found, routed⟩

theorem Tiled.region_id {log' : List Bytes} {fsm' : PdFsm} (tiled : Tiled log fsm) (tiled' : Tiled log' fsm')
    (grown : fsm.catalog.length ≤ fsm'.catalog.length) {i : Nat} {region : Region}
    (found : fsm.regions.regions[i]? = some region) :
    ∃ later : Region, fsm'.regions.regions[i]? = some later ∧ later.id = region.id := by
  have bound : i < fsm.catalog.length := tiled.regions.length ▸ (List.getElem?_eq_some_iff.mp found).1
  have inside : i < fsm'.regions.regions.length := tiled'.regions.length ▸ bound.trans_le grown
  refine ⟨_, getElem?_eq_getElem inside, UInt64.toNat_inj.mp ?_⟩
  rw [(tiled.regions.each i region found).1, (tiled'.regions.each i _ (getElem?_eq_getElem inside)).1]

theorem Settled.redeclare (settled : fsm.Settled) (member : t ∈ fsm.catalog) (regime : Regime) :
    fsm.applyCmd (.declareTable t.name regime) = fsm := by
  have again : fsm.declareTable t.name regime = fsm := by
    unfold PdFsm.declareTable
    split
    · rfl
    · exact if_pos (any_eq_true.mpr ⟨t, member, decide_eq_true rfl⟩)
  rw [PdFsm.applyCmd, prepare, again]
  exact settled.foundUnfoundedRegions

end

/-- After any log the catalog lists the first declarations of all names under consecutive ids, the regions are those of
its tables, each up to the next one and with an id of its own for good, and keys are routed to the region of their table. -/
theorem catalog_tiles_keyspace (replicas : Nat) (log : List Bytes) :
    let fsm := (fresh replicas).applyAll log
    Tiled log fsm ∧ (fsm.catalog.map Table.name).Nodup ∧ (fsm.regions.regions.map Region.id).Nodup ∧
      (∀ t ∈ fsm.catalog, ∀ key, fsm.regimeFor (tableKey t.id key) = t.regime ∧
        ∃ region, fsm.regions.regions[t.id.toNat]? = some region ∧ fsm.regions.route (tableKey t.id key) = some region) ∧
      (∀ more (i : Nat) (region : Region), fsm.regions.regions[i]? = some region → ∃ later : Region,
        ((fresh replicas).applyAll (log ++ more)).regions.regions[i]? = some later ∧ later.id = region.id) ∧
      ∀ t ∈ fsm.catalog, ∀ regime, fsm.applyCmd (.declareTable t.name regime) = fsm := by
  have tiled := tiled_applyAll replicas log
  refine ⟨tiled, tiled.names, tiled.regions.ids, fun t member key => ⟨tiled.regimeFor member key, tiled.route member key⟩,
    fun more i region found => ?_, fun t member => (settled_applyAll replicas log).redeclare member⟩
  have tiled' := tiled_applyAll replicas (log ++ more)
  refine tiled.region_id tiled' ?_ found
  have grown := (firstDeclared_append log more).length_le
  rw [tiled.length, tiled'.length]
  omega

end PdFsm

end Arcux.Pd
