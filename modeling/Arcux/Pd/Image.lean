import Arcux.Pd.Fsm

namespace Arcux.Pd

open Codec Data List Reader
open scoped Codec.ByteOrder Engine

@[mk_iff]
structure Region.Fits (r : Region) : Prop where
  start : r.start.length < 2 ^ 32
  stop : r.stop.length < 2 ^ 32

instance (r : Region) : Decidable r.Fits := decidable_of_iff' _ (Region.fits_iff r)

@[mk_iff]
structure ReplicaSet.Fits (rs : ReplicaSet) : Prop where
  region : rs.region.Fits
  voters : rs.voters.length < 2 ^ 32

instance (rs : ReplicaSet) : Decidable rs.Fits := decidable_of_iff' _ (ReplicaSet.fits_iff rs)

@[mk_iff]
structure NodeState.Fits (n : NodeState) : Prop where
  address : (utf8 n.address).length < 2 ^ 32
  regions : n.regions.length < 2 ^ 32
  each : ∀ rs ∈ n.regions, rs.Fits

instance (n : NodeState) : Decidable n.Fits := decidable_of_iff' _ (NodeState.fits_iff n)

@[mk_iff]
structure Membership.Fits (m : Membership) : Prop where
  nodes : m.nodes.entries.length < 2 ^ 32
  each : ∀ e ∈ m.nodes.entries, e.2.Fits

instance (m : Membership) : Decidable m.Fits := decidable_of_iff' _ (Membership.fits_iff m)

@[mk_iff]
structure Image.Fits (image : Image) : Prop where
  catalog : image.catalog.length < 2 ^ 32
  names : ∀ t ∈ image.catalog, (utf8 t.name).length < 2 ^ 32
  regionMembers : image.regionMembers.entries.length < 2 ^ 32
  voters : ∀ e ∈ image.regionMembers.entries, e.2.length < 2 ^ 32
  stores : image.stores.entries.length < 2 ^ 32
  storeIds : ∀ e ∈ image.stores.entries, (utf8 e.2).length < 2 ^ 32
  regions : image.regions.regions.length < 2 ^ 32
  each : ∀ r ∈ image.regions.regions, r.Fits

instance (image : Image) : Decidable image.Fits := decidable_of_iff' _ (Image.fits_iff image)

@[mk_iff]
structure PdFsm.Fits (fsm : PdFsm) : Prop where
  members : fsm.members.Fits
  image : fsm.image.Fits

instance (fsm : PdFsm) : Decidable fsm.Fits := decidable_of_iff' _ (PdFsm.fits_iff fsm)

theorem reads_readRegion {r : Region} (fits : r.Fits) :
    Reads readRegion (toBE 8 r.id.toNat ++ toBE 8 r.epoch.toNat ++ putBytes r.start ++ putBytes r.stop) r := by
  simp only [append_assoc]
  exact (reads_u64 r.id).bind ((reads_u64 r.epoch).bind
    ((reads_sized fits.start).bind ((reads_sized fits.stop).map fun stop => Region.mk r.id r.start stop r.epoch)))

theorem reads_readRegime (regime : Regime) : Reads readRegime [regimeTag regime] regime := by
  intro rest
  cases regime <;> rfl

theorem reads_readIds {ids : List UInt64} (few : ids.length < 2 ^ 32) : Reads readIds (encodeIds ids) ids :=
  reads_list few fun id _ => reads_u64 id

theorem reads_getReplicaSet {rs : ReplicaSet} (fits : rs.Fits) (reported : rs.desired = []) :
    Reads getReplicaSet (putReplicaSet rs) rs := by
  obtain ⟨region, regime, voters, desired⟩ := rs
  obtain rfl : desired = [] := reported
  rw [putReplicaSet, append_assoc]
  exact (reads_readRegion fits.region).bind ((reads_readRegime regime).bind
    ((reads_readIds fits.voters).map fun voters => ReplicaSet.mk region regime voters []))

theorem reads_readNode {e : UInt64 × NodeState} (fits : e.2.Fits) (reported : ∀ rs ∈ e.2.regions, rs.desired = []) :
    Reads readNode (encodeNode e) e := by
  obtain ⟨id, address, lastSeen, down, regions⟩ := e
  have sets := reads_list fits.regions fun rs member => reads_getReplicaSet (fits.each rs member) (reported rs member)
  have flag : decide ((if down then (1 : UInt8) else 0) ≠ 0) = down := by cases down <;> decide
  simp only [encodeNode, append_assoc]
  refine (reads_u64 id).bind ((reads_text fits.address).bind ((reads_u64 lastSeen).bind ((reads_byte _).bind ?_)))
  rw [flag]
  exact sets.map fun regions => (id, NodeState.mk address lastSeen down regions)

theorem reads_readNodes {m : Membership} (fits : m.Fits)
    (reported : ∀ e ∈ m.nodes.entries, ∀ rs ∈ e.2.regions, rs.desired = []) : Reads readNodes m.encode m.nodes := by
  have nodes := reads_list fits.nodes fun e member => reads_readNode (fits.each e member) (reported e member)
  have reads := nodes.map OrdMap.ofList
  rwa [OrdMap.ofList_entries] at reads

theorem reads_readTable {t : Table} (short : (utf8 t.name).length < 2 ^ 32) : Reads readTable (encodeTable t) t := by
  rw [encodeTable, append_assoc]
  exact (reads_text short).bind ((reads_readRegime t.regime).bind
    ((reads_u32 t.id).map fun id => Table.mk id t.name t.regime))

theorem reads_readMembers {e : UInt64 × List UInt64} (few : e.2.length < 2 ^ 32) :
    Reads readMembers (encodeMembers e) e :=
  (reads_u64 e.1).bind ((reads_readIds few).map fun ids => (e.1, ids))

theorem reads_readStore {e : UInt64 × String} (short : (utf8 e.2).length < 2 ^ 32) :
    Reads readStore (encodeStore e) e :=
  (reads_u64 e.1).bind ((reads_text short).map fun store => (e.1, store))

theorem reads_readStores {stores : OrdMap UInt64 String} (few : stores.entries.length < 2 ^ 32)
    (short : ∀ e ∈ stores.entries, (utf8 e.2).length < 2 ^ 32) :
    Reads readStores (storesTag ++ toBE 4 stores.entries.length ++ stores.entries.flatMap encodeStore) stores := by
  have reads := (reads_list few fun e member => reads_readStore (short e member)).map OrdMap.ofList
  rw [OrdMap.ofList_entries] at reads
  intro rest
  rw [append_assoc storesTag, append_assoc storesTag]
  change readStores _ = _
  rw [readStores, if_pos (prefix_append ..), drop_left]
  exact reads rest

theorem reads_decodeState {registry : RegionRegistry} (few : registry.regions.length < 2 ^ 32)
    (each : ∀ r ∈ registry.regions, r.Fits) : Reads decodeState (encodeState registry) registry := by
  rw [encodeState, append_assoc]
  have regions := reads_list few fun r member => reads_readRegion (each r member)
  exact (reads_u64 registry.nextId).bind (regions.map fun regions => RegionRegistry.mk regions registry.nextId)

theorem reads_readImage {image : Image} (fits : image.Fits) : Reads readImage image.encode image := by
  have tables := reads_list fits.catalog fun t member => reads_readTable (fits.names t member)
  have members := reads_list fits.regionMembers fun e member => reads_readMembers (fits.voters e member)
  have stores := reads_readStores fits.stores fits.storeIds
  have regions := reads_decodeState fits.regions fits.each
  rw [Image.encode, append_assoc, append_assoc, append_assoc, append_assoc]
  refine (reads_u64 image.version).bind ((reads_u32 image.nextTableId).bind (tables.bind (members.bind (stores.bind ?_))))
  rw [OrdMap.ofList_entries]
  exact regions.map fun regions =>
    Image.mk image.version image.nextTableId image.catalog image.regionMembers image.stores regions

end Arcux.Pd
