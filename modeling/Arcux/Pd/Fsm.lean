import Arcux.Pd.Membership

namespace Arcux.Pd

open Codec Data
open scoped Codec.ByteOrder Engine

inductive PdCmd where
  | reserveTs (upper : UInt64)
  | declareTable (name : String) (regime : Regime)
  | heartbeat (nodeId : UInt64) (address : String) (regions : List ReplicaSet) (now : UInt64) (storeId : String)
  deriving DecidableEq

namespace PdCmd

def encode : PdCmd → Bytes
  | reserveTs upper => 1 :: toBE 8 upper.toNat
  | declareTable name regime => 3 :: putBytes (utf8 name) ++ [regimeTag regime]
  | heartbeat nodeId address regions now storeId =>
    2 :: toBE 8 nodeId.toNat ++ toBE 8 now.toNat ++ putBytes (utf8 address) ++ toBE 4 regions.length ++
      regions.flatMap putReplicaSet ++ putBytes (utf8 storeId)

def readStoreId : Reader String := fun bytes => if bytes = [] then some ("", []) else Reader.text.run bytes

def read : Reader PdCmd := do
  let tag ← Reader.byte
  if tag = 1 then return reserveTs (← Reader.u64)
  else if tag = 3 then
    let name ← Reader.text
    return declareTable name (← readRegime)
  else if tag = 2 then
    let nodeId ← Reader.u64
    let now ← Reader.u64
    let address ← Reader.text
    let regions ← Reader.list getReplicaSet
    let storeId ← readStoreId
    return heartbeat nodeId address regions now storeId
  else failure

def decode (bytes : Bytes) : Option PdCmd := (read.run bytes).map Prod.fst

end PdCmd

structure PdFsm where
  members : Membership := {}
  tsoUpper : UInt64 := 0
  regions : RegionRegistry := .inMemory
  catalog : List Table := [⟨defaultTableId, defaultTableName, .cp⟩]
  nextTableId : TableId := defaultTableId + 1
  version : UInt64 := 1
  regionMembers : OrdMap UInt64 (List UInt64) := .empty
  stores : OrdMap UInt64 String := .empty
  replicas : Nat := 3

namespace PdFsm

def setReplicas (fsm : PdFsm) (n : Nat) : PdFsm := { fsm with replicas := max n 1 }

def fresh (replicas : Nat) : PdFsm := setReplicas {} replicas

def membersOf (members : OrdMap UInt64 (List UInt64)) (region : UInt64) : List UInt64 := (members.find? region).getD []

def foundRegion (founding : List UInt64) (acc : OrdMap UInt64 (List UInt64) × Bool) (region : Region) :
    OrdMap UInt64 (List UInt64) × Bool :=
  if membersOf acc.1 region.id = [] then (acc.1.insert region.id founding, true) else acc

def foundUnfoundedRegions (fsm : PdFsm) : PdFsm × Bool :=
  let live := fsm.members.liveNodes
  if live = [] then (fsm, false)
  else
    let founded := fsm.regions.regions.foldl (foundRegion (live.take fsm.replicas)) (fsm.regionMembers, false)
    ({ fsm with regionMembers := founded.1 }, founded.2)

def adoptReport (nodeId : UInt64) (known : List UInt64) (acc : OrdMap UInt64 (List UInt64) × Bool) (rs : ReplicaSet) :
    OrdMap UInt64 (List UInt64) × Bool :=
  if nodeId ∉ rs.voters ∨ rs.region.id ∉ known then acc
  else
    let current := membersOf acc.1 rs.region.id
    if current.length < rs.voters.length ∧ current ⊆ rs.voters then
      (acc.1.insert rs.region.id (rs.voters.mergeSort (· ≤ ·)), true)
    -- the lookup leaves an empty entry behind
    else (acc.1.insert rs.region.id current, acc.2)

def adoptGrownVoters (fsm : PdFsm) (nodeId : UInt64) (reported : List ReplicaSet) : PdFsm × Bool :=
  let known := fsm.regions.regions.map Region.id
  let adopted := reported.foldl (adoptReport nodeId known) (fsm.regionMembers, false)
  ({ fsm with regionMembers := adopted.1 }, adopted.2)

def bindStore (fsm : PdFsm) (nodeId : UInt64) (storeId : String) : PdFsm :=
  if storeId = "" ∨ (fsm.stores.find? nodeId).isSome then fsm
  else { fsm with stores := fsm.stores.insert nodeId storeId }

def bumpVersion (fsm : PdFsm) : PdFsm := { fsm with version := fsm.version + 1 }

def declareTable (fsm : PdFsm) (name : String) (regime : Regime) : PdFsm :=
  if name = "" ∨ name = defaultTableName then fsm
  else if fsm.catalog.any (·.name = name) then fsm
  else
    let id := fsm.nextTableId
    if id = .ofNat (2 ^ 32 - 1) then fsm
    else
      bumpVersion { fsm with
        nextTableId := id + 1
        catalog := fsm.catalog ++ [⟨id, name, regime⟩]
        regions := (fsm.regions.split (tablePrefix id)).1 }

def prepare (fsm : PdFsm) : PdCmd → PdFsm × Bool
  | .reserveTs upper => ({ fsm with tsoUpper := max fsm.tsoUpper upper }, false)
  | .heartbeat nodeId address regions now storeId =>
    let bound := fsm.bindStore nodeId storeId
    let isNew := !bound.members.nodeAddrs.any fun e => e.1 = nodeId
    let grown := bound.adoptGrownVoters nodeId regions
    ({ grown.1 with members := (grown.1.members.heartbeat nodeId address regions now).1 }, isNew || grown.2)
  | .declareTable name regime => (fsm.declareTable name regime, false)

def applyCmd (fsm : PdFsm) (cmd : PdCmd) : PdFsm :=
  match cmd with
  | .reserveTs _ => (fsm.prepare cmd).1
  | .heartbeat .. =>
    let prepared := fsm.prepare cmd
    let founded := prepared.1.foundUnfoundedRegions
    if prepared.2 || founded.2 then founded.1.bumpVersion else founded.1
  | .declareTable .. => (fsm.prepare cmd).1.foundUnfoundedRegions.1

def apply (fsm : PdFsm) (payload : Bytes) : PdFsm :=
  match PdCmd.decode payload with
  | none => fsm
  | some cmd => fsm.applyCmd cmd

def applyAll (fsm : PdFsm) (log : List Bytes) : PdFsm := log.foldl apply fsm

def sweep (fsm : PdFsm) (now timeoutMs : UInt64) : PdFsm :=
  { fsm with members := (fsm.members.sweep now timeoutMs).1 }

def desired (fsm : PdFsm) (members live : List UInt64) : List UInt64 :=
  live.foldl (fun desired id => if desired.length ≥ fsm.replicas ∨ id ∈ desired then desired else desired ++ [id]) members

def regimeFor (fsm : PdFsm) (key : Bytes) : Regime :=
  ((fsm.catalog.find? (·.id = tableIdOf key)).map Table.regime).getD .cp

def assignment (fsm : PdFsm) : List ReplicaSet :=
  fsm.regions.regions.map fun region =>
    let voters := membersOf fsm.regionMembers region.id
    ⟨region, fsm.regimeFor region.start, voters, fsm.desired voters fsm.members.liveNodes⟩

def regionsOf (fsm : PdFsm) (nodeId : UInt64) : List ReplicaSet :=
  (fsm.members.list.filter (·.nodeId = nodeId)).map fun p => ⟨p.region, p.regime, p.voters, []⟩

def assignmentFor (fsm : PdFsm) (nodeId : UInt64) : List ReplicaSet :=
  if fsm.version = 0 then fsm.regionsOf nodeId
  else fsm.assignment.filter fun rs => nodeId ∈ rs.voters ∨ nodeId ∈ rs.desired

def sortedCatalog (fsm : PdFsm) : List Table := fsm.catalog.mergeSort fun a b => utf8 a.name ≤ utf8 b.name

def tableId (fsm : PdFsm) (name : String) : Option TableId :=
  (fsm.catalog.find? (·.name = if name = "" then defaultTableName else name)).map Table.id

def storeConflict (fsm : PdFsm) (nodeId : UInt64) (storeId : String) : Option String :=
  if storeId = "" then none else (fsm.stores.find? nodeId).filter (· ≠ storeId)

structure Observations where
  assignment : List ReplicaSet
  assignmentFor : UInt64 → List ReplicaSet
  catalog : List Table
  tableId : String → Option TableId
  nextTableId : TableId
  catalogVersion : UInt64
  tsoUpper : UInt64
  nodeAddrs : List (UInt64 × String)
  route : Bytes → Option PlacedRegion
  list : List PlacedRegion
  storeConflict : UInt64 → String → Option String

def observe (fsm : PdFsm) : Observations where
  assignment := fsm.assignment
  assignmentFor := fsm.assignmentFor
  catalog := fsm.sortedCatalog
  tableId := fsm.tableId
  nextTableId := fsm.nextTableId
  catalogVersion := fsm.version
  tsoUpper := fsm.tsoUpper
  nodeAddrs := fsm.members.nodeAddrs
  route := fsm.members.route
  list := fsm.members.list
  storeConflict := fsm.storeConflict

end PdFsm

def storesTag : Bytes := utf8 "arcuxSTR"

def encodeTable (t : Table) : Bytes := putBytes (utf8 t.name) ++ [regimeTag t.regime] ++ toBE 4 t.id.toNat

def readTable : Reader Table := do
  let name ← Reader.text
  let regime ← readRegime
  let id ← Reader.u32
  return { id, name, regime }

def encodeMembers (e : UInt64 × List UInt64) : Bytes := toBE 8 e.1.toNat ++ encodeIds e.2

def readMembers : Reader (UInt64 × List UInt64) := do
  let region ← Reader.u64
  return (region, ← readIds)

def encodeStore (e : UInt64 × String) : Bytes := toBE 8 e.1.toNat ++ putBytes (utf8 e.2)

def readStore : Reader (UInt64 × String) := do
  let node ← Reader.u64
  return (node, ← Reader.text)

def readStores : Reader (OrdMap UInt64 String) := fun bytes =>
  if storesTag <+: bytes then
    (do return .ofList (← Reader.list readStore) : Reader _).run (bytes.drop storesTag.length)
  else some (.empty, bytes)

structure Image where
  version : UInt64
  nextTableId : TableId
  catalog : List Table
  regionMembers : OrdMap UInt64 (List UInt64)
  stores : OrdMap UInt64 String
  regions : RegionRegistry

def Image.encode (image : Image) : Bytes :=
  toBE 8 image.version.toNat ++ toBE 4 image.nextTableId.toNat ++
    (toBE 4 image.catalog.length ++ image.catalog.flatMap encodeTable) ++
    (toBE 4 image.regionMembers.entries.length ++ image.regionMembers.entries.flatMap encodeMembers) ++
    (storesTag ++ toBE 4 image.stores.entries.length ++ image.stores.entries.flatMap encodeStore) ++
    encodeState image.regions

def readImage : Reader Image := do
  let version ← Reader.u64
  let nextTableId ← Reader.u32
  let catalog ← Reader.list readTable
  let regionMembers ← Reader.list readMembers
  let stores ← readStores
  let regions ← decodeState
  return { version, nextTableId, catalog, regionMembers := .ofList regionMembers, stores, regions }

namespace PdFsm

def image (fsm : PdFsm) : Image :=
  ⟨fsm.version, fsm.nextTableId, fsm.catalog, fsm.regionMembers, fsm.stores, fsm.regions⟩

def snapshot (fsm : PdFsm) : Bytes := toBE 8 fsm.tsoUpper.toNat ++ fsm.members.encode ++ fsm.image.encode

/-- Adopt a snapshot. A snapshot that breaks off after the nodes has replaced them already. -/
def restore (fsm : PdFsm) (bytes : Bytes) : PdFsm × Bool :=
  match Reader.u64.run bytes with
  | none => (fsm, false)
  | some (upper, rest) =>
    match readNodes.run rest with
    | none => (fsm, false)
    | some (nodes, rest) =>
      let fsm := { fsm with members := { fsm.members with nodes } }
      match readImage.run rest with
      | none => (fsm, false)
      | some (image, _) =>
        ({ fsm with
            tsoUpper := max fsm.tsoUpper upper
            regions := image.regions
            catalog := image.catalog
            nextTableId := max fsm.nextTableId image.nextTableId
            version := max fsm.version image.version
            regionMembers := image.regionMembers
            stores := image.stores }, true)

end PdFsm

end Arcux.Pd
