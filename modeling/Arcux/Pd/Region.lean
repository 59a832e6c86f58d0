import Arcux.Engine.Keys
import Arcux.Pd.Persist

namespace Arcux.Pd

open Codec
open scoped Codec.ByteOrder Engine

structure Region where
  id : UInt64
  start : Bytes
  stop : Bytes
  epoch : UInt64
  deriving DecidableEq

def Region.contains (r : Region) (key : Bytes) : Bool := r.start ≤ key ∧ (r.stop = [] ∨ key < r.stop)

structure RegionRegistry where
  regions : List Region
  nextId : UInt64

def wholeKeyspace (id : UInt64) : Region := ⟨id, [], [], 1⟩

namespace RegionRegistry

def inMemory : RegionRegistry := ⟨[wholeKeyspace 1], 2⟩

def route (registry : RegionRegistry) (key : Bytes) : Option Region := registry.regions.find? (·.contains key)

def byId (registry : RegionRegistry) (id : UInt64) : Option Region := registry.regions.find? (·.id = id)

def split (registry : RegionRegistry) (splitKey : Bytes) : RegionRegistry × Except String (Region × Region) :=
  let idx := registry.regions.findIdx (·.contains splitKey)
  match registry.regions[idx]? with
  | none => (registry, .error "split_key is outside every region")
  | some target =>
    if splitKey ≤ target.start then (registry, .error "split_key must be strictly greater than the region start")
    else
      let left := { target with stop := splitKey, epoch := target.epoch + 1 }
      let right := { id := registry.nextId, start := splitKey, stop := target.stop, epoch := target.epoch + 1 }
      (⟨(registry.regions.set idx left).insertIdx (idx + 1) right, registry.nextId + 1⟩, .ok (left, right))

def merge (registry : RegionRegistry) (boundary : Bytes) : RegionRegistry × Except String Region :=
  let idx := registry.regions.findIdx (·.start = boundary)
  match registry.regions[idx]? with
  | none => (registry, .error "boundary is not a region start")
  | some right =>
    match idx, registry.regions[idx - 1]? with
    | before + 1, some left =>
      let merged := { id := left.id, start := left.start, stop := right.stop, epoch := max left.epoch right.epoch + 1 }
      (⟨(registry.regions.set before merged).eraseIdx idx, registry.nextId⟩, .ok merged)
    | _, _ => (registry, .error "the left-most region has no left neighbour to merge with")

def replace (registry : RegionRegistry) (regions : List Region) : RegionRegistry :=
  ⟨regions.mergeSort fun a b => a.start ≤ b.start, max registry.nextId ((regions.map (·.id + 1)).max?.getD 1)⟩

end RegionRegistry

abbrev TableId := UInt32

def defaultTableId : TableId := 0

def defaultTableName : String := "default"

def tablePrefixLen : Nat := 4

def tablePrefix (id : TableId) : Bytes := toBE tablePrefixLen id.toNat

def tableKey (id : TableId) (userKey : Bytes) : Bytes := tablePrefix id ++ userKey

def tableIdOf (stored : Bytes) : TableId :=
  if stored.length < tablePrefixLen then defaultTableId else .ofNat (fromBE (stored.take tablePrefixLen))

def encodeState (registry : RegionRegistry) : Bytes :=
  toBE 8 registry.nextId.toNat ++ toBE 4 registry.regions.length ++ registry.regions.flatMap fun r =>
    toBE 8 r.id.toNat ++ toBE 8 r.epoch.toNat ++ putBytes r.start ++ putBytes r.stop

def readRegion : Reader Region := do
  let id ← Reader.u64
  let epoch ← Reader.u64
  let start ← Reader.sized
  let stop ← Reader.sized
  return { id, start, stop, epoch }

def decodeState : Reader RegionRegistry := do
  let nextId ← Reader.u64
  let regions ← Reader.list readRegion
  return { regions, nextId }

end Arcux.Pd
