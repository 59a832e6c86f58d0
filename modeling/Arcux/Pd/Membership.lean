import Arcux.Data.OrdMap
import Arcux.Pd.Region

namespace Arcux.Pd

open Codec Data
open scoped Codec.ByteOrder Engine

inductive Regime where
  | cp | ap
  deriving DecidableEq

def regimeTag : Regime → UInt8
  | .cp => 0
  | .ap => 1

def regimeOf (tag : UInt8) : Option Regime :=
  if tag = 0 then some .cp else if tag = 1 then some .ap else none

structure Table where
  id : TableId
  name : String
  regime : Regime
  deriving DecidableEq

structure ReplicaSet where
  region : Region
  regime : Regime
  voters : List UInt64
  desired : List UInt64
  deriving DecidableEq

def ReplicaSet.bare (region : Region) : ReplicaSet := ⟨region, .cp, [], []⟩

structure PlacedRegion where
  region : Region
  nodeId : UInt64
  address : String
  regime : Regime
  voters : List UInt64

structure NodeState where
  address : String
  lastSeen : UInt64
  down : Bool
  regions : List ReplicaSet

structure Membership where
  nodes : OrdMap UInt64 NodeState := .empty
  seed : List (Region × UInt64) := []

def assign (m : Membership) (nodeId : UInt64) : List Region :=
  let seeded := (m.seed.filter (·.2 = nodeId)).map Prod.fst
  if seeded ≠ [] then seeded
  else if (m.nodes.entries.any fun e => e.2.regions ≠ []) ∨ m.seed ≠ [] then []
  else [⟨1, [], [], 1⟩]

namespace Membership

def assigned (m : Membership) (nodeId : UInt64) (reported : List ReplicaSet) : List ReplicaSet :=
  if reported ≠ [] then reported
  else
    let existing := ((m.nodes.find? nodeId).map NodeState.regions).getD []
    if existing ≠ [] then existing else (assign m nodeId).map ReplicaSet.bare

def heartbeat (m : Membership) (nodeId : UInt64) (address : String) (reported : List ReplicaSet) (now : UInt64) :
    Membership × List ReplicaSet :=
  ({ m with nodes := m.nodes.insert nodeId ⟨address, now, false, m.assigned nodeId reported⟩ },
    m.assigned nodeId reported)

def nodeAddrs (m : Membership) : List (UInt64 × String) := m.nodes.entries.map fun e => (e.1, e.2.address)

def liveStates (m : Membership) : List (UInt64 × NodeState) := m.nodes.entries.filter fun e => !e.2.down

def liveNodes (m : Membership) : List UInt64 := m.liveStates.map Prod.fst

def NodeState.Silent (now timeoutMs : UInt64) (n : NodeState) : Prop :=
  n.down = false ∧ timeoutMs.toNat < now.toNat - n.lastSeen.toNat
  deriving Decidable

def sweep (m : Membership) (now timeoutMs : UInt64) : Membership × List UInt64 :=
  ({ m with nodes := m.nodes.mapValues fun _ n => if NodeState.Silent now timeoutMs n then { n with down := true } else n },
    (m.nodes.entries.filter fun e => NodeState.Silent now timeoutMs e.2).map Prod.fst)

def placed (id : UInt64) (n : NodeState) (rs : ReplicaSet) : PlacedRegion :=
  ⟨rs.region, id, n.address, rs.regime, rs.voters⟩

def route (m : Membership) (key : Bytes) : Option PlacedRegion :=
  m.liveStates.findSome? fun e => (e.2.regions.find? (·.region.contains key)).map (placed e.1 e.2)

def list (m : Membership) : List PlacedRegion :=
  (m.liveStates.flatMap fun e => e.2.regions.map (placed e.1 e.2)).mergeSort fun a b => a.region.start ≤ b.region.start

end Membership

def encodeIds (ids : List UInt64) : Bytes := toBE 4 ids.length ++ ids.flatMap fun id => toBE 8 id.toNat

def readIds : Reader (List UInt64) := Reader.list Reader.u64

def putReplicaSet (rs : ReplicaSet) : Bytes :=
  toBE 8 rs.region.id.toNat ++ toBE 8 rs.region.epoch.toNat ++ putBytes rs.region.start ++ putBytes rs.region.stop ++
    [regimeTag rs.regime] ++ encodeIds rs.voters

def readRegime : Reader Regime := do StateT.lift (regimeOf (← Reader.byte))

def getReplicaSet : Reader ReplicaSet := do
  let region ← readRegion
  let regime ← readRegime
  let voters ← readIds
  return { region, regime, voters, desired := [] }

def encodeNode (e : UInt64 × NodeState) : Bytes :=
  toBE 8 e.1.toNat ++ putBytes (utf8 e.2.address) ++ toBE 8 e.2.lastSeen.toNat ++ [if e.2.down then 1 else 0] ++
    toBE 4 e.2.regions.length ++ e.2.regions.flatMap putReplicaSet

def readNode : Reader (UInt64 × NodeState) := do
  let id ← Reader.u64
  let address ← Reader.text
  let lastSeen ← Reader.u64
  let down ← Reader.byte
  let regions ← Reader.list getReplicaSet
  return (id, { address, lastSeen, down := down ≠ 0, regions })

def Membership.encode (m : Membership) : Bytes := toBE 4 m.nodes.entries.length ++ m.nodes.entries.flatMap encodeNode

def readNodes : Reader (OrdMap UInt64 NodeState) := do return .ofList (← Reader.list readNode)

end Arcux.Pd
