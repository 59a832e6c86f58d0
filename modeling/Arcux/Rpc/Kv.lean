import Arcux.Codec.BigEndian

namespace Arcux.Rpc

open Codec

structure Context where
  regionId : UInt64
  regionEpoch : UInt64
  deriving DecidableEq

inductive KeyError where
  | conflict (detail : String)
  | locked (primary : Bytes) (lockTs ttl : UInt64) (detail : String)
  | invalid (detail : String)
  | retryable (detail : String)
  | notLeader (leaderHint : Bytes)
  | regionStale (newEpoch : UInt64)
  | undetermined (detail : String)
  | unspecified
  deriving DecidableEq

end Arcux.Rpc
