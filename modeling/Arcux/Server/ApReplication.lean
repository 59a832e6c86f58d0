import Arcux.Engine.Scan
import Arcux.Region.Commands
import Arcux.Server.AntiEntropy

namespace Arcux.Server.Ap

open Codec Concurrency Engine Region

def logicalBits : UInt64 := 18

def Hlc.now (last : Ts) (nowMs : UInt64) : Ts := max (last + 1) (nowMs <<< logicalBits)

def Hlc.observe (last remote : Ts) : Ts := max last remote

def ofValue (key : Bytes) (value : Value) (ts : Ts) : Version := ⟨key, ts, value.versioned.1, value.versioned.2⟩

def toValue (v : Version) : Value := if v.isDelete then .delete else .put v.value

structure ApRegion where
  start : Bytes
  stop : Bytes
  replicas : List Nat

def ApRegion.peersOf (region : ApRegion) (node : Nat) : List Nat := region.replicas.filter (· ≠ node)

structure Cluster where
  engine : Nat → Shared := fun _ => .start
  hlc : Nat → Ts := fun _ => 0
  -- the requests that were sent, each to one replica
  sent : List (Nat × Version) := []
  -- the local writes with their stamps, the latest first
  written : List Version := []

inductive Call where
  -- also records the write that the stamp is for
  | now (node : Nat) (nowMs : UInt64) (key : Bytes) (value : Value)
  | observe (node : Nat) (remote : Ts)
  | access (node : Nat) (op : Access)
  | send (peer : Nat) (request : Version)
  -- any request that was sent may arrive, at any time and more than once
  | receive (i : Nat)

namespace Call

abbrev Reply : Call → Type
  | now _ _ _ _ => Ts
  | access _ op => op.Reply
  | receive _ => Option (Nat × Version)
  | observe _ _ | send _ _ => Unit

def exec : (call : Call) → Cluster → Cluster × call.Reply
  | now node nowMs key value, s =>
    ({ s with
        hlc := Function.update s.hlc node (Hlc.now (s.hlc node) nowMs)
        written := ofValue key value (Hlc.now (s.hlc node) nowMs) :: s.written },
      Hlc.now (s.hlc node) nowMs)
  | observe node remote, s => ({ s with hlc := Function.update s.hlc node (Hlc.observe (s.hlc node) remote) }, ())
  | access node op, s =>
    ({ s with engine := Function.update s.engine node (op.exec (s.engine node)).1 }, (op.exec (s.engine node)).2)
  | send peer request, s => ({ s with sent := s.sent ++ [(peer, request)] }, ())
  | receive i, s => (s, s.sent[i]?)

end Call

abbrev Script := Prog Call Call.Reply

def perform (call : Call) : Script call.Reply := Prog.perform call

def onNode {α : Type} (node : Nat) (p : Program α) : Script (Except Error α) :=
  p.run.within (Call.access node) fun _ reply => reply

def fanout (request : Version) : List Nat → Script Unit
  | [] => return
  | peer :: rest => do
    perform (.send peer request)
    fanout request rest

/-- A write on `node`: stamp it, store it here, and send it to the other replicas. -/
def apWrite (region : ApRegion) (node : Nat) (nowMs : UInt64) (key : Bytes) (value : Value) :
    Script (Except Error Ts) := do
  let ts ← perform (.now node nowMs key value)
  match ← onNode node (write (committedBatch key value ts ts)) with
  | .error e => return .error e
  | .ok _ =>
    fanout (ofValue key value ts) (region.peersOf node)
    return .ok ts

def apApply (node : Nat) (key : Bytes) (value : Value) (hlcTs : Ts) : Script (Except Error Unit) := do
  perform (.observe node hlcTs)
  match ← onNode node (write (committedBatch key value hlcTs hlcTs)) with
  | .error e => return .error e
  | .ok _ => return .ok ()

def replicateAp (i : Nat) : Script (Except Error Unit) := do
  match ← perform (.receive i) with
  | none => return .ok ()
  | some (node, request) => apApply node request.key (toValue request) request.version

def toAeVersion (t : VersionedKv) : Version := ⟨t.1, t.2.1, t.2.2.1, t.2.2.2⟩

def apDigest (region : ApRegion) (rounds node : Nat) : Script (Except Error Digest) := do
  match ← onNode node (scanVersions rounds region.start region.stop 0) with
  | .error e => return .error e
  | .ok versions => return .ok (digest (versions.map toAeVersion))

def fetchKeys (rounds node : Nat) : List Bytes → List Version → Script (Except Error (List Version))
  | [], out => return .ok out
  | key :: rest, out => do
    match ← onNode node (scanVersions rounds key (key ++ [0]) 1) with
    | .error e => return .error e
    | .ok versions => fetchKeys rounds node rest (out ++ (versions.head?.map toAeVersion).toList)

def apFetch (region : ApRegion) (rounds node : Nat) (buckets : List Nat) (keys : List Bytes) :
    Script (Except Error (List Version)) := do
  match ← fetchKeys rounds node keys [] with
  | .error e => return .error e
  | .ok out =>
    if buckets = [] then return .ok out
    else
      match ← onNode node (scanVersions rounds region.start region.stop 0) with
      | .error e => return .error e
      | .ok versions => return .ok (out ++ (versions.map toAeVersion).filter fun v => bucketOf v.key ∈ buckets)

structure Link where
  peer : Nat
  digests : Bool
  fetches : Bool

def adopt (node : Nat) : List Version → Script Unit
  | [] => return
  | v :: rest => do
    let _ ← apApply node v.key (toValue v) v.version
    adopt node rest

def mergePeer (region : ApRegion) (rounds node : Nat) (localDigest : Digest) (localMap : Bytes → Option Ts)
    (link : Link) : Script (List Version) := do
  match ← apDigest region rounds link.peer with
  | .error _ => return []
  | .ok theirs =>
    if link.digests = false ∨ theirs.leaves.length ≠ leaves ∨ diff localDigest theirs = [] then return []
    else
      match ← apFetch region rounds link.peer (diff localDigest theirs) [] with
      | .error _ => return []
      | .ok remote =>
        if link.fetches = false then return []
        else
          adopt node (toAdopt localMap remote)
          return toAdopt localMap remote

def mergePeers (region : ApRegion) (rounds node : Nat) (localDigest : Digest) (localMap : Bytes → Option Ts) :
    List Link → Script (List Version)
  | [] => return []
  | link :: rest => do
    let adopted ← mergePeer region rounds node localDigest localMap link
    let later ← mergePeers region rounds node localDigest localMap rest
    return adopted ++ later

def stampOf (versions : List Version) (key : Bytes) : Option Ts :=
  (versions.reverse.find? (·.key = key)).map Version.version

def reconcileApOnce (region : ApRegion) (rounds node : Nat) (links : List Link) : Script (List Version) := do
  match ← onNode node (scanVersions rounds region.start region.stop 0) with
  | .error _ => return []
  | .ok found =>
    let localVers := found.map toAeVersion
    mergePeers region rounds node (digest localVers) (stampOf localVers) links

def better : Option Version → Option Version → Option Version
  | some v, some best => if best.version < v.version then some v else some best
  | some v, none => some v
  | none, best => best

def askPeers (region : ApRegion) (rounds : Nat) (key : Bytes) :
    List Link → Option Version → List (Nat × Option Ts) → Script (Option Version × List (Nat × Option Ts))
  | [], best, states => return (best, states)
  | link :: rest, best, states => do
    let answer ← apFetch region rounds link.peer [] [key]
    let ver := if link.fetches then answer.toOption.bind List.head? else none
    askPeers region rounds key rest (better ver best) (states ++ [(link.peer, ver.map Version.version)])

def push (request : Version) : List (Nat × Option Ts) → Script Unit
  | [] => return
  | (peer, held) :: rest => do
    if held.all (· < request.version) then perform (.send peer request)
    push request rest

def adoptBest (node : Nat) (key : Bytes) (best : Version) (mine : Option Ts) : Script (Except Error Unit) :=
  if mine.all (· < best.version) then apApply node key (toValue best) best.version else return .ok ()

def apReadRepair (region : ApRegion) (rounds node : Nat) (key : Bytes) (links : List Link) :
    Script (Except Error (Option Bytes)) := do
  match ← onNode node (scanVersions rounds key (key ++ [0]) 1) with
  | .error e => return .error e
  | .ok found =>
    let mine := found.head?.map toAeVersion
    match ← askPeers region rounds key links mine [] with
    | (none, _) => return .ok none
    | (some best, states) =>
      match ← adoptBest node key best (mine.map Version.version) with
      | .error e => return .error e
      | .ok () =>
        push { best with key } states
        return .ok (if best.isDelete then none else some best.value)

inductive Task where
  | write (node : Nat) (nowMs : UInt64) (key : Bytes) (value : Value)
  | deliver (i : Nat)
  | reconcile (node : Nat) (links : List Link)
  | read (node : Nat) (key : Bytes) (links : List Link)

def Task.program (region : ApRegion) (rounds : Nat) : Task → Script Unit
  | write node nowMs key value => do let _ ← apWrite region node nowMs key value
  | deliver i => do let _ ← replicateAp i
  | reconcile node links => do let _ ← reconcileApOnce region rounds node links
  | read node key links => do let _ ← apReadRepair region rounds node key links

def start (region : ApRegion) (rounds : Nat) (tasks : List Task) : Pool Cluster Call Call.Reply Unit :=
  ⟨{}, tasks.map (Task.program region rounds)⟩

end Arcux.Server.Ap
