import Arcux.Pd.Image
import Arcux.Raft.Membership

namespace Arcux.Pd

open Codec List Raft Reader

/-! The payloads of PD's log entries and of membership changes, in the present format and in those before it. -/

def ReplicaSet.reported (rs : ReplicaSet) : ReplicaSet := { rs with desired := [] }

namespace PdCmd

def reported : PdCmd → PdCmd
  | heartbeat nodeId address regions now storeId =>
    heartbeat nodeId address (regions.map ReplicaSet.reported) now storeId
  | cmd => cmd

def Fits : PdCmd → Prop
  | reserveTs _ => True
  | declareTable name _ => (utf8 name).length < 2 ^ 32
  | heartbeat _ address regions _ storeId =>
    (utf8 address).length < 2 ^ 32 ∧ regions.length < 2 ^ 32 ∧ (∀ rs ∈ regions, rs.Fits) ∧
      (utf8 storeId).length < 2 ^ 32

def encodeFront (nodeId : UInt64) (address : String) (regions : List ReplicaSet) (now : UInt64) : Bytes :=
  2 :: toBE 8 nodeId.toNat ++ toBE 8 now.toNat ++ putBytes (utf8 address) ++ toBE 4 regions.length ++
    regions.flatMap putReplicaSet

variable {regions : List ReplicaSet}

theorem reads_regions (few : regions.length < 2 ^ 32) (each : ∀ rs ∈ regions, rs.Fits) :
    Reads (list getReplicaSet) (toBE 4 regions.length ++ regions.flatMap putReplicaSet)
      (regions.map ReplicaSet.reported) := by
  have sets : ∀ rs ∈ regions.map ReplicaSet.reported, Reads getReplicaSet (putReplicaSet rs) rs := by
    intro rs member
    obtain ⟨rs, listed, rfl⟩ := mem_map.mp member
    exact reads_getReplicaSet ⟨(each rs listed).region, (each rs listed).voters⟩ rfl
  have reads := reads_list (by rwa [length_map]) sets
  rwa [length_map, flatMap_map] at reads

variable {storeId : String}

theorem run_heartbeat (nodeId : UInt64) {address : String} (now : UInt64)
    (short : (utf8 address).length < 2 ^ 32) (few : regions.length < 2 ^ 32) (each : ∀ rs ∈ regions, rs.Fits)
    {tail : Bytes} (ends : readStoreId.run tail = some (storeId, [])) :
    decode (encodeFront nodeId address regions now ++ tail) =
      some (heartbeat nodeId address regions now storeId).reported := by
  have layout : encodeFront nodeId address regions now ++ tail = [2] ++ (toBE 8 nodeId.toNat ++ (toBE 8 now.toNat ++
      (putBytes (utf8 address) ++ ((toBE 4 regions.length ++ regions.flatMap putReplicaSet) ++ tail)))) := by
    simp [encodeFront]
  have text : Reads text (putBytes (utf8 address)) address := reads_text short
  rw [decode, read, layout, (reads_byte 2).run_bind, if_neg (by decide), if_neg (by decide), if_pos rfl,
    (reads_u64 nodeId).run_bind, (reads_u64 now).run_bind, text.run_bind,
    (reads_regions few each).run_bind, StateT.run_bind, ends]
  rfl

theorem readStoreId_putBytes (short : (utf8 storeId).length < 2 ^ 32) :
    readStoreId.run (putBytes (utf8 storeId)) = some (storeId, []) := by
  have text := reads_text short []
  rw [append_nil] at text
  change (if putBytes (utf8 storeId) = [] then some ("", []) else Reader.text.run (putBytes (utf8 storeId))) = _
  rw [if_neg (by simp [putBytes, toBE]), putBytes, text]

theorem decode_encode {cmd : PdCmd} (fits : cmd.Fits) : decode cmd.encode = some cmd.reported := by
  cases cmd with
  | reserveTs upper =>
    have number := (reads_u64 upper).run_bind (fun upper => pure (reserveTs upper)) []
    rw [append_nil] at number
    change (((u64 >>= fun upper => pure (reserveTs upper)) : Reader PdCmd).run (toBE 8 upper.toNat)).map Prod.fst = _
    rw [number]
    rfl
  | declareTable name regime =>
    have name' : Reads text (putBytes (utf8 name)) name := reads_text fits
    have regime' := (reads_readRegime regime).run_bind (fun regime => pure (declareTable name regime)) []
    rw [append_nil] at regime'
    change decode ([3] ++ (putBytes (utf8 name) ++ [regimeTag regime])) = _
    rw [decode, read, (reads_byte 3).run_bind, if_neg (by decide), if_pos rfl, name'.run_bind, regime']
    rfl
  | heartbeat nodeId address regions now storeId =>
    obtain ⟨short, few, each, short'⟩ := fits
    exact run_heartbeat nodeId now short few each (readStoreId_putBytes short')

theorem decode_cut {nodeId now : UInt64} {address storeId : String} {front : Bytes}
    (fits : (heartbeat nodeId address regions now storeId).Fits)
    (layout : (heartbeat nodeId address regions now storeId).encode = front ++ putBytes (utf8 storeId)) :
    decode front = some (heartbeat nodeId address regions now "").reported := by
  obtain ⟨short, few, each, -⟩ := fits
  obtain rfl : encodeFront nodeId address regions now = front := append_cancel_right layout
  have ends : readStoreId.run [] = some ("", []) := rfl
  have old := run_heartbeat nodeId now short few each ends
  rwa [append_nil] at old

end PdCmd

/-- Log entries survive encoding exactly as far as the counts of a membership change fit 32 bits. -/
theorem log_entries_survive_encoding (cc : ConfChange) (voters learners : List NodeId) :
    ((∀ cmd : PdCmd, cmd.Fits → PdCmd.decode cmd.encode = some cmd.reported ∧
        ∀ nodeId address regions now storeId front, cmd = .heartbeat nodeId address regions now storeId →
          cmd.encode = front ++ putBytes (utf8 storeId) →
          PdCmd.decode front = some (PdCmd.heartbeat nodeId address regions now "").reported) ∧
      ConfChange.decode (cc.encode voters learners) = some (cc, voters, learners) ∧
      ∀ front, cc.encode voters learners = front ++ (toBE 4 learners.length ++ ConfChange.encodeIds learners) →
        ConfChange.decode front = some (cc, voters, [])) ↔
    voters.length < 2 ^ 32 ∧ learners.length < 2 ^ 32 := by
  refine ⟨fun survive => ConfChange.decode_counts survive.2.1, fun ⟨few, few'⟩ => ?_⟩
  refine ⟨fun cmd fits => ⟨PdCmd.decode_encode fits, ?_⟩, cc.decode_encode few few', fun front layout => ?_⟩
  · rintro nodeId address regions now storeId front rfl layout
    exact PdCmd.decode_cut fits layout
  · rw [ConfChange.encode, append_assoc] at layout
    rw [← append_cancel_right layout, append_assoc, append_assoc]
    exact cc.decode_without_learners few

theorem voters_lost : ∃ voters : List NodeId, ∀ (cc : ConfChange) (learners : List NodeId),
    ConfChange.decode (cc.encode voters learners) ≠ some (cc, voters, learners) := by
  obtain ⟨count, full⟩ : ∃ count, count = 2 ^ 32 := ⟨_, rfl⟩
  refine ⟨replicate count 1, fun cc learners decoded => ?_⟩
  have few := (ConfChange.decode_counts decoded).1
  rw [length_replicate] at few
  omega

end Arcux.Pd
