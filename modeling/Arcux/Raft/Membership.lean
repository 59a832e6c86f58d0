import Arcux.Consensus.Protocol
import Arcux.Raft.Log
import Arcux.Raft.Node

namespace Arcux.Raft

open Codec Consensus List

variable {ids : List NodeId} {id : NodeId}

@[simp] theorem mem_dedup : id ∈ dedup ids ↔ id ∈ ids := by
  fun_induction dedup ids with
  | case1 => simp
  | case2 a => simp
  | case3 b rest ih => simp [ih]
  | case4 a b rest differ ih => simp [ih]

theorem dedup_nodup (sorted : ids.Pairwise (· ≤ ·)) : (dedup ids).Nodup := by
  fun_induction dedup ids with
  | case1 => simp
  | case2 a => simp
  | case3 b rest ih => exact ih (pairwise_cons.mp sorted).2
  | case4 a b rest differ ih =>
    obtain ⟨least, sortedRest⟩ := pairwise_cons.mp sorted
    refine nodup_cons.mpr ⟨?_, ih sortedRest⟩
    rw [mem_dedup]
    intro again
    have above := least b (by simp)
    have below : b ≤ a := by
      rcases mem_cons.mp again with same | later
      · exact same ▸ UInt64.le_refl a
      · exact (pairwise_cons.mp sortedRest).1 a later
    exact differ (UInt64.le_antisymm above below)

@[simp] theorem mem_sortDedup : id ∈ sortDedup ids ↔ id ∈ ids := by
  simp [sortDedup, mem_insertionSort]

@[simp] theorem sortDedup_toFinset (ids : List NodeId) : (sortDedup ids).toFinset = ids.toFinset := by
  ext id
  simp

theorem sortDedup_nodup (ids : List NodeId) : (sortDedup ids).Nodup :=
  dedup_nodup (pairwise_insertionSort _ _)

theorem sortDedup_length_le (ids : List NodeId) : (sortDedup ids).length ≤ ids.length := by
  rw [← toFinset_card_of_nodup (sortDedup_nodup ids), sortDedup_toFinset]
  exact toFinset_card_le ids

variable {voters : List NodeId}

theorem majority_of_countP {p : NodeId → Bool} (distinct : voters.Nodup)
    (enough : voters.length / 2 + 1 ≤ voters.countP p) :
    Majority voters.toFinset (voters.toFinset.filter (fun v => p v)) := by
  refine ⟨Finset.filter_subset _ _, ?_⟩
  have count : (voters.toFinset.filter (fun v => p v)).card = voters.countP p := by
    rw [← toFinset_filter, toFinset_card_of_nodup (distinct.filter _), countP_eq_length_filter]
  rw [count, toFinset_card_of_nodup distinct]
  omega

theorem majority_of_card {votes : Finset NodeId} (distinct : voters.Nodup) (members : votes ⊆ voters.toFinset)
    (enough : voters.length / 2 + 1 ≤ votes.card) : Majority voters.toFinset votes := by
  refine ⟨members, ?_⟩
  rw [toFinset_card_of_nodup distinct]
  omega

namespace ConfChange

variable {before after : Bytes}

theorem readU64_at {pos : Nat} (start : before.length = pos) :
    readU64 (before ++ (toBE 8 id.toNat ++ after)) pos = id := by
  have small : id.toNat < 256 ^ 8 := id.toNat_lt
  rw [readU64, ← start, drop_left, take_left' (toBE_length 8 _), fromBE_toBE_of_lt small,
    UInt64.ofNat_toNat]

theorem readU32_at {count pos : Nat} (start : before.length = pos)
    (small : count < 2 ^ 32) : readU32 (before ++ (toBE 4 count ++ after)) pos = count := by
  have small : count < 256 ^ 4 := small
  rw [readU32, ← start, drop_left, take_left' (toBE_length 4 _), fromBE_toBE_of_lt small]

@[simp] theorem encodeIds_length (ids : List NodeId) : (encodeIds ids).length = 8 * ids.length := by
  induction ids with
  | nil => rfl
  | cons id ids ih =>
    simp only [encodeIds, flatMap_cons, length_append, toBE_length, length_cons] at ih ⊢
    omega

theorem decodeIds_at {pos : Nat} (start : before.length = pos) :
    decodeIds (before ++ (encodeIds ids ++ after)) ids.length pos = some (ids, pos + 8 * ids.length) := by
  induction ids generalizing before pos with
  | nil => simp [decodeIds]
  | cons id ids ih =>
    have unfolded : before ++ (encodeIds (id :: ids) ++ after) =
        before ++ (toBE 8 id.toNat ++ (encodeIds ids ++ after)) := by
      simp [encodeIds]
    have rest : decodeIds (before ++ (toBE 8 id.toNat ++ (encodeIds ids ++ after))) ids.length (pos + 8) =
        some (ids, pos + 8 + 8 * ids.length) := by
      rw [← append_assoc before]
      exact ih (by simp [start])
    rw [unfolded, length_cons, decodeIds, if_neg (by simp; omega), rest]
    simp only [readU64_at start, Option.some.injEq, Prod.mk.injEq, true_and]
    omega

theorem decode_front (cc : ConfChange) (small : voters.length < 2 ^ 32) {bytes tail : Bytes}
    (layout : bytes = [cc.op] ++ (toBE 8 cc.nodeId.toNat ++ (toBE 4 voters.length ++ (encodeIds voters ++ tail)))) :
    decode bytes = if bytes.length < 13 + 8 * voters.length + 4 then some (cc, voters, [])
      else (decodeIds bytes (readU32 bytes (13 + 8 * voters.length)) (13 + 8 * voters.length + 4)).map
        fun found => (cc, voters, found.1) := by
  have head : bytes.head? = some cc.op := by simp [layout]
  have length : bytes.length = 13 + 8 * voters.length + tail.length := by
    simp only [layout, length_append, toBE_length, encodeIds_length, length_singleton]
    omega
  have atId : readU64 bytes 1 = cc.nodeId := by
    rw [layout]
    exact readU64_at rfl
  have atCount : readU32 bytes 9 = voters.length := by
    rw [layout, ← append_assoc]
    exact readU32_at (by simp) small
  have atVoters : decodeIds bytes voters.length 13 = some (voters, 13 + 8 * voters.length) := by
    rw [layout, ← append_assoc, ← append_assoc]
    exact decodeIds_at (by simp)
  rw [decode, if_neg (by omega)]
  simp only [head, atId, atCount, atVoters]
  generalize decoded : decodeIds bytes (readU32 bytes (13 + 8 * voters.length)) (13 + 8 * voters.length + 4) = found
  cases cc <;> simp only [op, nodeId, decoded] <;> cases found <;> rfl

theorem decode_encode (cc : ConfChange) {voters learners : List NodeId} (small : voters.length < 2 ^ 32)
    (small' : learners.length < 2 ^ 32) : decode (cc.encode voters learners) = some (cc, voters, learners) := by
  have layout : cc.encode voters learners = [cc.op] ++ (toBE 8 cc.nodeId.toNat ++ (toBE 4 voters.length ++
      (encodeIds voters ++ (toBE 4 learners.length ++ (encodeIds learners ++ []))))) := by
    simp [encode]
  have atCount : readU32 (cc.encode voters learners) (13 + 8 * voters.length) = learners.length := by
    rw [layout, ← append_assoc, ← append_assoc, ← append_assoc]
    exact readU32_at (by simp; omega) small'
  have atLearners : decodeIds (cc.encode voters learners) learners.length (13 + 8 * voters.length + 4) =
      some (learners, 13 + 8 * voters.length + 4 + 8 * learners.length) := by
    rw [layout, ← append_assoc, ← append_assoc, ← append_assoc, ← append_assoc]
    exact decodeIds_at (by simp; omega)
  rw [decode_front cc small layout, if_neg (by simp [layout]; omega), atCount, atLearners]
  rfl

theorem decode_without_learners (cc : ConfChange) (small : voters.length < 2 ^ 32) :
    decode ([cc.op] ++ (toBE 8 cc.nodeId.toNat ++ (toBE 4 voters.length ++ encodeIds voters))) =
      some (cc, voters, []) := by
  have layout : [cc.op] ++ (toBE 8 cc.nodeId.toNat ++ (toBE 4 voters.length ++ encodeIds voters)) =
      [cc.op] ++ (toBE 8 cc.nodeId.toNat ++ (toBE 4 voters.length ++ (encodeIds voters ++ []))) := by
    rw [append_nil]
  rw [decode_front cc small layout, if_pos (by simp; omega)]

theorem decodeIds_length {bytes : Bytes} {count pos last : Nat} {ids : List NodeId}
    (decoded : decodeIds bytes count pos = some (ids, last)) : ids.length = count := by
  induction count generalizing pos ids last with
  | zero =>
    cases decoded
    rfl
  | succ count ih =>
    rw [decodeIds] at decoded
    split at decoded
    · cases decoded
    · split at decoded
      · rename_i found
        cases decoded
        rw [length_cons, ih found]
      · cases decoded

theorem readU32_lt (bytes : Bytes) (pos : Nat) : readU32 bytes pos < 2 ^ 32 :=
  (fromBE_lt _).trans_le (Nat.pow_le_pow_right (by decide) (length_take_le 4 _))

/-- What is decoded is as long as a count of 32 bits says. -/
theorem decode_counts {bytes : Bytes} {cc : ConfChange} {voters learners : List NodeId}
    (decoded : decode bytes = some (cc, voters, learners)) : voters.length < 2 ^ 32 ∧ learners.length < 2 ^ 32 := by
  unfold decode at decoded
  split at decoded
  · cases decoded
  · simp only at decoded
    split at decoded
    · rename_i read
      have counted := decodeIds_length read ▸ readU32_lt bytes 9
      split at decoded
      · cases decoded
        exact ⟨counted, by decide⟩
      · split at decoded
        · rename_i read'
          cases decoded
          exact ⟨counted, decodeIds_length read' ▸ readU32_lt bytes _⟩
        · cases decoded
    · cases decoded

end ConfChange

def raftRules (bootstrap : List NodeId) : Rules NodeId Entry where
  termOf := Entry.term
  reconfigures e := e.entryType = .confChange
  config log := (foldConf (bootstrap, []) log).1.toFinset
  config_append log e quiet := by simp [foldConf, quiet]

section

variable {bootstrap : List NodeId}

/-- The voters a replica may hold for its log: the right ones, or none before a membership reached it. -/
def Informed (bootstrap voters : List NodeId) (log : List Entry) : Prop :=
  voters = [] ∨ voters.toFinset = (raftRules bootstrap).config log

variable {log : List Entry}

theorem Informed.sortDedup (informed : Informed bootstrap voters log) :
    Informed bootstrap (sortDedup voters) log := by
  rcases informed with rfl | right
  · exact .inl rfl
  · exact .inr (by rw [sortDedup_toFinset, right])

theorem Informed.config (informed : Informed bootstrap voters log) (member : id ∈ voters) :
    voters.toFinset = (raftRules bootstrap).config log := by
  rcases informed with rfl | right
  · cases member
  · exact right

theorem foldConf_concat (start : List NodeId × List NodeId) (log : List Entry) (e : Entry) :
    foldConf start (log ++ [e]) = foldConf (foldConf start log) [e] := by
  simp [foldConf]

theorem foldConf_informed {start : List NodeId × List NodeId} {first rest : List Entry}
    (informed : Informed bootstrap start.1 first) : Informed bootstrap (foldConf start rest).1 (first ++ rest) := by
  induction rest using reverseRecOn with
  | nil => simpa [foldConf] using informed
  | append_singleton rest e ih =>
    rw [foldConf_concat, ← append_assoc]
    by_cases change : e.entryType = .confChange
    · cases decoded : ConfChange.decode e.data with
      | none =>
        rcases ih with empty | right
        · exact .inl (by simpa [foldConf, change, decoded] using empty)
        · refine .inr ?_
          simp only [foldConf, change, decoded, foldl_cons, foldl_nil, if_true, raftRules,
            foldl_append] at right ⊢
          exact right
      | some conf => exact .inr (by simp [foldConf, change, decoded, raftRules])
    · have same : foldConf (foldConf start rest) [e] = foldConf start rest := by
        simp [foldConf, change]
      rw [same]
      rcases ih with empty | right
      · exact .inl empty
      · exact .inr (by rw [right, (raftRules bootstrap).config_append _ _ change])

structure Recorded (bootstrap : List NodeId) (n : RaftNode) (log : List Entry) : Prop where
  boot : n.bootstrapConf = bootstrap ∨ n.bootstrapConf = []
  snap : ∀ snap, n.storage.snap = some snap →
    Informed bootstrap snap.confState (log.take snap.lastIncludedIndex)

theorem Recorded.confAt {n : RaftNode} (recorded : Recorded bootstrap n log) (holds : Holds n.storage log)
    (index : Nat) (above : n.storage.base ≤ index) : Informed bootstrap (n.confAt index).1 (log.take index) := by
  refine Informed.sortDedup ?_
  have whole : (log.take index).take n.storage.base ++ n.storage.entries n.storage.firstIndex index =
      log.take index := by
    rw [holds.entries, MemStorage.firstIndex, Nat.max_self, Nat.add_sub_cancel, take_append_drop]
  rw [← whole]
  apply foldConf_informed
  rw [take_take, Nat.min_eq_left above]
  cases snap : n.storage.snap with
  | none =>
    have base : n.storage.base = 0 := by simp [MemStorage.base, snap]
    rw [base]
    rcases recorded.boot with same | none
    · exact .inr (by simp [same, raftRules, foldConf])
    · exact .inl none
  | some s =>
    have base : n.storage.base = s.lastIncludedIndex := by simp [MemStorage.base, snap]
    rw [base]
    exact recorded.snap s snap

theorem confAt_nodup (n : RaftNode) (index : Nat) : (n.confAt index).1.Nodup := sortDedup_nodup _

end

end Arcux.Raft
