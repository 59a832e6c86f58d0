import Arcux.Raft.Seats

namespace Arcux.Raft

open List

theorem dedup_sublist (ids : List NodeId) : (dedup ids).Sublist ids := by
  fun_induction dedup ids with
  | case1 => exact .refl _
  | case2 a => exact .refl _
  | case3 a rest ih => exact ih.trans (sublist_cons_self _ _)
  | case4 a b rest _ ih => exact ih.cons_cons a

variable {ids : List NodeId}

theorem dedup_eq (distinct : ids.Pairwise (· < ·)) : dedup ids = ids := by
  fun_induction dedup ids with
  | case1 => rfl
  | case2 a => rfl
  | case3 b rest ih => exact absurd (rel_of_pairwise_cons distinct (mem_cons_self ..)) (UInt64.lt_irrefl b)
  | case4 a b rest _ ih => rw [ih distinct.of_cons]

theorem sortDedup_sorted (ids : List NodeId) : (sortDedup ids).Pairwise (· < ·) := by
  have sorted : (sortDedup ids).Pairwise (· ≤ ·) := (pairwise_insertionSort _ ids).sublist (dedup_sublist _)
  exact (sorted.and (sortDedup_nodup ids)).imp fun ⟨le, ne⟩ => UInt64.lt_of_le_of_ne le ne

theorem sortDedup_eq (sorted : ids.Pairwise (· < ·)) : sortDedup ids = ids := by
  have ordered : ids.Pairwise (· ≤ ·) := sorted.imp UInt64.le_of_lt
  rw [sortDedup, ordered.insertionSort_eq, dedup_eq sorted]

def canonical (conf : List NodeId × List NodeId) : List NodeId × List NodeId := (sortDedup conf.1, sortDedup conf.2)

theorem canonical_idem (conf : List NodeId × List NodeId) : canonical (canonical conf) = canonical conf := by
  simp only [canonical, sortDedup_eq (sortDedup_sorted _)]

theorem foldConf_canonical (conf : List NodeId × List NodeId) (entries : List Entry) :
    canonical (foldConf (canonical conf) entries) = canonical (foldConf conf entries) := by
  induction entries using reverseRecOn with
  | nil => exact canonical_idem conf
  | append_singleton entries e ih =>
    rw [foldConf_concat, foldConf_concat conf]
    by_cases change : e.entryType = .confChange
    · cases decoded : ConfChange.decode e.data with
      | none => simpa [foldConf, change, decoded] using ih
      | some found => simp [foldConf, change, decoded]
    · simpa [foldConf, change] using ih

def membership (bootstrap : List NodeId) (log : List Entry) : List NodeId × List NodeId :=
  canonical (foldConf (bootstrap, []) log)

theorem membership_normal (bootstrap : List NodeId) (log : List Entry) (e : Entry)
    (normal : e.entryType ≠ .confChange) : membership bootstrap (log ++ [e]) = membership bootstrap log := by
  simp only [membership, foldConf_concat]
  simp [foldConf, normal]

structure Remembers (n : RaftNode) (log : List Entry) : Prop where
  holds : Holds n.storage log
  snaps : ∀ snap, n.storage.snap = some snap →
    (snap.confState, snap.learners) = membership n.bootstrapConf (log.take snap.lastIncludedIndex)

variable {log : List Entry} {n : RaftNode}

theorem Remembers.confAt (remembers : Remembers n log) {index : Nat}
    (above : n.storage.base ≤ index) : n.confAt index = membership n.bootstrapConf (log.take index) := by
  have entries : n.storage.entries n.storage.firstIndex index = (log.take index).drop n.storage.base := by
    rw [remembers.holds.entries, MemStorage.firstIndex, Nat.max_self, Nat.add_sub_cancel]
  have whole : log.take index = log.take n.storage.base ++ (log.take index).drop n.storage.base := by
    conv_lhs => rw [← take_append_drop n.storage.base (log.take index), take_take, Nat.min_eq_left above]
  have folded : membership n.bootstrapConf (log.take index) =
      canonical (foldConf (foldConf (n.bootstrapConf, []) (log.take n.storage.base))
        ((log.take index).drop n.storage.base)) := by
    rw [membership]
    conv_lhs => rw [whole]
    rw [foldConf, foldl_append]
    rfl
  rw [folded]
  unfold RaftNode.confAt
  rw [entries]
  cases found : n.storage.snap with
  | none =>
    have base : n.storage.base = 0 := by simp [MemStorage.base, found]
    rw [base]
    rfl
  | some snap =>
    have base : n.storage.base = snap.lastIncludedIndex := by simp [MemStorage.base, found]
    simp only
    rw [remembers.snaps snap found, ← base]
    exact foldConf_canonical _ _

theorem Remembers.current (remembers : Remembers n log) :
    n.confAt n.storage.lastIndex = membership n.bootstrapConf log := by
  have last := remembers.holds.lastIndex
  rw [remembers.confAt (last ▸ remembers.holds.base_le), last, take_length]

theorem Remembers.congr {n n' : RaftNode} (remembers : Remembers n log)
    (boot : n'.bootstrapConf = n.bootstrapConf) (body : n'.storage.body = n.storage.body) : Remembers n' log := by
  obtain ⟨same, snap⟩ := Prod.mk.inj body
  have base := MemStorage.base_of_body body
  refine ⟨⟨remembers.holds.indexed, base ▸ remembers.holds.base_le, ?_, snap ▸ remembers.holds.boundary⟩, ?_⟩
  · rw [same, base]
    exact remembers.holds.tail
  · rw [snap, boot]
    exact remembers.snaps

theorem RaftNode.recomputeConf_seats (n : RaftNode) : n.recomputeConf.seats =
    ⟨n.bootstrapConf, (n.confAt n.storage.lastIndex).1, (n.confAt n.storage.lastIndex).2, n.storage.body⟩ := by
  have checked : (n.adoptConf (n.confAt n.storage.lastIndex)).checkTransfer.seats =
      (n.adoptConf (n.confAt n.storage.lastIndex)).seats := by
    unfold checkTransfer
    split
    · split <;> rfl
    · rfl
  unfold recomputeConf
  simp only
  split
  · exact (show Turn (.tick 0) _ _ from .becomeFollower none le_rfl).seats.trans checked
  · exact checked

theorem Remembers.change {n n' : RaftNode} {log log' : List Entry} (remembers : Remembers n log)
    (boot : n'.bootstrapConf = n.bootstrapConf) (snap : n'.storage.snap = n.storage.snap)
    (holds : Holds n'.storage log') (covered : log'.take n.storage.base = log.take n.storage.base) :
    Remembers n' log' := by
  refine ⟨holds, fun s found => ?_⟩
  rw [snap] at found
  have base : n.storage.base = s.lastIncludedIndex := by simp [MemStorage.base, found]
  rw [remembers.snaps s found, boot, ← base, covered]

theorem Remembers.recomputeConf (remembers : Remembers n log) :
    Remembers n.recomputeConf log ∧ n.recomputeConf.bootstrapConf = n.bootstrapConf ∧
      (n.recomputeConf.voters, n.recomputeConf.learners) = membership n.bootstrapConf log := by
  obtain ⟨boot, voters, learners, body⟩ := Seats.mk.inj n.recomputeConf_seats
  refine ⟨remembers.congr boot body, boot, ?_⟩
  rw [voters, learners, Prod.mk.eta, remembers.current]

end Arcux.Raft
