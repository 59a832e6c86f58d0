import Arcux.Raft.Seats
import Arcux.Raft.Safety.Appends

namespace Arcux.Raft

open List

inductive LogOp where
  | append (entry : Entry)
  | splice (prevLogIndex : Nat) (entries : List Entry)

def RaftNode.Accepts (n : RaftNode) (term prevLogIndex prevLogTerm : Nat) (entries : List Entry) : Prop :=
  n.currentTerm ≤ term ∧ n.storage.base < prevLogIndex + entries.length ∧
    (n.storage.base ≤ prevLogIndex → n.storage.term prevLogIndex = some prevLogTerm)
  deriving Decidable

def Action.logOp (n : RaftNode) : Action → Option LogOp
  | propose _ data => match n.propose data with
    | .ok _ => some (.append (.normal n.currentTerm (n.storage.lastIndex + 1) data))
    | .error _ => none
  | proposeConfChange _ cc => match n.proposeConfChange cc with
    | .ok _ => some (.append (n.changeEntry cc))
    | .error _ => none
  | deliver ⟨⟨_, _, term, .appendEntries prevLogIndex prevLogTerm entries _ _⟩, _⟩ =>
    if n.Accepts term prevLogIndex prevLogTerm entries then some (.splice prevLogIndex entries) else none
  | _ => none

theorem Action.idle_logOp {action : Action} (idle : action.idle) (n : RaftNode) : action.logOp n = none := by
  cases action with
  | propose => cases idle
  | proposeConfChange => cases idle
  | deliver envelope =>
    obtain ⟨⟨sender, dest, term, body⟩, incarnation⟩ := envelope
    cases body with
    | appendEntries => cases idle
    | _ => rfl
  | _ => rfl

/-- The twin does what the operation does to the log, and reads its members off it; it never compacts. -/
def RaftNode.replay (t : RaftNode) : Option LogOp → RaftNode
  | some (.append entry) => (t.appendOwn entry).recomputeConf
  | some (.splice prevLogIndex entries) => t.spliceEntries prevLogIndex entries
  | none => t

theorem RaftNode.adoptTerm_current (n : RaftNode) (msg : Message) :
    (n.adoptTerm msg).currentTerm ≤ msg.term ↔ n.currentTerm ≤ msg.term := by
  unfold adoptTerm becomeFollower
  split
  · rename_i newer
    exact iff_of_true (Nat.le_refl _) newer.le
  · rfl

theorem RaftNode.handleAppendEntries_seats (n : RaftNode) (sender : NodeId) (term prevLogIndex prevLogTerm : Nat)
    (entries : List Entry) (leaderCommit readRound : Nat) :
    let n' := n.handleAppendEntries sender term prevLogIndex prevLogTerm entries leaderCommit readRound
    ¬ n.Accepts term prevLogIndex prevLogTerm entries ∧ n'.seats = n.seats ∨
      n.Accepts term prevLogIndex prevLogTerm entries ∧
        n'.seats = ((n.follow sender).spliceEntries prevLogIndex entries).seats := by
  unfold handleAppendEntries
  simp only
  split_ifs with stale covered mismatch
  · exact .inl ⟨fun accepts => Nat.not_lt.mpr accepts.1 stale, rfl⟩
  · exact .inl ⟨fun accepts => Nat.not_le.mpr accepts.2.1 covered, rfl⟩
  · exact .inl ⟨fun accepts => mismatch.2 (accepts.2.2 mismatch.1), rfl⟩
  · rw [not_and, not_not] at mismatch
    exact .inr ⟨⟨Nat.le_of_not_lt stale, Nat.lt_of_not_le covered, mismatch⟩, rfl⟩

inductive SameSplice (storage twin : MemStorage) (log entries : List Entry) :
    MemStorage × Option (List Entry) → MemStorage × Option (List Entry) → Prop
  | held : SameSplice storage twin log entries (storage, none) (twin, none)
  | fresh {cut cut' : MemStorage} {rest : List Entry} (holds : Holds (cut.append rest) (cut'.log ++ rest))
      (snap : cut.snap = storage.snap) (bare : cut'.snap = none) (part : cut'.log <+: log)
      (covers : storage.base ≤ cut'.log.length) (brought : rest ⊆ entries) :
      SameSplice storage twin log entries (cut, some rest) (cut', some rest)

section

variable {storage twin : MemStorage} {log entries : List Entry} {index : Nat}

theorem SameSplice.later {e : Entry} {left right : MemStorage × Option (List Entry)}
    (same : SameSplice storage twin log entries left right) :
    SameSplice storage twin log (e :: entries) left right := by
  cases same with
  | held => exact .held
  | fresh holds snap bare part covers brought =>
    exact .fresh holds snap bare part covers (subset_cons_of_subset _ brought)

theorem SameSplice.cut (holds : Holds storage log) (bare : twin.snap = none) (whole : twin.log = log)
    (above : storage.base < index) (inside : index ≤ log.length)
    (indexed : Indexed (log.take (index - 1) ++ entries)) :
    SameSplice storage twin log entries (storage.truncateSuffix index, some entries)
      (twin.truncateSuffix index, some entries) := by
  have bottom : twin.base = 0 := by simp [MemStorage.base, bare]
  have kept : (twin.truncateSuffix index).log = log.take (index - 1) := by
    unfold MemStorage.truncateSuffix
    rw [bottom, whole]
    split
    · rw [show index - 1 = 0 by omega]
      rfl
    · rfl
  have snaps (s : MemStorage) : (s.truncateSuffix index).snap = s.snap := by
    unfold MemStorage.truncateSuffix
    split <;> rfl
  refine .fresh (kept ▸ (holds.truncateSuffix above).append indexed) (snaps _) ((snaps _).trans bare)
    (kept ▸ take_prefix _ _) ?_ (Subset.refl _)
  rw [kept, length_take]
  omega

theorem splice_same (holds : Holds storage log) (bare : twin.snap = none) (whole : twin.log = log)
    (numbered : ∀ k e, entries[k]? = some e → e.index = index + k) (positive : 0 < index)
    (reach : index ≤ log.length + 1) (agreed : ∀ i ≤ storage.base, ¬ Conflicts twin index entries i) :
    SameSplice storage twin log entries (RaftNode.splice storage storage.base index entries)
      (RaftNode.splice twin twin.base index entries) := by
  have bottom : twin.base = 0 := by simp [MemStorage.base, bare]
  have holds' : Holds twin log := ⟨holds.indexed, by omega, by rw [bottom, whole]; rfl, by simp [bare]⟩
  have base := holds.base_le
  induction entries generalizing index with
  | nil => exact .held
  | cons e rest ih =>
    have next : ∀ k e', rest[k]? = some e' → e'.index = index + 1 + k := by
      intro k e' found
      have := numbered (k + 1) e' found
      omega
    have skip (inside : index ≤ log.length) : SameSplice storage twin log (e :: rest)
        (RaftNode.splice storage storage.base (index + 1) rest) (RaftNode.splice twin twin.base (index + 1) rest) :=
      (ih next (Nat.succ_pos _) (by omega) fun i le conflicts => agreed i le conflicts.later).later
    have indexed : Indexed (log.take (index - 1) ++ e :: rest) := by
      intro k x found
      rw [getElem?_append] at found
      split at found
      · rename_i before
        rw [length_take] at before
        rw [getElem?_take_of_lt (by omega)] at found
        exact holds.indexed k x found
      · have := numbered _ x found
        rw [length_take] at *
        omega
    rw [RaftNode.splice, RaftNode.splice, holds.lastIndex, holds'.lastIndex, if_neg (by omega : ¬ index ≤ twin.base),
      holds'.term (by omega)]
    by_cases covered : index ≤ storage.base
    · have present : ∃ x, twin.At index x ∧ termAt log index = some x.term := by
        have found := getElem?_eq_getElem (show index - 1 < log.length by omega)
        refine ⟨_, holds'.at_iff.mpr ⟨by omega, found⟩, ?_⟩
        rw [termAt, if_neg (by omega), found]
        rfl
      obtain ⟨x, held, term⟩ := present
      have agrees : termAt log index = some e.term := by
        by_contra differ
        refine agreed index covered ⟨x, e, held, Nat.le_refl _, by simp, fun same => differ ?_⟩
        rw [term, same]
      rw [if_pos covered, if_pos (by omega), if_neg (not_not.mpr agrees)]
      exact skip (by omega)
    · rw [if_neg covered, holds.term (by omega)]
      split_ifs with inside differ
      · exact .cut holds bare whole (by omega) inside indexed
      · exact skip inside
      · have all : log.take (index - 1) = log := take_of_length_le (by omega)
        rw [all] at indexed
        exact .fresh (whole ▸ holds.append indexed) rfl bare (whole ▸ prefix_refl _) (whole ▸ base)
          (Subset.refl _)

end

end Arcux.Raft
