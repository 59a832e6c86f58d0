import Arcux.Raft.Contiguity

namespace Arcux.Raft

open List

/-- The storage is a snapshot of the leader's first entries and a log above it, and an entry of that log with the term of
the leader's entry at its index is the leader's, as are those before it. -/
structure Agrees (lead : List Entry) (storage : MemStorage) : Prop where
  indexed : Indexed lead
  contiguous : storage.Contiguous
  covered : storage.base ≤ lead.length
  boundary : ∀ snap, storage.snap = some snap →
    0 < snap.lastIncludedIndex ∧ termAt lead snap.lastIncludedIndex = some snap.lastIncludedTerm
  matched : ∀ i e, storage.At i e → termAt lead i = some e.term → ∀ j ≤ i, ∀ e', storage.At j e' → lead[j - 1]? = some e'

def wholeLog (lead : List Entry) (storage : MemStorage) : List Entry := lead.take storage.base ++ storage.log

structure Sent (lead : List Entry) (prevLogIndex prevLogTerm : Nat) (entries : List Entry) : Prop where
  bound : prevLogIndex + entries.length ≤ lead.length
  slice : entries = (lead.drop prevLogIndex).take entries.length
  previous : termAt lead prevLogIndex = some prevLogTerm

variable {lead entries : List Entry} {storage : MemStorage} {i prevLogIndex prevLogTerm : Nat} {e : Entry}

theorem RaftNode.sendAppend_sent {l : RaftNode} (holds : Holds l.storage lead) {dest : NodeId} {next : Nat}
    (known : l.nextIndex dest = some next) (kept : l.storage.firstIndex ≤ next)
    (reach : next ≤ l.storage.lastIndex + 1) :
    ∃ prevLogIndex prevLogTerm entries, Sent lead prevLogIndex prevLogTerm entries ∧
      l.sendAppend dest = l.send dest l.currentTerm
        (.appendEntries prevLogIndex prevLogTerm entries l.commitIndex l.readRound) := by
  have first : l.storage.firstIndex = l.storage.base + 1 := rfl
  have sent : l.sendAppend dest = l.send dest l.currentTerm (.appendEntries (next - 1)
      ((l.storage.term (next - 1)).getD 0) (l.storage.entries next l.storage.lastIndex) l.commitIndex l.readRound) := by
    simp only [sendAppend, known, Option.getD_some]
    rw [if_neg (by omega)]
  rw [holds.lastIndex] at reach sent
  refine ⟨_, _, _, ⟨?_, ?_, ?_⟩, sent⟩
  · rw [holds.entries]
    simp only [length_drop, length_take]
    omega
  · rw [holds.entries, take_length, Nat.max_eq_left (by omega), take_of_length_le (Nat.le_refl _)]
  · have inside : next - 1 ≤ lead.length := by omega
    rw [holds.term (by omega), termAt]
    split_ifs with zero
    · rfl
    · rw [getElem?_eq_getElem (by omega)]
      rfl

namespace Agrees

section

variable (agrees : Agrees lead storage)

include agrees

theorem length_covered : (lead.take storage.base).length = storage.base := by
  rw [length_take, Nat.min_eq_left agrees.covered]

variable {k : Nat}

theorem getElem?_below (below : k < storage.base) : (wholeLog lead storage)[k]? = lead[k]? := by
  rw [wholeLog, getElem?_append_left (by rw [agrees.length_covered]; exact below), getElem?_take_of_lt below]

theorem getElem?_above (above : storage.base ≤ k) : (wholeLog lead storage)[k]? = some e ↔ storage.At (k + 1) e := by
  have covered := agrees.length_covered
  have position : k + 1 - storage.base - 1 = k - storage.base := by omega
  rw [wholeLog, getElem?_append_right (by omega), covered, MemStorage.At, position]
  simp only [Nat.lt_succ_of_le above, true_and]

theorem holds : Holds storage (wholeLog lead storage) := by
  have covered := agrees.length_covered
  refine ⟨fun k e found => ?_, ?_, ?_, fun snap found => ⟨(agrees.boundary snap found).1, ?_⟩⟩
  · rcases Nat.lt_or_ge k storage.base with below | above
    · rw [agrees.getElem?_below below] at found
      exact agrees.indexed k e found
    · exact agrees.contiguous _ e ((agrees.getElem?_above above).mp found)
  · rw [wholeLog, length_append]
    omega
  · rw [wholeLog, drop_append_of_le_length covered.ge, drop_eq_nil_of_le covered.le, nil_append]
  · have here : storage.base = snap.lastIncludedIndex := by simp [MemStorage.base, found]
    rw [wholeLog, termAt_of_part (prefix_append _ _) (by omega), termAt_take _ here.ge]
    exact (agrees.boundary snap found).2

theorem take_eq (m : Nat) (e e' : Entry) (found : (wholeLog lead storage)[m]? = some e) (found' : lead[m]? = some e')
    (same : e.term = e'.term) : (wholeLog lead storage).take (m + 1) = lead.take (m + 1) := by
  apply ext_getElem?
  intro j
  rcases Nat.lt_or_ge m j with past | inside
  · simp [show ¬ j < m + 1 by omega]
  rw [getElem?_take_of_lt (by omega), getElem?_take_of_lt (by omega)]
  rcases Nat.lt_or_ge j storage.base with below | above
  · exact agrees.getElem?_below below
  · have here : storage.At (m + 1) e := (agrees.getElem?_above (by omega)).mp found
    have known : termAt lead (m + 1) = some e.term := by rw [termAt_succ, found', same]; rfl
    have short : j < (wholeLog lead storage).length := by
      have := (List.getElem?_eq_some_iff.mp found).1
      omega
    have held := getElem?_eq_getElem short
    rw [held]
    exact (agrees.matched _ e here known (j + 1) (by omega) _ ((agrees.getElem?_above above).mp held)).symm

theorem splices (sent : Sent lead prevLogIndex prevLogTerm entries)
    (checked : storage.base ≤ prevLogIndex → storage.term prevLogIndex = some prevLogTerm) :
    Splices storage (wholeLog lead storage) lead (prevLogIndex + 1) (prevLogIndex + entries.length) entries := by
  refine ⟨agrees.holds, (prefix_append _ _), agrees.take_eq, agrees.indexed, Nat.succ_pos _, sent.bound, rfl, sent.slice, ?_⟩
  rw [Nat.add_sub_cancel]
  rcases Nat.lt_or_ge prevLogIndex storage.base with below | above
  · exact (take_prefix_take_left below.le).trans (prefix_append _ _)
  · have known := checked above
    have previous := sent.previous
    rw [agrees.holds.term above] at known
    cases prevLogIndex with
    | zero => exact nil_prefix
    | succ p =>
      rw [termAt_succ, Option.map_eq_some_iff] at known previous
      obtain ⟨e, found, rfl⟩ := known
      obtain ⟨e', found', same⟩ := previous
      rw [← agrees.take_eq p e e' found found' same.symm]
      exact take_prefix _ _

end

end Agrees

theorem Holds.whole {k : Nat} (holds : Holds storage (lead.take k)) : wholeLog lead storage = lead.take k := by
  have reach : storage.base ≤ k := by
    have := holds.base_le
    rw [length_take] at this
    omega
  conv_rhs => rw [← take_append_drop storage.base (lead.take k), take_take, Nat.min_eq_left reach]
  rw [wholeLog, holds.tail]

theorem Holds.at_iff {log : List Entry} (holds : Holds storage log) :
    storage.At i e ↔ storage.base < i ∧ log[i - 1]? = some e := by
  rw [MemStorage.At, holds.tail, getElem?_drop, and_congr_right_iff]
  intro above
  rw [show storage.base + (i - storage.base - 1) = i - 1 by omega]

theorem Agrees.of_holds (indexed : Indexed lead) {k : Nat} (holds : Holds storage (lead.take k)) :
    Agrees lead storage := by
  have part : lead.take k <+: lead := take_prefix _ _
  have present (i : Nat) (e : Entry) (held : storage.At i e) : (lead.take k)[i - 1]? = some e := (holds.at_iff.mp held).2
  refine ⟨indexed, fun i e held => ?_, holds.base_le.trans part.length_le, fun snap found => ?_, fun i e _ _ j _ e' held => ?_⟩
  · have := holds.indexed _ e (present i e held)
    have := held.1
    omega
  · obtain ⟨positive, known⟩ := holds.boundary snap found
    have here : storage.base = snap.lastIncludedIndex := by simp [MemStorage.base, found]
    refine ⟨positive, ?_⟩
    rw [← known]
    exact termAt_of_part part (here ▸ holds.base_le)
  · have here := present j e' held
    rw [getElem?_take] at here
    split_ifs at here
    exact here

def Conflicts (storage : MemStorage) (index : Nat) (entries : List Entry) (i : Nat) : Prop :=
  ∃ e e', storage.At i e ∧ index ≤ i ∧ entries[i - index]? = some e' ∧ e.term ≠ e'.term

variable {index : Nat}

theorem Conflicts.later {x : Entry} {rest : List Entry}
    (conflicts : Conflicts storage (index + 1) rest i) : Conflicts storage index (x :: rest) i := by
  obtain ⟨e, e', held, after, found, differ⟩ := conflicts
  refine ⟨e, e', held, by omega, ?_, differ⟩
  rw [show i - index = (i - (index + 1)) + 1 by omega, getElem?_cons_succ]
  exact found

theorem MemStorage.At.truncateSuffix (held : storage.At i e) {cut : Nat} (below : i < cut) :
    (storage.truncateSuffix cut).At i e := by
  obtain ⟨above, found⟩ := held
  unfold MemStorage.truncateSuffix
  rw [if_neg (by omega)]
  refine ⟨above, ?_⟩
  change (storage.log.take (cut - storage.base - 1))[i - storage.base - 1]? = some e
  rw [getElem?_take_of_lt (by omega), found]

theorem MemStorage.exists_at (contiguous : storage.Contiguous) (above : storage.base < i)
    (inside : i ≤ storage.lastIndex) : ∃ e, storage.At i e := by
  rw [contiguous.lastIndex] at inside
  exact ⟨_, above, getElem?_eq_getElem (by omega)⟩

theorem MemStorage.At.term (held : storage.At i e) : storage.term i = some e.term := by
  obtain ⟨above, found⟩ := held
  rw [MemStorage.term, if_neg (by omega), if_neg (by omega), if_neg (by omega), found]
  rfl

theorem splice_cut (contiguous : storage.Contiguous) (index : Nat) (entries : List Entry) :
    (RaftNode.splice storage storage.base index entries).1 = storage ∨
      ∃ c, Conflicts storage index entries c ∧
        (RaftNode.splice storage storage.base index entries).1 = storage.truncateSuffix c := by
  induction entries generalizing index with
  | nil => exact .inl rfl
  | cons x rest ih =>
    have skip := (ih (index + 1)).imp_right fun ⟨c, conflicts, cut⟩ => (⟨c, conflicts.later, cut⟩ :
      ∃ c, Conflicts storage index (x :: rest) c ∧ _ = storage.truncateSuffix c)
    rw [RaftNode.splice]
    split_ifs with covered inside conflict
    · exact skip
    · obtain ⟨e, held⟩ := MemStorage.exists_at contiguous (by omega) inside
      rw [held.term] at conflict
      refine .inr ⟨index, ⟨e, x, held, Nat.le_refl _, by simp, fun same => conflict (congrArg some same)⟩, rfl⟩
    · exact skip
    · exact .inl rfl

theorem splice_keeps (contiguous : storage.Contiguous) (held : storage.At i e)
    (agreed : ∀ c ≤ i, ¬ Conflicts storage index entries c) :
    (RaftNode.joined (RaftNode.splice storage storage.base index entries)).At i e := by
  have kept : (RaftNode.splice storage storage.base index entries).1.At i e := by
    rcases splice_cut contiguous index entries with same | ⟨c, conflicts, cut⟩
    · rwa [same]
    · rw [cut]
      exact held.truncateSuffix (Nat.lt_of_not_le fun le => agreed c le conflicts)
  generalize RaftNode.splice storage storage.base index entries = outcome at kept ⊢
  obtain ⟨cut, fresh⟩ := outcome
  cases fresh with
  | none => exact kept
  | some fresh => exact MemStorage.at_append.mpr (.inl kept)

theorem splice_grows (contiguous : storage.Contiguous) (agreed : ∀ c, ¬ Conflicts storage index entries c) :
    storage.log <+: (RaftNode.joined (RaftNode.splice storage storage.base index entries)).log := by
  have same : (RaftNode.splice storage storage.base index entries).1 = storage := by
    rcases splice_cut contiguous index entries with same | ⟨c, conflicts, _⟩
    · exact same
    · exact absurd conflicts (agreed c)
  generalize RaftNode.splice storage storage.base index entries = outcome at same ⊢
  obtain ⟨cut, fresh⟩ := outcome
  cases same
  cases fresh with
  | none => exact prefix_refl _
  | some fresh => exact prefix_append _ _

theorem Agrees.joined (agrees : Agrees lead storage) (sent : Sent lead prevLogIndex prevLogTerm entries)
    (checked : storage.base ≤ prevLogIndex → storage.term prevLogIndex = some prevLogTerm) :
    let after := RaftNode.joined (RaftNode.splice storage storage.base (prevLogIndex + 1) entries)
    Agrees lead after ∧ after.snap = storage.snap ∧
      lead.take (prevLogIndex + entries.length) <+: wholeLog lead after := by
  intro after
  rcases splice_spec (agrees.splices sent checked) with ⟨same, held⟩ | ⟨cut, fresh, joins, -, holds, -, snap⟩
  · have unchanged : after = storage := by simp only [after, same, RaftNode.joined]
    rw [unchanged]
    exact ⟨agrees, rfl, held⟩
  · have result : after = cut.append fresh := by simp only [after, joins, RaftNode.joined]
    rw [result]
    exact ⟨.of_holds agrees.indexed holds, snap, holds.whole ▸ prefix_refl _⟩

theorem Agrees.splice_held (agrees : Agrees lead storage) (sent : Sent lead prevLogIndex prevLogTerm entries)
    (checked : storage.base ≤ prevLogIndex → storage.term prevLogIndex = some prevLogTerm)
    (held : lead.take (prevLogIndex + entries.length) <+: wholeLog lead storage) :
    RaftNode.joined (RaftNode.splice storage storage.base (prevLogIndex + 1) entries) = storage := by
  rcases splice_spec (agrees.splices sent checked) with ⟨same, -⟩ | ⟨_, _, _, departs, -⟩
  · rw [same]
    rfl
  · exact absurd held departs

theorem Agrees.at_iff (agrees : Agrees lead storage) {m : Nat} (held : lead.take m <+: wholeLog lead storage)
    (above : storage.base < i) (inside : i ≤ m) (bound : m ≤ lead.length) (e : Entry) :
    storage.At i e ↔ lead[i - 1]? = some e := by
  obtain ⟨rest, joins⟩ := held
  rw [agrees.holds.at_iff, ← joins, getElem?_append_left (by rw [length_take]; omega),
    getElem?_take_of_lt (by omega)]
  simp only [above, true_and]

namespace RaftNode

variable {n : RaftNode} {sender : NodeId} {leaderCommit readRound : Nat}

def appendMessage (n : RaftNode) (sender : NodeId) (prevLogIndex prevLogTerm : Nat) (entries : List Entry)
    (leaderCommit readRound : Nat) : Message :=
  ⟨sender, n.id, n.currentTerm, .appendEntries prevLogIndex prevLogTerm entries leaderCommit readRound⟩

def appendReply (n : RaftNode) (sender : NodeId) (success : Bool) (matchIndex readRound : Nat) : Message :=
  ⟨n.id, sender, n.currentTerm, .appendEntriesResp success matchIndex readRound⟩

theorem spliceEntries_outside (n : RaftNode) (prevLogIndex : Nat) (entries : List Entry) :
    (n.spliceEntries prevLogIndex entries).currentTerm = n.currentTerm ∧
      (n.spliceEntries prevLogIndex entries).id = n.id ∧
      (n.spliceEntries prevLogIndex entries).messages = n.messages := by
  unfold spliceEntries
  split
  · refine ⟨recomputeConf_currentTerm _, ?_, recomputeConf_messages _⟩
    simp only [recomputeConf, becomeFollower, Nat.lt_irrefl, if_false]
    split <;> exact congrArg Core.id (checkTransfer_core _)
  · exact ⟨rfl, rfl, rfl⟩

theorem step_append_cases (n : RaftNode) (sender : NodeId) (prevLogIndex prevLogTerm : Nat) (entries : List Entry)
    (leaderCommit readRound : Nat) :
    let n' := n.step (n.appendMessage sender prevLogIndex prevLogTerm entries leaderCommit readRound)
    n'.currentTerm = n.currentTerm ∧ n'.id = n.id ∧
      ((prevLogIndex + entries.length ≤ n.storage.base ∧ n'.storage = n.storage ∧
          n'.messages = n.messages ++ [n.appendReply sender true n.storage.base readRound]) ∨
        (n'.storage = n.storage ∧ n'.messages = n.messages ++ [n.appendReply sender false 0 readRound]) ∨
        (n.storage.base < prevLogIndex + entries.length ∧
          (n.storage.base ≤ prevLogIndex → n.storage.term prevLogIndex = some prevLogTerm) ∧
          n'.storage = joined (splice n.storage n.storage.base (prevLogIndex + 1) entries) ∧
          n'.messages = n.messages ++ [n.appendReply sender true (prevLogIndex + entries.length) readRound])) := by
  intro n'
  have adopted : n.adoptTerm (n.appendMessage sender prevLogIndex prevLogTerm entries leaderCommit readRound) = n :=
    if_neg (Nat.lt_irrefl _)
  have handled : n' = n.handleAppendEntries sender n.currentTerm prevLogIndex prevLogTerm entries leaderCommit readRound := by
    unfold n' step
    rw [adopted]
    rfl
  rw [handled, handleAppendEntries, if_neg (Nat.lt_irrefl _)]
  simp only
  split_ifs with covered mismatch
  · exact ⟨rfl, rfl, .inl ⟨covered, rfl, rfl⟩⟩
  · exact ⟨rfl, rfl, .inr (.inl ⟨rfl, rfl⟩)⟩
  · obtain ⟨term, id, messages⟩ := spliceEntries_outside (n.follow sender) prevLogIndex entries
    rw [not_and, not_not] at mismatch
    refine ⟨term, id, .inr (.inr ⟨Nat.lt_of_not_le covered, mismatch, ?_, ?_⟩)⟩
    · exact spliceEntries_storage (n.follow sender) prevLogIndex entries
    · simp only [learnCommit, send, messages, term, id]
      rfl

theorem step_append_held (agrees : Agrees lead n.storage) (sent : Sent lead prevLogIndex prevLogTerm entries)
    (held : lead.take (prevLogIndex + entries.length) <+: wholeLog lead n.storage) :
    (n.step (n.appendMessage sender prevLogIndex prevLogTerm entries leaderCommit readRound)).storage = n.storage := by
  obtain ⟨-, -, ⟨-, same, -⟩ | ⟨same, -⟩ | ⟨-, checked, spliced, -⟩⟩ :=
    step_append_cases n sender prevLogIndex prevLogTerm entries leaderCommit readRound
  · exact same
  · exact same
  · rw [spliced]
    exact agrees.splice_held sent checked held

end RaftNode

structure Spliced (lead : List Entry) (before after : MemStorage) (prevLogIndex : Nat) (entries : List Entry) (m : Nat) :
    Prop where
  reach : m = max (prevLogIndex + entries.length) before.base
  inside : m ≤ lead.length
  snap : after.snap = before.snap
  present : ∀ i, before.base < i → i ≤ m → ∀ e, after.At i e ↔ lead[i - 1]? = some e
  kept : ∀ i e, before.At i e → (∀ c ≤ i, ¬ Conflicts before (prevLogIndex + 1) entries c) → after.At i e
  grows : (∀ c, ¬ Conflicts before (prevLogIndex + 1) entries c) → before.log <+: after.log

theorem Spliced.covered (agrees : Agrees lead storage) (covered : prevLogIndex + entries.length ≤ storage.base) :
    Spliced lead storage storage prevLogIndex entries storage.base where
  reach := (Nat.max_eq_right covered).symm
  inside := agrees.covered
  snap := rfl
  present _ above inside := absurd above (Nat.not_lt.mpr inside)
  kept _ _ held _ := held
  grows _ := prefix_refl _

theorem Spliced.spliced (agrees : Agrees lead storage) (sent : Sent lead prevLogIndex prevLogTerm entries)
    (past : storage.base < prevLogIndex + entries.length)
    (checked : storage.base ≤ prevLogIndex → storage.term prevLogIndex = some prevLogTerm) :
    Spliced lead storage (RaftNode.joined (RaftNode.splice storage storage.base (prevLogIndex + 1) entries)) prevLogIndex
      entries (prevLogIndex + entries.length) := by
  obtain ⟨agrees', snap, held⟩ := agrees.joined sent checked
  refine ⟨(Nat.max_eq_left past.le).symm, sent.bound, snap, fun i above inside => ?_,
    fun i e held agreed => splice_keeps agrees.contiguous held agreed, splice_grows agrees.contiguous⟩
  exact agrees'.at_iff held (by rwa [MemStorage.base, snap]) inside sent.bound

/-- Handling an append splices the leader's entries in, once: a later delivery of it, or of an older append that reaches
no further, changes nothing. -/
theorem append_spliced (n : RaftNode) (sender : NodeId) {lead entries : List Entry} {prevLogIndex prevLogTerm : Nat}
    (agrees : Agrees lead n.storage) (sent : Sent lead prevLogIndex prevLogTerm entries) (leaderCommit readRound : Nat) :
    let n' := n.step (n.appendMessage sender prevLogIndex prevLogTerm entries leaderCommit readRound)
    ∃ success m, n'.messages = n.messages ++ [n.appendReply sender success m readRound] ∧
      (success = false → n'.storage = n.storage) ∧
      (success = true → Spliced lead n.storage n'.storage prevLogIndex entries m ∧
        ∀ prevLogIndex' prevLogTerm' entries' leaderCommit' readRound', Sent lead prevLogIndex' prevLogTerm' entries' →
          prevLogIndex' + entries'.length ≤ m →
          (n'.step (n'.appendMessage sender prevLogIndex' prevLogTerm' entries' leaderCommit' readRound')).storage =
            n'.storage) := by
  intro n'
  obtain ⟨-, -, ⟨covered, same, reply⟩ | ⟨same, reply⟩ | ⟨past, checked, spliced, reply⟩⟩ :=
    n.step_append_cases sender prevLogIndex prevLogTerm entries leaderCommit readRound
  · have result : Spliced lead n.storage n'.storage prevLogIndex entries n.storage.base := by
      rw [same]
      exact .covered agrees covered
    have agrees' : Agrees lead n'.storage := same ▸ agrees
    refine ⟨true, n.storage.base, reply, nofun, fun _ => ⟨result, fun _ _ _ _ _ sent' short => ?_⟩⟩
    refine RaftNode.step_append_held agrees' sent' ((take_prefix_take_left ?_).trans (prefix_append _ _))
    exact (congrArg MemStorage.base same).symm ▸ short
  · exact ⟨false, 0, reply, fun _ => same, nofun⟩
  · obtain ⟨agrees', -, held⟩ := agrees.joined sent checked
    have result : Spliced lead n.storage n'.storage prevLogIndex entries (prevLogIndex + entries.length) := by
      rw [spliced]
      exact .spliced agrees sent past checked
    refine ⟨true, _, reply, nofun, fun _ => ⟨result, fun _ _ _ _ _ sent' short => ?_⟩⟩
    rw [← spliced] at agrees' held
    exact RaftNode.step_append_held agrees' sent' ((take_prefix_take_left short).trans held)

def leaderLog : List Entry := [.normal 1 1 [], .normal 1 2 [], .normal 2 3 [], .normal 2 4 []]

def departed : MemStorage := ⟨⟨2, none⟩, [.normal 1 3 []], some ⟨2, 1, [1, 2, 3], [], []⟩⟩

theorem departed_agrees : Agrees leaderLog departed := by
  have only (i : Nat) (e : Entry) (held : departed.At i e) : i = 3 ∧ e = .normal 1 3 [] := by
    obtain ⟨above, found⟩ := held
    have base : departed.base = 2 := rfl
    obtain ⟨bound, rfl⟩ := List.getElem?_eq_some_iff.mp found
    have length : departed.log.length = 1 := rfl
    obtain rfl : i = 3 := by omega
    exact ⟨rfl, rfl⟩
  refine ⟨?_, ?_, by decide, ?_, ?_⟩
  · intro k e found
    match k with
    | 0 | 1 | 2 | 3 => cases found; rfl
    | k + 4 => cases found
  · intro i e held
    obtain ⟨rfl, rfl⟩ := only i e held
    rfl
  · rintro _ ⟨⟩
    decide
  · intro i e held same
    obtain ⟨rfl, rfl⟩ := only i e held
    exact absurd same (by decide)

def departedFollower : RaftNode := .new (.new 2 [1, 2, 3]) departed

theorem append_spliced_departed : Agrees leaderLog departed ∧ Sent leaderLog 1 1 (leaderLog.drop 1) ∧
    Spliced leaderLog departed
      (departedFollower.step (departedFollower.appendMessage 1 1 1 (leaderLog.drop 1) 0 0)).storage 1 (leaderLog.drop 1) 4 := by
  have sent : Sent leaderLog 1 1 (leaderLog.drop 1) := ⟨by decide, by decide, by decide⟩
  obtain ⟨success, m, reply, -, spliced⟩ := append_spliced departedFollower 1 departed_agrees sent 0 0
  have answer : (departedFollower.step (departedFollower.appendMessage 1 1 1 (leaderLog.drop 1) 0 0)).messages =
      [departedFollower.appendReply 1 true 4 0] := by decide +kernel
  cases reply.symm.trans answer
  exact ⟨departed_agrees, sent, (spliced rfl).1⟩

end Arcux.Raft
