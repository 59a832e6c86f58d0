import Arcux.Consensus.Completeness

namespace Arcux.Consensus

open List

variable {N E : Type}

section

variable {s s' : State N E}

structure Extends (s s' : State N E) : Prop where
  term : ∀ j, s.term j ≤ s'.term j
  vote : ∀ j T c, s.vote j T = some c → s'.vote j T = some c
  campaign : ∀ c T b, s.campaign c T = some b → s'.campaign c T = some b
  winner : ∀ T pair, s.winner T = some pair → s'.winner T = some pair
  lead : ∀ T, s.lead T <+: s'.lead T
  acked : ∀ j T k, s.acked j T k → s'.acked j T k
  frozen : ∀ j T k, T < s.term j → s'.acked j T k → s.acked j T k

theorem Extends.refl (s : State N E) : Extends s s :=
  ⟨fun _ => Nat.le_refl _, fun _ _ _ h => h, fun _ _ _ h => h, fun _ _ h => h,
    fun _ => prefix_refl _, fun _ _ _ h => h, fun _ _ _ _ h => h⟩

theorem Extends.trans {s'' : State N E} (first : Extends s s') (second : Extends s' s'') : Extends s s'' where
  term j := (first.term j).trans (second.term j)
  vote j T c found := second.vote j T c (first.vote j T c found)
  campaign c T b found := second.campaign c T b (first.campaign c T b found)
  winner T pair found := second.winner T pair (first.winner T pair found)
  lead T := (first.lead T).trans (second.lead T)
  acked j T k found := second.acked j T k (first.acked j T k found)
  frozen j T k past found :=
    first.frozen j T k past (second.frozen j T k (Nat.lt_of_lt_of_le past (first.term j)) found)

theorem Extends.take_lead (ext : Extends s s') {T k : Nat} (bound : k ≤ (s.lead T).length) :
    (s'.lead T).take k = (s.lead T).take k := by
  obtain ⟨rest, split⟩ := ext.lead T
  rw [← split, take_append_of_le_length bound]

theorem State.Lost.mono {T k bound bound' : Nat} (lost : s.Lost T k bound) (ext : Extends s s')
    (within : k ≤ (s.lead T).length) (larger : bound ≤ bound') : s'.Lost T k bound' := by
  obtain ⟨U, c, b, later, inside, won, missing⟩ := lost
  refine ⟨U, c, b, later, inside.trans larger, ext.winner U _ won, ?_⟩
  rw [ext.take_lead within]
  exact missing

end

variable [DecidableEq N] {rules : Rules N E} {s s' : State N E} {log : List E}

theorem Rules.Chained.mono (chained : rules.Chained s log) (ext : Extends s s') : rules.Chained s' log :=
  fun prior e found => (chained prior e found).trans (ext.lead _)

theorem Rules.Committed.mono {T k n : Nat} (committed : rules.Committed s T k n) (ext : Extends s s') :
    rules.Committed s' T k n := by
  obtain ⟨short, bound, last, q, majority, acks⟩ := committed
  refine ⟨short, bound.trans (ext.lead T).length_le, ?_, q, ?_, fun j member => ext.acked j T k (acks j member)⟩
  · rw [ext.take_lead (short.trans bound)]
    exact last
  · rw [ext.take_lead bound]
    exact majority

variable {j : N}

theorem State.Retains.mono {below bound bound' : Nat} (inv : Invariant rules s)
    (retains : s.Retains j log below bound) (ext : Extends s s') (past : below ≤ s.term j)
    (larger : bound ≤ bound') : s'.Retains j log below bound' := by
  intro T k older acked
  have before := ext.frozen j T k (by omega) acked
  have within := (inv.ackBound j T k before).2
  rcases retains T k older before with held | lost
  · exact .inl (by rw [ext.take_lead within]; exact held)
  · exact .inr (lost.mono ext within larger)

variable {b : List E}

theorem Rules.Ballot.mono {T bound : Nat} (inv : Invariant rules s) (ballot : rules.Ballot s j T b bound)
    (ext : Extends s s') (past : T ≤ s.term j) : rules.Ballot s' j T b bound := by
  obtain ⟨log, chained, sorted, fresh, retains⟩ := ballot
  exact ⟨log, chained.mono ext, sorted, fresh, retains.mono inv ext past (Nat.le_refl _)⟩

variable {T : Nat}

theorem Rules.Disciplined.mono {prior : List E} {e : E} (disciplined : rules.Disciplined s T prior e)
    (ext : Extends s s') : rules.Disciplined s' T prior e := by
  obtain ⟨⟨k, n, committed, short, quiet⟩, near⟩ := disciplined
  exact ⟨⟨k, n, committed.mono ext, short, quiet⟩, near⟩

structure Rules.Sound (rules : Rules N E) (s s' : State N E) : Prop where
  extend : Extends s s'
  vote : ∀ j T c, s'.vote j T = some c → s.vote j T = some c ∨
    (T ≤ s'.term j ∧ ∃ b, s'.campaign c T = some b ∧ rules.Ballot s' j T b T)
  campaign : ∀ c T b, s'.campaign c T = some b → s.campaign c T = some b ∨
    (T ≤ s'.term c ∧ 0 < T ∧ rules.Chained s' b ∧ rules.Sorted b ∧ ∀ e ∈ b, rules.termOf e < T)
  ack : ∀ j T k, s'.acked j T k → s.acked j T k ∨
    (T = s'.term j ∧ k ≤ (s'.lead T).length ∧ (s'.lead T).take k <+: s'.log j)
  ackDown : ∀ j T k m, s'.acked j T k → m ≤ k → s'.acked j T m
  log : ∀ j, s'.log j = s.log j ∨ (rules.Chained s' (s'.log j) ∧ rules.Sorted (s'.log j) ∧
    (∀ e ∈ s'.log j, rules.termOf e ≤ s'.term j) ∧
    ∀ T k, s.acked j T k → (s.lead T).take k <+: s'.log j ∨ s'.Lost T k (s'.term j))
  lead : ∀ T, s'.lead T = s.lead T ∨
    (rules.Chained s' (s'.lead T) ∧ rules.Sorted (s'.lead T) ∧ ∀ e ∈ s'.lead T, rules.termOf e ≤ T)
  electedLog : ∀ T c b, s'.winner T = some (c, b) →
    (s.winner T = some (c, b) ∧ s'.lead T = s.lead T) ∨ (s'.campaign c T = some b ∧
      ∃ own, s'.lead T = b ++ own ∧ ∀ e ∈ own, rules.termOf e = T)
  electedVotes : ∀ T c b, s'.winner T = some (c, b) → s.winner T = some (c, b) ∨
    ∃ q, Majority (rules.config b) q ∧ ∀ j ∈ q, s'.vote j T = some c ∧ rules.Ballot s' j T b (T - 1)
  unled : ∀ T, s'.winner T = none → s'.lead T = []
  disciplined : ∀ T prior e, prior ++ [e] <+: s'.lead T → rules.termOf e = T → rules.reconfigures e →
    prior ++ [e] <+: s.lead T ∨ rules.Disciplined s' T prior e

theorem Rules.Sound.preserves (inv : Invariant rules s) (sound : rules.Sound s s') : Invariant rules s' := by
  have ext := sound.extend
  refine ⟨?_, ?_, ?_, sound.ackDown, ?_, ?_, ?_, ?_, ?_, ?_, ?_, ?_, ?_, ?_, sound.unled, ?_, ?_⟩
  · intro j T c found
    rcases sound.vote j T c found with old | new
    · exact (inv.voteBound j T c old).trans (ext.term j)
    · exact new.1
  · intro c T b found
    rcases sound.campaign c T b found with old | new
    · exact (inv.campaignBound c T b old).trans (ext.term c)
    · exact new.1
  · intro j T k found
    rcases sound.ack j T k found with old | ⟨now, bound, _⟩
    · obtain ⟨past, bound⟩ := inv.ackBound j T k old
      exact ⟨past.trans (ext.term j), bound.trans (ext.lead T).length_le⟩
    · exact ⟨now.le, bound⟩
  · intro j
    rcases sound.log j with old | new
    · rw [old]
      exact (inv.logChained j).mono ext
    · exact new.1
  · intro T
    rcases sound.lead T with old | new
    · rw [old]
      exact (inv.leadChained T).mono ext
    · exact new.1
  · intro j
    rcases sound.log j with old | new
    · rw [old]
      exact inv.logSorted j
    · exact new.2.1
  · intro T
    rcases sound.lead T with old | new
    · rw [old]
      exact inv.leadSorted T
    · exact new.2.1
  · intro j e member
    rcases sound.log j with old | new
    · rw [old] at member
      exact (inv.logTerms j e member).trans (ext.term j)
    · exact new.2.2.1 e member
  · intro T e member
    rcases sound.lead T with old | new
    · rw [old] at member
      exact inv.leadTerms T e member
    · exact new.2.2 e member
  · intro c T b found
    rcases sound.campaign c T b found with old | new
    · obtain ⟨positive, chained, rest⟩ := inv.campaignLog c T b old
      exact ⟨positive, chained.mono ext, rest⟩
    · exact new.2
  · intro j T c found
    rcases sound.vote j T c found with old | new
    · obtain ⟨b, campaigning, ballot⟩ := inv.ballots j T c old
      exact ⟨b, ext.campaign c T b campaigning, ballot.mono inv ext (inv.voteBound j T c old)⟩
    · exact new.2
  · intro T c b found
    rcases sound.electedLog T c b found with ⟨old, same⟩ | new
    · obtain ⟨campaigning, split⟩ := inv.electedLog T c b old
      rw [same]
      exact ⟨ext.campaign c T b campaigning, split⟩
    · exact new
  · intro T c b found
    rcases sound.electedVotes T c b found with old | new
    · obtain ⟨q, majority, votes⟩ := inv.electedVotes T c b old
      refine ⟨q, majority, fun j member => ?_⟩
      obtain ⟨voted, ballot⟩ := votes j member
      exact ⟨ext.vote j T c voted, ballot.mono inv ext (inv.voteBound j T c voted)⟩
    · exact new
  · intro j T k older acked
    rcases sound.ack j T k acked with old | ⟨_, _, held⟩
    · have within := (inv.ackBound j T k old).2
      have past := (inv.ackBound j T k old).1
      rw [ext.take_lead within]
      rcases sound.log j with same | new
      · rw [same]
        exact (inv.retained j T k (by omega) old).imp_right (fun lost => lost.mono ext within (ext.term j))
      · exact new.2.2.2 T k old
    · exact .inl held
  · intro T prior e found own change
    rcases sound.disciplined T prior e found own change with old | new
    · exact (inv.disciplined T prior e old own change).mono ext
    · exact new

theorem advance_sound (inv : Invariant rules s) (newer : s.term j < T) :
    rules.Sound s { s with term := Function.update s.term j T } := by
  have grows : ∀ i, s.term i ≤ Function.update s.term j T i := by
    intro i
    by_cases same : i = j
    · subst same
      simp only [Function.update_self]
      omega
    · simp [Function.update_of_ne same]
  exact ⟨⟨grows, fun _ _ _ h => h, fun _ _ _ h => h, fun _ _ h => h, fun _ => prefix_refl _,
    fun _ _ _ h => h, fun _ _ _ _ h => h⟩, fun _ _ _ h => .inl h, fun _ _ _ h => .inl h,
    fun _ _ _ h => .inl h, inv.ackDown, fun _ => .inl rfl, fun _ => .inl rfl, fun _ _ _ h => .inl ⟨h, rfl⟩,
    fun _ _ _ h => .inl h, inv.unled, fun _ _ _ h _ _ => .inl h⟩

theorem Rules.UpToDate.refl (rules : Rules N E) (log : List E) : rules.UpToDate log log :=
  .inr ⟨rfl, Nat.le_refl _⟩

theorem withVote_apply (s : State N E) (j i c : N) (T U : Nat) :
    (s.withVote j T c).vote i U = if i = j ∧ U = T then some c else s.vote i U := by
  by_cases same : i = j
  · subst same
    by_cases term : U = T
    · simp [State.withVote, term]
    · simp [State.withVote, term]
  · simp [State.withVote, same]

theorem campaign_apply (s : State N E) (c i : N) (U : Nat) :
    (s.campaigned c).campaign i U = if i = c ∧ U = s.term c + 1 then some (s.log c) else s.campaign i U := by
  by_cases same : i = c
  · subst same
    by_cases term : U = s.term i + 1
    · simp [State.campaigned, term]
    · simp [State.campaigned, term]
  · simp [State.campaigned, same]

section

variable (inv : Invariant rules s)

include inv

theorem campaign_extends (c : N) : Extends s (s.campaigned c) := by
  refine ⟨?_, ?_, ?_, fun _ _ h => h, fun _ => prefix_refl _, fun _ _ _ h => h, fun _ _ _ _ h => h⟩
  · intro j
    by_cases same : j = c
    · subst same
      simp [State.campaigned]
    · simp [State.campaigned, same]
  · intro j T x found
    have past := inv.voteBound j T x found
    change (s.withVote c (s.term c + 1) c).vote j T = some x
    rw [withVote_apply, if_neg]
    · exact found
    · rintro ⟨rfl, rfl⟩
      omega
  · intro j T b found
    have past := inv.campaignBound j T b found
    rw [campaign_apply, if_neg]
    · exact found
    · rintro ⟨rfl, rfl⟩
      omega

theorem campaign_sound (c : N) : rules.Sound s (s.campaigned c) := by
  have ext := campaign_extends inv c
  have termNow : (s.campaigned c).term c = s.term c + 1 := by simp [State.campaigned]
  refine ⟨ext, ?_, ?_, fun _ _ _ h => .inl h, inv.ackDown, fun _ => .inl rfl, fun _ => .inl rfl,
    fun _ _ _ h => .inl ⟨h, rfl⟩, fun _ _ _ h => .inl h, inv.unled, fun _ _ _ h _ _ => .inl h⟩
  · intro j T x found
    change (s.withVote c (s.term c + 1) c).vote j T = some x at found
    rw [withVote_apply] at found
    split at found
    · rename_i new
      obtain ⟨rfl, rfl⟩ := new
      cases found
      refine .inr ⟨termNow.ge, s.log j, by simp [campaign_apply], s.log j, (inv.logChained j).mono ext,
        inv.logSorted j, Rules.UpToDate.refl _ _, ?_⟩
      intro T k older acked
      exact (inv.retained j T k older acked).imp_right
        (fun lost => lost.mono ext (inv.ackBound j T k acked).2 (Nat.le_succ _))
    · exact .inl found
  · intro j T b found
    rw [campaign_apply] at found
    split at found
    · rename_i new
      obtain ⟨rfl, rfl⟩ := new
      cases found
      refine .inr ⟨termNow.ge, Nat.succ_pos _, (inv.logChained j).mono ext, inv.logSorted j, ?_⟩
      intro e member
      have := inv.logTerms j e member
      omega
    · exact .inl found

theorem grant_sound {j c : N} (free : s.vote j (s.term j) = none ∨ s.vote j (s.term j) = some c)
    (campaigning : s.campaign c (s.term j) = some b) (fresh : rules.UpToDate b (s.log j)) :
    rules.Sound s (s.withVote j (s.term j) c) := by
  have ext : Extends s (s.withVote j (s.term j) c) := by
    refine ⟨fun _ => Nat.le_refl _, ?_, fun _ _ _ h => h, fun _ _ h => h, fun _ => prefix_refl _,
      fun _ _ _ h => h, fun _ _ _ _ h => h⟩
    intro i T x found
    rw [withVote_apply]
    split
    · rename_i here
      obtain ⟨rfl, rfl⟩ := here
      rcases free with none | same
      · rw [none] at found
        cases found
      · rw [← same, found]
    · exact found
  refine ⟨ext, ?_, fun _ _ _ h => .inl h, fun _ _ _ h => .inl h, inv.ackDown, fun _ => .inl rfl,
    fun _ => .inl rfl, fun _ _ _ h => .inl ⟨h, rfl⟩, fun _ _ _ h => .inl h, inv.unled, fun _ _ _ h _ _ => .inl h⟩
  intro i T x found
  rw [withVote_apply] at found
  split at found
  · rename_i here
    obtain ⟨rfl, rfl⟩ := here
    cases found
    refine .inr ⟨Nat.le_refl _, b, campaigning, s.log i, (inv.logChained i).mono ext, inv.logSorted i, fresh, ?_⟩
    intro T k older acked
    exact (inv.retained i T k (by omega) acked).imp_right
      (fun lost => lost.mono ext (inv.ackBound i T k acked).2 (Nat.le_refl _))
  · exact .inl found

theorem win_sound {c : N} {q : Finset N} (campaigning : s.campaign c (s.term c) = some (s.log c))
    (unwon : ∀ b, s.winner (s.term c) ≠ some (c, b)) (majority : Majority (rules.config (s.log c)) q)
    (votes : ∀ j ∈ q, s.vote j (s.term c) = some c) : rules.Sound s (s.won c) := by
  have vacant : s.winner (s.term c) = none := by
    cases won : s.winner (s.term c) with
    | none => rfl
    | some pair =>
      obtain ⟨c', b'⟩ := pair
      have same := inv.winner_unique won campaigning majority votes
      subst same
      exact absurd won (unwon b')
  obtain ⟨positive, chained, sorted, terms⟩ := inv.campaignLog c _ _ campaigning
  have winnerNow : ∀ T, (s.won c).winner T = if T = s.term c then some (c, s.log c) else s.winner T := by
    intro T
    simp [State.won, Function.update_apply]
  have leadNow : ∀ T, (s.won c).lead T = if T = s.term c then s.log c else s.lead T := by
    intro T
    simp [State.won, Function.update_apply]
  have ext : Extends s (s.won c) := by
    refine ⟨fun _ => Nat.le_refl _, fun _ _ _ h => h, fun _ _ _ h => h, ?_, ?_, fun _ _ _ h => .inl h, ?_⟩
    · intro T pair won
      rw [winnerNow, if_neg]
      · exact won
      · rintro rfl
        rw [vacant] at won
        cases won
    · intro T
      rw [leadNow]
      split
      · rename_i here
        rw [here, inv.unled _ vacant]
        exact nil_prefix
      · exact prefix_refl _
    · rintro j T k past (old | ⟨rfl, rfl, _⟩)
      · exact old
      · omega
  refine ⟨ext, fun _ _ _ h => .inl h, fun _ _ _ h => .inl h, ?_, ?_, fun _ => .inl rfl, ?_, ?_, ?_, ?_, ?_⟩
  · rintro j T k (old | ⟨rfl, rfl, short⟩)
    · exact .inl old
    · refine .inr ⟨rfl, ?_, ?_⟩
      · rw [leadNow, if_pos rfl]
        exact short
      · rw [leadNow, if_pos rfl]
        exact take_prefix k _
  · rintro j T k m (old | ⟨rfl, rfl, short⟩) less
    · exact .inl (inv.ackDown j T k m old less)
    · exact .inr ⟨rfl, rfl, less.trans short⟩
  · intro T
    rw [leadNow]
    split
    · rename_i here
      refine .inr ⟨chained.mono ext, sorted, ?_⟩
      intro e member
      have := terms e member
      omega
    · exact .inl rfl
  · intro T c' b found
    rw [winnerNow] at found
    split at found
    · rename_i here
      cases found
      refine .inr ⟨here ▸ campaigning, [], ?_, by simp⟩
      rw [leadNow, if_pos here, append_nil]
    · rename_i other
      exact .inl ⟨found, by rw [leadNow, if_neg other]⟩
  · intro T c' b found
    rw [winnerNow] at found
    split at found
    · rename_i here
      cases found
      subst here
      refine .inr ⟨q, majority, fun j member => ⟨votes j member, ?_⟩⟩
      obtain ⟨b, camp, log, chainedLog, sortedLog, fresh, retains⟩ := inv.ballots j _ c (votes j member)
      rw [campaigning] at camp
      cases camp
      refine Rules.Ballot.mono inv ⟨log, chainedLog, sortedLog, fresh, ?_⟩ ext
        (inv.voteBound j _ c (votes j member))
      -- No leader of this term existed when the votes were cast.
      intro T k older acked
      refine (retains T k older acked).imp_right ?_
      rintro ⟨U, x, b', later, within, won, missing⟩
      refine ⟨U, x, b', later, ?_, won, missing⟩
      have : U ≠ s.term c := by
        rintro rfl
        rw [vacant] at won
        cases won
      omega
    · exact .inl found
  · intro T none
    rw [winnerNow] at none
    split at none
    · cases none
    · rename_i other
      rw [leadNow, if_neg other]
      exact inv.unled T none
  · intro T prior e found own _
    rw [leadNow] at found
    split at found
    · rename_i here
      have := terms e (found.subset (by simp))
      omega
    · exact .inl found

theorem append_sound {c : N} {e : E} (leading : s.winner (s.term c) = some (c, b))
    (current : s.log c = s.lead (s.term c)) (own : rules.termOf e = s.term c)
    (disciplined : rules.reconfigures e → rules.Disciplined s (s.term c) (s.lead (s.term c)) e) :
    rules.Sound s (s.appended c e) := by
  have leadNow : ∀ T, (s.appended c e).lead T =
      if T = s.term c then s.lead (s.term c) ++ [e] else s.lead T := by
    intro T
    simp [State.appended, Function.update_apply]
  have logNow : ∀ j, (s.appended c e).log j = if j = c then s.lead (s.term c) ++ [e] else s.log j := by
    intro j
    simp [State.appended, Function.update_apply]
  have ext : Extends s (s.appended c e) := by
    refine ⟨fun _ => Nat.le_refl _, fun _ _ _ h => h, fun _ _ _ h => h, fun _ _ h => h, ?_,
      fun _ _ _ h => .inl h, ?_⟩
    · intro T
      rw [leadNow]
      split
      · rename_i here
        rw [here]
        exact prefix_append _ _
      · exact prefix_refl _
    · rintro j T k past (old | ⟨rfl, rfl, _⟩)
      · exact old
      · omega
  have chained : rules.Chained (s.appended c e) (s.lead (s.term c) ++ [e]) := by
    intro prior x found
    rcases prefix_concat_iff.mp found with equal | inside
    · have same : x = e := singleton_inj.mp (append_inj' equal rfl).2
      rw [equal, same, own, leadNow, if_pos rfl]
    · exact ((inv.leadChained _).mono ext) prior x inside
  have terms : ∀ x ∈ s.lead (s.term c) ++ [e], rules.termOf x ≤ s.term c := by
    intro x member
    rcases mem_append.mp member with old | new
    · exact inv.leadTerms _ x old
    · rw [mem_singleton.mp new, own]
  have sorted : rules.Sorted (s.lead (s.term c) ++ [e]) := by
    refine pairwise_append.mpr ⟨inv.leadSorted _, pairwise_singleton _ _, ?_⟩
    intro x member y last
    rw [mem_singleton.mp last, own]
    exact inv.leadTerms _ x member
  refine ⟨ext, fun _ _ _ h => .inl h, fun _ _ _ h => .inl h, ?_, ?_, ?_, ?_, ?_, fun _ _ _ h => .inl h, ?_, ?_⟩
  · rintro j T k (old | ⟨rfl, rfl, short⟩)
    · exact .inl old
    · refine .inr ⟨rfl, ?_, ?_⟩
      · rw [leadNow, if_pos rfl]
        simpa using short
      · rw [leadNow, logNow, if_pos rfl, if_pos rfl]
        exact take_prefix k _
  · rintro j T k m (old | ⟨rfl, rfl, short⟩) less
    · exact .inl (inv.ackDown j T k m old less)
    · exact .inr ⟨rfl, rfl, less.trans short⟩
  · intro j
    rw [logNow]
    split
    · rename_i here
      subst here
      refine .inr ⟨chained, sorted, terms, ?_⟩
      intro T k acked
      rcases inv.retained j T k (by have := (inv.ackBound j T k acked).1; omega) acked with held | lost
      · exact .inl ((current ▸ held).trans (prefix_append _ _))
      · exact .inr (lost.mono ext (inv.ackBound j T k acked).2 (Nat.le_refl _))
    · exact .inl rfl
  · intro T
    rw [leadNow]
    split
    · rename_i here
      exact .inr ⟨chained, sorted, here ▸ terms⟩
    · exact .inl rfl
  · intro T c' b' found
    by_cases here : T = s.term c
    · subst here
      obtain ⟨campaigning, mine, split, owned⟩ := inv.electedLog _ c' b' found
      refine .inr ⟨campaigning, mine ++ [e], ?_, ?_⟩
      · rw [leadNow, if_pos rfl, split, append_assoc]
      · intro x member
        rcases mem_append.mp member with old | new
        · exact owned x old
        · rw [mem_singleton.mp new, own]
    · exact .inl ⟨found, by rw [leadNow, if_neg here]⟩
  · intro T none
    by_cases here : T = s.term c
    · subst here
      change s.winner (s.term c) = Option.none at none
      rw [leading] at none
      cases none
    · rw [leadNow, if_neg here]
      exact inv.unled T none
  · intro T prior x found ownTerm change
    rw [leadNow] at found
    split at found
    · rename_i here
      subst here
      rcases prefix_concat_iff.mp found with equal | inside
      · obtain ⟨rfl, last⟩ := append_inj' equal rfl
        have same : x = e := singleton_inj.mp last
        subst same
        exact .inr ((disciplined change).mono ext)
      · exact .inl inside
    · exact .inl found

theorem accept_sound {j c : N} {k : Nat}
    (leading : s.winner (s.term j) = some (c, b)) (bound : k ≤ (s.lead (s.term j)).length)
    (adopted : ((s.lead (s.term j)).take k <+: s.log j ∧ log = s.log j) ∨
      (¬ (s.lead (s.term j)).take k <+: s.log j ∧ log = (s.lead (s.term j)).take k)) :
    rules.Sound s (s.accepted j k log) := by
  have logNow : ∀ i, (s.accepted j k log).log i = if i = j then log else s.log i := by
    intro i
    simp [State.accepted, Function.update_apply]
  have ext : Extends s (s.accepted j k log) := by
    refine ⟨fun _ => Nat.le_refl _, fun _ _ _ h => h, fun _ _ _ h => h, fun _ _ h => h,
      fun _ => prefix_refl _, fun _ _ _ h => .inl h, ?_⟩
    rintro i T m past (old | ⟨rfl, rfl, _⟩)
    · exact old
    · omega
  have holds : (s.lead (s.term j)).take k <+: log := by
    rcases adopted with ⟨held, rfl⟩ | ⟨_, rfl⟩
    · exact held
    · exact prefix_refl _
  refine ⟨ext, fun _ _ _ h => .inl h, fun _ _ _ h => .inl h, ?_, ?_, ?_, fun _ => .inl rfl,
    fun _ _ _ h => .inl ⟨h, rfl⟩, fun _ _ _ h => .inl h, inv.unled, fun _ _ _ h _ _ => .inl h⟩
  · rintro i T m (old | ⟨rfl, rfl, short⟩)
    · exact .inl old
    · refine .inr ⟨rfl, short.trans bound, ?_⟩
      rw [logNow, if_pos rfl]
      refine List.IsPrefix.trans ?_ holds
      exact prefix_of_prefix_length_le ( take_prefix m _) ( take_prefix k _)
        (by rw [length_take, length_take]; omega)
  · rintro i T k' m (old | ⟨rfl, rfl, short⟩) less
    · exact .inl (inv.ackDown i T k' m old less)
    · exact .inr ⟨rfl, rfl, less.trans short⟩
  · intro i
    rw [logNow]
    split
    · rename_i here
      subst here
      rcases adopted with ⟨_, rfl⟩ | ⟨diverged, rfl⟩
      · exact .inl rfl
      · refine .inr ⟨((inv.leadChained _).of_part ( take_prefix k _)).mono ext,
          (inv.leadSorted _).of_part ( take_prefix k _), ?_, ?_⟩
        · exact fun e member => inv.leadTerms _ e (( take_prefix k _).subset member)
        · intro T m acked
          obtain ⟨past, within⟩ := inv.ackBound i T m acked
          rcases inv.retained i T m (by omega) acked with held | lost
          · -- The kept prefix and the adopted one both lie in the leader's log, unless it was lost.
            have inLead : (s.lead T).take m <+: s.lead (s.term i) ∨ s.Lost T m (s.term i) := by
              rcases Nat.lt_or_eq_of_le past with older | rfl
              · by_cases kept : (s.lead T).take m <+: b
                · exact .inl (kept.trans (inv.base_part leading))
                · exact .inr ⟨_, c, b, older, Nat.le_refl _, leading, kept⟩
              · exact .inl ( take_prefix m _)
            rcases inLead with inside | lost
            · rcases prefix_or_prefix_of_prefix inside ( take_prefix k _) with short | long
              · exact .inl short
              · exact absurd (long.trans held) diverged
            · exact .inr (lost.mono ext within (Nat.le_refl _))
          · exact .inr (lost.mono ext within (Nat.le_refl _))
    · exact .inl rfl

end

theorem Invariant.initial (rules : Rules N E) : Invariant rules (State.initial : State N E) := by
  have chained : rules.Chained (State.initial : State N E) [] := by
    intro prior e found
    simp at found
  constructor <;> intros <;> simp_all [State.initial, Rules.Sorted, State.Retains]

end Arcux.Consensus
