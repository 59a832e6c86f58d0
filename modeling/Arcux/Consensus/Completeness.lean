import Arcux.Consensus.Protocol

namespace Arcux.Consensus

open List

variable {N E : Type} [DecidableEq N] {rules : Rules N E} {s : State N E}

theorem Rules.lastTerm_concat (rules : Rules N E) (prior : List E) (e : E) :
    rules.lastTerm (prior ++ [e]) = rules.termOf e := by
  simp [Rules.lastTerm]

variable {log part : List E}

theorem Rules.Sorted.of_part (sorted : rules.Sorted log) (sub : part <+: log) : rules.Sorted part :=
  List.Pairwise.sublist sub.sublist sorted

theorem Rules.Chained.of_part (chained : rules.Chained s log) (sub : part <+: log) : rules.Chained s part :=
  fun prior e found => chained prior e (found.trans sub)

theorem Rules.Sorted.le_last {prior : List E} {e x : E} (sorted : rules.Sorted (prior ++ [e]))
    (member : x ∈ prior ++ [e]) : rules.termOf x ≤ rules.termOf e := by
  rcases mem_append.mp member with earlier | last
  · exact (pairwise_append.mp sorted).2.2 x earlier e (by simp)
  · rw [mem_singleton.mp last]

theorem Rules.Sorted.le_lastTerm {log : List E} {x : E} (sorted : rules.Sorted log) (member : x ∈ log) :
    rules.termOf x ≤ rules.lastTerm log := by
  rcases eq_nil_or_concat' log with rfl | ⟨prior, e, rfl⟩
  · cases member
  · rw [rules.lastTerm_concat]
    exact sorted.le_last member

theorem Rules.config_unchanged (rules : Rules N E) (log rest : List E) (quiet : ∀ x ∈ rest, ¬ rules.reconfigures x) :
    rules.config (log ++ rest) = rules.config log := by
  induction rest using reverseRecOn with
  | nil => simp
  | append_singleton rest e ih =>
    rw [← append_assoc, rules.config_append _ e (quiet e (by simp))]
    exact ih (fun x member => quiet x (by simp [member]))

theorem Rules.last_reconfiguration (rules : Rules N E) (log : List E) :
    (∀ x ∈ log, ¬ rules.reconfigures x) ∨
      ∃ prior e rest, log = prior ++ [e] ++ rest ∧ rules.reconfigures e ∧
        ∀ x ∈ rest, ¬ rules.reconfigures x := by
  induction log using reverseRecOn with
  | nil => exact .inl (by simp)
  | append_singleton log e ih =>
    by_cases change : rules.reconfigures e
    · exact .inr ⟨log, e, [], by simp, change, by simp⟩
    · rcases ih with quiet | ⟨prior, x, rest, rfl, changed, quiet⟩
      · refine .inl ?_
        intro x member
        rcases mem_append.mp member with earlier | last
        · exact quiet x earlier
        · rw [mem_singleton.mp last]
          exact change
      · refine .inr ⟨prior, x, rest ++ [e], by simp, changed, ?_⟩
        intro y member
        rcases mem_append.mp member with earlier | last
        · exact quiet y earlier
        · rw [mem_singleton.mp last]
          exact change

variable {T : Nat} {e : E}

theorem Invariant.winner_of_entry (inv : Invariant rules s) {part : List E}
    (found : part ++ [e] <+: s.lead T) : ∃ c b, s.winner T = some (c, b) := by
  cases won : s.winner T with
  | some pair => exact ⟨pair.1, pair.2, rfl⟩
  | none =>
    rw [inv.unled T won] at found
    have := found.length_le
    simp at this

theorem Rules.Committed.winner {T k n : Nat} (inv : Invariant rules s) (committed : rules.Committed s T k n) :
    ∃ c b, s.winner T = some (c, b) := by
  obtain ⟨prior, e, last, _⟩ := committed.2.2.1
  exact inv.winner_of_entry (last ▸ take_prefix k (s.lead T))

variable {b : List E} {c : N}

theorem Invariant.base_part (inv : Invariant rules s) (won : s.winner T = some (c, b)) : b <+: s.lead T := by
  obtain ⟨_, own, split, _⟩ := inv.electedLog T c b won
  exact ⟨own, split.symm⟩

theorem Invariant.base_before_own (inv : Invariant rules s) {b prior : List E} (won : s.winner T = some (c, b))
    (found : prior ++ [e] <+: s.lead T) (own : rules.termOf e = T) : b <+: prior := by
  rcases prefix_or_prefix_of_prefix (inv.base_part won) found with short | long
  · rcases prefix_concat_iff.mp short with equal | inside
    · have older := (inv.campaignLog _ _ _ (inv.electedLog T c b won).1).2.2.2 e (by simp [equal])
      omega
    · exact inside
  · have older := (inv.campaignLog _ _ _ (inv.electedLog T c b won).1).2.2.2 e (long.subset (by simp))
    omega

/-- A log that could win term `T`: a majority voted for it, and every leader up to `bound` holds what
was committed before its term. -/
structure Rules.Contender (rules : Rules N E) (s : State N E) (T : Nat) (b : List E) (bound : Nat) : Prop where
  chained : rules.Chained s b
  sorted : rules.Sorted b
  terms : ∀ e ∈ b, rules.termOf e < T
  backed : rules.Backed s T b bound
  reach : T ≤ bound + 1
  earlier : ∀ T' c b', T' ≤ bound → s.winner T' = some (c, b') → rules.Complete s T' b'

theorem Rules.Contender.holds_of_lt {T bound T' k n : Nat} (inv : Invariant rules s)
    (contender : rules.Contender s T b bound) (committed : rules.Committed s T' k n)
    (newer : T' < rules.lastTerm b) : (s.lead T').take k <+: b := by
  rcases eq_nil_or_concat' b with rfl | ⟨prior, e, rfl⟩
  · simp [Rules.lastTerm] at newer
  · rw [rules.lastTerm_concat] at newer
    have found := contender.chained prior e (prefix_refl _)
    have below := contender.terms e (by simp)
    obtain ⟨c, b', won⟩ := inv.winner_of_entry found
    have complete := contender.earlier _ c b' (by have := contender.reach; omega) won T' k n newer committed
    rcases prefix_or_prefix_of_prefix (complete.trans (inv.base_part won)) found with short | long
    · exact short
    · obtain ⟨start, x, last, own⟩ := committed.2.2.1
      have member : e ∈ start ++ [x] := last ▸ long.subset (by simp)
      have sorted : rules.Sorted (start ++ [x]) :=
        last ▸ (inv.leadSorted T').of_part ( take_prefix k _)
      have older := sorted.le_last member
      omega

theorem Rules.Contender.holds_of_overlap {T bound T' k n : Nat} (inv : Invariant rules s)
    (contender : rules.Contender s T b bound) (committed : rules.Committed s T' k n) (newer : T' < T)
    (overlap : Overlap (rules.config b) (rules.config ((s.lead T').take n))) : (s.lead T').take k <+: b := by
  obtain ⟨voters, majority, ballots⟩ := contender.backed
  obtain ⟨ackers, ackMajority, acks⟩ := committed.2.2.2
  obtain ⟨j, voted, ackd⟩ := overlap voters ackers majority ackMajority
  obtain ⟨log, chained, sorted, fresh, retains⟩ := ballots j voted
  have held : (s.lead T').take k <+: log := by
    rcases retains T' k newer (acks j ackd) with held | ⟨U, c, b', later, within, won, missing⟩
    · exact held
    · exact absurd (contender.earlier U c b' within won T' k n later committed) missing
  obtain ⟨start, x, last, own⟩ := committed.2.2.1
  have reaches : T' ≤ rules.lastTerm log := by
    rw [← own]
    exact sorted.le_lastTerm (held.subset (by simp [last]))
  rcases fresh with newerTerm | ⟨sameTerm, longer⟩
  · exact contender.holds_of_lt inv committed (by omega)
  · have logLong := held.length_le
    rw [last] at logLong
    rcases eq_nil_or_concat' log with rfl | ⟨priorL, l, rfl⟩
    · simp at logLong
    rcases eq_nil_or_concat' b with rfl | ⟨priorB, e, rfl⟩
    · simp at longer
    rw [rules.lastTerm_concat, rules.lastTerm_concat] at sameTerm
    have inLead := contender.chained priorB e (prefix_refl _)
    have logInLead := chained priorL l (prefix_refl _)
    rw [sameTerm] at logInLead
    exact held.trans (prefix_of_prefix_length_le logInLead inLead longer)

def Rules.Vouched (rules : Rules N E) (s : State N E) (b m : List E) : Prop :=
  ∀ prior e k n, prior ++ [e] <+: b → rules.reconfigures e →
    rules.Committed s (rules.termOf e) k n → n ≤ prior.length → (s.lead (rules.termOf e)).take k <+: m

section

variable (inv : Invariant rules s)

include inv

theorem Rules.Vouched.last_change {b m prior : List E} (vouched : rules.Vouched s m b)
    (chained : rules.Chained s m) (found : prior ++ [e] <+: m) (change : rules.reconfigures e) :
    ∃ k, prior.take k <+: b ∧ (s.lead (rules.termOf e)).take k <+: prior ∧
      (∃ start x, prior.take k = start ++ [x] ∧ rules.termOf x = rules.termOf e) ∧
      (∀ x ∈ prior.drop k, ¬ rules.reconfigures x) ∧ Near (rules.config prior) (rules.config (prior ++ [e])) := by
  have inLead := chained prior e found
  obtain ⟨⟨k, n, committed, short, quiet⟩, near⟩ := inv.disciplined _ prior e inLead rfl change
  have priorLead : prior <+: s.lead (rules.termOf e) := (prefix_append _ _).trans inLead
  have kBound : k ≤ prior.length := committed.1.trans short
  have same : (s.lead (rules.termOf e)).take k = prior.take k := by
    obtain ⟨rest, split⟩ := priorLead
    rw [← split, take_append_of_le_length kBound]
  refine ⟨k, ?_, ?_, ?_, quiet, near⟩
  · rw [← same]
    exact vouched prior e k n found change committed short
  · rw [same]
    exact take_prefix k prior
  · rw [← same]
    exact committed.2.2.1

theorem Rules.Vouched.overlap_of_shared {b m px rx py ry : List E} {x y : E}
    (vouched : rules.Vouched s m b) (chained : rules.Chained s m)
    (splitB : b = px ++ [x] ++ rx) (changeX : rules.reconfigures x) (quietX : ∀ z ∈ rx, ¬ rules.reconfigures z)
    (splitM : m = py ++ [y] ++ ry) (changeY : rules.reconfigures y) (quietY : ∀ z ∈ ry, ¬ rules.reconfigures z)
    (shared : px ++ [x] <+: m) : Overlap (rules.config b) (rules.config m) := by
  have configB : rules.config b = rules.config (px ++ [x]) := by
    rw [splitB, rules.config_unchanged _ rx quietX]
  have configM : rules.config m = rules.config (py ++ [y]) := by
    rw [splitM, rules.config_unchanged _ ry quietY]
  have lastM : py ++ [y] <+: m := ⟨ry, splitM.symm⟩
  have within : px ++ [x] <+: py ++ [y] := by
    rcases prefix_or_prefix_of_prefix shared lastM with short | ⟨extra, long⟩
    · exact short
    · rcases eq_nil_or_concat' extra with rfl | ⟨extra', z, rfl⟩
      · rw [append_nil] at long
        rw [long]
      · rw [← append_assoc] at long
        have ends : z = x := singleton_inj.mp (append_inj' long rfl).2
        obtain ⟨tail, split⟩ := shared
        have rest : extra' ++ [z] ++ tail = ry := by
          rw [splitM, ← long] at split
          rw [← append_right_inj (py ++ [y])]
          simpa using split
        exact absurd changeX (quietY x (by rw [← rest, ends]; simp))
  rcases prefix_concat_iff.mp within with equal | inside
  · rw [configB, configM, equal]
    exact Overlap.refl _
  · obtain ⟨k, held, _, _, quiet, near⟩ := vouched.last_change inv chained lastM changeY
    have early : px.length < k := by
      by_contra late
      obtain ⟨rest, split⟩ := inside
      apply quiet x _ changeX
      rw [← split, append_assoc, drop_append]
      simp [Nat.sub_eq_zero_of_le (Nat.le_of_not_lt late)]
    have covered : px ++ [x] <+: py.take k := by
      apply prefix_of_prefix_length_le inside ( take_prefix k py)
      have := inside.length_le
      simp at this ⊢
      omega
    have priorConfig : rules.config py = rules.config (px ++ [x]) := by
      obtain ⟨mid, split⟩ := covered
      have quietMid : ∀ z ∈ mid, ¬ rules.reconfigures z := by
        rw [← split, splitB] at held
        have : mid <+: rx := (prefix_append_right_inj _).mp held
        exact fun z member => quietX z (this.subset member)
      rw [← take_append_drop k py, rules.config_unchanged _ _ quiet, ← split,
        rules.config_unchanged _ _ quietMid]
    rw [configB, configM, ← priorConfig]
    exact near.overlap

theorem Rules.Vouched.overlap_of_quiet {b m : List E} (vouched : rules.Vouched s m b) (chained : rules.Chained s m)
    (quiet : ∀ x ∈ b, ¬ rules.reconfigures x) : Overlap (rules.config b) (rules.config m) := by
  have configB : rules.config b = rules.config [] := by
    have := rules.config_unchanged [] b quiet
    simpa using this
  rcases rules.last_reconfiguration m with quietM | ⟨py, y, ry, splitM, changeY, quietY⟩
  · have configM := rules.config_unchanged [] m quietM
    rw [nil_append] at configM
    rw [configB, configM]
    exact Overlap.refl _
  · obtain ⟨k, held, _, _, quietPrior, near⟩ :=
      vouched.last_change inv chained ⟨ry, splitM.symm⟩ changeY
    have quietAll : ∀ x ∈ py, ¬ rules.reconfigures x := by
      intro x member
      rw [← take_append_drop k py] at member
      rcases mem_append.mp member with early | late
      · exact quiet x (held.subset early)
      · exact quietPrior x late
    have configPy := rules.config_unchanged [] py quietAll
    rw [nil_append] at configPy
    rw [splitM, rules.config_unchanged _ _ quietY, configB, ← configPy]
    exact near.overlap

/-- Two logs that each hold what was committed before the other's configuration changes have
overlapping configurations. -/
theorem Rules.Vouched.overlap {b m : List E} (vouchedB : rules.Vouched s b m) (vouchedM : rules.Vouched s m b)
    (chainedB : rules.Chained s b) (chainedM : rules.Chained s m) (sortedB : rules.Sorted b)
    (sortedM : rules.Sorted m) : Overlap (rules.config b) (rules.config m) := by
  rcases rules.last_reconfiguration b with quietB | ⟨px, x, rx, splitB, changeX, quietX⟩
  · exact vouchedM.overlap_of_quiet inv chainedM quietB
  rcases rules.last_reconfiguration m with quietM | ⟨py, y, ry, splitM, changeY, quietY⟩
  · exact (vouchedB.overlap_of_quiet inv chainedB quietM).symm
  have lastB : px ++ [x] <+: b := ⟨rx, splitB.symm⟩
  have lastM : py ++ [y] <+: m := ⟨ry, splitM.symm⟩
  by_cases sharedX : px ++ [x] <+: m
  · exact vouchedM.overlap_of_shared inv chainedM splitB changeX quietX splitM changeY quietY sharedX
  by_cases sharedY : py ++ [y] <+: b
  · exact (vouchedB.overlap_of_shared inv chainedB splitM changeY quietY splitB changeX quietX sharedY).symm
  -- Neither log holds the other's last change, so one of the two terms committed past the other's change.
  exfalso
  obtain ⟨kx, heldX, _, ⟨startX, lx, lastX, ownX⟩, _⟩ := vouchedB.last_change inv chainedB lastB changeX
  obtain ⟨ky, heldY, _, ⟨startY, ly, lastY, ownY⟩, _⟩ := vouchedM.last_change inv chainedM lastM changeY
  rcases Nat.lt_trichotomy (rules.termOf x) (rules.termOf y) with older | same | newer
  · rcases prefix_or_prefix_of_prefix lastB heldY with short | long
    · exact sharedX (short.trans (( take_prefix ky py).trans ((prefix_append _ _).trans lastM)))
    · have bound := (sortedB.of_part lastB).le_last (long.subset (by rw [lastY]; simp : ly ∈ py.take ky))
      omega
  · have inX := chainedB px x lastB
    have inY := chainedM py y lastM
    rw [← same] at inY
    rcases prefix_or_prefix_of_prefix inX inY with short | long
    · exact sharedX (short.trans lastM)
    · exact sharedY (long.trans lastB)
  · rcases prefix_or_prefix_of_prefix lastM heldX with short | long
    · exact sharedY (short.trans (( take_prefix kx px).trans ((prefix_append _ _).trans lastB)))
    · have bound := (sortedM.of_part lastM).le_last (long.subset (by rw [lastX]; simp : lx ∈ px.take kx))
      omega

theorem Rules.Contender.holds_same_term {T bound k n : Nat}
    (contender : rules.Contender s T b bound) (nonempty : b ≠ [])
    (committed : rules.Committed s (rules.lastTerm b) k n) : (s.lead (rules.lastTerm b)).take k <+: b := by
  induction n using Nat.strong_induction_on generalizing k with
  | _ n ih =>
    obtain ⟨priorB, last, splitB⟩ := (eq_nil_or_concat' b).resolve_left nonempty
    have lastTerm : rules.lastTerm b = rules.termOf last := by rw [splitB, rules.lastTerm_concat]
    have inLead : b <+: s.lead (rules.lastTerm b) := by
      rw [lastTerm]
      exact splitB ▸ contender.chained priorB last (splitB ▸ prefix_refl _)
    have newer : rules.lastTerm b < T := by
      rw [lastTerm]
      exact contender.terms last (by simp [splitB])
    rcases Nat.lt_or_ge n b.length with shorter | longer
    · apply prefix_of_prefix_length_le ( take_prefix k _) inLead
      have := committed.1
      rw [length_take]
      omega
    have within : b <+: (s.lead (rules.lastTerm b)).take n := by
      apply prefix_of_prefix_length_le inLead ( take_prefix n _)
      have := committed.2.1
      rw [length_take]
      omega
    obtain ⟨rest, split⟩ := within
    rcases rules.last_reconfiguration rest with quiet | ⟨p, e, r, splitRest, change, quiet⟩
    · apply contender.holds_of_overlap inv committed newer
      rw [← split, rules.config_unchanged _ _ quiet]
      exact Overlap.refl _
    · have found : b ++ p ++ [e] <+: s.lead (rules.lastTerm b) := by
        refine List.IsPrefix.trans ⟨r, ?_⟩ ( take_prefix n _)
        rw [← split, splitRest]
        simp
      have own : rules.termOf e = rules.lastTerm b := by
        have upper := inv.leadTerms _ e (found.subset (by simp))
        have lower := ((inv.leadSorted _).of_part found).le_last
          (by simp [splitB] : last ∈ b ++ p ++ [e])
        omega
      obtain ⟨⟨k', n', committed', short, quietPrior⟩, near⟩ :=
        inv.disciplined _ (b ++ p) e found own change
      have smaller : n' < n := by
        have := congrArg length split
        rw [splitRest] at this
        simp only [length_append, length_take, length_singleton] at this short
        omega
      have early := (ih n' smaller committed').length_le
      have kBound : k' ≤ b.length := by
        rw [length_take, Nat.min_eq_left (committed'.1.trans committed'.2.1)] at early
        exact early
      have quietP : ∀ x ∈ p, ¬ rules.reconfigures x := by
        intro x member
        apply quietPrior x
        rw [drop_append_of_le_length kBound]
        exact mem_append_right _ member
      apply contender.holds_of_overlap inv committed newer
      have config : rules.config ((s.lead (rules.lastTerm b)).take n) = rules.config (b ++ p ++ [e]) := by
        rw [← split, splitRest, ← rules.config_unchanged (b ++ p ++ [e]) r quiet]
        simp
      rw [config, ← rules.config_unchanged b p quietP]
      exact near.overlap

/-- A log that could win its term holds everything committed in lower terms. -/
theorem Rules.Contender.complete {T bound : Nat}
    (contender : rules.Contender s T b bound) : rules.Complete s T b := by
  intro T'
  induction T' using Nat.strong_induction_on with
  | _ T' ihT =>
    intro k n
    induction n using Nat.strong_induction_on generalizing k with
    | _ n ihN =>
      intro newer committed
      rcases Nat.lt_trichotomy T' (rules.lastTerm b) with older | same | ahead
      · exact contender.holds_of_lt inv committed older
      · have nonempty : b ≠ [] := by
          rintro rfl
          obtain ⟨c, b', won⟩ := committed.winner inv
          have positive := (inv.campaignLog _ _ _ (inv.electedLog T' c b' won).1).1
          simp only [Rules.lastTerm, getLast?_nil, Option.map_none, Option.getD_none] at same
          omega
        subst same
        exact contender.holds_same_term inv nonempty committed
      · obtain ⟨c, base, won⟩ := committed.winner inv
        have complete := contender.earlier T' c base (by have := contender.reach; omega) won
        obtain ⟨start, x, last, own⟩ := committed.2.2.1
        have upTo : (s.lead T').take k <+: (s.lead T').take n :=
          prefix_of_prefix_length_le ( take_prefix k _) ( take_prefix n _)
            (by rw [length_take, length_take]; have := committed.1; omega)
        rw [last] at upTo
        have baseIn : base <+: (s.lead T').take n :=
          (inv.base_before_own won (upTo.trans ( take_prefix n _)) own).trans
            ((prefix_append _ _).trans upTo)
        apply contender.holds_of_overlap inv committed newer
        -- Both logs hold what was committed before the other's changes: one by completeness of the
        -- leader of `T'`, the other by the induction hypotheses.
        refine Rules.Vouched.overlap inv ?_ ?_ contender.chained
          ((inv.leadChained T').of_part ( take_prefix n _)) contender.sorted
          ((inv.leadSorted T').of_part ( take_prefix n _))
        · intro prior e k' n' found change committed' _
          have older := contender.sorted.le_lastTerm (found.subset (by simp : e ∈ prior ++ [e]))
          exact (complete _ k' n' (by omega) committed').trans baseIn
        · intro prior e k' n' found change committed' short
          have inTerm := inv.leadTerms T' e ((found.trans ( take_prefix n _)).subset (by simp))
          rcases Nat.lt_or_eq_of_le inTerm with older | same
          · exact ihT _ older k' n' (by omega) committed'
          · have shorter := found.length_le
            rw [length_append, length_take, length_singleton] at shorter
            rw [same] at committed' ⊢
            exact ihN n' (by omega) k' newer committed'

theorem Invariant.contender (won : s.winner T = some (c, b))
    (earlier : ∀ T' c b', T' ≤ T - 1 → s.winner T' = some (c, b') → rules.Complete s T' b') :
    rules.Contender s T b (T - 1) := by
  obtain ⟨positive, chained, sorted, terms⟩ := inv.campaignLog _ _ _ (inv.electedLog T c b won).1
  obtain ⟨q, majority, ballots⟩ := inv.electedVotes T c b won
  exact ⟨chained, sorted, terms, ⟨q, majority, fun j member => (ballots j member).2⟩, by omega, earlier⟩

/-- Leader completeness: the log a leader was elected with holds everything committed before. -/
theorem Invariant.complete (won : s.winner T = some (c, b)) : rules.Complete s T b := by
  induction T using Nat.strong_induction_on generalizing c b with
  | _ T ih =>
    have positive := (inv.campaignLog _ _ _ (inv.electedLog T c b won).1).1
    exact (inv.contender won (fun T' c b' below won' => ih T' (by omega) won')).complete inv

/-- Election safety: a candidate with a majority of the votes of a term is the winner of the term. -/
theorem Invariant.winner_unique {c c' : N} {b b' : List E} {q : Finset N}
    (won : s.winner T = some (c, b)) (campaigning : s.campaign c' T = some b')
    (majority : Majority (rules.config b') q) (votes : ∀ j ∈ q, s.vote j T = some c') : c' = c := by
  obtain ⟨positive, chained, sorted, terms⟩ := inv.campaignLog _ _ _ (inv.electedLog T c b won).1
  obtain ⟨_, chained', sorted', terms'⟩ := inv.campaignLog _ _ _ campaigning
  have backed : rules.Backed s T b' T := by
    refine ⟨q, majority, ?_⟩
    intro j member
    obtain ⟨b'', camp, ballot⟩ := inv.ballots j T c' (votes j member)
    rw [campaigning] at camp
    cases camp
    exact ballot
  have rival : rules.Contender s T b' T :=
    ⟨chained', sorted', terms', backed, by omega, fun T' c b'' _ won' => inv.complete won'⟩
  have overlap : Overlap (rules.config b) (rules.config b') := by
    refine Rules.Vouched.overlap inv ?_ ?_ chained chained' sorted sorted'
    · intro prior e k n found _ committed _
      exact rival.complete inv _ k n (terms e (found.subset (by simp))) committed
    · intro prior e k n found _ committed _
      exact inv.complete won _ k n (terms' e (found.subset (by simp))) committed
  obtain ⟨q', majority', votes'⟩ := inv.electedVotes T c b won
  obtain ⟨j, voted, voted'⟩ := overlap q' q majority' majority
  have := (votes' j voted).1
  rw [votes j voted'] at this
  exact Option.some.inj this

theorem Invariant.complete_lead {T T' k n : Nat} (won : s.winner T = some (c, b)) (older : T' ≤ T)
    (committed : rules.Committed s T' k n) : (s.lead T').take k <+: s.lead T := by
  rcases Nat.lt_or_eq_of_le older with less | rfl
  · exact (inv.complete won T' k n less committed).trans (inv.base_part won)
  · exact take_prefix k _

theorem Invariant.committed_agree {T T' k k' n n' : Nat}
    (committed : rules.Committed s T k n) (committed' : rules.Committed s T' k' n') :
    (s.lead T).take k <+: (s.lead T').take k' ∨ (s.lead T').take k' <+: (s.lead T).take k := by
  obtain ⟨c, b, won⟩ := committed.winner inv
  obtain ⟨c', b', won'⟩ := committed'.winner inv
  rcases Nat.le_total T T' with older | newer
  · exact prefix_or_prefix_of_prefix (inv.complete_lead won' older committed) ( take_prefix k' _)
  · exact prefix_or_prefix_of_prefix ( take_prefix k _) (inv.complete_lead won newer committed')

end

end Arcux.Consensus
