import Arcux.Consensus.Preservation

namespace Arcux.Consensus

open List

/-- A protocol history with the commit point that the leader of each term has got to. -/
structure Ledger (N E : Type) extends State N E where
  reached : Nat → Nat

def Ledger.initial {N E : Type} : Ledger N E := ⟨State.initial, fun _ => 0⟩

variable {N E : Type}

section

variable {i : N} {l l' l'' : Ledger N E}

/-- What moves of node `i` leave alone: the other nodes, and the terms that others lead. -/
structure Evolves (i : N) (l l' : Ledger N E) : Prop where
  extend : Extends l.toState l'.toState
  reached : ∀ T, l.reached T ≤ l'.reached T
  term : ∀ j, j ≠ i → l'.term j = l.term j
  log : ∀ j, j ≠ i → l'.log j = l.log j
  vote : ∀ j, j ≠ i → l'.vote j = l.vote j
  led : ∀ T c b, c ≠ i → l'.winner T = some (c, b) →
    l.winner T = some (c, b) ∧ l'.lead T = l.lead T ∧ l'.reached T = l.reached T

theorem Evolves.refl (i : N) (l : Ledger N E) : Evolves i l l :=
  ⟨Extends.refl _, fun _ => Nat.le_refl _, fun _ _ => rfl, fun _ _ => rfl, fun _ _ => rfl,
    fun _ _ _ _ won => ⟨won, rfl, rfl⟩⟩

theorem Evolves.trans (first : Evolves i l l') (second : Evolves i l' l'') : Evolves i l l'' where
  extend := first.extend.trans second.extend
  reached T := (first.reached T).trans (second.reached T)
  term j other := (second.term j other).trans (first.term j other)
  log j other := (second.log j other).trans (first.log j other)
  vote j other := (second.vote j other).trans (first.vote j other)
  led T c b other won := by
    obtain ⟨won', lead', reached'⟩ := second.led T c b other won
    obtain ⟨won'', lead'', reached''⟩ := first.led T c b other won'
    exact ⟨won'', lead'.trans lead'', reached'.trans reached''⟩

def Ledger.commits (l : Ledger N E) (T k : Nat) : Ledger N E :=
  { l with reached := Function.update l.reached T k }

theorem Evolves.commits {T k : Nat} {b : List E} (leading : l.winner T = some (i, b)) (grown : l.reached T ≤ k) :
    Evolves i l (l.commits T k) := by
  refine ⟨Extends.refl _, ?_, fun _ _ => rfl, fun _ _ => rfl, fun _ _ => rfl, ?_⟩
  · intro U
    by_cases here : U = T
    · subst here
      simpa [Ledger.commits] using grown
    · simp [Ledger.commits, Function.update_of_ne here]
  · intro U c b' other won
    change l.winner U = some (c, b') at won
    have elsewhere : U ≠ T := by
      rintro rfl
      rw [leading] at won
      cases won
      exact other rfl
    exact ⟨won, rfl, Function.update_of_ne elsewhere _ _⟩

end

variable {log log' : List E}

theorem take_eq_of_part {c : Nat} (inside : log.take c <+: log') (short : c ≤ log.length) :
    log'.take c = log.take c := by
  have := prefix_iff_eq_take.mp inside
  rw [length_take, Nat.min_eq_left short] at this
  exact this.symm

variable [DecidableEq N] {rules : Rules N E}

section

variable {s : State N E}

theorem Rules.Chained.take_eq {k : Nat} {e e' : E} (chained : rules.Chained s log)
    (chained' : rules.Chained s log') (found : log[k]? = some e) (found' : log'[k]? = some e')
    (terms : rules.termOf e = rules.termOf e') : log.take (k + 1) = log'.take (k + 1) := by
  obtain ⟨bound, value⟩ := List.getElem?_eq_some_iff.mp found
  obtain ⟨bound', value'⟩ := List.getElem?_eq_some_iff.mp found'
  have split : log.take (k + 1) = log.take k ++ [e] := by rw [← value, take_append_getElem bound]
  have split' : log'.take (k + 1) = log'.take k ++ [e'] := by rw [← value', take_append_getElem bound']
  have inLead := chained (log.take k) e (split ▸ take_prefix _ _)
  have inLead' := chained' (log'.take k) e' (split' ▸ take_prefix _ _)
  rw [← terms] at inLead'
  rw [split, split']
  exact (prefix_of_prefix_length_le inLead inLead' (by simp; omega)).eq_of_length (by simp; omega)

end

variable {l l' : Ledger N E}

/-- The first `c` entries of the log are within what a leader of a term up to `bound` committed. -/
def Rules.Settled (rules : Rules N E) (l : Ledger N E) (bound : Nat) (log : List E) (c : Nat) : Prop :=
  c = 0 ∨ ∃ U k n, U ≤ bound ∧ rules.Committed l.toState U k n ∧ k ≤ l.reached U ∧ c ≤ k ∧
    (l.lead U).take c <+: log

theorem Rules.Committed.le_length {s : State N E} {T k n : Nat} (committed : rules.Committed s T k n) :
    k ≤ (s.lead T).length :=
  committed.1.trans committed.2.1

theorem Rules.Settled.zero (bound : Nat) (log : List E) : rules.Settled l bound log 0 := .inl rfl

theorem Rules.Settled.le_length {bound c : Nat} {log : List E} (settled : rules.Settled l bound log c) :
    c ≤ log.length := by
  rcases settled with rfl | ⟨U, k, n, _, committed, _, below, inside⟩
  · exact Nat.zero_le _
  · have := inside.length_le
    rw [length_take] at this
    have := committed.le_length
    omega

theorem Rules.Settled.of_le {bound c c' : Nat} {log : List E} (settled : rules.Settled l bound log c)
    (less : c' ≤ c) : rules.Settled l bound log c' := by
  rcases settled with rfl | ⟨U, k, n, older, committed, got, below, inside⟩
  · exact .inl (by omega)
  · exact .inr ⟨U, k, n, older, committed, got, by omega, (take_prefix_take_left less).trans inside⟩

theorem Rules.Settled.of_take {bound bound' c : Nat} (settled : rules.Settled l bound log c)
    (later : bound ≤ bound') (kept : log.take c <+: log') : rules.Settled l bound' log' c := by
  rcases settled with rfl | ⟨U, k, n, older, committed, got, below, inside⟩
  · exact .inl rfl
  · refine .inr ⟨U, k, n, older.trans later, committed, got, below, List.IsPrefix.trans ?_ kept⟩
    have := inside.length_le
    exact prefix_of_prefix_length_le inside ( take_prefix _ _) (by simp at this ⊢; omega)

variable {bound T c : Nat}

theorem Rules.Settled.shared {log b : List E} {i : N} (inv : Invariant rules l.toState)
    (settled : rules.Settled l bound log c) (older : bound ≤ T) (won : l.winner T = some (i, b)) :
    c ≤ (l.lead T).length ∧ (l.lead T).take c = log.take c := by
  rcases settled with rfl | ⟨U, k, n, before, committed, _, below, inside⟩
  · simp
  · have held := (take_prefix_take_left below).trans (inv.complete_lead won (before.trans older) committed)
    have short := below.trans committed.le_length
    have size : ((l.lead U).take c).length = c := by rw [length_take, Nat.min_eq_left short]
    exact ⟨size ▸ held.length_le, (take_eq_of_part held short).trans (take_eq_of_part inside short).symm⟩

theorem Rules.Settled.in_base {log b : List E} {i : N} (inv : Invariant rules l.toState)
    (settled : rules.Settled l bound log c) (older : bound < T) (won : l.winner T = some (i, b)) :
    log.take c <+: b := by
  rcases settled with rfl | ⟨U, k, n, before, committed, _, below, inside⟩
  · simp
  · rw [take_eq_of_part inside (below.trans committed.le_length)]
    exact (take_prefix_take_left below).trans (inv.complete won U k n (by omega) committed)

theorem Rules.Settled.agree {bound bound' c c' : Nat} (inv : Invariant rules l.toState)
    (settled : rules.Settled l bound log c) (settled' : rules.Settled l bound' log' c') (less : c ≤ c') :
    log.take c = log'.take c := by
  rcases settled with rfl | ⟨U, k, n, _, committed, _, below, inside⟩
  · simp
  rcases settled' with rfl | ⟨U', k', n', _, committed', _, below', inside'⟩
  · simp [Nat.le_zero.mp less]
  have short := committed.le_length
  have short' := committed'.le_length
  have same : log.take c = (l.lead U).take c := take_eq_of_part inside (by omega)
  have same' : log'.take c = (l.lead U').take c :=
    take_eq_of_part ((take_prefix_take_left less).trans inside') (by omega)
  have part : (l.lead U).take c <+: (l.lead U).take k := take_prefix_take_left below
  have part' : (l.lead U').take c <+: (l.lead U').take k' := take_prefix_take_left (less.trans below')
  have lengths : ((l.lead U).take c).length = ((l.lead U').take c).length := by
    simp only [length_take]
    omega
  rw [same, same']
  rcases inv.committed_agree committed committed' with early | late
  · exact (prefix_of_prefix_length_le (part.trans early) part' lengths.le).eq_of_length lengths
  · exact (prefix_of_prefix_length_le part (part'.trans late) lengths.le).eq_of_length lengths

theorem Rules.Settled.mono {bound c : Nat} {log : List E} (settled : rules.Settled l bound log c)
    (ext : Extends l.toState l'.toState) (grown : ∀ T, l.reached T ≤ l'.reached T) :
    rules.Settled l' bound log c := by
  rcases settled with rfl | ⟨U, k, n, older, committed, got, below, inside⟩
  · exact .inl rfl
  · refine .inr ⟨U, k, n, older, committed.mono ext, got.trans (grown U), below, ?_⟩
    rw [ext.take_lead (below.trans committed.le_length)]
    exact inside

section

variable {i : N}

def Ledger.become (l : Ledger N E) (s : State N E) : Ledger N E := { l with toState := s }

section

variable (inv : Invariant rules l.toState)

include inv

theorem Evolves.advance {T : Nat} (newer : l.term i < T) :
    Evolves i l (l.become { l.toState with term := Function.update l.term i T }) :=
  ⟨(advance_sound inv newer).extend, fun _ => Nat.le_refl _,
    fun _ other => Function.update_of_ne other _ _, fun _ _ => rfl, fun _ _ => rfl,
    fun _ _ _ _ won => ⟨won, rfl, rfl⟩⟩

theorem Evolves.campaigned : Evolves i l (l.become (l.toState.campaigned i)) :=
  ⟨(campaign_sound inv i).extend, fun _ => Nat.le_refl _,
    fun _ other => Function.update_of_ne other _ _, fun _ _ => rfl,
    fun _ other => Function.update_of_ne other _ _, fun _ _ _ _ won => ⟨won, rfl, rfl⟩⟩

variable {b : List E}

theorem Evolves.granted {c : N} (free : l.vote i (l.term i) = none ∨ l.vote i (l.term i) = some c)
    (campaigning : l.campaign c (l.term i) = some b) (fresh : rules.UpToDate b (l.log i)) :
    Evolves i l (l.become (l.toState.withVote i (l.term i) c)) :=
  ⟨(grant_sound inv free campaigning fresh).extend, fun _ => Nat.le_refl _, fun _ _ => rfl, fun _ _ => rfl,
    fun _ other => Function.update_of_ne other _ _, fun _ _ _ _ won => ⟨won, rfl, rfl⟩⟩

theorem Evolves.won {q : Finset N} (campaigning : l.campaign i (l.term i) = some (l.log i))
    (unwon : ∀ b, l.winner (l.term i) ≠ some (i, b)) (majority : Majority (rules.config (l.log i)) q)
    (votes : ∀ j ∈ q, l.vote j (l.term i) = some i) : Evolves i l (l.become (l.toState.won i)) := by
  refine ⟨(win_sound inv campaigning unwon majority votes).extend, fun _ => Nat.le_refl _, fun _ _ => rfl,
    fun _ _ => rfl, fun _ _ => rfl, ?_⟩
  intro T c b other won
  have elsewhere : T ≠ l.term i := by
    rintro rfl
    simp only [Ledger.become, State.won, Function.update_self, Option.some.injEq, Prod.mk.injEq] at won
    exact other won.1.symm
  refine ⟨?_, Function.update_of_ne elsewhere _ _, rfl⟩
  rw [← won]
  exact (Function.update_of_ne elsewhere _ _).symm

theorem Evolves.appended {e : E} (leading : l.winner (l.term i) = some (i, b))
    (current : l.log i = l.lead (l.term i)) (own : rules.termOf e = l.term i)
    (disciplined : rules.reconfigures e → rules.Disciplined l.toState (l.term i) (l.lead (l.term i)) e) :
    Evolves i l (l.become (l.toState.appended i e)) := by
  refine ⟨(append_sound inv leading current own disciplined).extend, fun _ => Nat.le_refl _, fun _ _ => rfl,
    fun _ other => Function.update_of_ne other _ _, fun _ _ => rfl, ?_⟩
  intro T c b' other won
  change l.winner T = some (c, b') at won
  have elsewhere : T ≠ l.term i := by
    rintro rfl
    rw [leading] at won
    cases won
    exact other rfl
  exact ⟨won, Function.update_of_ne elsewhere _ _, rfl⟩

theorem Evolves.accepted {c : N} {k : Nat} {log : List E}
    (leading : l.winner (l.term i) = some (c, b)) (bound : k ≤ (l.lead (l.term i)).length)
    (adopted : ((l.lead (l.term i)).take k <+: l.log i ∧ log = l.log i) ∨
      (¬ (l.lead (l.term i)).take k <+: l.log i ∧ log = (l.lead (l.term i)).take k)) :
    Evolves i l (l.become (l.toState.accepted i k log)) :=
  ⟨(accept_sound inv leading bound adopted).extend, fun _ => Nat.le_refl _, fun _ _ => rfl,
    fun _ other => Function.update_of_ne other _ _, fun _ _ => rfl, fun _ _ _ _ won => ⟨won, rfl, rfl⟩⟩

end

end

end Arcux.Consensus
