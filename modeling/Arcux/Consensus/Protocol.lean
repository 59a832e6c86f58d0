import Arcux.Consensus.Quorum

namespace Arcux.Consensus

/-- What the protocol reads of a log entry: its term, and the configuration a log leaves in force. -/
structure Rules (N E : Type) [DecidableEq N] where
  termOf : E → Nat
  reconfigures : E → Prop
  config : List E → Finset N
  config_append : ∀ log e, ¬ reconfigures e → config (log ++ [e]) = config log

/-- The protocol state with its history: every vote, campaign, election and acknowledgement of the
run stays on record. -/
structure State (N E : Type) where
  term : N → Nat
  log : N → List E
  vote : N → Nat → Option N
  campaign : N → Nat → Option (List E)
  winner : Nat → Option (N × List E)
  lead : Nat → List E
  acked : N → Nat → Nat → Prop

variable {N E : Type} [DecidableEq N] (rules : Rules N E)

def State.initial : State N E where
  term := fun _ => 0
  log := fun _ => []
  vote := fun _ _ => none
  campaign := fun _ _ => none
  winner := fun _ => none
  lead := fun _ => []
  acked := fun _ _ _ => False

def Rules.lastTerm (log : List E) : Nat := (log.getLast?.map rules.termOf).getD 0

def Rules.UpToDate (candidate voter : List E) : Prop :=
  rules.lastTerm voter < rules.lastTerm candidate ∨
    (rules.lastTerm voter = rules.lastTerm candidate ∧ voter.length ≤ candidate.length)

/-- Every prefix that ends in an entry of some term is a prefix of that term's leader log. -/
def Rules.Chained (s : State N E) (log : List E) : Prop :=
  ∀ prior e, prior ++ [e] <+: log → prior ++ [e] <+: s.lead (rules.termOf e)

def Rules.Sorted (log : List E) : Prop := log.Pairwise (fun a b => rules.termOf a ≤ rules.termOf b)

/-- The leader of `T` had a log of length `n` when a majority of its configuration there had
acknowledged the first `k` entries, the last of them of term `T`. -/
def Rules.Committed (s : State N E) (T k n : Nat) : Prop :=
  k ≤ n ∧ n ≤ (s.lead T).length ∧ (∃ prior e, (s.lead T).take k = prior ++ [e] ∧ rules.termOf e = T) ∧
    ∃ q, Majority (rules.config ((s.lead T).take n)) q ∧ ∀ j ∈ q, s.acked j T k

def Rules.Complete (s : State N E) (T : Nat) (log : List E) : Prop :=
  ∀ T' k n, T' < T → rules.Committed s T' k n → (s.lead T').take k <+: log

def State.Lost (s : State N E) (T k bound : Nat) : Prop :=
  ∃ T' c b, T < T' ∧ T' ≤ bound ∧ s.winner T' = some (c, b) ∧ ¬ (s.lead T).take k <+: b

def State.Retains (s : State N E) (j : N) (log : List E) (below bound : Nat) : Prop :=
  ∀ T k, T < below → s.acked j T k → (s.lead T).take k <+: log ∨ s.Lost T k bound

def Rules.Ballot (s : State N E) (j : N) (T : Nat) (b : List E) (bound : Nat) : Prop :=
  ∃ log, rules.Chained s log ∧ rules.Sorted log ∧ rules.UpToDate b log ∧ s.Retains j log T bound

def Rules.Backed (s : State N E) (T : Nat) (b : List E) (bound : Nat) : Prop :=
  ∃ q, Majority (rules.config b) q ∧ ∀ j ∈ q, rules.Ballot s j T b bound

/-- A configuration change in the leader log of `T` needs an entry of `T` committed before it, with
no other change after that entry. -/
def Rules.Disciplined (s : State N E) (T : Nat) (prior : List E) (e : E) : Prop :=
  (∃ k n, rules.Committed s T k n ∧ n ≤ prior.length ∧ ∀ x ∈ prior.drop k, ¬ rules.reconfigures x) ∧
    Near (rules.config prior) (rules.config (prior ++ [e]))

def State.withVote (s : State N E) (j : N) (T : Nat) (c : N) : State N E :=
  { s with vote := Function.update s.vote j (Function.update (s.vote j) T (some c)) }

def State.withAck (s : State N E) (j : N) (T k : Nat) : State N E :=
  { s with acked := fun i t m => s.acked i t m ∨ (i = j ∧ t = T ∧ m ≤ k) }

/-! The moves of the protocol. Messages are not part of the state: a move may use any fact that the
history records. -/

def State.campaigned (s : State N E) (c : N) : State N E :=
  { s.withVote c (s.term c + 1) c with
    term := Function.update s.term c (s.term c + 1)
    campaign := Function.update s.campaign c (Function.update (s.campaign c) (s.term c + 1) (some (s.log c))) }

def State.won (s : State N E) (c : N) : State N E :=
  { s.withAck c (s.term c) (s.log c).length with
    winner := Function.update s.winner (s.term c) (some (c, s.log c))
    lead := Function.update s.lead (s.term c) (s.log c) }

def State.appended (s : State N E) (c : N) (e : E) : State N E :=
  { s.withAck c (s.term c) ((s.lead (s.term c)).length + 1) with
    log := Function.update s.log c (s.lead (s.term c) ++ [e])
    lead := Function.update s.lead (s.term c) (s.lead (s.term c) ++ [e]) }

def State.accepted (s : State N E) (j : N) (k : Nat) (log : List E) : State N E :=
  { s.withAck j (s.term j) k with log := Function.update s.log j log }

structure Invariant (s : State N E) : Prop where
  voteBound : ∀ j T c, s.vote j T = some c → T ≤ s.term j
  campaignBound : ∀ c T b, s.campaign c T = some b → T ≤ s.term c
  ackBound : ∀ j T k, s.acked j T k → T ≤ s.term j ∧ k ≤ (s.lead T).length
  ackDown : ∀ j T k m, s.acked j T k → m ≤ k → s.acked j T m
  logChained : ∀ j, rules.Chained s (s.log j)
  leadChained : ∀ T, rules.Chained s (s.lead T)
  logSorted : ∀ j, rules.Sorted (s.log j)
  leadSorted : ∀ T, rules.Sorted (s.lead T)
  logTerms : ∀ j, ∀ e ∈ s.log j, rules.termOf e ≤ s.term j
  leadTerms : ∀ T, ∀ e ∈ s.lead T, rules.termOf e ≤ T
  campaignLog : ∀ c T b, s.campaign c T = some b →
    0 < T ∧ rules.Chained s b ∧ rules.Sorted b ∧ ∀ e ∈ b, rules.termOf e < T
  ballots : ∀ j T c, s.vote j T = some c → ∃ b, s.campaign c T = some b ∧ rules.Ballot s j T b T
  electedLog : ∀ T c b, s.winner T = some (c, b) → s.campaign c T = some b ∧
    ∃ own, s.lead T = b ++ own ∧ ∀ e ∈ own, rules.termOf e = T
  electedVotes : ∀ T c b, s.winner T = some (c, b) → ∃ q, Majority (rules.config b) q ∧
    ∀ j ∈ q, s.vote j T = some c ∧ rules.Ballot s j T b (T - 1)
  unled : ∀ T, s.winner T = none → s.lead T = []
  retained : ∀ j, s.Retains j (s.log j) (s.term j + 1) (s.term j)
  disciplined : ∀ T prior e, prior ++ [e] <+: s.lead T → rules.termOf e = T → rules.reconfigures e →
    rules.Disciplined s T prior e

end Arcux.Consensus
