import Arcux.Percolator.Store

namespace Arcux.Percolator

variable {κ τ ν : Type}

inductive Fate (τ : Type) where
  | pending
  | committed (commitTs : τ)
  | dead

/-- The transactions there are, by start timestamp: the program that runs each and its primary key; and a bound below
every commit timestamp still to be chosen. -/
structure Roster (κ τ : Type) where
  runner : τ → Option Nat
  primary : τ → κ
  clock : τ

/-- What is known of the transactions besides: the values each has prewritten, its fate, the keys that carry its commit
record, the commit timestamp it has chosen. -/
structure Ledger (κ τ ν : Type) extends Roster κ τ where
  held : τ → κ → Option ν
  fate : τ → Fate τ
  settled : τ → κ → Prop
  decided : τ → Option τ

namespace Ledger

/-- What any step may do to the ledger. Chosen commit timestamps are above the clock and freeze the write set. -/
structure Grows [LinearOrder τ] (w w' : Ledger κ τ ν) : Prop where
  runner : ∀ s i, w.runner s = some i → w'.runner s = some i
  primary : ∀ s, w.runner s ≠ none → w'.primary s = w.primary s
  held : ∀ s k v, w.held s k = some v → w'.held s k = some v
  committed : ∀ s c, w.fate s = .committed c → w'.fate s = .committed c
  dead : ∀ s, w.fate s = .dead → w'.fate s = .dead
  settled : ∀ s k, w.settled s k → w'.settled s k
  decided : ∀ s c, w.decided s = some c → w'.decided s = some c
  late : ∀ s c, w'.decided s = some c → w.decided s = some c ∨ w.clock < c
  frozen : ∀ s c, w.decided s = some c → w'.held s = w.held s
  clock : w.clock ≤ w'.clock

/-- What the other programs may do to the transactions of program `i`: complete a commit, and, if locks are mortal, end
a pending one. -/
structure Rely [LinearOrder τ] (mortal : Prop) (i : Nat) (w w' : Ledger κ τ ν) : Prop where
  grows : w.Grows w'
  fresh : ∀ s, w'.runner s = some i → w.runner s = some i
  held : ∀ s, w.runner s = some i → w'.held s = w.held s
  decided : ∀ s, w.runner s = some i → w'.decided s = w.decided s
  fate : ∀ s, w.runner s = some i → w'.fate s = w.fate s ∨ mortal ∧ w.fate s = .pending ∧ w'.fate s = .dead

section

variable [LinearOrder τ] {w w' w'' : Ledger κ τ ν} {mortal : Prop} {i : Nat}

theorem Grows.refl (w : Ledger κ τ ν) : w.Grows w :=
  ⟨fun _ _ h => h, fun _ _ => rfl, fun _ _ _ h => h, fun _ _ h => h, fun _ h => h, fun _ _ h => h, fun _ _ h => h,
    fun _ _ h => .inl h, fun _ _ _ => rfl, le_rfl⟩

theorem Grows.trans (first : w.Grows w') (second : w'.Grows w'') : w.Grows w'' where
  runner s j h := second.runner s j (first.runner s j h)
  primary s known := by
    obtain ⟨j, running⟩ := Option.ne_none_iff_exists'.mp known
    rw [second.primary s (by simp [first.runner s j running]), first.primary s known]
  held s k v h := second.held s k v (first.held s k v h)
  committed s c h := second.committed s c (first.committed s c h)
  dead s h := second.dead s (first.dead s h)
  settled s k h := second.settled s k (first.settled s k h)
  decided s c h := second.decided s c (first.decided s c h)
  late s c h := by
    rcases second.late s c h with known | above
    · exact first.late s c known
    · exact .inr (lt_of_le_of_lt first.clock above)
  frozen s c h := (second.frozen s c (first.decided s c h)).trans (first.frozen s c h)
  clock := le_trans first.clock second.clock

theorem Rely.refl (w : Ledger κ τ ν) : w.Rely mortal i w :=
  ⟨.refl w, fun _ h => h, fun _ _ => rfl, fun _ _ => rfl, fun _ _ => .inl rfl⟩

theorem Rely.trans (first : w.Rely mortal i w') (second : w'.Rely mortal i w'') : w.Rely mortal i w'' where
  grows := first.grows.trans second.grows
  fresh s h := first.fresh s (second.fresh s h)
  held s h := (second.held s (first.grows.runner s i h)).trans (first.held s h)
  decided s h := (second.decided s (first.grows.runner s i h)).trans (first.decided s h)
  fate s h := by
    rcases second.fate s (first.grows.runner s i h) with same | ⟨expiring, pending, dead⟩ <;>
      rcases first.fate s h with same' | ⟨expiring', pending', dead'⟩
    · exact .inl (same.trans same')
    · exact .inr ⟨expiring', pending', same.trans dead'⟩
    · exact .inr ⟨expiring, same' ▸ pending, dead⟩
    · rw [dead'] at pending; cases pending

end

structure Holds [LinearOrder τ] (mortal : Prop) (w : Ledger κ τ ν) (m : Store κ τ ν) : Prop where
  /-- A lock names the primary of its transaction, which prewrote the key and has not settled it; a transaction that
  holds its primary is undecided. -/
  follows : ∀ k l, m.lock k = some l → l.primary = w.primary l.start
  immortal : ¬ mortal → ∀ k l, m.lock k = some l → ∀ t, ¬ l.ttl < t
  running : ∀ k s, m.owner k = some s → w.runner s ≠ none
  prewritten : ∀ k s, m.owner k = some s → w.held s k ≠ none
  unsettled : ∀ k s, m.owner k = some s → ¬ w.settled s k
  undecided : ∀ k s, m.owner k = some s → k = w.primary s → w.fate s = .pending
  recorded : ∀ k c s, m.commit k c = some s ↔ w.fate s = .committed c ∧ w.settled s k
  closed : ∀ s k, w.settled s k → ∃ c, w.fate s = .committed c
  stored : ∀ s k, w.settled s k → w.held s k ≠ none
  valued : ∀ s k v, w.held s k = some v → w.settled s k ∨ m.owner k = some s → m.value k s = some v
  /-- A pending transaction holds all it prewrote; a committed one has settled the rest. -/
  locked : ∀ s k, w.fate s = .pending → w.held s k ≠ none → m.owner k = some s
  resolvable : ∀ s c k, w.fate s = .committed c → w.held s k ≠ none → w.settled s k ∨ m.owner k = some s
  anchored : ∀ s c, w.fate s = .committed c → w.settled s (w.primary s)
  first : ∀ s k, w.held s k ≠ none → w.held s (w.primary s) ≠ none
  begun : ∀ s, w.fate s ≠ .pending → w.held s (w.primary s) ≠ none
  /-- Commits lie after their start, before the start of any lock on the key, and apart from each other. -/
  ahead : ∀ s c, w.decided s = some c → s < c
  older : ∀ k s s' c, m.owner k = some s → w.settled s' k → w.fate s' = .committed c → c < s
  disjoint : ∀ k s s' c c', w.settled s k → w.settled s' k → w.fate s = .committed c → w.fate s' = .committed c' →
    s ≠ s' → c < s' ∨ c' < s
  /-- A chosen commit timestamp is the one committed with, and choosing it rules out dying. -/
  chosen : ∀ s c, w.fate s = .committed c → w.decided s = some c
  spared : ∀ s, w.fate s = .dead → w.decided s = none
  hasty : mortal → ∀ s, w.fate s = .pending → w.decided s = none

def blank (roster : Roster κ τ) : Ledger κ τ ν :=
  ⟨roster, fun _ _ => none, fun _ => .pending, fun _ _ => False, fun _ => none⟩

theorem holds_blank [LinearOrder τ] (mortal : Prop) (roster : Roster κ τ) :
    (blank roster : Ledger κ τ ν).Holds mortal .empty where
  follows _ _ := nofun
  immortal _ _ _ := nofun
  running _ _ := nofun
  prewritten _ _ := nofun
  unsettled _ _ := nofun
  undecided _ _ := nofun
  recorded _ _ _ := ⟨nofun, fun ended => nomatch ended.1⟩
  closed _ _ := nofun
  stored _ _ := nofun
  valued _ _ _ := nofun
  locked _ _ _ held := absurd rfl held
  resolvable _ _ _ := nofun
  anchored _ _ := nofun
  first _ _ held := absurd rfl held
  begun _ ended := absurd rfl ended
  ahead _ _ := nofun
  older _ _ _ _ := nofun
  disjoint _ _ _ _ _ := nofun
  chosen _ _ := nofun
  spared _ := nofun
  hasty _ _ _ := rfl

section

variable [LinearOrder τ] {mortal : Prop} {w w' : Ledger κ τ ν} {m : Store κ τ ν} {k : κ} {s c r : τ}

def Shows (w : Ledger κ τ ν) (k : κ) (r : τ) (shown : Option ν) : Prop :=
  (∃ s c, w.fate s = .committed c ∧ w.settled s k ∧ c ≤ r ∧
      (∀ s' c', w.fate s' = .committed c' → w.settled s' k → c' ≤ r → c' ≤ c) ∧ shown = w.held s k) ∨
    (∀ s c, w.fate s = .committed c → w.settled s k → ¬ c ≤ r) ∧ shown = none

def Visible (w : Ledger κ τ ν) (k : κ) (r : τ) : Prop :=
  ∀ s c, w.decided s = some c → c ≤ r → w.held s k ≠ none → w.fate s = .dead ∨ w.settled s k

theorem Visible.mono (visible : w.Visible k r) (grown : w.Grows w') (timed : r ≤ w.clock) : w'.Visible k r := by
  intro s c decided early held
  rcases grown.late s c decided with known | late
  · rw [grown.frozen s c known] at held
    exact (visible s c known early held).imp (grown.dead s) (grown.settled s k)
  · exact absurd (le_trans early timed) (not_le_of_gt late)

theorem Holds.settled_or_owner (holds : w.Holds mortal m) (decided : w.decided s = some c) (held : w.held s k ≠ none) :
    w.settled s k ∨ m.owner k = some s := by
  cases fate : w.fate s with
  | pending => exact .inr (holds.locked s k fate held)
  | committed c' => exact holds.resolvable s c' k fate held
  | dead => exact absurd (decided.symm.trans (holds.spared s fate)) nofun

theorem Holds.visible (holds : w.Holds mortal m) (free : ∀ s, m.owner k = some s → r < s) : w.Visible k r := by
  intro s c decided early held
  refine .inr ((holds.settled_or_owner decided held).resolve_right fun owned => ?_)
  exact absurd (le_trans (le_of_lt (holds.ahead s c decided)) early) (not_le_of_gt (free s owned))

theorem Holds.visible_but (holds : w.Holds mortal m) (owned : m.owner k = some s) {s' : τ} (other : s' ≠ s)
    (decided : w.decided s' = some c) (held : w.held s' k ≠ none) : w.settled s' k := by
  refine (holds.settled_or_owner decided held).resolve_right fun owned' => ?_
  exact other (Option.some.inj (owned'.symm.trans owned))

theorem Holds.apart (holds : w.Holds mortal m) {s' c' : τ} (fate : w.fate s = .committed c) (held : w.held s k ≠ none)
    (fate' : w.fate s' = .committed c') (held' : w.held s' k ≠ none) (differ : s ≠ s') : c < s' ∨ c' < s := by
  rcases holds.resolvable s c k fate held with settled | owned <;>
    rcases holds.resolvable s' c' k fate' held' with settled' | owned'
  · exact holds.disjoint k s s' c c' settled settled' fate fate' differ
  · exact .inl (holds.older k s' s c owned' settled fate)
  · exact .inr (holds.older k s s' c' owned settled' fate')
  · exact absurd (Option.some.inj (owned.symm.trans owned')) differ

end

section

variable [DecidableEq κ] [LinearOrder τ] {mortal : Prop} {w : Ledger κ τ ν} {m : Store κ τ ν} {i : Nat}

def enlist (w : Ledger κ τ ν) (i : Nat) (s : τ) (p : κ) : Ledger κ τ ν :=
  { w with
    runner := fun s' => if s' = s then some i else w.runner s'
    primary := fun s' => if s' = s then p else w.primary s'
    clock := s }

@[grind] def choose (w : Ledger κ τ ν) (s c : τ) : Ledger κ τ ν :=
  { w with
    decided := fun s' => if s' = s then some c else w.decided s'
    clock := c }

def tick (w : Ledger κ τ ν) (t : τ) : Ledger κ τ ν := { w with clock := t }

@[grind] def hold (w : Ledger κ τ ν) (s : τ) (k : κ) (v : ν) : Ledger κ τ ν :=
  { w with held := fun s' k' => if s' = s ∧ k' = k then some v else w.held s' k' }

@[grind] def commit (w : Ledger κ τ ν) (s c : τ) : Ledger κ τ ν :=
  { w with
    fate := fun s' => if s' = s then .committed c else w.fate s'
    settled := fun s' k' => w.settled s' k' ∨ s' = s ∧ k' = w.primary s
    decided := fun s' => if s' = s then some c else w.decided s' }

@[grind] def settle (w : Ledger κ τ ν) (s : τ) (k : κ) : Ledger κ τ ν :=
  { w with settled := fun s' k' => w.settled s' k' ∨ s' = s ∧ k' = k }

@[grind] def kill (w : Ledger κ τ ν) (s : τ) : Ledger κ τ ν :=
  { w with fate := fun s' => if s' = s then .dead else w.fate s' }

omit [DecidableEq κ] in
theorem Holds.pending_of_unheld {s : τ} (holds : w.Holds mortal m) (unheld : ∀ k, w.held s k = none) :
    w.fate s = .pending := by
  by_contra ended
  exact holds.begun s ended (unheld _)

omit [DecidableEq κ] in
theorem Holds.enlist {s : τ} {p : κ} (holds : w.Holds mortal m) (fresh : w.runner s = none)
    (unheld : ∀ k, w.held s k = none) : (w.enlist i s p).Holds mortal m := by
  have known {k : κ} {s' : τ} (owned : m.owner k = some s') : s' ≠ s := by
    rintro rfl
    exact holds.running k s' owned fresh
  have begun {s' : τ} (ended : w.fate s' ≠ .pending) : s' ≠ s := by
    rintro rfl
    exact ended (holds.pending_of_unheld unheld)
  refine { holds with follows := ?_, running := ?_, undecided := ?_, anchored := ?_, first := ?_, begun := ?_ }
  · intro k l locked
    have owned : m.owner k = some l.start := by simp [Store.owner, locked]
    simp only [Ledger.enlist, if_neg (known owned)]
    exact holds.follows k l locked
  · intro k s' owned
    simp only [Ledger.enlist, if_neg (known owned)]
    exact holds.running k s' owned
  · intro k s' owned
    simp only [Ledger.enlist, if_neg (known owned)]
    exact holds.undecided k s' owned
  · intro s' c fate
    have committed : w.fate s' = .committed c := fate
    have other : s' ≠ s := begun (by simp [committed])
    simp only [Ledger.enlist, if_neg other]
    exact holds.anchored s' c committed
  · intro s' k held
    have other : s' ≠ s := by
      rintro rfl
      exact held (unheld k)
    simp only [Ledger.enlist, if_neg other]
    exact holds.first s' k held
  · intro s' ended
    simp only [Ledger.enlist, if_neg (begun ended)]
    exact holds.begun s' ended

omit [DecidableEq κ] in
theorem Holds.choose {s c : τ} (holds : w.Holds mortal m) (immortal : ¬ mortal) (pending : w.fate s = .pending)
    (later : s < c) : (w.choose s c).Holds mortal m := by
  refine { holds with ahead := ?_, chosen := ?_, spared := ?_, hasty := fun now => absurd now immortal }
  · intro s' c' decided
    have := holds.ahead s' c'
    grind
  · intro s' c' fate
    have := holds.chosen s' c'
    grind
  · intro s' dead
    have := holds.spared s'
    grind

omit [DecidableEq κ] in
theorem Holds.tick (holds : w.Holds mortal m) (t : τ) : (w.tick t).Holds mortal m := { holds with }

variable {s : τ} {k : κ}

theorem Holds.hold {v : ν} {ttl : τ} (holds : w.Holds mortal m) (running : w.runner s ≠ none)
    (fresh : w.held s k = none) (clear : m.Clear k s) (uncommitted : ∀ c, w.fate s ≠ .committed c)
    (opening : k = w.primary s ∧ w.fate s = .pending ∨ w.held s (w.primary s) ≠ none)
    (lasting : ¬ mortal → ∀ t, ¬ ttl < t) : (w.hold s k v).Holds mortal (m.prewrite k v ⟨w.primary s, s, ttl⟩) where
  __ := holds
  follows := by grind [holds.follows]
  immortal := by grind [holds.immortal]
  running := by grind [holds.running]
  prewritten := by grind [holds.prewritten]
  unsettled k' s' found := by
    have := holds.unsettled k' s'
    have := holds.stored s' k'
    grind [Store.Clear]
  undecided k' s' found := by have := holds.undecided k' s'; grind [Store.Clear]
  stored := by grind [holds.stored]
  valued := by grind [holds.valued, holds.stored]
  locked s' k' pending has := by have := holds.locked s' k'; grind [Store.Clear]
  resolvable s' c' k' done' has := by have := holds.resolvable s' c' k'; grind [Store.Clear]
  first := by grind [holds.first]
  begun := by grind [holds.begun]
  older k' s1 s2 c' found done' fate := by
    have := holds.older k' s1 s2 c'
    have := holds.recorded k' c' s2
    grind [Store.Clear]

theorem Holds.commit {s c : τ} (holds : w.Holds mortal m) (owned : m.owner (w.primary s) = some s)
    (later : s < c) : (w.commit s c).Holds mortal (m.commitKey (w.primary s) s c) where
  __ := holds
  follows := by grind [holds.follows]
  immortal := by grind [holds.immortal]
  running := by grind [holds.running]
  prewritten k' s' found := by have := holds.prewritten k' s'; grind
  unsettled := by grind [holds.unsettled]
  undecided := by grind [holds.undecided]
  recorded k' c' s' := by
    have := holds.recorded k' c' s'
    have := holds.closed s' k'
    have := holds.older _ _ s' c' owned
    have := holds.undecided _ _ owned rfl
    grind
  closed s' k' done' := by
    simp only [Ledger.commit] at done' ⊢
    split_ifs with same
    · exact ⟨c, rfl⟩
    · exact holds.closed s' k' (done'.resolve_right fun other => same other.1)
  stored s' k' done' := by
    have := holds.stored s' k'
    have := holds.prewritten _ _ owned
    grind
  valued := by grind [holds.valued]
  locked := by grind [holds.locked]
  resolvable := by grind [holds.resolvable, holds.undecided _ _ owned rfl, holds.locked]
  anchored := by grind [holds.anchored]
  begun s' ended := by
    have := holds.begun s'
    have := holds.prewritten _ _ owned
    grind
  ahead := by grind [holds.ahead]
  older := by grind [holds.older, holds.undecided _ _ owned rfl, holds.closed]
  disjoint k' s1 s2 c1 c2 done1 done2 fate1 fate2 differ := by
    have := holds.disjoint k' s1 s2 c1 c2
    have := holds.closed s k'
    have := holds.older _ _ s1 c1 owned
    have := holds.older _ _ s2 c2 owned
    have := holds.undecided _ _ owned rfl
    grind
  chosen := by grind [holds.chosen]
  spared := by grind [holds.spared]
  hasty := by grind [holds.hasty]

theorem Holds.settle {s c : τ} (holds : w.Holds mortal m) (owned : m.owner k = some s)
    (done : w.fate s = .committed c) : (w.settle s k).Holds mortal (m.commitKey k s c) where
  __ := holds
  follows := by grind [holds.follows]
  immortal := by grind [holds.immortal]
  running := by grind [holds.running]
  prewritten k' s' found := by have := holds.prewritten k' s'; grind
  unsettled := by grind [holds.unsettled]
  undecided k' s' found := by have := holds.undecided k' s'; grind
  recorded k' c' s' := by
    have := holds.recorded k' c' s'
    have := holds.older _ _ s' c' owned
    have := holds.ahead s c
    have := holds.chosen s c
    grind
  closed s' k' done' := by
    rcases done' with settled | ⟨rfl, -⟩
    · exact holds.closed s' k' settled
    · exact ⟨c, done⟩
  stored s' k' done' := by
    have := holds.stored s' k'
    have := holds.prewritten _ _ owned
    grind
  valued := by grind [holds.valued]
  locked := by grind [holds.locked]
  resolvable := by grind [holds.resolvable]
  anchored := by grind [holds.anchored]
  older := by grind [holds.older]
  disjoint k' s1 s2 c1 c2 done1 done2 fate1 fate2 differ := by
    have := holds.disjoint k' s1 s2 c1 c2
    have := holds.older _ _ s1 c1 owned
    have := holds.older _ _ s2 c2 owned
    grind

theorem Holds.kill (holds : w.Holds mortal m) (owned : m.owner (w.primary s) = some s)
    (undecided : w.decided s = none) : (w.kill s).Holds mortal (m.rollBack (w.primary s) s) where
  __ := holds
  follows := by grind [holds.follows]
  immortal := by grind [holds.immortal]
  running := by grind [holds.running]
  prewritten k' s' found := by have := holds.prewritten k' s'; grind
  unsettled k' s' found := by have := holds.unsettled k' s'; grind
  undecided := by grind [holds.undecided]
  recorded := by grind [holds.recorded, holds.undecided _ _ owned rfl]
  closed s' k' done' := by
    obtain ⟨c', committed⟩ := holds.closed s' k' done'
    have := holds.undecided _ _ owned rfl
    exact ⟨c', by grind⟩
  valued := by grind [holds.valued, holds.unsettled _ _ owned]
  locked := by grind [holds.locked]
  resolvable s' c' k' done' has := by have := holds.resolvable s' c' k'; grind
  anchored s' c' done' := by have := holds.anchored s' c'; grind
  begun s' ended := by
    have := holds.begun s'
    have := holds.prewritten _ _ owned
    grind
  older k' s1 s2 c' found done' fate := by have := holds.older k' s1 s2 c'; grind
  disjoint k' s1 s2 c1 c2 done1 done2 fate1 fate2 differ := by
    have := holds.disjoint k' s1 s2 c1 c2
    grind
  chosen s' c' done' := by have := holds.chosen s' c'; grind
  spared s' ended := by have := holds.spared s'; grind
  hasty now s' pending := by have := holds.hasty now s'; grind

theorem Holds.drop (holds : w.Holds mortal m) (owned : m.owner k = some s)
    (dead : w.fate s = .dead) : w.Holds mortal (m.rollBack k s) where
  __ := holds
  follows := by grind [holds.follows]
  immortal := by grind [holds.immortal]
  running := by grind [holds.running]
  prewritten := by grind [holds.prewritten]
  unsettled := by grind [holds.unsettled]
  undecided := by grind [holds.undecided]
  valued := by grind [holds.valued, holds.unsettled _ _ owned]
  locked := by grind [holds.locked]
  resolvable := by grind [holds.resolvable]
  older := by grind [holds.older]

omit [DecidableEq κ] in
theorem enlist_rely {s : τ} {p : κ} (fresh : w.runner s = none) (later : w.clock < s) :
    w.Grows (w.enlist i s p) ∧ ∀ j, j ≠ i → w.Rely mortal j (w.enlist i s p) := by
  have known {s' : τ} (running : w.runner s' ≠ none) : s' ≠ s := by
    rintro rfl
    exact running fresh
  have grows : w.Grows (w.enlist i s p) := by
    refine { Grows.refl w with runner := ?_, primary := ?_, clock := le_of_lt later }
    · intro s' j running
      have other : s' ≠ s := known (by simp [running])
      simp only [Ledger.enlist, if_neg other]
      exact running
    · intro s' running
      simp only [Ledger.enlist, if_neg (known running)]
  refine ⟨grows, fun j other => ⟨grows, fun s' running => ?_, fun _ _ => rfl, fun _ _ => rfl, fun _ _ => .inl rfl⟩⟩
  simp only [Ledger.enlist] at running
  split at running
  · exact absurd (Option.some.inj running).symm other
  · exact running

omit [DecidableEq κ] in
theorem choose_rely {s c : τ} (mine : w.runner s = some i) (undecided : w.decided s = none) (later : w.clock < c) :
    w.Grows (w.choose s c) ∧ ∀ j, j ≠ i → w.Rely mortal j (w.choose s c) := by
  have grows : w.Grows (w.choose s c) := by
    refine { Grows.refl w with decided := ?_, late := ?_, clock := le_of_lt later }
    · grind
    · grind
  exact ⟨grows, fun j other => ⟨grows, fun _ h => h, fun _ _ => rfl, by grind, fun _ _ => .inl rfl⟩⟩

omit [DecidableEq κ] in
theorem tick_rely {t : τ} (later : w.clock ≤ t) (j : Nat) : w.Rely mortal j (w.tick t) where
  grows := { Grows.refl w with clock := later }
  fresh _ h := h
  held _ _ := rfl
  decided _ _ := rfl
  fate _ _ := .inl rfl

theorem hold_rely {v : ν} (mine : w.runner s = some i) (fresh : w.held s k = none)
    (undecided : w.decided s = none) : w.Grows (w.hold s k v) ∧ ∀ j, j ≠ i → w.Rely mortal j (w.hold s k v) := by
  have grows : w.Grows (w.hold s k v) :=
    ⟨fun _ _ h => h, fun _ _ => rfl, by grind, fun _ _ h => h, fun _ h => h, fun _ _ h => h,
      fun _ _ h => h, fun _ _ h => .inl h, by intro s' c' h; funext k'; grind, le_rfl⟩
  refine ⟨grows, fun j other => ⟨grows, fun _ h => h, fun s' h => ?_, fun _ _ => rfl, fun _ _ => .inl rfl⟩⟩
  funext k'
  grind

omit [DecidableEq κ] in
theorem commit_rely {s c : τ} (mine : w.runner s = some i) (pending : w.fate s = .pending)
    (free : w.decided s = some c ∨ w.decided s = none ∧ w.clock < c) :
    w.Grows (w.commit s c) ∧ ∀ j, j ≠ i → w.Rely mortal j (w.commit s c) := by
  have grows : w.Grows (w.commit s c) :=
    ⟨fun _ _ h => h, fun _ _ => rfl, fun _ _ _ h => h, by grind, by grind,
      fun _ _ h => .inl h, by grind, by grind, fun _ _ _ => rfl, le_rfl⟩
  exact ⟨grows, fun j other => ⟨grows, fun _ h => h, fun _ _ => rfl, by grind, by grind⟩⟩

omit [DecidableEq κ] in
theorem settle_rely (w : Ledger κ τ ν) (s : τ) (k : κ) (j : Nat) : w.Rely mortal j (w.settle s k) where
  grows := ⟨fun _ _ h => h, fun _ _ => rfl, fun _ _ _ h => h, fun _ _ h => h, fun _ h => h, fun _ _ h => .inl h,
    fun _ _ h => h, fun _ _ h => .inl h, fun _ _ _ => rfl, le_rfl⟩
  fresh _ h := h
  held _ _ := rfl
  decided _ _ := rfl
  fate _ _ := .inl rfl

omit [DecidableEq κ] in
theorem kill_rely {s : τ} (allowed : mortal ∨ w.runner s = some i) (pending : w.fate s = .pending) :
    w.Grows (w.kill s) ∧ ∀ j, j ≠ i → w.Rely mortal j (w.kill s) := by
  have grows : w.Grows (w.kill s) :=
    ⟨fun _ _ h => h, fun _ _ => rfl, fun _ _ _ h => h, by grind, by grind,
      fun _ _ h => h, fun _ _ h => h, fun _ _ h => .inl h, fun _ _ _ => rfl, le_rfl⟩
  exact ⟨grows, fun j other => ⟨grows, fun _ h => h, fun _ _ => rfl, fun _ _ => rfl, by grind⟩⟩

end

end Ledger

end Arcux.Percolator
