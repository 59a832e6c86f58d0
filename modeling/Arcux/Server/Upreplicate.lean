import Arcux.Raft.Node

namespace Arcux.Server

open List Raft

namespace Upreplicate

def nextStep (voters learners desired : List NodeId) (caughtUp : NodeId → Bool) : Option ConfChange :=
  let missing := (desired.filter fun id => !voters.contains id).insertionSort (· ≤ ·)
  match missing.head? with
  | none => none
  | some next =>
    if !learners.contains next then some (.addLearner next)
    else if caughtUp next then some (.addNode next)
    else none

abbrev Conf := List NodeId × List NodeId

def round (desired : List NodeId) (caughtUp : NodeId → Bool) (conf : Conf) : Conf :=
  match nextStep conf.1 conf.2 desired caughtUp with
  | some cc => applyConfChange conf.1 conf.2 cc
  | none => conf

section

variable (desired : List NodeId) (caughtUp : Nat → NodeId → Bool) (start : Conf)

def grow : Nat → Conf
  | 0 => start
  | t + 1 => round desired (caughtUp t) (grow t)

def stepAt (t : Nat) : Option ConfChange :=
  nextStep (grow desired caughtUp start t).1 (grow desired caughtUp start t).2 desired (caughtUp t)

def changes : Nat → Nat
  | 0 => 0
  | t + 1 => changes t + if (stepAt desired caughtUp start t).isSome then 1 else 0

def missing (conf : Conf) : Finset NodeId := desired.toFinset \ conf.1.toFinset

def pending (conf : Conf) : Nat := (missing desired conf).card + (missing desired conf \ conf.2.toFinset).card

end

variable {desired : List NodeId} {now : NodeId → Bool} {caughtUp : Nat → NodeId → Bool} {start conf : Conf}

theorem nextStep_cases (desired : List NodeId) (conf : Conf) :
    (desired ⊆ conf.1 ∧ ∀ now, nextStep conf.1 conf.2 desired now = none) ∨
    ∃ next ∈ desired, next ∉ conf.1 ∧
      ((next ∉ conf.2 ∧ ∀ now, nextStep conf.1 conf.2 desired now = some (.addLearner next)) ∨
        (next ∈ conf.2 ∧
          ∀ now, nextStep conf.1 conf.2 desired now = if now next then some (.addNode next) else none)) := by
  have sorted := perm_insertionSort (· ≤ ·) (desired.filter fun id => !conf.1.contains id)
  cases first : ((desired.filter fun id => !conf.1.contains id).insertionSort (· ≤ ·)).head? with
  | none =>
    refine Or.inl ⟨fun id wanted => ?_, fun _ => by simp only [nextStep, first]⟩
    rw [head?_eq_none_iff.mp first, nil_perm, filter_eq_nil_iff] at sorted
    simpa using sorted id wanted
  | some next =>
    have member := sorted.mem_iff.mp (mem_of_mem_head? first)
    rw [mem_filter] at member
    refine Or.inr ⟨next, member.1, by simpa using member.2, ?_⟩
    by_cases learner : next ∈ conf.2
    · refine Or.inr ⟨learner, fun _ => ?_⟩
      simp only [nextStep, first]
      rw [if_neg (by simpa using learner)]
    · refine Or.inl ⟨learner, fun _ => ?_⟩
      simp only [nextStep, first]
      rw [if_pos (by simpa using learner)]

theorem round_cases (desired : List NodeId) (now : NodeId → Bool) (conf : Conf) :
    (nextStep conf.1 conf.2 desired now = none ∧ round desired now conf = conf) ∨
    ∃ next ∈ desired, next ∉ conf.1 ∧ (nextStep conf.1 conf.2 desired now).isSome ∧
      ((next ∉ conf.2 ∧ round desired now conf = (conf.1, conf.2 ++ [next])) ∨
        (next ∈ conf.2 ∧ now next ∧ round desired now conf = (conf.1 ++ [next], conf.2.filter (· ≠ next)))) := by
  unfold round
  rcases nextStep_cases desired conf with ⟨-, idle⟩ | ⟨next, wanted, absent, ⟨fresh, plan⟩ | ⟨learner, plan⟩⟩
  · exact Or.inl ⟨idle now, by rw [idle now]⟩
  · refine Or.inr ⟨next, wanted, absent, by rw [plan]; rfl, Or.inl ⟨fresh, ?_⟩⟩
    simp [plan, applyConfChange, absent, fresh]
  · by_cases ready : now next
    · refine Or.inr ⟨next, wanted, absent, by rw [plan, if_pos ready]; rfl, Or.inr ⟨learner, ready, ?_⟩⟩
      simp [plan, ready, applyConfChange, absent]
    · exact Or.inl ⟨by rw [plan, if_neg ready], by rw [plan, if_neg ready]⟩

variable {id : NodeId}

theorem round_keeps (voter : id ∈ conf.1) : id ∈ (round desired now conf).1 := by
  rcases round_cases desired now conf with ⟨-, same⟩ | ⟨next, -, -, -, ⟨-, grown⟩ | ⟨-, -, grown⟩⟩
  · rwa [same]
  · rwa [grown]
  · rw [grown]
    exact mem_append_left _ voter

theorem round_promotes (voter : id ∈ (round desired now conf).1) (fresh : id ∉ conf.1) : id ∈ conf.2 ∧ now id := by
  rcases round_cases desired now conf with ⟨-, same⟩ | ⟨next, -, -, -, ⟨-, grown⟩ | ⟨learner, ready, grown⟩⟩
  · rw [same] at voter
    exact absurd voter fresh
  · rw [grown] at voter
    exact absurd voter fresh
  · rw [grown, mem_append, mem_singleton] at voter
    cases voter.resolve_left fresh
    exact ⟨learner, ready⟩

theorem round_pending (desired : List NodeId) (now : NodeId → Bool) (conf : Conf) :
    pending desired (round desired now conf) + (if (nextStep conf.1 conf.2 desired now).isSome then 1 else 0) =
      pending desired conf := by
  rcases round_cases desired now conf with
    ⟨idle, same⟩ | ⟨next, wanted, absent, step, ⟨fresh, grown⟩ | ⟨learner, -, grown⟩⟩
  · rw [idle, same]
    rfl
  · have member : next ∈ missing desired conf \ conf.2.toFinset := by simp [missing, wanted, absent, fresh]
    have gone : missing desired conf \ (conf.2 ++ [next]).toFinset =
        (missing desired conf \ conf.2.toFinset).erase next := by
      ext id
      simp only [Finset.mem_sdiff, mem_toFinset, mem_append, mem_singleton, Finset.mem_erase]
      tauto
    have fewer := Finset.card_erase_add_one member
    have same : missing desired (conf.1, conf.2 ++ [next]) = missing desired conf := rfl
    rw [if_pos step, grown, pending, same, gone, pending]
    omega
  · have member : next ∈ missing desired conf := by simp [missing, wanted, absent]
    have gone : missing desired (conf.1 ++ [next], conf.2.filter (· ≠ next)) = (missing desired conf).erase next := by
      ext id
      simp only [missing, Finset.mem_sdiff, mem_toFinset, mem_append, mem_singleton, Finset.mem_erase]
      tauto
    have rest : (missing desired conf).erase next \ (conf.2.filter (· ≠ next)).toFinset =
        missing desired conf \ conf.2.toFinset := by
      ext id
      simp only [Finset.mem_sdiff, Finset.mem_erase, mem_toFinset, mem_filter, decide_eq_true_eq]
      constructor
      · rintro ⟨⟨other, inside⟩, outside⟩
        exact ⟨inside, fun member => outside ⟨member, other⟩⟩
      · rintro ⟨inside, outside⟩
        exact ⟨⟨fun same => outside (same ▸ learner), inside⟩, fun member => outside member.1⟩
    have fewer := Finset.card_erase_add_one member
    rw [if_pos step, grown, pending, gone, rest, pending]
    omega

theorem changes_pending (t : Nat) :
    pending desired (grow desired caughtUp start t) + changes desired caughtUp start t = pending desired start := by
  induction t with
  | zero => rfl
  | succ t ih =>
    have step := round_pending desired (caughtUp t) (grow desired caughtUp start t)
    rw [grow, changes, stepAt]
    omega

theorem pending_le (desired : List NodeId) (conf : Conf) : pending desired conf ≤ 2 * (missing desired conf).card := by
  have inside := Finset.card_le_card (Finset.sdiff_subset (s := missing desired conf) (t := conf.2.toFinset))
  rw [pending]
  omega

variable {s t : Nat}

theorem grow_keeps (le : s ≤ t) (voter : id ∈ (grow desired caughtUp start s).1) :
    id ∈ (grow desired caughtUp start t).1 := by
  induction t, le using Nat.le_induction with
  | base => exact voter
  | succ t _ ih => exact round_keeps ih

theorem grow_idle (le : s ≤ t) (idle : ∀ r, s ≤ r → stepAt desired caughtUp start r = none) :
    grow desired caughtUp start t = grow desired caughtUp start s := by
  induction t, le using Nat.le_induction with
  | base => rfl
  | succ t le ih =>
    have quiet := idle t le
    rw [stepAt] at quiet
    rw [grow, round, quiet]
    exact ih

/-- While a desired node is missing, some later round makes a change: it adds the node as a learner, or it waits for the
report that the learner has caught up. -/
theorem exists_step (fair : ∀ t, ∀ id ∈ (grow desired caughtUp start t).2, ∃ s, t ≤ s ∧ caughtUp s id) {t : Nat}
    (short : ¬ desired ⊆ (grow desired caughtUp start t).1) :
    ∃ s, t ≤ s ∧ (stepAt desired caughtUp start s).isSome := by
  by_contra never
  have idle : ∀ s, t ≤ s → stepAt desired caughtUp start s = none := by
    intro s le
    rw [← Option.not_isSome_iff_eq_none]
    exact fun step => never ⟨s, le, step⟩
  rcases nextStep_cases desired (grow desired caughtUp start t) with
    ⟨full, -⟩ | ⟨next, -, -, ⟨-, plan⟩ | ⟨learner, plan⟩⟩
  · exact short full
  · have quiet := idle t (le_refl t)
    rw [stepAt, plan] at quiet
    cases quiet
  · obtain ⟨s, le, ready⟩ := fair t next learner
    have quiet := idle s le
    rw [stepAt, grow_idle le idle, plan, if_pos ready] at quiet
    cases quiet

theorem reaches_desired (fair : ∀ t, ∀ id ∈ (grow desired caughtUp start t).2, ∃ s, t ≤ s ∧ caughtUp s id) :
    ∃ t, desired ⊆ (grow desired caughtUp start t).1 := by
  let left (t : Nat) : Nat := pending desired (grow desired caughtUp start t)
  have down (t : Nat) : left (t + 1) + (if (stepAt desired caughtUp start t).isSome then 1 else 0) = left t :=
    round_pending desired (caughtUp t) (grow desired caughtUp start t)
  have antitone : Antitone left := antitone_nat_of_succ_le fun t => by
    rw [← down t]
    exact Nat.le_add_right ..
  -- Where the fewest changes are pending, no further one is made.
  refine ⟨Function.argmin left, ?_⟩
  by_contra short
  obtain ⟨s, le, step⟩ := exists_step fair short
  have least : left (Function.argmin left) ≤ left (s + 1) := Function.argmin_le left (s + 1)
  have before : left s ≤ left (Function.argmin left) := antitone le
  have fewer := down s
  rw [if_pos step] at fewer
  omega

theorem steady_progress (desired : List NodeId) (caughtUp : Nat → NodeId → Bool) (start : Conf)
    (fair : ∀ t, ∀ id ∈ (grow desired caughtUp start t).2, ∃ s, t ≤ s ∧ caughtUp s id) :
    (∀ t, ∀ id ∈ (grow desired caughtUp start t).1, id ∈ (grow desired caughtUp start (t + 1)).1) ∧
    (∀ t, ∀ id ∈ (grow desired caughtUp start (t + 1)).1, id ∉ (grow desired caughtUp start t).1 →
      id ∈ (grow desired caughtUp start t).2 ∧ caughtUp t id) ∧
    (∀ t, changes desired caughtUp start t ≤ 2 * (desired.toFinset \ start.1.toFinset).card) ∧
    ∃ finish, (∀ t, finish ≤ t → stepAt desired caughtUp start t = none ∧
        grow desired caughtUp start t = grow desired caughtUp start finish) ∧
      (∀ id ∈ desired, id ∈ (grow desired caughtUp start finish).1) ∧
      ∀ id ∈ start.1, id ∈ (grow desired caughtUp start finish).1 := by
  refine ⟨fun _ _ => round_keeps, fun _ _ => round_promotes, fun t => ?_, ?_⟩
  · have bound := pending_le desired start
    rw [← changes_pending t] at bound
    exact (Nat.le_add_left ..).trans bound
  · obtain ⟨finish, full⟩ := reaches_desired fair
    have idle : ∀ t, finish ≤ t → stepAt desired caughtUp start t = none := by
      intro t le
      rcases nextStep_cases desired (grow desired caughtUp start t) with ⟨-, none⟩ | ⟨next, wanted, absent, -⟩
      · exact none _
      · exact absurd (grow_keeps le (full wanted)) absent
    exact ⟨finish, fun t le => ⟨idle t le, grow_idle le idle⟩, full, fun id voter => grow_keeps (Nat.zero_le _) voter⟩

theorem steady_progress_joining : ∃ finish, ∀ id ∈ [1, 2, 3],
    id ∈ (grow [1, 2, 3] (fun t _ => t % 3 = 2) ([1], []) finish).1 := by
  obtain ⟨-, -, -, finish, -, full, -⟩ := steady_progress [1, 2, 3] (fun t _ => t % 3 = 2) ([1], []) fun t id _ =>
    ⟨3 * t + 2, by omega, by simp⟩
  exact ⟨finish, full⟩

end Upreplicate

end Arcux.Server
