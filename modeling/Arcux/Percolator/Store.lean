import Mathlib.Order.Lattice

namespace Arcux.Percolator

variable {κ τ ν : Type}

structure Lock (κ τ : Type) where
  primary : κ
  start : τ
  ttl : τ

/-- A multi-version store with locks: per key at most one lock, the commit records by commit timestamp, each naming the
start timestamp of its transaction, and the values by start timestamp. -/
@[ext] structure Store (κ τ ν : Type) where
  lock : κ → Option (Lock κ τ)
  commit : κ → τ → Option τ
  value : κ → τ → Option ν

namespace Store

def empty : Store κ τ ν := ⟨fun _ => none, fun _ _ => none, fun _ _ => none⟩

def owner (m : Store κ τ ν) (k : κ) : Option τ := (m.lock k).map Lock.start

theorem owner_eq_none {m : Store κ τ ν} {k : κ} : m.owner k = none ↔ m.lock k = none := by simp [owner]

def Clear [LT τ] (m : Store κ τ ν) (k : κ) (s : τ) : Prop := m.owner k = none ∧ ∀ c s', m.commit k c = some s' → c < s

def Shows [LE τ] (m : Store κ τ ν) (k : κ) (r : τ) (shown : Option ν) : Prop :=
  (∃ c s, m.commit k c = some s ∧ c ≤ r ∧ (∀ c' s', m.commit k c' = some s' → c' ≤ r → c' ≤ c) ∧ shown = m.value k s) ∨
    (∀ c s, m.commit k c = some s → ¬ c ≤ r) ∧ shown = none

theorem shows_unique [PartialOrder τ] {m : Store κ τ ν} {k : κ} {r : τ} {shown shown' : Option ν}
    (first : m.Shows k r shown) (second : m.Shows k r shown') : shown = shown' := by
  rcases first with ⟨c, s, found, le, newest, rfl⟩ | ⟨none, rfl⟩ <;>
    rcases second with ⟨c', s', found', le', newest', rfl⟩ | ⟨none', rfl⟩
  · obtain rfl : c = c' := le_antisymm (newest' c s found le) (newest c' s' found' le')
    obtain rfl : s = s' := Option.some.inj (found.symm.trans found')
    rfl
  · exact absurd le (none' c s found)
  · exact absurd le' (none c' s' found')
  · rfl

variable [DecidableEq κ] [DecidableEq τ]

def prewrite (m : Store κ τ ν) (k : κ) (v : ν) (l : Lock κ τ) : Store κ τ ν where
  lock k' := if k' = k then some l else m.lock k'
  commit := m.commit
  value k' s' := if k' = k ∧ s' = l.start then some v else m.value k' s'

def commitKey (m : Store κ τ ν) (k : κ) (s c : τ) : Store κ τ ν where
  lock k' := if k' = k then none else m.lock k'
  commit k' c' := if k' = k ∧ c' = c then some s else m.commit k' c'
  value := m.value

def rollBack (m : Store κ τ ν) (k : κ) (s : τ) : Store κ τ ν where
  lock k' := if k' = k then none else m.lock k'
  commit := m.commit
  value k' s' := if k' = k ∧ s' = s then none else m.value k' s'

def putCommitted (m : Store κ τ ν) (k : κ) (v : ν) (s c : τ) : Store κ τ ν where
  lock := m.lock
  commit k' c' := if k' = k ∧ c' = c then some s else m.commit k' c'
  value k' s' := if k' = k ∧ s' = s then some v else m.value k' s'

section

variable (m : Store κ τ ν) (k k' : κ) (v : ν) (l : Lock κ τ) (s s' c c' : τ)

@[simp, grind =] theorem prewrite_lock : (m.prewrite k v l).lock k' = if k' = k then some l else m.lock k' := rfl

@[simp, grind =] theorem prewrite_owner :
    (m.prewrite k v l).owner k' = if k' = k then some l.start else m.owner k' := by
  unfold owner
  split_ifs with same <;> simp [same]

@[simp, grind =] theorem prewrite_commit : (m.prewrite k v l).commit k' c' = m.commit k' c' := rfl

@[simp, grind =] theorem prewrite_value :
    (m.prewrite k v l).value k' s' = if k' = k ∧ s' = l.start then some v else m.value k' s' := rfl

@[simp, grind =] theorem commitKey_lock : (m.commitKey k s c).lock k' = if k' = k then none else m.lock k' := rfl

@[simp, grind =] theorem commitKey_owner : (m.commitKey k s c).owner k' = if k' = k then none else m.owner k' := by
  unfold owner
  split_ifs with same <;> simp [same]

@[simp, grind =] theorem commitKey_commit :
    (m.commitKey k s c).commit k' c' = if k' = k ∧ c' = c then some s else m.commit k' c' := rfl

@[simp, grind =] theorem commitKey_value : (m.commitKey k s c).value k' s' = m.value k' s' := rfl

@[simp, grind =] theorem rollBack_lock : (m.rollBack k s).lock k' = if k' = k then none else m.lock k' := rfl

@[simp, grind =] theorem rollBack_owner : (m.rollBack k s).owner k' = if k' = k then none else m.owner k' := by
  unfold owner
  split_ifs with same <;> simp [same]

@[simp, grind =] theorem rollBack_commit : (m.rollBack k s).commit k' c' = m.commit k' c' := rfl

@[simp, grind =] theorem rollBack_value :
    (m.rollBack k s).value k' s' = if k' = k ∧ s' = s then none else m.value k' s' := rfl

end

end Store

end Arcux.Percolator
