import Arcux.Percolator.Commands

namespace Arcux.Percolator.Store

variable {κ τ ν : Type} [DecidableEq κ] [LinearOrder τ]

/-- Commits of different transactions on one key have disjoint intervals, and a lock starts after all of them. -/
structure Serial (m : Store κ τ ν) : Prop where
  older : ∀ k s c s', m.owner k = some s → m.commit k c = some s' → c < s
  disjoint : ∀ k c c' s s', m.commit k c = some s → m.commit k c' = some s' → s ≠ s' → c < s' ∨ c' < s

/-- A command that may run in `m` without overlapping: an unlocked write passes the check of a prewrite, and a commit
finds its primary still locked by its transaction. -/
def Admits (m : Store κ τ ν) : Command κ τ ν → Prop
  | .autocommit k _ s _ => m.Clear k s
  | .prewrite _ _ _ _ => True
  | .commit p _ s _ => m.owner p = some s
  | .resolve _ _ _ => True

variable {m : Store κ τ ν}

omit [DecidableEq κ] in
theorem serial_empty : (empty : Store κ τ ν).Serial := ⟨nofun, nofun⟩

namespace Serial

section

variable (serial : m.Serial)

include serial

variable {k : κ} {s : τ}

theorem prewrite (clear : m.Clear k s) (v : ν) (p : κ) (ttl : τ) : (m.prewrite k v ⟨p, s, ttl⟩).Serial where
  older k' s' c s'' owned committed := by
    rw [prewrite_owner] at owned
    split_ifs at owned with same
    · cases owned
      exact clear.2 c s'' (same ▸ committed)
    · exact serial.older k' s' c s'' owned committed
  disjoint := serial.disjoint

theorem rollBack (k : κ) (s : τ) : (m.rollBack k s).Serial where
  older k' s' c s'' owned committed := by
    rw [rollBack_owner] at owned
    split_ifs at owned
    exact serial.older k' s' c s'' owned committed
  disjoint := serial.disjoint

theorem disjoint_insert {s c : τ} (older : ∀ c' s', m.commit k c' = some s' → c' < s) {k' : κ}
    {c₁ c₂ s₁ s₂ : τ} (first : (if k' = k ∧ c₁ = c then some s else m.commit k' c₁) = some s₁)
    (second : (if k' = k ∧ c₂ = c then some s else m.commit k' c₂) = some s₂) (differ : s₁ ≠ s₂) :
    c₁ < s₂ ∨ c₂ < s₁ := by
  split_ifs at first second with new₁ new₂ new₂
  · cases first
    cases second
    exact absurd rfl differ
  · cases first
    exact .inr (older c₂ s₂ (new₁.1 ▸ second))
  · cases second
    exact .inl (older c₁ s₁ (new₂.1 ▸ first))
  · exact serial.disjoint k' c₁ c₂ s₁ s₂ first second differ

theorem commitKey (owned : m.owner k = some s) (c : τ) : (m.commitKey k s c).Serial where
  older k' s' c' s'' owned' committed := by
    rw [commitKey_owner] at owned'
    split_ifs at owned' with other
    rw [commitKey_commit, if_neg (fun hit => other hit.1)] at committed
    exact serial.older k' s' c' s'' owned' committed
  disjoint k' c₁ c₂ s₁ s₂ first second differ :=
    serial.disjoint_insert (fun c' s' => serial.older k s c' s' owned) first second differ

theorem putCommitted (clear : m.Clear k s) (v : ν) (c : τ) : (m.putCommitted k v s c).Serial where
  older k' s' c' s'' owned committed := by
    have other : k' ≠ k := by
      rintro rfl
      exact nomatch clear.1.symm.trans owned
    have before : m.commit k' c' = some s'' := by simpa [Store.putCommitted, other] using committed
    exact serial.older k' s' c' s'' owned before
  disjoint k' c₁ c₂ s₁ s₂ first second differ := serial.disjoint_insert clear.2 first second differ

theorem resolveKey (s : τ) (c : Option τ) (k : κ) : (m.resolveKey s c k).Serial := by
  unfold Store.resolveKey
  split_ifs with owned
  · cases c with
    | none => exact serial.rollBack k s
    | some c => exact serial.commitKey owned c
  · exact serial

theorem foldl_resolveKey (s : τ) (c : Option τ) (keys : List κ) : (keys.foldl (Store.resolveKey s c) m).Serial := by
  induction keys generalizing m with
  | nil => exact serial
  | cons k rest ih => exact ih (serial.resolveKey s c k)

theorem acquire (p : κ) (s ttl : τ) (writes : List (κ × ν)) (acquired : List κ) :
    (m.acquire p s ttl writes acquired).1.Serial := by
  induction writes generalizing m acquired with
  | nil => exact serial
  | cons w rest ih =>
    rw [Store.acquire]
    split_ifs with clear
    · exact ih (serial.prewrite clear w.2 p ttl) _
    · exact serial

theorem apply {command : Command κ τ ν} (admits : m.Admits command) : (m.apply command).1.Serial := by
  cases command with
  | autocommit k v s c => exact serial.putCommitted admits v c
  | prewrite writes p s ttl =>
    have locked := serial.acquire p s ttl writes []
    simp only [Store.apply, Store.prewriteAll]
    split_ifs
    · exact locked
    · exact locked.foldl_resolveKey s none _
  | commit p keys s c => exact (serial.commitKey admits c).foldl_resolveKey s (some c) _
  | resolve keys s c => exact serial.foldl_resolveKey s c keys

end

end Serial

end Arcux.Percolator.Store
