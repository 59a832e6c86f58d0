import Arcux.Concurrency.Interleaving

namespace Arcux.Concurrency.Prog

variable {ω σ α β : Type} {ρ : ω → Type}

def evalFor (exec : (op : ω) → σ → σ × ρ op) : Prog ω ρ α → Nat → σ → σ × Option α
  | ret a, _, s => (s, some a)
  | call _ _, 0, s => (s, none)
  | call op next, steps + 1, s => (next (exec op s).2).evalFor exec steps (exec op s).1
  | halt, _, s => (s, none)

def GuardedFor (exec : (op : ω) → σ → σ × ρ op) (guard : ω → σ → Prop) : Prog ω ρ α → Nat → σ → Prop
  | call op next, steps + 1, s => guard op s ∧ (next (exec op s).2).GuardedFor exec guard steps (exec op s).1
  | _, _, _ => True

instance decideGuardedFor (exec : (op : ω) → σ → σ × ρ op) (guard : ω → σ → Prop) [∀ op s, Decidable (guard op s)] :
    (p : Prog ω ρ α) → (steps : Nat) → (s : σ) → Decidable (p.GuardedFor exec guard steps s)
  | ret _, _, _ => .isTrue trivial
  | halt, _, _ => .isTrue trivial
  | call _ _, 0, _ => .isTrue trivial
  | call op next, steps + 1, s =>
    have := decideGuardedFor exec guard (next (exec op s).2) steps (exec op s).1
    inferInstanceAs (Decidable (_ ∧ _))

/-- As long as the guards are met the program never halts, leaves a state that meets `kept` after every operation, and
ends in one that meets `post`. -/
def Endures (exec : (op : ω) → σ → σ × ρ op) (guard : ω → σ → Prop) (kept : σ → Prop) (post : α → σ → Prop) :
    Prog ω ρ α → σ → Prop
  | ret a, s => post a s
  | halt, _ => False
  | call op next, s =>
    guard op s → kept (exec op s).1 ∧ (next (exec op s).2).Endures exec guard kept post (exec op s).1

variable {exec : (op : ω) → σ → σ × ρ op} {guard : ω → σ → Prop} {kept : σ → Prop} {p : Prog ω ρ α} {s : σ}

theorem Endures.bind {next : α → Prog ω ρ β} {mid : α → σ → Prop} {post : β → σ → Prop}
    (first : p.Endures exec guard kept mid s) (second : ∀ a s', mid a s' → (next a).Endures exec guard kept post s') :
    (p >>= next).Endures exec guard kept post s := by
  induction p generalizing s with
  | ret a => exact second a s first
  | halt => exact first
  | call op rest ih => exact fun met => ⟨(first met).1, ih _ (first met).2⟩

theorem Endures.mono {post post' : α → σ → Prop} (endures : p.Endures exec guard kept post s)
    (weaker : ∀ a s', post a s' → post' a s') : p.Endures exec guard kept post' s := by
  induction p generalizing s with
  | ret a => exact weaker a s endures
  | halt => exact endures
  | call op rest ih => exact fun met => ⟨(endures met).1, ih _ (endures met).2⟩

variable {post : α → σ → Prop} {steps : Nat}

theorem Endures.evalFor (endures : p.Endures exec guard kept post s) (before : kept s)
    (met : p.GuardedFor exec guard steps s) : kept (p.evalFor exec steps s).1 := by
  induction p generalizing s steps with
  | ret a => exact before
  | halt => exact before
  | call op rest ih =>
    cases steps with
    | zero => exact before
    | succ steps => exact ih _ (endures met.1).2 (endures met.1).1 met.2

variable {guard' : ω → σ → Prop}

theorem GuardedFor.mono (met : p.GuardedFor exec guard steps s)
    (weaker : ∀ op s', guard op s' → guard' op s') : p.GuardedFor exec guard' steps s := by
  induction p generalizing s steps with
  | ret a => trivial
  | halt => trivial
  | call op rest ih =>
    cases steps with
    | zero => trivial
    | succ steps => exact ⟨weaker _ _ met.1, ih _ met.2⟩

theorem evalFor_keeps (step : ∀ op s, kept s → kept (exec op s).1) (p : Prog ω ρ α) (steps : Nat)
    (before : kept s) : kept (p.evalFor exec steps s).1 := by
  induction p generalizing s steps with
  | ret a => exact before
  | halt => exact before
  | call op rest ih =>
    cases steps with
    | zero => exact before
    | succ steps => exact ih _ steps (step op s before)

theorem guardedFor_free (p : Prog ω ρ α) (steps : Nat) (s : σ) : p.GuardedFor exec (fun _ _ => True) steps s := by
  induction p generalizing s steps with
  | ret a => trivial
  | halt => trivial
  | call op rest ih =>
    cases steps with
    | zero => trivial
    | succ steps => exact ⟨trivial, ih _ steps _⟩

theorem Endures.eval (endures : p.Endures exec (fun _ _ => True) kept post s) :
    ∃ a s', p.eval exec s = (s', some a) ∧ post a s' := by
  induction p generalizing s with
  | ret a => exact ⟨a, s, rfl, endures⟩
  | halt => exact endures.elim
  | call op rest ih => exact ih _ (endures trivial).2

theorem Endures.strengthen (endures : p.Endures exec guard kept post s)
    (stronger : ∀ op s', guard' op s' → guard op s') : p.Endures exec guard' kept post s := by
  induction p generalizing s with
  | ret a => exact endures
  | halt => exact endures
  | call op rest ih => exact fun met => ⟨(endures (stronger _ _ met)).1, ih _ (endures (stronger _ _ met)).2⟩

end Arcux.Concurrency.Prog
