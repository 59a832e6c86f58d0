import Mathlib.Data.List.Basic

namespace Arcux.Concurrency

open List

variable {ω σ W α β : Type} {ρ : ω → Type}

/-- A sequential program whose atomic steps are operations `ω`, each answered by a reply of type `ρ`. -/
inductive Prog (ω : Type) (ρ : ω → Type) (α : Type) where
  | ret (result : α)
  | call (op : ω) (next : ρ op → Prog ω ρ α)
  -- the bound of a loop is used up
  | halt

namespace Prog

def bind : Prog ω ρ α → (α → Prog ω ρ β) → Prog ω ρ β
  | ret a, next => next a
  | call op rest, next => call op (fun reply => (rest reply).bind next)
  | halt, _ => halt

instance : Monad (Prog ω ρ) where
  pure := ret
  bind := bind

def perform (op : ω) : Prog ω ρ (ρ op) := call op ret

@[simp] theorem pure_eq (a : α) : (pure a : Prog ω ρ α) = ret a := rfl

@[simp] theorem bind_ret (a : α) (next : α → Prog ω ρ β) : (ret a >>= next) = next a := rfl

@[simp] theorem bind_halt (next : α → Prog ω ρ β) : ((halt : Prog ω ρ α) >>= next) = halt := rfl

@[simp] theorem bind_call (op : ω) (rest : ρ op → Prog ω ρ α) (next : α → Prog ω ρ β) :
    (call op rest >>= next) = call op (fun reply => rest reply >>= next) := rfl

@[simp] theorem bind_perform (op : ω) (next : ρ op → Prog ω ρ β) : (perform op >>= next) = call op next := rfl

/-- Running a program alone: the state it leaves, and its result unless a loop bound is used up. -/
def eval (exec : (op : ω) → σ → σ × ρ op) : Prog ω ρ α → σ → σ × Option α
  | ret a, s => (s, some a)
  | call op next, s => (next (exec op s).2).eval exec (exec op s).1
  | halt, s => (s, none)

theorem eval_bind (exec : (op : ω) → σ → σ × ρ op) (p : Prog ω ρ α) (next : α → Prog ω ρ β) (s : σ) :
    (p >>= next).eval exec s =
      match p.eval exec s with
      | (s', some a) => (next a).eval exec s'
      | (s', none) => (s', none) := by
  induction p generalizing s with
  | ret a => rfl
  | call op rest ih => exact ih _ _
  | halt => rfl

theorem eval_map (exec : (op : ω) → σ → σ × ρ op) (p : Prog ω ρ α) (f : α → β) (s : σ) :
    ((p >>= fun a => pure (f a)).eval exec s).2 = (p.eval exec s).2.map f := by
  rw [eval_bind]
  cases p.eval exec s with
  | mk s' answer => cases answer <;> rfl

def within {ω' : Type} {ρ' : ω' → Type} (inject : ω → ω') (reply : ∀ op, ρ' (inject op) → ρ op) :
    Prog ω ρ α → Prog ω' ρ' α
  | ret a => ret a
  | call op next => call (inject op) fun r => (next (reply op r)).within inject reply
  | halt => halt

variable {ω' : Type}

theorem within_bind {ρ' : ω' → Type} (inject : ω → ω') (reply : ∀ op, ρ' (inject op) → ρ op)
    (p : Prog ω ρ α) (next : α → Prog ω ρ β) :
    (p >>= next).within inject reply = p.within inject reply >>= fun a => (next a).within inject reply := by
  induction p with
  | ret a => rfl
  | halt => rfl
  | call op rest ih => exact congrArg (call (inject op)) (funext fun r => ih _)

theorem eval_within {ω' σ' : Type} {ρ' : ω' → Type} {inject : ω → ω'} {reply : ∀ op, ρ' (inject op) → ρ op}
    {exec : (op : ω) → σ → σ × ρ op} {exec' : (op : ω') → σ' → σ' × ρ' op} (get : σ' → σ) (put : σ' → σ → σ')
    (get_put : ∀ s part, get (put s part) = part) (put_put : ∀ s part part', put (put s part) part' = put s part')
    (put_get : ∀ s, put s (get s) = s) (state : ∀ op s, (exec' (inject op) s).1 = put s (exec op (get s)).1)
    (answer : ∀ op s, reply op (exec' (inject op) s).2 = (exec op (get s)).2) (p : Prog ω ρ α) (s : σ') :
    (p.within inject reply).eval exec' s = (put s (p.eval exec (get s)).1, (p.eval exec (get s)).2) := by
  induction p generalizing s with
  | ret a => exact Prod.ext (put_get s).symm rfl
  | halt => exact Prod.ext (put_get s).symm rfl
  | call op next ih =>
    rw [within, eval, ih, state, answer, get_put, put_put]
    rfl

def nextOp : Prog ω ρ α → Option ω
  | call op _ => some op
  | _ => none

def Performs (allowed : ω → Prop) : Prog ω ρ α → Prop
  | ret _ | halt => True
  | call op next => allowed op ∧ ∀ reply, (next reply).Performs allowed

variable {allowed : ω → Prop} {p : Prog ω ρ α}

theorem performs_of_forall (all : ∀ op, allowed op) (p : Prog ω ρ α) : p.Performs allowed := by
  induction p with
  | ret a => trivial
  | halt => trivial
  | call op next ih => exact ⟨all op, ih⟩

theorem Performs.mono {allowed' : ω → Prop} (weaker : ∀ op, allowed op → allowed' op) (performs : p.Performs allowed) :
    p.Performs allowed' := by
  induction p with
  | ret a => trivial
  | halt => trivial
  | call op next ih => exact ⟨weaker op performs.1, fun reply => ih reply (performs.2 reply)⟩

theorem Performs.bind {next : α → Prog ω ρ β} (first : p.Performs allowed)
    (rest : ∀ a, (next a).Performs allowed) : (p >>= next).Performs allowed := by
  induction p with
  | ret a => exact rest a
  | halt => trivial
  | call op inner ih => exact ⟨first.1, fun reply => ih reply (first.2 reply)⟩

theorem Performs.answered {ε : Type} {p : ExceptT ε (Prog ω ρ) α}
    {next : α → ExceptT ε (Prog ω ρ) β} (first : p.run.Performs allowed) (rest : ∀ a, (next a).run.Performs allowed) :
    (p >>= next).run.Performs allowed := by
  refine Performs.bind (p := p.run) first fun r => ?_
  cases r with
  | ok a => exact rest a
  | error e => trivial

theorem Performs.within {ρ' : ω' → Type} {inject : ω → ω'} {reply : ∀ op, ρ' (inject op) → ρ op}
    {allowed' : ω' → Prop} (carries : ∀ op, allowed op → allowed' (inject op))
    (performs : p.Performs allowed) : (p.within inject reply).Performs allowed' := by
  induction p with
  | ret a => trivial
  | halt => trivial
  | call op next ih => exact ⟨carries op performs.1, fun r => ih _ (performs.2 _)⟩

end Prog

/-- Programs that share a state; a schedule names, step by step, the program that moves. -/
structure Pool (σ ω : Type) (ρ : ω → Type) (α : Type) where
  state : σ
  tasks : List (Prog ω ρ α)

namespace Pool

variable (exec : (op : ω) → σ → σ × ρ op)

def step (pool : Pool σ ω ρ α) (i : Nat) : Pool σ ω ρ α :=
  match pool.tasks[i]? with
  | some (.call op next) => ⟨(exec op pool.state).1, pool.tasks.set i (next (exec op pool.state).2)⟩
  | _ => pool

def run (pool : Pool σ ω ρ α) (schedule : List Nat) : Pool σ ω ρ α := schedule.foldl (step exec) pool

def result (pool : Pool σ ω ρ α) (i : Nat) : Option α :=
  match pool.tasks[i]? with
  | some (.ret a) => some a
  | _ => none

theorem run_append (pool : Pool σ ω ρ α) (first second : List Nat) :
    pool.run exec (first ++ second) = (pool.run exec first).run exec second :=
  foldl_append

def pending (pool : Pool σ ω ρ α) (i : Nat) : Option ω := pool.tasks[i]?.bind Prog.nextOp

variable {schedule : List Nat} {i : Nat}

theorem tasks_run_of_notMem (idle : i ∉ schedule) (pool : Pool σ ω ρ α) :
    (pool.run exec schedule).tasks[i]? = pool.tasks[i]? := by
  induction schedule generalizing pool with
  | nil => rfl
  | cons j rest ih =>
    obtain ⟨other, idle'⟩ := not_or.mp (mem_cons.not.mp idle)
    refine (ih idle' _).trans ?_
    unfold step
    split
    · exact getElem?_set_ne (Ne.symm other)
    · rfl

variable {pool : Pool σ ω ρ α} {allowed : ω → Prop}

theorem performs_step (each : ∀ p, pool.tasks[i]? = some p → p.Performs allowed) (j : Nat) :
    ∀ p, (pool.step exec j).tasks[i]? = some p → p.Performs allowed := by
  unfold step
  split
  case h_2 => exact each
  case h_1 op next task =>
    intro p found
    rcases eq_or_ne i j with rfl | other
    · obtain ⟨-, rfl⟩ : _ ∧ next (exec op pool.state).2 = p := by
        simpa [getElem?_set, getElem?_eq_some_iff] using found
      exact (each _ task).2 _
    · rw [getElem?_set_ne other.symm] at found
      exact each p found

theorem performs_run (each : ∀ p, pool.tasks[i]? = some p → p.Performs allowed) (schedule : List Nat) :
    ∀ p, (pool.run exec schedule).tasks[i]? = some p → p.Performs allowed := by
  induction schedule generalizing pool with
  | nil => exact each
  | cons j rest ih => exact ih (performs_step exec each j)

theorem performs_pending
    (each : ∀ p, pool.tasks[i]? = some p → p.Performs allowed) : ∀ op ∈ pool.pending i, allowed op := by
  intro op next
  obtain ⟨p, task, first⟩ := Option.bind_eq_some_iff.mp next
  cases p with
  | ret a => cases first
  | halt => cases first
  | call op' rest =>
    cases first
    exact (each _ task).1

theorem state_step (pool : Pool σ ω ρ α) (i : Nat) :
    (pool.step exec i).state = match pool.pending i with
      | some op => (exec op pool.state).1
      | none => pool.state := by
  unfold step pending
  cases pool.tasks[i]? with
  | none => rfl
  | some p => cases p <;> rfl

theorem run_eval {p : Prog ω ρ α} {s : σ} {a : α} (task : pool.tasks[i]? = some p)
    (ends : p.eval exec pool.state = (s, some a)) :
    ∃ n, pool.run exec (List.replicate n i) = ⟨s, pool.tasks.set i (.ret a)⟩ := by
  obtain ⟨inside, here⟩ := List.getElem?_eq_some_iff.mp task
  induction p generalizing pool with
  | ret b =>
    cases ends
    refine ⟨0, ?_⟩
    rw [← here, set_getElem_self]
    rfl
  | halt => cases ends
  | call op next ih =>
    have moved : pool.step exec i = ⟨(exec op pool.state).1, pool.tasks.set i (next (exec op pool.state).2)⟩ := by
      rw [step, task]
    have task' : (pool.step exec i).tasks[i]? = some (next (exec op pool.state).2) := by simp [moved, inside]
    obtain ⟨inside', here'⟩ := List.getElem?_eq_some_iff.mp task'
    obtain ⟨n, reached⟩ := ih _ task' (by rw [moved]; exact ends) inside' here'
    refine ⟨n + 1, reached.trans ?_⟩
    rw [moved, set_set]

def Guarded (guard : ω → σ → Prop) (pool : Pool σ ω ρ α) : List Nat → Prop
  | [] => True
  | i :: rest => (∀ op ∈ pool.pending i, guard op pool.state) ∧ Guarded guard (pool.step exec i) rest

instance decideGuarded (guard : ω → σ → Prop) [∀ op s, Decidable (guard op s)] :
    (pool : Pool σ ω ρ α) → (schedule : List Nat) → Decidable (pool.Guarded exec guard schedule)
  | _, [] => .isTrue trivial
  | pool, i :: rest =>
    have := decideGuarded guard (pool.step exec i) rest
    inferInstanceAs (Decidable (_ ∧ _))

theorem Guarded.mono {guard guard' : ω → σ → Prop} (weaker : ∀ op s, guard op s → guard' op s)
    (guarded : pool.Guarded exec guard schedule) : pool.Guarded exec guard' schedule := by
  induction schedule generalizing pool with
  | nil => trivial
  | cons i rest ih => exact ⟨fun op next => weaker op _ (guarded.1 op next), ih guarded.2⟩

variable {guard : ω → σ → Prop}

theorem guarded_replicate (each : ∀ p, pool.tasks[i]? = some p → p.Performs fun op => ∀ s, guard op s) (n : Nat) :
    pool.Guarded exec guard (replicate n i) := by
  induction n generalizing pool with
  | zero => trivial
  | succ n ih => exact ⟨fun op next => performs_pending each op next _, ih (performs_step exec each i)⟩

theorem guarded_append {first second : List Nat} :
    pool.Guarded exec guard (first ++ second) ↔
      pool.Guarded exec guard first ∧ (pool.run exec first).Guarded exec guard second := by
  induction first generalizing pool with
  | nil => simp [Guarded, run]
  | cons i rest ih => exact (and_congr_right fun _ => ih).trans and_assoc.symm

end Pool

/-- Rely-guarantee reasoning over worlds, the auxiliary state of a proof: `rely i` is what the other programs may do
to the world between two steps of program `i`, and `grows` what any step may do. -/
structure Discipline (ω : Type) (ρ : ω → Type) (σ W : Type) where
  exec : (op : ω) → σ → σ × ρ op
  guard : ω → σ → Prop
  inv : W → σ → Prop
  grows : W → W → Prop
  rely : Nat → W → W → Prop
  grows_refl : ∀ w, grows w w
  grows_trans : ∀ {w w' w''}, grows w w' → grows w' w'' → grows w w''
  rely_refl : ∀ i w, rely i w w
  rely_trans : ∀ {i w w' w''}, rely i w w' → rely i w' w'' → rely i w w''
  rely_grows : ∀ {i w w'}, rely i w w' → grows w w'

def Answers {ε : Type} (P : W → α → Prop) (w : W) (r : Except ε α) : Prop := ∀ a, r = .ok a → P w a

namespace Discipline

variable (d : Discipline ω ρ σ W)

/-- From world `w` on, every step of program `i` keeps the invariant and disturbs no other program, and what it returns
meets `post`. -/
def Safe (i : Nat) : Prog ω ρ α → W → (W → α → Prop) → Prop
  | .ret a, w, post => ∀ w', d.rely i w w' → post w' a
  | .halt, _, _ => True
  | .call op next, w, post => ∀ w', d.rely i w w' → ∀ s, d.inv w' s → d.guard op s →
      ∃ w'', d.grows w' w'' ∧ (∀ j, j ≠ i → d.rely j w' w'') ∧ d.inv w'' (d.exec op s).1 ∧
        Safe i (next (d.exec op s).2) w'' post

variable {d} {i : Nat} {p : Prog ω ρ α}

theorem Safe.relied {w w' : W} {post : W → α → Prop} (safe : d.Safe i p w post)
    (relied : d.rely i w w') : d.Safe i p w' post := by
  cases p with
  | ret a => exact fun v later => safe v (d.rely_trans relied later)
  | halt => exact safe
  | call op next => exact fun v later => safe v (d.rely_trans relied later)

variable {w : W}

theorem Safe.bind {next : α → Prog ω ρ β} {mid : W → α → Prop} {post : W → β → Prop} (safe : d.Safe i p w mid)
    (rest : ∀ w' a, d.grows w w' → mid w' a → d.Safe i (next a) w' post) : d.Safe i (p >>= next) w post := by
  induction p generalizing w with
  | ret a => exact rest w a (d.grows_refl w) (safe w (d.rely_refl i w))
  | halt => exact safe
  | call op inner ih =>
    intro w' relied s holds guarded
    obtain ⟨w'', grown, others, kept, safe'⟩ := safe w' relied s holds guarded
    refine ⟨w'', grown, others, kept, ih _ safe' fun v a later => rest v a ?_⟩
    exact d.grows_trans (d.grows_trans (d.rely_grows relied) grown) later

theorem Safe.mono {post post' : W → α → Prop} (safe : d.Safe i p w post)
    (weaker : ∀ w' a, d.grows w w' → post w' a → post' w' a) : d.Safe i p w post' := by
  induction p generalizing w with
  | ret a => exact fun w' relied => weaker w' a (d.rely_grows relied) (safe w' relied)
  | halt => exact safe
  | call op next ih =>
    intro w' relied s holds guarded
    obtain ⟨w'', grown, others, kept, safe'⟩ := safe w' relied s holds guarded
    refine ⟨w'', grown, others, kept, ih _ safe' fun v a later => weaker v a ?_⟩
    exact d.grows_trans (d.grows_trans (d.rely_grows relied) grown) later

theorem Safe.answered {ε : Type} {p : ExceptT ε (Prog ω ρ) α} {next : α → ExceptT ε (Prog ω ρ) β}
    {P : W → α → Prop} {Q : W → β → Prop} (safe : d.Safe i p.run w (Answers P))
    (rest : ∀ w' a, d.grows w w' → P w' a → d.Safe i (next a).run w' (Answers Q)) :
    d.Safe i (p >>= next).run w (Answers Q) := by
  refine Safe.bind (p := p.run) safe fun w' r grown answered => ?_
  cases r with
  | ok a => exact rest w' a grown (answered a rfl)
  | error e => exact fun _ _ => nofun

def Sound (d : Discipline ω ρ σ W) (posts : Nat → W → α → Prop) (w : W) (pool : Pool σ ω ρ α) : Prop :=
  d.inv w pool.state ∧ ∀ i p, pool.tasks[i]? = some p → d.Safe i p w (posts i)

variable {pool : Pool σ ω ρ α}

theorem Sound.mono {posts posts' : Nat → W → α → Prop} (sound : d.Sound posts w pool)
    (weaker : ∀ i w' a, posts i w' a → posts' i w' a) : d.Sound posts' w pool :=
  ⟨sound.1, fun i p task => (sound.2 i p task).mono fun w' a _ => weaker i w' a⟩

variable {posts : Nat → W → α → Prop}

theorem Sound.step (sound : d.Sound posts w pool) (guarded : ∀ op ∈ pool.pending i, d.guard op pool.state) :
    ∃ w', d.grows w w' ∧ d.Sound posts w' (pool.step d.exec i) := by
  obtain ⟨holds, safe⟩ := sound
  unfold Pool.step
  split
  case h_2 => exact ⟨w, d.grows_refl w, holds, safe⟩
  case h_1 op next task =>
    have allowed : d.guard op pool.state := guarded op (by simp [Pool.pending, task, Prog.nextOp])
    obtain ⟨w', grown, others, kept, safe'⟩ := safe i _ task w (d.rely_refl i w) _ holds allowed
    refine ⟨w', grown, kept, fun j p found => ?_⟩
    rcases eq_or_ne j i with rfl | other
    · obtain ⟨-, rfl⟩ : _ ∧ next (d.exec op pool.state).2 = p := by
        simpa [getElem?_set, getElem?_eq_some_iff] using found
      exact safe'
    · rw [getElem?_set_ne other.symm] at found
      exact (safe j p found).relied (others j other)

theorem Sound.run {schedule : List Nat}
    (sound : d.Sound posts w pool) (guarded : pool.Guarded d.exec d.guard schedule) :
    ∃ w', d.grows w w' ∧ d.Sound posts w' (pool.run d.exec schedule) := by
  induction schedule generalizing w pool with
  | nil => exact ⟨w, d.grows_refl w, sound⟩
  | cons i rest ih =>
    obtain ⟨w', grown, sound'⟩ := sound.step guarded.1
    obtain ⟨w'', later, sound''⟩ := ih sound' guarded.2
    exact ⟨w'', d.grows_trans grown later, sound''⟩

theorem Sound.result {a : α} (sound : d.Sound posts w pool) (returned : pool.result i = some a) : posts i w a := by
  unfold Pool.result at returned
  split at returned
  case h_2 => cases returned
  case h_1 task =>
    cases returned
    exact sound.2 i _ task w (d.rely_refl i w)

end Discipline

end Arcux.Concurrency
