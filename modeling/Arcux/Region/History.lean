import Arcux.Region.Commands
import Arcux.Percolator.Serial

namespace Arcux.Region

open Codec Engine List
open scoped Codec.ByteOrder

variable {space : KeySpace} {db : Db}

/-- A command that respects the locks it meets: an autocommit passes the check of a prewrite, and a commit finds its
primary still locked by its transaction. -/
inductive Command.Respects (space : KeySpace) (db : Db) : Command → Prop
  | autocommit {key : Bytes} (mem : key ∈ space.keys) (value : Value) (startTs commitTs : Ts)
      (clear : db.checkPrewrite key startTs = .ok ()) :
      Respects space db (.autocommit (committedBatch key value startTs commitTs))
  | prewrite {mutations : List Mutation} {primary : Bytes} (mem : ∀ m ∈ mutations, m.key ∈ space.keys)
      (home : primary ∈ space.keys) (startTs ttl : Ts) : Respects space db (.prewrite mutations primary startTs ttl)
  | commit {primary : Bytes} {keys : List Bytes} (home : primary ∈ space.keys) (mem : ∀ k ∈ keys, k ∈ space.keys)
      (commitTs : Ts) {lock : Lock} (held : db.currentLock primary = .ok (some lock)) :
      Respects space db (.commit primary keys lock.startTs commitTs)
  | resolve {keys : List Bytes} (mem : ∀ k ∈ keys, k ∈ space.keys) (startTs commitTs : Ts) :
      Respects space db (.resolve keys startTs commitTs)

def Respectful (space : KeySpace) : Db → List Command → Prop
  | _, [] => True
  | db, command :: rest => command.Respects space db ∧ Respectful space (makeApply db command).1 rest

variable {command : Command}

theorem Command.Respects.admits (respects : command.Respects space db)
    (formed : db.Formed space) : ∃ meaning, command.Denotes space meaning ∧ db.view.Admits meaning := by
  cases respects with
  | autocommit mem value startTs commitTs clear =>
    exact ⟨_, .autocommit mem value startTs commitTs, (Db.checkPrewrite_iff formed mem startTs).mp clear⟩
  | prewrite mem home startTs ttl => exact ⟨_, .prewrite mem home startTs ttl, trivial⟩
  | @commit primary keys home mem commitTs lock held =>
    refine ⟨_, .commit home mem lock.startTs commitTs, ?_⟩
    obtain ⟨lock?, answer, seen⟩ := formed.currentLock primary
    obtain rfl : lock? = some lock := Except.ok.inj (answer.symm.trans held)
    simp [Percolator.Store.Admits, Percolator.Store.owner, seen]
  | resolve mem startTs commitTs => exact ⟨_, .resolve mem startTs commitTs, trivial⟩

variable {log : List Command}

theorem Respectful.serial (respectful : Respectful space db log) (formed : db.Formed space)
    (serial : db.view.Serial) : (applyLog db log).view.Serial := by
  induction log generalizing db with
  | nil => exact serial
  | cons command rest ih =>
    obtain ⟨meaning, denotes, admits⟩ := respectful.1.admits formed
    obtain ⟨db', result, applied, formed', outcome⟩ := makeApply_view formed denotes
    have later := respectful.2
    rw [applied] at later
    have serial' : db'.view.Serial := by
      rw [show db'.view = (db.view.apply meaning).1 from congrArg Prod.fst outcome]
      exact serial.apply admits
    have step : applyLog db (command :: rest) = applyLog db' rest := by
      rw [applyLog, foldl_cons, applied]
      rfl
    rw [step]
    exact ih later formed' serial'

theorem first_committer_wins (space : KeySpace) (log : List Command) (respectful : Respectful space .empty log)
    (key : Bytes) (startTs startTs' commitTs commitTs' : Ts)
    (first : (applyLog .empty log).view.commit key commitTs = some startTs)
    (second : (applyLog .empty log).view.commit key commitTs' = some startTs') (differ : startTs ≠ startTs') :
    commitTs < startTs' ∨ commitTs' < startTs :=
  (respectful.serial (Db.formed_empty space) Percolator.Store.serial_empty).disjoint
    key commitTs commitTs' startTs startTs' first second differ

def orderly : List Command :=
  [.prewrite [⟨[1], .put [7]⟩] [1] 1 100, .commit [1] [[1]] 1 2, .autocommit (committedBatch [1] (.put [8]) 3 4)]

theorem first_committer_wins_orderly : (2 : Ts) < 3 ∨ (4 : Ts) < 1 := by
  have held : (applyLog .empty (orderly.take 1)).currentLock [1] = .ok (some ⟨[1], 1, 100, .put⟩) := rfl
  have clear : (applyLog .empty (orderly.take 2)).checkPrewrite [1] 3 = .ok () := rfl
  have written : ∀ m ∈ [(⟨[1], .put [7]⟩ : Mutation)], m.key ∈ KeySpace.oneByte.keys :=
    forall_mem_singleton.mpr rfl
  have keys : ∀ k ∈ [([1] : Bytes)], k ∈ KeySpace.oneByte.keys := forall_mem_singleton.mpr rfl
  have respectful : Respectful .oneByte .empty orderly :=
    ⟨.prewrite written rfl 1 100, .commit rfl keys 2 held, .autocommit rfl (.put [8]) 3 4 clear, trivial⟩
  exact first_committer_wins .oneByte orderly respectful [1] 1 3 2 4 (by decide +kernel) (by decide +kernel) (by decide)

def overtaking : List Command :=
  [.prewrite [⟨[1], .put [7]⟩] [1] 1 100, .autocommit (committedBatch [1] (.put [8]) 2 3), .commit [1] [[1]] 1 4]

/-- The prewrite succeeds, and both transactions end committed on the key, one inside the interval of the other. -/
theorem intervals_overlap : (overtaking.take 1).all (fun c => (makeApply .empty c).2.map Except.isOk = some true) ∧
    (applyLog .empty overtaking).view.commit [1] 4 = some 1 ∧
    (applyLog .empty overtaking).view.commit [1] 3 = some 2 ∧ (1 : Ts) ≤ 2 ∧ (3 : Ts) ≤ 4 := by
  decide +kernel

end Arcux.Region
