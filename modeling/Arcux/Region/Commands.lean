import Arcux.Engine.Sequential
import Arcux.Percolator.Commands

namespace Arcux.Region

open Codec Engine List
open scoped Codec.ByteOrder

inductive Command where
  | autocommit (batch : WriteBatch)
  | prewrite (mutations : List Mutation) (primary : Bytes) (startTs ttl : Ts)
  | commit (primary : Bytes) (keys : List Bytes) (startTs commitTs : Ts)
  | resolve (keys : List Bytes) (startTs commitTs : Ts)
  deriving Repr, DecidableEq

def committedBatch (key : Bytes) (value : Value) (startTs commitTs : Ts) : WriteBatch :=
  ({} : WriteBatch)
    |>.put .default (encodeDataKey key startTs) value.encode
    |>.put .write (encodeDataKey key commitTs) (encodeWriteValue startTs)

def prewriteRegion (mutations : List Mutation) (primary : Bytes) (startTs ttl : Ts) : Program Unit :=
  prewriteAll primary startTs ttl mutations

def resolveOne (startTs commitTs : Ts) (key : Bytes) : Program Unit :=
  if commitTs = 0 then resolveRollback key startTs else resolveCommit key startTs commitTs

def resolveKeys (startTs commitTs : Ts) : List Bytes → Program Unit
  | [] => pure ()
  | key :: rest => do
    resolveOne startTs commitTs key
    resolveKeys startTs commitTs rest

def commitTransaction (primary : Bytes) (keys : List Bytes) (startTs : Ts) : Transaction :=
  ⟨startTs, ⟨primary, .delete⟩, (keys.filter (· ≠ primary)).map (⟨·, .delete⟩)⟩

def Command.program : Command → Program Unit
  | autocommit batch => do
    let _ ← write batch
  | prewrite mutations primary startTs ttl => prewriteRegion mutations primary startTs ttl
  | resolve keys startTs commitTs => resolveKeys startTs commitTs keys
  | commit primary keys startTs commitTs => (commitTransaction primary keys startTs).commit commitTs

/-- Apply a committed command; the election's empty entry and undecodable ones never reach this point. -/
def makeApply (db : Db) (command : Command) : Db × Option (Except Error Unit) :=
  let done := command.program.run.eval Access.exec ⟨db, .fresh⟩
  (done.1.db, done.2)

def applyLog (db : Db) (log : List Command) : Db := log.foldl (fun db command => (makeApply db command).1) db

/-- The command of the abstract store that a replicated command over user keys of `space` stands for. -/
inductive Command.Denotes (space : KeySpace) : Command → Percolator.Command Bytes Ts Value → Prop
  | autocommit {key : Bytes} (mem : key ∈ space.keys) (value : Value) (startTs commitTs : Ts) :
      Denotes space (.autocommit (committedBatch key value startTs commitTs))
        (.autocommit key value startTs commitTs)
  | prewrite {mutations : List Mutation} {primary : Bytes} (mem : ∀ m ∈ mutations, m.key ∈ space.keys)
      (home : primary ∈ space.keys) (startTs ttl : Ts) :
      Denotes space (.prewrite mutations primary startTs ttl)
        (.prewrite (mutations.map fun m => (m.key, m.value)) primary startTs ttl)
  | commit {primary : Bytes} {keys : List Bytes} (home : primary ∈ space.keys) (mem : ∀ k ∈ keys, k ∈ space.keys)
      (startTs commitTs : Ts) :
      Denotes space (.commit primary keys startTs commitTs) (.commit primary keys startTs commitTs)
  | resolve {keys : List Bytes} (mem : ∀ k ∈ keys, k ∈ space.keys) (startTs commitTs : Ts) :
      Denotes space (.resolve keys startTs commitTs)
        (.resolve keys startTs (if commitTs = 0 then none else some commitTs))

variable {space : KeySpace} {db : Db} {key : Bytes}

theorem resolve_runs (formed : db.Formed space) (mem : key ∈ space.keys) (startTs : Ts) (action : ResolveAction) :
    ∃ db', Runs (do let _ ← submit (.resolve ⟨key, startTs, action⟩) : Program Unit).run db db' (.ok ()) ∧
      db'.Formed space ∧ db'.view = db.view.resolveKey startTs
        (match action with | .commit commitTs => some commitTs | .rollback => none) key := by
  obtain ⟨⟨seq, answer⟩, formed'⟩ := Db.process_resolve formed mem startTs action
  have seen := Db.view_process_resolve formed key startTs action
  have runs : Runs (submit (.resolve ⟨key, startTs, action⟩)).run db _ _ := Runs.submit _
  rw [answer] at runs
  exact ⟨_, runs.ok (Runs.ret _), formed', by cases action <;> exact seen⟩

variable {primary : Bytes} {mutations : List Mutation}

theorem acquire_runs (home : primary ∈ space.keys) (startTs ttl : Ts)
    (mem : ∀ m ∈ mutations, m.key ∈ space.keys) (formed : db.Formed space) (acquired : List Bytes) :
    ∃ db' keys result, Runs (acquire primary startTs ttl mutations acquired) db db' (keys, result) ∧ db'.Formed space ∧
      (db'.view, keys, result.isOk) =
        db.view.acquire primary startTs ttl (mutations.map fun m => (m.key, m.value)) acquired := by
  induction mutations generalizing db acquired with
  | nil => exact ⟨db, acquired, .ok (), Runs.ret _, formed, rfl⟩
  | cons m rest ih =>
    have runs : Runs (prewriteOne m.key m.value primary startTs ttl).run db _ _ := Runs.submit _
    rcases Db.process_prewrite formed (mem m (mem_cons_self ..)) home m.value startTs ttl
        m.value.lockKind with ⟨clear, ⟨seq, answer⟩, formed', seen⟩ | ⟨conflict, ⟨e, answer⟩, same⟩
    · rw [answer] at runs
      obtain ⟨db', keys, result, runs', formed'', outcome⟩ :=
        ih (fun m' member => mem m' (mem_cons_of_mem _ member)) formed' (acquired ++ [m.key])
      refine ⟨db', keys, result, runs.bind runs', formed'', ?_⟩
      rw [outcome, seen, map_cons, Percolator.Store.acquire, if_pos clear]
    · rw [answer, same] at runs
      refine ⟨db, acquired, .error e, runs.bind (Runs.ret _), formed, ?_⟩
      rw [map_cons, Percolator.Store.acquire, if_neg conflict]
      rfl

variable {keys : List Bytes}

theorem release_runs (startTs : Ts) (mem : ∀ k ∈ keys, k ∈ space.keys) (formed : db.Formed space) :
    ∃ db', Runs (release startTs keys) db db' () ∧ db'.Formed space ∧
      db'.view = keys.foldl (Percolator.Store.resolveKey startTs none) db.view := by
  induction keys generalizing db with
  | nil => exact ⟨db, Runs.ret _, formed, rfl⟩
  | cons key rest ih =>
    obtain ⟨db₁, runs, formed', seen⟩ := resolve_runs formed (mem key (mem_cons_self ..)) startTs .rollback
    obtain ⟨db', runs', formed'', seen'⟩ := ih (fun k member => mem k (mem_cons_of_mem _ member)) formed'
    exact ⟨db', runs.bind runs', formed'', by rw [seen', seen, foldl_cons]⟩

theorem finalizeKeys_runs (startTs commitTs : Ts)
    (mem : ∀ m ∈ mutations, m.key ∈ space.keys) (formed : db.Formed space) :
    ∃ db', Runs (Transaction.finalizeKeys primary startTs commitTs mutations).run db db' (.ok ()) ∧ db'.Formed space ∧
      db'.view = ((mutations.map Mutation.key).filter (· ≠ primary)).foldl
        (Percolator.Store.resolveKey startTs (some commitTs)) db.view := by
  induction mutations generalizing db with
  | nil => exact ⟨db, Runs.ret _, formed, rfl⟩
  | cons m rest ih =>
    have later : ∀ m' ∈ rest, m'.key ∈ space.keys := fun m' member => mem m' (mem_cons_of_mem _ member)
    rw [Transaction.finalizeKeys]
    by_cases same : m.key = primary
    · obtain ⟨db', runs, formed', seen⟩ := ih later formed
      exact ⟨db', by rwa [if_pos same], formed', by simp [seen, same]⟩
    · obtain ⟨db₁, runs, formed', seen⟩ := resolve_runs formed (mem m (mem_cons_self ..)) startTs (.commit commitTs)
      obtain ⟨db', runs', formed'', seen'⟩ := ih later formed'
      exact ⟨db', by rw [if_neg same]; exact runs.ok runs', formed'', by simp [seen', seen, same]⟩

theorem resolveOne_runs (formed : db.Formed space) (mem : key ∈ space.keys) (startTs commitTs : Ts) :
    ∃ db', Runs (resolveOne startTs commitTs key).run db db' (.ok ()) ∧ db'.Formed space ∧
      db'.view = db.view.resolveKey startTs (if commitTs = 0 then none else some commitTs) key := by
  unfold resolveOne
  split_ifs
  · exact resolve_runs formed mem startTs .rollback
  · exact resolve_runs formed mem startTs (.commit commitTs)

theorem resolveKeys_runs (startTs commitTs : Ts) (mem : ∀ k ∈ keys, k ∈ space.keys) (formed : db.Formed space) :
    ∃ db', Runs (resolveKeys startTs commitTs keys).run db db' (.ok ()) ∧ db'.Formed space ∧
      db'.view = keys.foldl
        (Percolator.Store.resolveKey startTs (if commitTs = 0 then none else some commitTs)) db.view := by
  induction keys generalizing db with
  | nil => exact ⟨db, Runs.ret _, formed, rfl⟩
  | cons key rest ih =>
    obtain ⟨db₁, runs, formed', seen⟩ := resolveOne_runs formed (mem key (mem_cons_self ..)) startTs commitTs
    obtain ⟨db', runs', formed'', seen'⟩ := ih (fun k member => mem k (mem_cons_of_mem _ member)) formed'
    exact ⟨db', runs.ok runs', formed'', by rw [seen', seen, foldl_cons]⟩

theorem acquire_mem {startTs ttl : Ts} {m : View} {writes : List (Bytes × Value)}
    (mem : ∀ w ∈ writes, w.1 ∈ space.keys) {acquired : List Bytes} (before : ∀ k ∈ acquired, k ∈ space.keys) :
    ∀ k ∈ (m.acquire primary startTs ttl writes acquired).2.1, k ∈ space.keys := by
  induction writes generalizing m acquired with
  | nil => exact before
  | cons w rest ih =>
    rw [Percolator.Store.acquire]
    split_ifs
    · refine ih (fun w' member => mem w' (mem_cons_of_mem _ member)) fun k member => ?_
      rcases mem_append.mp member with old | new
      · exact before k old
      · exact mem_singleton.mp new ▸ mem w (mem_cons_self ..)
    · exact before

theorem prewriteAll_runs (home : primary ∈ space.keys) (startTs ttl : Ts) (mem : ∀ m ∈ mutations, m.key ∈ space.keys)
    (formed : db.Formed space) :
    ∃ db' result, Runs (prewriteAll primary startTs ttl mutations).run db db' result ∧ db'.Formed space ∧
      (db'.view, result.isOk) =
        db.view.prewriteAll (mutations.map fun m => (m.key, m.value)) primary startTs ttl := by
  obtain ⟨db₁, keys, result, runs, formed', outcome⟩ := acquire_runs home startTs ttl mem formed []
  rw [Percolator.Store.prewriteAll, ← outcome]
  cases result with
  | ok done => exact ⟨db₁, .ok (), runs.bind (Runs.ret _), formed', rfl⟩
  | error e =>
    have within : ∀ k ∈ keys, k ∈ space.keys := by
      have all : ∀ k ∈ (db.view.acquire primary startTs ttl (mutations.map fun m => (m.key, m.value)) []).2.1,
          k ∈ space.keys := acquire_mem (by simpa using mem) (forall_mem_nil _)
      rwa [← outcome] at all
    obtain ⟨db', runs', formed'', seen⟩ := release_runs startTs within formed'
    exact ⟨db', .error e, runs.bind (runs'.bind (Runs.ret _)), formed'', by rw [seen]; rfl⟩

theorem commitPrimary_runs (txn : Transaction) (home : txn.primary ∈ space.keys) (commitTs : Ts)
    (formed : db.Formed space) :
    ∃ db', Runs (txn.commitPrimary commitTs).run db db' (.ok ()) ∧ db'.Formed space ∧
      db'.view = db.view.commitKey txn.primary txn.startTs commitTs := by
  have runs : Runs (write (txn.primaryBatch commitTs)).run db _ _ := Runs.write rfl
  refine ⟨_, runs.ok (Runs.ret _), ?_, Db.view_commitKeyBatch db txn.primary txn.startTs commitTs⟩
  exact formed.commit_pair ⟨txn.primary, home, commitTs, txn.startTs, rfl, rfl⟩ trivial

theorem commit_runs (home : primary ∈ space.keys)
    (mem : ∀ k ∈ keys, k ∈ space.keys) (startTs commitTs : Ts) (formed : db.Formed space) :
    ∃ db', Runs ((commitTransaction primary keys startTs).commit commitTs).run db db' (.ok ()) ∧ db'.Formed space ∧
      db'.view = db.view.commitAll primary keys startTs commitTs := by
  obtain ⟨db₁, runs, formed', seen⟩ :=
    commitPrimary_runs (commitTransaction primary keys startTs) home commitTs formed
  have all : ∀ m ∈ (commitTransaction primary keys startTs).mutations, m.key ∈ space.keys := by
    simp only [commitTransaction, Transaction.mutations, forall_mem_cons, forall_mem_map]
    exact ⟨home, fun k member => mem k (mem_of_mem_filter member)⟩
  obtain ⟨db', runs', formed'', seen'⟩ := finalizeKeys_runs startTs commitTs all formed'
  refine ⟨db', runs.ok runs', formed'', ?_⟩
  rw [seen', seen, Percolator.Store.commitAll]
  simp [commitTransaction, Transaction.mutations, Transaction.primary, Function.comp_def]

/-- Applying a command takes the view where the abstract command takes it, with the same outcome. -/
theorem makeApply_view (formed : db.Formed space) {command : Command} {meaning : Percolator.Command Bytes Ts Value}
    (denotes : command.Denotes space meaning) :
    ∃ db' result, makeApply db command = (db', some result) ∧ db'.Formed space ∧
      (db'.view, result.isOk) = db.view.apply meaning := by
  have applied {db' : Db} {result : Except Error Unit} (runs : Runs command.program.run db db' result) :
      makeApply db command = (db', some result) := by rw [makeApply, runs]
  cases denotes with
  | @autocommit key mem value startTs commitTs =>
    have runs : Runs (write (committedBatch key value startTs commitTs)).run db _ _ := Runs.write rfl
    refine ⟨_, _, applied (runs.ok (Runs.ret _)), ?_, ?_⟩
    · exact formed.commit_pair ⟨value, rfl⟩ ⟨key, mem, commitTs, startTs, rfl, rfl⟩
    · simp [Db.view_commitBatch, committedBatch, WriteBatch.put, Percolator.Store.apply,
        Percolator.Store.putCommitted, Except.isOk, Except.toBool]
  | @prewrite mutations primary mem home startTs ttl =>
    obtain ⟨db', result, runs, formed', outcome⟩ := prewriteAll_runs home startTs ttl mem formed
    exact ⟨db', result, applied runs, formed', outcome⟩
  | @commit primary keys home mem startTs commitTs =>
    obtain ⟨db', runs, formed', seen⟩ := commit_runs home mem startTs commitTs formed
    exact ⟨db', .ok (), applied runs, formed', by rw [seen]; rfl⟩
  | @resolve keys mem startTs commitTs =>
    obtain ⟨db', runs, formed', seen⟩ := resolveKeys_runs startTs commitTs mem formed
    exact ⟨db', .ok (), applied runs, formed', by rw [seen]; rfl⟩

end Arcux.Region
