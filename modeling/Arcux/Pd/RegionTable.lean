import Arcux.Concurrency.Runs
import Arcux.Data.Intervals
import Arcux.Pd.Image

namespace Arcux.Pd

open Codec Concurrency Data List Reader
open scoped Codec.ByteOrder Engine

structure RegionDir where
  registry : RegionRegistry
  file : Option Bytes

namespace RegionDir

def ioError : String := "i/o error"

def persist (dir : RegionDir) (write : AtomicWrite) : RegionDir × Except String Unit :=
  (⟨dir.registry, write.file dir.file (encodeState dir.registry)⟩,
    match write with
    | .done => .ok ()
    | .failed _ => .error ioError)

def publish {α : Type} (dir : RegionDir) (change : RegionRegistry × Except String α) (write : AtomicWrite) :
    RegionDir × Except String α :=
  match change with
  | (_, .error message) => (dir, .error message)
  | (registry, .ok result) =>
    let persisted := persist ⟨registry, dir.file⟩ write
    (persisted.1, persisted.2.map fun _ => result)

def split (dir : RegionDir) (splitKey : Bytes) : AtomicWrite → RegionDir × Except String (Region × Region) :=
  dir.publish (dir.registry.split splitKey)

def merge (dir : RegionDir) (boundary : Bytes) : AtomicWrite → RegionDir × Except String Region :=
  dir.publish (dir.registry.merge boundary)

def adopt (dir : RegionDir) (regions : List Region) : AtomicWrite → RegionDir × Except String Unit :=
  dir.publish (dir.registry.replace regions, .ok ())

def load (file : Option Bytes) (bootstrap : Bool) (emptyNextId : UInt64) : Except String RegionRegistry :=
  match file with
  | some bytes =>
    match decodeState.run bytes with
    | some (registry, _) => .ok registry
    | none => .error "region table corrupt"
  | none => .ok (if bootstrap then .inMemory else ⟨[], emptyNextId⟩)

def openInner (file : Option Bytes) (bootstrap : Bool) (emptyNextId : UInt64) (write : AtomicWrite) :
    Except String RegionDir :=
  match load file bootstrap emptyNextId with
  | .error message => .error message
  | .ok registry =>
    let persisted := persist ⟨registry, file⟩ write
    persisted.2.map fun _ => persisted.1

def fresh : RegionDir := ⟨.inMemory, some (encodeState .inMemory)⟩

theorem openInner_none : openInner none true 2 .done = .ok fresh := rfl

inductive Call where
  | split (key : Bytes)
  | merge (boundary : Bytes)
  | adopt (regions : List Region)

def perform (dir : RegionDir) (write : AtomicWrite) : Call → RegionDir × Except String Unit
  | .split key => ((dir.split key write).1, (dir.split key write).2.map fun _ => ())
  | .merge boundary => ((dir.merge boundary write).1, (dir.merge boundary write).2.map fun _ => ())
  | .adopt regions => dir.adopt regions write

inductive Event where
  | call (call : Call) (write : AtomicWrite)
  | reopen (write : AtomicWrite)

def exec (table : Option RegionDir) : Event → Option RegionDir
  | .call call write => table.map fun dir => (dir.perform write call).1
  | .reopen write => table.bind fun dir => (openInner dir.file true 2 write).toOption

end RegionDir

@[mk_iff]
structure RegionRegistry.Fits (registry : RegionRegistry) : Prop where
  few : registry.regions.length < 2 ^ 32
  each : ∀ r ∈ registry.regions, r.Fits

instance (registry : RegionRegistry) : Decidable registry.Fits := decidable_of_iff' _ (RegionRegistry.fits_iff registry)

theorem yields_decodeState : Yields decodeState RegionRegistry.Fits := by
  have region : Yields readRegion Region.Fits :=
    (Yields.anything _).bind fun _ _ => (Yields.anything _).bind fun _ _ =>
      yields_sized.bind fun _ start => yields_sized.bind fun _ stop => Yields.pure ⟨start, stop⟩
  refine (Yields.anything _).bind fun _ _ => ((yields_list_length _).and region.list).bind fun regions fits => ?_
  exact Yields.pure ⟨fits.1, fits.2⟩

theorem Region.contains_iff {r : Region} {key : Bytes} :
    r.contains key = true ↔ Within Region.start Region.stop key r :=
  decide_eq_true_iff

namespace RegionRegistry

theorem insertIdx_after_length {α : Type} (front back : List α) (a b : α) :
    (front ++ a :: back).insertIdx (front.length + 1) b = front ++ a :: b :: back := by
  induction front with
  | nil => rfl
  | cons first rest ih => simp [ih]

theorem exists_at {α : Type} {l : List α} {i : Nat} {a : α} (found : l[i]? = some a) :
    ∃ front back, l = front ++ a :: back ∧ front.length = i := by
  obtain ⟨bound, rfl⟩ := List.getElem?_eq_some_iff.mp found
  refine ⟨l.take i, l.drop (i + 1), ?_, List.length_take_of_le bound.le⟩
  rw [getElem_cons_drop, take_append_drop]

variable {registry : RegionRegistry} {key : Bytes}

def leftHalf (target : Region) (key : Bytes) : Region := { target with stop := key, epoch := target.epoch + 1 }

def rightHalf (target : Region) (key : Bytes) (id : UInt64) : Region := ⟨id, key, target.stop, target.epoch + 1⟩

def union (left right : Region) : Region := ⟨left.id, left.start, right.stop, max left.epoch right.epoch + 1⟩

theorem split_cases (registry : RegionRegistry) (key : Bytes) :
    (∃ message, registry.split key = (registry, .error message)) ∨
    ∃ front target back, registry.regions = front ++ target :: back ∧ target.start < key ∧
      (target.stop = [] ∨ key < target.stop) ∧
      registry.split key =
        (⟨front ++ leftHalf target key :: rightHalf target key registry.nextId :: back, registry.nextId + 1⟩,
          .ok (leftHalf target key, rightHalf target key registry.nextId)) := by
  unfold split
  dsimp only
  split
  case h_1 => exact .inl ⟨_, rfl⟩
  case h_2 target found =>
    obtain ⟨bound, here⟩ := List.getElem?_eq_some_iff.mp found
    have inside : target.contains key = true := by
      rw [← here]
      exact findIdx_getElem (p := fun r : Region => r.contains key)
    obtain ⟨front, back, regions, length⟩ := exists_at found
    split
    case isTrue => exact .inl ⟨_, rfl⟩
    case isFalse above =>
      refine .inr ⟨front, target, back, regions, not_le.mp above, (Region.contains_iff.mp inside).2, ?_⟩
      rw [← length, regions, set_append_right _ _ le_rfl, Nat.sub_self, set_cons_zero, insertIdx_after_length]
      rfl

theorem merge_cases (registry : RegionRegistry) (boundary : Bytes) :
    (∃ message, registry.merge boundary = (registry, .error message)) ∨
    ∃ front left right back, registry.regions = front ++ left :: right :: back ∧ right.start = boundary ∧
      registry.merge boundary = (⟨front ++ union left right :: back, registry.nextId⟩, .ok (union left right)) := by
  unfold merge
  dsimp only
  have starts : ∀ right, registry.regions[registry.regions.findIdx (·.start = boundary)]? = some right →
      right.start = boundary := by
    intro right found
    obtain ⟨bound, rfl⟩ := List.getElem?_eq_some_iff.mp found
    exact of_decide_eq_true (List.findIdx_getElem (w := bound))
  generalize registry.regions.findIdx (·.start = boundary) = idx at starts ⊢
  split
  case h_1 => exact .inl ⟨_, rfl⟩
  case h_2 right found =>
    specialize starts right found
    split
    case h_2 => exact .inl ⟨_, rfl⟩
    case h_1 before left found' =>
      rw [Nat.succ_sub_one] at found'
      obtain ⟨front, back, regions, rfl⟩ := exists_at found'
      rw [regions, getElem?_append_right (Nat.le_succ _), Nat.succ_sub (le_refl _), Nat.sub_self] at found
      cases back with
      | nil => cases found
      | cons next back =>
        cases found
        refine .inr ⟨front, left, right, back, regions, starts, ?_⟩
        rw [regions, set_append_right _ _ le_rfl, Nat.sub_self, set_cons_zero,
          eraseIdx_append_of_length_le (Nat.le_succ _), Nat.succ_sub le_rfl, Nat.sub_self]
        rfl

theorem Fits.split (fits : registry.Fits) (short : key.length < 2 ^ 32) (room : registry.regions.length + 1 < 2 ^ 32) :
    (registry.split key).1.Fits := by
  rcases registry.split_cases key with ⟨message, failed⟩ | ⟨front, target, back, regions, -, -, made⟩
  · rwa [failed]
  · rw [made]
    rw [regions] at room
    have each := regions ▸ fits.each
    simp only [forall_mem_append, forall_mem_cons] at each
    refine ⟨?_, ?_⟩
    · simp only [length_append, length_cons] at room ⊢
      omega
    · simp only [forall_mem_append, forall_mem_cons]
      exact ⟨each.1, ⟨each.2.1.start, short⟩, ⟨short, each.2.1.stop⟩, each.2.2⟩

theorem Fits.merge (fits : registry.Fits) (boundary : Bytes) : (registry.merge boundary).1.Fits := by
  rcases registry.merge_cases boundary with ⟨message, failed⟩ | ⟨front, left, right, back, regions, -, made⟩
  · rwa [failed]
  · rw [made]
    have few := regions ▸ fits.few
    have each := regions ▸ fits.each
    simp only [forall_mem_append, forall_mem_cons] at each
    refine ⟨?_, ?_⟩
    · simp only [length_append, length_cons] at few ⊢
      omega
    · simp only [forall_mem_append, forall_mem_cons]
      exact ⟨each.1, ⟨each.2.1.start, each.2.2.1.stop⟩, each.2.2.2⟩

theorem Fits.replace (registry : RegionRegistry) {regions : List Region} (few : regions.length < 2 ^ 32)
    (each : ∀ r ∈ regions, r.Fits) : (registry.replace regions).Fits := by
  refine ⟨?_, fun r member => each r (mem_mergeSort.mp member)⟩
  rwa [RegionRegistry.replace, length_mergeSort]

end RegionRegistry

namespace RegionDir

structure Synced (dir : RegionDir) : Prop where
  file : dir.file = some (encodeState dir.registry)
  fits : dir.registry.Fits

variable {dir : RegionDir}

theorem Synced.load (synced : dir.Synced) (bootstrap : Bool) (emptyNextId : UInt64) :
    load dir.file bootstrap emptyNextId = .ok dir.registry := by
  have read := reads_decodeState synced.fits.few synced.fits.each []
  rw [append_nil] at read
  simp only [RegionDir.load, synced.file, read]

theorem Synced.openInner (synced : dir.Synced) (bootstrap : Bool) (emptyNextId : UInt64) :
    openInner dir.file bootstrap emptyNextId .done = .ok dir := by
  rw [RegionDir.openInner, synced.load]
  change Except.ok (⟨dir.registry, some (encodeState dir.registry)⟩ : RegionDir) = _
  rw [← synced.file]

theorem synced_openInner {file : Option Bytes} {bootstrap : Bool} {emptyNextId : UInt64}
    (opened : RegionDir.openInner file bootstrap emptyNextId .done = .ok dir) : dir.Synced := by
  unfold RegionDir.openInner at opened
  split at opened
  case h_1 => cases opened
  case h_2 registry loaded =>
    cases opened
    refine ⟨rfl, ?_⟩
    unfold RegionDir.load at loaded
    split at loaded
    case h_1 bytes =>
      split at loaded
      case h_1 read =>
        cases loaded
        exact yields_decodeState _ _ _ read
      case h_2 => cases loaded
    case h_2 =>
      cases loaded
      cases bootstrap with
      | false => exact ⟨Nat.two_pow_pos 32, forall_mem_nil _⟩
      | true => exact (by decide : RegionRegistry.inMemory.Fits)

theorem publish_done {α : Type} (dir : RegionDir) (change : RegionRegistry × Except String α) :
    (∃ message, dir.publish change .done = (dir, .error message)) ∨
      ∃ result, change.2 = .ok result ∧
        dir.publish change .done = (⟨change.1, some (encodeState change.1)⟩, .ok result) := by
  obtain ⟨registry, outcome⟩ := change
  cases outcome with
  | error message => exact .inl ⟨message, rfl⟩
  | ok result => exact .inr ⟨result, rfl, rfl⟩

theorem perform_done (dir : RegionDir) (call : Call) :
    (∃ message, dir.perform .done call = (dir, .error message)) ∨
      ∃ registry, dir.perform .done call = (⟨registry, some (encodeState registry)⟩, .ok ()) := by
  cases call with
  | split key =>
    rcases dir.publish_done (dir.registry.split key) with ⟨message, failed⟩ | ⟨result, -, made⟩
    · exact .inl ⟨message, by rw [perform, split, failed]; rfl⟩
    · exact .inr ⟨_, by rw [perform, split, made]; rfl⟩
  | merge boundary =>
    rcases dir.publish_done (dir.registry.merge boundary) with ⟨message, failed⟩ | ⟨result, -, made⟩
    · exact .inl ⟨message, by rw [perform, merge, failed]; rfl⟩
    · exact .inr ⟨_, by rw [perform, merge, made]; rfl⟩
  | adopt regions => exact .inr ⟨_, rfl⟩

theorem publish_registry {α : Type} (dir : RegionDir) (change : RegionRegistry × Except String α)
    (none : ∀ message, change.2 = .error message → change.1 = dir.registry) :
    (dir.publish change .done).1.registry = change.1 := by
  obtain ⟨registry, outcome⟩ := change
  cases outcome with
  | error message => exact (none message rfl).symm
  | ok result => rfl

theorem split_registry (dir : RegionDir) (key : Bytes) :
    (dir.perform .done (.split key)).1.registry = (dir.registry.split key).1 := by
  refine dir.publish_registry _ fun message failed => ?_
  rcases dir.registry.split_cases key with ⟨_, same⟩ | ⟨_, _, _, -, -, -, made⟩
  · rw [same]
  · rw [made] at failed
    cases failed

theorem merge_registry (dir : RegionDir) (boundary : Bytes) :
    (dir.perform .done (.merge boundary)).1.registry = (dir.registry.merge boundary).1 := by
  refine dir.publish_registry _ fun message failed => ?_
  rcases dir.registry.merge_cases boundary with ⟨_, same⟩ | ⟨_, _, _, _, -, -, made⟩
  · rw [same]
  · rw [made] at failed
    cases failed

/-- A call that replaces the table gets its write through, and the new table fits its file; the split of a key where a
region starts, and the merge at a boundary where none does, write nothing. -/
def Writes (table : Option RegionDir) : Event → Prop
  | .call (.split key) write => ∀ dir ∈ table, (∃ r ∈ dir.registry.regions, r.contains key ∧ r.start ≠ key) →
      write = .done ∧ key.length < 2 ^ 32 ∧ dir.registry.regions.length + 1 < 2 ^ 32
  | .call (.merge boundary) write => ∀ dir ∈ table, (∃ r ∈ dir.registry.regions.tail, r.start = boundary) → write = .done
  | .call (.adopt regions) write => write = .done ∧ regions.length < 2 ^ 32 ∧ ∀ r ∈ regions, r.Fits
  | .reopen write => write = .done

instance (table : Option RegionDir) (event : Event) : Decidable (Writes table event) := by
  unfold Writes
  split <;> infer_instance

theorem Synced.perform (synced : dir.Synced) (call : Call) (fits : (dir.perform .done call).1.registry.Fits) :
    (dir.perform .done call).1.Synced := by
  rcases dir.perform_done call with ⟨message, failed⟩ | ⟨registry, made⟩
  · rwa [failed]
  · rw [made] at fits ⊢
    exact ⟨rfl, fits⟩

theorem Synced.exec (synced : dir.Synced) {event : Event} (writes : Writes (some dir) event) :
    ∃ next, RegionDir.exec (some dir) event = some next ∧ next.Synced := by
  cases event with
  | reopen write =>
    obtain rfl : write = .done := writes
    exact ⟨dir, by simp [RegionDir.exec, synced.openInner, Except.toOption], synced⟩
  | call call write =>
    refine ⟨(dir.perform write call).1, rfl, ?_⟩
    cases call with
    | split key =>
      rcases dir.registry.split_cases key with ⟨message, failed⟩ | ⟨front, target, back, regions, above, below, -⟩
      · rwa [RegionDir.perform, RegionDir.split, failed]
      · have here : target ∈ dir.registry.regions := regions ▸ mem_append_right front (mem_cons_self ..)
        obtain ⟨rfl, short, few⟩ := writes dir rfl ⟨target, here, Region.contains_iff.mpr ⟨above.le, below⟩, above.ne⟩
        exact synced.perform _ (dir.split_registry key ▸ synced.fits.split short few)
    | merge boundary =>
      rcases dir.registry.merge_cases boundary with ⟨message, failed⟩ | ⟨front, left, right, back, regions, starts, -⟩
      · rwa [RegionDir.perform, RegionDir.merge, failed]
      · obtain rfl := writes dir rfl ⟨right, by rw [regions]; cases front <;> simp, starts⟩
        exact synced.perform _ (dir.merge_registry boundary ▸ synced.fits.merge boundary)
    | adopt regions =>
      obtain ⟨rfl, few, each⟩ := writes
      exact ⟨rfl, RegionRegistry.Fits.replace _ few each⟩

theorem Synced.run (synced : dir.Synced) {events : List Event}
    (writes : Admitted RegionDir.exec Writes (some dir) events) :
    ∃ last, events.foldl RegionDir.exec (some dir) = some last ∧ last.Synced := by
  induction events generalizing dir with
  | nil => exact ⟨dir, rfl, synced⟩
  | cons event rest ih =>
    obtain ⟨here, later⟩ := writes
    obtain ⟨next, taken, synced'⟩ := synced.exec here
    rw [taken] at later
    rw [foldl_cons, taken]
    exact ih synced' later

/-- As long as its file can be written, the table on disk is the one in memory, a restart finds it again, and a call that
fails has changed nothing. -/
theorem failed_calls_change_nothing {file : Option Bytes} {bootstrap : Bool} {emptyNextId : UInt64} {dir : RegionDir}
    (opened : openInner file bootstrap emptyNextId .done = .ok dir) (events : List Event)
    (writes : Admitted exec Writes (some dir) events) :
    ∃ last, events.foldl exec (some dir) = some last ∧
      last.file = some (encodeState last.registry) ∧ openInner last.file bootstrap emptyNextId .done = .ok last ∧
      ∀ call message, (last.perform .done call).2 = .error message → (last.perform .done call).1 = last := by
  obtain ⟨last, reached, synced⟩ := (synced_openInner opened).run writes
  refine ⟨last, reached, synced.file, synced.openInner .., fun call message failed => ?_⟩
  rcases last.perform_done call with ⟨message, unchanged⟩ | ⟨registry, made⟩
  · rw [unchanged]
  · rw [made] at failed
    cases failed

theorem failed_calls_change_nothing_restarted :
    ∃ last, [Event.call (.split [109]) .done, .call (.merge [120]) .done, .reopen .done].foldl exec (some fresh) =
        some last ∧
      last.file = some (encodeState last.registry) ∧ openInner last.file true 2 .done = .ok last ∧
      ∀ call message, (last.perform .done call).2 = .error message → (last.perform .done call).1 = last :=
  failed_calls_change_nothing openInner_none _ (by decide +kernel)

/-- A split whose write fails is answered with an error, and yet both halves are routed to; after a restart there is the
undivided region with its old epoch again. -/
theorem failed_split_published :
    (fresh.split [109] (.failed false)).2 = .error ioError ∧
      fresh.registry.route [122] = some ⟨1, [], [], 1⟩ ∧
      (fresh.split [109] (.failed false)).1.registry.route [122] = some ⟨2, [109], [], 2⟩ ∧
      openInner (fresh.split [109] (.failed false)).1.file true 2 .done = .ok fresh := by
  refine ⟨rfl, by decide +kernel, by decide +kernel, ?_⟩
  exact (synced_openInner openInner_none).openInner true 2

end RegionDir

end Arcux.Pd
