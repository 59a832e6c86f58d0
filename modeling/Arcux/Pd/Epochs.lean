import Mathlib.Data.List.Nodup
import Arcux.Pd.RegionTable

namespace Arcux.Pd

open Codec Concurrency Data List
open scoped Codec.ByteOrder Engine

namespace RegionRegistry

variable {registry : RegionRegistry} {front back : List Region} {left right target : Region} {key : Bytes}

structure Sound (registry : RegionRegistry) : Prop where
  tiling : Tiling Region.start Region.stop registry.regions
  distinct : (registry.regions.map Region.id).Nodup
  assigned : ∀ r ∈ registry.regions, 0 < r.id ∧ r.id < registry.nextId

@[mk_iff]
structure Roomy (registry : RegionRegistry) : Prop where
  nextId : registry.nextId.toNat + 1 < 2 ^ 64
  epochs : ∀ r ∈ registry.regions, r.epoch.toNat + 1 < 2 ^ 64

instance (registry : RegionRegistry) : Decidable registry.Roomy := decidable_of_iff' _ (roomy_iff registry)

theorem lt_add_one {n : UInt64} (room : n.toNat + 1 < 2 ^ 64) : n < n + 1 := by
  rw [UInt64.lt_iff_toNat_lt, UInt64.toNat_add, UInt64.toNat_one, Nat.mod_eq_of_lt room]
  exact Nat.lt_succ_self _

theorem lt_max_add_one {m n : UInt64} (room : m.toNat + 1 < 2 ^ 64) (room' : n.toNat + 1 < 2 ^ 64) :
    m < max m n + 1 ∧ n < max m n + 1 := by
  rcases le_total m n with below | below
  · rw [max_eq_right below]
    exact ⟨below.trans_lt (lt_add_one room'), lt_add_one room'⟩
  · rw [max_eq_left below]
    exact ⟨lt_add_one room, below.trans_lt (lt_add_one room)⟩

theorem sound_inMemory : inMemory.Sound where
  tiling := .single rfl rfl
  distinct := by decide
  assigned := by decide

theorem Sound.eq_of_contains (sound : registry.Sound) {a b : Region} (left : a ∈ registry.regions)
    (right : b ∈ registry.regions) (inLeft : a.contains key = true) (inRight : b.contains key = true) : a = b :=
  sound.tiling.within_unique left right (Region.contains_iff.mp inLeft) (Region.contains_iff.mp inRight)

theorem Sound.eq_of_id (sound : registry.Sound) {a b : Region} (left : a ∈ registry.regions)
    (right : b ∈ registry.regions) (same : a.id = b.id) : a = b :=
  inj_on_of_nodup_map sound.distinct left right same

/-- A later table has no region under an old id that is not the old one or a newer version of it, and no key is in a region
that is not the old one or newer than it. -/
structure Evolves (old new : RegionRegistry) : Prop where
  nextId : old.nextId ≤ new.nextId
  origin : ∀ b ∈ new.regions, b.id < old.nextId → ∃ a ∈ old.regions, a.id = b.id ∧ (a.epoch < b.epoch ∨ a = b)
  keys : ∀ key, ∀ a ∈ old.regions, ∀ b ∈ new.regions, a.contains key = true → b.contains key = true →
    a.epoch < b.epoch ∨ a = b

theorem Sound.evolves (sound : registry.Sound) : Evolves registry registry where
  nextId := le_refl _
  origin b member _ := ⟨b, member, rfl, .inr rfl⟩
  keys _ _ left _ right inLeft inRight := .inr (sound.eq_of_contains left right inLeft inRight)

theorem newer_trans {a b c : Region} (first : a.epoch < b.epoch ∨ a = b) (second : b.epoch < c.epoch ∨ b = c) :
    a.epoch < c.epoch ∨ a = c := by
  rcases second with newer | rfl
  · rcases first with older | rfl
    · exact .inl (older.trans newer)
    · exact .inl newer
  · exact first

theorem Evolves.trans {old mid new : RegionRegistry} (first : Evolves old mid) (sound : mid.Sound)
    (second : Evolves mid new) : Evolves old new where
  nextId := first.nextId.trans second.nextId
  origin c member known := by
    obtain ⟨b, held, same, newer⟩ := second.origin c member (known.trans_le first.nextId)
    obtain ⟨a, held', same', newer'⟩ := first.origin b held (same ▸ known)
    exact ⟨a, held', same'.trans same, newer_trans newer' newer⟩
  keys key a left c right inLeft inRight := by
    obtain ⟨b, held, within⟩ := sound.tiling.exists_within key
    have inside := Region.contains_iff.mpr within
    exact newer_trans (first.keys key a left b held inLeft inside) (second.keys key b held c right inside inRight)

theorem Evolves.range {old new : RegionRegistry} (evolves : Evolves old new) (sound : old.Sound) {a b : Region}
    (left : a ∈ old.regions) (right : b ∈ new.regions) (id : a.id = b.id) (epoch : a.epoch = b.epoch) : a = b := by
  obtain ⟨origin, held, same, newer⟩ := evolves.origin b right (id ▸ (sound.assigned a left).2)
  obtain rfl := sound.eq_of_id held left (same.trans id.symm)
  exact newer.resolve_left fun less => less.ne epoch

theorem contains_of_half (inside : target.start < key) (ends : target.stop = [] ∨ key < target.stop) {id : UInt64}
    {half : Region} (made : half = leftHalf target key ∨ half = rightHalf target key id) {k : Bytes}
    (contained : half.contains k = true) : target.contains k = true := by
  rw [Region.contains_iff] at contained ⊢
  rcases made with rfl | rfl
  · have below : k < key := contained.2.resolve_left fun none => (bot_le.trans_lt inside).ne' none
    exact ⟨contained.1, ends.imp_right below.trans⟩
  · exact ⟨inside.le.trans contained.1, contained.2⟩

theorem Sound.split (sound : registry.Sound) (roomy : registry.Roomy) (key : Bytes) :
    (registry.split key).1.Sound ∧ Evolves registry (registry.split key).1 := by
  rcases registry.split_cases key with ⟨message, failed⟩ | ⟨front, target, back, regions, inside, ends, made⟩
  · rw [failed]
    exact ⟨sound, sound.evolves⟩
  · rw [made]
    have next := lt_add_one roomy.nextId
    have here : target ∈ registry.regions := regions ▸ mem_append_right front (mem_cons_self ..)
    have newer := lt_add_one (roomy.epochs target here)
    have members {r : Region} (member : r ∈ front ++ leftHalf target key :: rightHalf target key registry.nextId :: back) :
        r ∈ registry.regions ∨ r = leftHalf target key ∨ r = rightHalf target key registry.nextId := by
      rw [regions]
      grind
    refine ⟨⟨?_, ?_, fun r member => ?_⟩, next.le, fun b member known => ?_, fun k a held b member inOld inNew => ?_⟩
    · exact (regions ▸ sound.tiling).split inside ends rfl rfl rfl rfl
    · have distinct := sound.distinct
      have fresh : registry.nextId ∉ registry.regions.map Region.id := by
        intro taken
        obtain ⟨r, member, same⟩ := mem_map.mp taken
        exact (sound.assigned r member).2.ne same
      rw [regions] at distinct fresh
      simp only [map_append, map_cons] at distinct fresh ⊢
      exact (((List.Perm.swap ..).append_left _).trans perm_middle).nodup_iff.mpr (nodup_cons.mpr ⟨fresh, distinct⟩)
    · rcases members member with old | rfl | rfl
      · exact (sound.assigned r old).imp_right (·.trans next)
      · exact (sound.assigned target here).imp_right (·.trans next)
      · exact ⟨(sound.assigned target here).1.trans (sound.assigned target here).2, next⟩
    · rcases members member with old | rfl | rfl
      · exact ⟨b, old, rfl, .inr rfl⟩
      · exact ⟨target, here, rfl, .inl newer⟩
      · exact absurd known (lt_irrefl _)
    · rcases members member with old | half
      · exact .inr (sound.eq_of_contains held old inOld inNew)
      · obtain rfl := sound.eq_of_contains held here inOld (contains_of_half inside ends half inNew)
        rcases half with rfl | rfl
        · exact .inl newer
        · exact .inl newer

theorem contains_of_union (touch : right.start = left.stop) {k : Bytes}
    (contained : (union left right).contains k = true) : left.contains k = true ∨ right.contains k = true := by
  simp only [Region.contains_iff] at contained ⊢
  rcases lt_or_ge k left.stop with below | beyond
  · exact .inl ⟨contained.1, .inr below⟩
  · exact .inr ⟨touch.trans_le beyond, contained.2⟩

theorem Sound.merge (sound : registry.Sound) (roomy : registry.Roomy) (boundary : Bytes) :
    (registry.merge boundary).1.Sound ∧ Evolves registry (registry.merge boundary).1 := by
  rcases registry.merge_cases boundary with ⟨message, failed⟩ | ⟨front, left, right, back, regions, -, made⟩
  · rw [failed]
    exact ⟨sound, sound.evolves⟩
  · rw [made]
    have first : left ∈ registry.regions := regions ▸ mem_append_right front (mem_cons_self ..)
    have second : right ∈ registry.regions :=
      regions ▸ mem_append_right front (mem_cons_of_mem _ (mem_cons_self ..))
    have newer := lt_max_add_one (roomy.epochs left first) (roomy.epochs right second)
    have touch : right.start = left.stop := by
      obtain ⟨mid, -, -, touch, -⟩ := joined_append.mp (regions ▸ sound.tiling.joined)
      exact touch
    have members {r : Region} (member : r ∈ front ++ union left right :: back) :
        r ∈ registry.regions ∨ r = union left right := by
      rw [regions]
      grind
    refine ⟨⟨?_, ?_, fun r member => ?_⟩, le_refl _, fun b member known => ?_, fun k a held b member inOld inNew => ?_⟩
    · exact (regions ▸ sound.tiling).merge rfl rfl
    · have distinct := sound.distinct
      rw [regions] at distinct
      have without : (front ++ left :: back).Sublist (front ++ left :: right :: back) :=
        ((sublist_cons_self right back).cons_cons left).append_left front
      have kept := distinct.sublist (without.map Region.id)
      rw [map_append, map_cons] at kept ⊢
      exact kept
    · rcases members member with old | rfl
      · exact sound.assigned r old
      · exact sound.assigned left first
    · rcases members member with old | rfl
      · exact ⟨b, old, rfl, .inr rfl⟩
      · exact ⟨left, first, rfl, .inl newer.1⟩
    · rcases members member with old | rfl
      · exact .inr (sound.eq_of_contains held old inOld inNew)
      · rcases contains_of_union touch inNew with inLeft | inRight
        · obtain rfl := sound.eq_of_contains held first inOld inLeft
          exact .inl newer.1
        · obtain rfl := sound.eq_of_contains held second inOld inRight
          exact .inl newer.2

end RegionRegistry

namespace RegionDir

/-- A split or a merge, or a restart, with a write that succeeds; the key can be written to the file, and neither the
count of regions nor ids or epochs are used up. -/
def Ordinary (table : Option RegionDir) : Event → Prop
  | .call (.split key) write => write = .done ∧ key.length < 2 ^ 32 ∧
      ∀ dir ∈ table, dir.registry.Roomy ∧ dir.registry.regions.length + 1 < 2 ^ 32
  | .call (.merge _) write => write = .done ∧ ∀ dir ∈ table, dir.registry.Roomy
  | .call (.adopt _) _ => False
  | .reopen write => write = .done

instance (table : Option RegionDir) : (event : Event) → Decidable (Ordinary table event)
  | .call (.split _) _ => inferInstanceAs (Decidable (_ ∧ _ ∧ ∀ dir ∈ _, _))
  | .call (.merge _) _ => inferInstanceAs (Decidable (_ ∧ ∀ dir ∈ _, _))
  | .call (.adopt _) _ => .isFalse id
  | .reopen _ => inferInstanceAs (Decidable (_ = _))

structure Settled (dir : RegionDir) : Prop where
  synced : dir.Synced
  sound : dir.registry.Sound

variable {dir : RegionDir}

theorem settled_fresh : fresh.Settled := ⟨synced_openInner openInner_none, RegionRegistry.sound_inMemory⟩

theorem Settled.call (settled : dir.Settled) {call : Call} {registry : RegionRegistry}
    (performed : (dir.perform .done call).1.registry = registry) (fits : registry.Fits)
    (changed : registry.Sound ∧ RegionRegistry.Evolves dir.registry registry) :
    ∃ next, RegionDir.exec (some dir) (.call call .done) = some next ∧ next.Settled ∧
      RegionRegistry.Evolves dir.registry next.registry := by
  subst performed
  exact ⟨_, rfl, ⟨settled.synced.perform call fits, changed.1⟩, changed.2⟩

theorem Settled.exec (settled : dir.Settled) {event : Event} (ordinary : Ordinary (some dir) event) :
    ∃ next, RegionDir.exec (some dir) event = some next ∧ next.Settled ∧
      RegionRegistry.Evolves dir.registry next.registry := by
  cases event with
  | reopen write =>
    obtain rfl : write = .done := ordinary
    refine ⟨dir, ?_, settled, settled.sound.evolves⟩
    simp [RegionDir.exec, settled.synced.openInner, Except.toOption]
  | call call write =>
    cases call with
    | adopt regions => exact ordinary.elim
    | split key =>
      obtain ⟨rfl, short, room⟩ := ordinary
      obtain ⟨roomy, few⟩ := room dir rfl
      exact settled.call (dir.split_registry key) (settled.synced.fits.split short few) (settled.sound.split roomy key)
    | merge boundary =>
      obtain ⟨rfl, room⟩ := ordinary
      exact settled.call (dir.merge_registry boundary) (settled.synced.fits.merge boundary)
        (settled.sound.merge (room dir rfl) boundary)

theorem Settled.run (settled : dir.Settled) {events : List Event}
    (ordinary : Admitted RegionDir.exec Ordinary (some dir) events) :
    ∃ last, events.foldl RegionDir.exec (some dir) = some last ∧ last.Settled ∧
      RegionRegistry.Evolves dir.registry last.registry := by
  induction events generalizing dir with
  | nil => exact ⟨dir, rfl, settled, settled.sound.evolves⟩
  | cons event rest ih =>
    obtain ⟨here, later⟩ := ordinary
    obtain ⟨next, taken, settled', evolves⟩ := settled.exec here
    rw [taken] at later
    obtain ⟨last, reached, settled'', evolves'⟩ := ih settled' later
    refine ⟨last, ?_, settled'', evolves.trans settled'.sound evolves'⟩
    rw [foldl_cons, taken, reached]

end RegionDir

end Arcux.Pd
