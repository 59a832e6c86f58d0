import Arcux.Pd.Epochs
import Arcux.Rpc.Kv

namespace Arcux.Server

open Codec Concurrency Data List Pd Rpc
open scoped Codec.ByteOrder Engine

/-- Whether a request may proceed; otherwise the answer carries the current epoch, or 0 for an unknown region. -/
def checkContext (regions : RegionRegistry) (ctx : Option Context) (key : Bytes) : Option KeyError :=
  match ctx with
  | none => none
  | some ctx =>
    if ctx.regionId = 0 then none
    else
      match regions.byId ctx.regionId with
      | some r => if r.epoch = ctx.regionEpoch ∧ r.contains key then none else some (.regionStale r.epoch)
      | none => some (.regionStale 0)

theorem checkContext_eq_none {regions : RegionRegistry} {ctx : Context} {key : Bytes} (routed : ctx.regionId ≠ 0)
    (accepted : checkContext regions (some ctx) key = none) :
    ∃ r ∈ regions.regions, regions.byId ctx.regionId = some r ∧ r.id = ctx.regionId ∧ r.epoch = ctx.regionEpoch ∧
      r.contains key = true := by
  simp only [checkContext, if_neg routed] at accepted
  cases found : regions.byId ctx.regionId with
  | none =>
    rw [found] at accepted
    cases accepted
  | some r =>
    rw [found] at accepted
    dsimp only at accepted
    split at accepted
    case isFalse => cases accepted
    case isTrue current =>
      have id : r.id = ctx.regionId := by simpa using find?_some found
      exact ⟨r, mem_of_find?_eq_some found, rfl, id, current⟩

open RegionDir in
/-- Tables are tilings; an id that has disappeared does not come back, an id and an epoch stand for one range, and a key
gets a higher epoch with every change of its region. So an accepted context was issued for the range it now stands for. -/
theorem epochs_identify_ranges (first second third : List RegionDir.Event)
    (ordinary : Admitted exec Ordinary (some fresh) (first ++ second ++ third)) :
    ∃ a b c, first.foldl exec (some fresh) = some a ∧ (first ++ second).foldl exec (some fresh) = some b ∧
      (first ++ second ++ third).foldl exec (some fresh) = some c ∧
      Tiling Region.start Region.stop c.registry.regions ∧
      (∀ key, ∃! r, r ∈ c.registry.regions ∧ r.contains key = true) ∧
      (c.registry.regions.map Region.id).Nodup ∧
      (∀ id ∈ a.registry.regions.map Region.id, id ∉ b.registry.regions.map Region.id →
        id ∉ c.registry.regions.map Region.id) ∧
      (∀ old ∈ a.registry.regions, ∀ new ∈ c.registry.regions, old.id = new.id → old.epoch = new.epoch →
        old.start = new.start ∧ old.stop = new.stop) ∧
      (∀ key, ∀ old ∈ a.registry.regions, ∀ new ∈ c.registry.regions, old.contains key = true → new.contains key = true →
        ¬ (old.id = new.id ∧ old.start = new.start ∧ old.stop = new.stop) → old.epoch < new.epoch) ∧
      ∀ issued ∈ a.registry.regions, ∀ key, checkContext c.registry (some ⟨issued.id, issued.epoch⟩) key = none →
        ∃ current, c.registry.byId issued.id = some current ∧ current.contains key = true ∧
          current.start = issued.start ∧ current.stop = issued.stop := by
  obtain ⟨front, ordinary₃⟩ := admitted_append.mp ordinary
  obtain ⟨ordinary₁, ordinary₂⟩ := admitted_append.mp front
  obtain ⟨a, reached₁, settled₁, -⟩ := settled_fresh.run ordinary₁
  rw [reached₁] at ordinary₂
  obtain ⟨b, reached₂, settled₂, evolves₁⟩ := settled₁.run ordinary₂
  rw [foldl_append, reached₁, reached₂] at ordinary₃
  obtain ⟨c, reached₃, settled₃, evolves₂⟩ := settled₂.run ordinary₃
  have evolves := evolves₁.trans settled₂.sound evolves₂
  refine ⟨a, b, c, reached₁, ?_, ?_, settled₃.sound.tiling, fun key => ?_, settled₃.sound.distinct, ?_, ?_, ?_, ?_⟩
  · rw [foldl_append, reached₁, reached₂]
  · rw [foldl_append, foldl_append, reached₁, reached₂, reached₃]
  · obtain ⟨r, member, within⟩ := settled₃.sound.tiling.exists_within key
    refine ⟨r, ⟨member, Region.contains_iff.mpr within⟩, fun other there => ?_⟩
    exact settled₃.sound.eq_of_contains there.1 member there.2 (Region.contains_iff.mpr within)
  · intro id known gone back
    obtain ⟨old, held, rfl⟩ := mem_map.mp known
    obtain ⟨new, held', same⟩ := mem_map.mp back
    have assigned := (settled₁.sound.assigned old held).2.trans_le evolves₁.nextId
    obtain ⟨mid, between, same', -⟩ := evolves₂.origin new held' (same ▸ assigned)
    exact gone (mem_map.mpr ⟨mid, between, same'.trans same⟩)
  · intro old held new held' id epoch
    obtain rfl := evolves.range settled₁.sound held held' id epoch
    exact ⟨rfl, rfl⟩
  · intro key old held new held' inOld inNew changed
    refine (evolves.keys key old held new held' inOld inNew).resolve_right fun same => changed ?_
    exact ⟨congrArg _ same, congrArg _ same, congrArg _ same⟩
  · intro issued held key accepted
    have routed : issued.id ≠ 0 := (settled₁.sound.assigned issued held).1.ne'
    obtain ⟨current, held', found, id, epoch, inside⟩ := checkContext_eq_none routed accepted
    obtain rfl := evolves.range settled₁.sound held held' id.symm epoch.symm
    exact ⟨issued, found, inside, rfl, rfl⟩

open RegionDir in
theorem epochs_identify_ranges_remerged :
    ∃ c, [RegionDir.Event.call (.split [109]) .done, .call (.merge [109]) .done, .call (.split [116]) .done, .reopen .done].foldl
        exec (some fresh) = some c ∧
      Tiling Region.start Region.stop c.registry.regions ∧ (c.registry.regions.map Region.id).Nodup :=
  have ⟨_, _, c, _, _, reached, tiling, _, distinct, _⟩ := epochs_identify_ranges [.call (.split [109]) .done]
    [.call (.merge [109]) .done] [.call (.split [116]) .done, .reopen .done] (by decide +kernel)
  ⟨c, reached, tiling, distinct⟩

def zeros (n : Nat) : Bytes := replicate n 0

/-- The table after a split at zeros, and what is read of its file if the count of the zeros is written as 0. -/
def cut (n : Nat) : RegionRegistry := ⟨[⟨1, [], zeros n, 2⟩, ⟨2, zeros n, [], 2⟩], 3⟩

def misread : RegionRegistry := ⟨[⟨1, [], [], 2⟩, ⟨0, [], [], 0⟩], 3⟩

theorem encodeState_cut {n : Nat} (wraps : toBE 4 (n + 24) = toBE 4 0) :
    ∃ rest, encodeState (cut (n + 24)) = encodeState misread ++ rest := by
  refine ⟨zeros n ++ toBE 8 2 ++ toBE 8 2 ++ putBytes (zeros (n + 24)) ++ putBytes [], ?_⟩
  have parts : zeros (n + 24) = toBE 8 0 ++ toBE 8 0 ++ putBytes [] ++ putBytes [] ++ zeros n := by
    rw [Nat.add_comm, zeros, replicate_add]
    rfl
  have written : putBytes (zeros (n + 24)) = toBE 4 0 ++ zeros (n + 24) := by
    rw [putBytes, zeros, length_replicate, wraps]
  simp only [encodeState, cut, misread, flatMap_cons, flatMap_nil, written, append_nil, append_assoc]
  rw [parts]
  simp only [append_assoc]
  rfl

open RegionDir in
theorem reopen_cut {n : Nat} (wraps : toBE 4 (n + 24) = toBE 4 0) :
    [RegionDir.Event.call (.split (zeros (n + 24))) .done, .reopen .done].foldl exec (some fresh) =
      some ⟨misread, some (encodeState misread)⟩ := by
  have published : exec (some fresh) (.call (.split (zeros (n + 24))) .done) =
      some ⟨cut (n + 24), some (encodeState (cut (n + 24)))⟩ := rfl
  obtain ⟨rest, written⟩ := encodeState_cut wraps
  have read : decodeState.run (encodeState misread ++ rest) = some (misread, rest) :=
    reads_decodeState (by decide) (by decide) rest
  rw [foldl_cons, published, written]
  simp only [foldl_cons, foldl_nil, exec, Option.bind_some, openInner, load, read]
  rfl

open RegionDir in
/-- The table found after a split at a key of 4 GiB and a restart has two regions that both contain every key. -/
theorem split_misread :
    ∃ dir, [RegionDir.Event.call (.split (zeros (2 ^ 32))) .done, .reopen .done].foldl exec (some fresh) = some dir ∧
      ¬ ∃! r, r ∈ dir.registry.regions ∧ r.contains [] = true := by
  have size : 2 ^ 32 = 4294967272 + 24 := rfl
  refine ⟨⟨misread, some (encodeState misread)⟩, ?_, fun ⟨r, _, unique⟩ => ?_⟩
  · rw [size]
    exact reopen_cut (by decide)
  · have one := unique ⟨1, [], [], 2⟩ (by decide)
    have other := unique ⟨0, [], [], 0⟩ (by decide)
    exact absurd (one.trans other.symm) (by decide)

end Arcux.Server
