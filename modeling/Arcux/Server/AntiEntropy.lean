import Arcux.Engine.Keys
import Mathlib.Data.List.Sort
import Mathlib.Tactic.IntervalCases
import Mathlib.Tactic.Ring

namespace Arcux.Server

open Codec Engine List
open scoped Codec.ByteOrder

def leaves : Nat := 256

structure Version where
  key : Bytes
  version : Ts
  value : Bytes
  isDelete : Bool
  deriving Repr, DecidableEq

def fnvOffset : UInt64 := 0xcbf29ce484222325

def fnvPrime : UInt64 := 0x00000100000001b3

def fnv1aStep (h : UInt64) (bytes : Bytes) : UInt64 :=
  ((bytes.foldl (fun h b => (h ^^^ b.toUInt64) * fnvPrime) h) ^^^ 0xff) * fnvPrime

def fnv1a (bytes : Bytes) : UInt64 := fnv1aStep fnvOffset bytes

def mix (a b : UInt64) : UInt64 := fnv1aStep (fnv1aStep fnvOffset (toBE 8 a.toNat)) (toBE 8 b.toNat)

def bucketOf (key : Bytes) : Nat := (fnv1a key).toNat % leaves

def EntryLe (a b : Bytes × Ts) : Prop := a.1 < b.1 ∨ a.1 = b.1 ∧ a.2 ≤ b.2
  deriving Decidable

def leafEntries (versions : List Version) (bucket : Nat) : List (Bytes × Ts) :=
  ((versions.filter fun v => bucketOf v.key = bucket).map fun v => (v.key, v.version)).insertionSort EntryLe

def leafHash (entries : List (Bytes × Ts)) : UInt64 :=
  entries.foldl (fun h e => fnv1aStep (fnv1aStep h e.1) (toBE 8 e.2.toNat)) fnvOffset

structure Digest where
  leaves : List UInt64
  deriving DecidableEq

def digest (versions : List Version) : Digest :=
  ⟨(range leaves).map fun bucket => leafHash (leafEntries versions bucket)⟩

/-- A tree over the leaf hashes as a heap: the root is node 1, the children of node `i` are `2 * i` and `2 * i + 1`. -/
structure MerkleTree where
  nodes : List UInt64

namespace MerkleTree

def node (tree : MerkleTree) (i : Nat) : UInt64 := tree.nodes.getD i 0

def fill : Nat → MerkleTree → MerkleTree
  | 0, tree => tree
  | i + 1, tree => fill i ⟨tree.nodes.set (i + 1) (mix (tree.node (2 * (i + 1))) (tree.node (2 * (i + 1) + 1)))⟩

def fromDigest (d : Digest) : MerkleTree := fill (Server.leaves - 1) ⟨replicate Server.leaves 0 ++ d.leaves⟩

end MerkleTree

def descend (differs : Nat → Bool) : Nat → List Nat → List Nat → List Nat
  | 0, _, out => out
  | _, [], out => out
  | steps + 1, i :: stack, out =>
    if differs i then
      if leaves ≤ i then descend differs steps stack (out ++ [i - leaves])
      else descend differs steps ((2 * i + 1) :: (2 * i) :: stack) out
    else descend differs steps stack out

def MerkleTree.differingLeaves (tree other : MerkleTree) : List Nat :=
  (descend (fun i => tree.node i ≠ other.node i) (2 * leaves) [1] []).insertionSort (· ≤ ·)

def diff (here there : Digest) : List Nat :=
  (MerkleTree.fromDigest here).differingLeaves (MerkleTree.fromDigest there)

def toAdopt (known : Bytes → Option Ts) (remote : List Version) : List Version :=
  remote.filter fun r =>
    match known r.key with
    | none => true
    | some mine => mine < r.version

variable {bucket : Nat}

theorem mem_leafEntries {versions : List Version} {k : Bytes} {c : Ts} :
    (k, c) ∈ leafEntries versions bucket ↔ bucketOf k = bucket ∧ ∃ v ∈ versions, v.key = k ∧ v.version = c := by
  rw [leafEntries, mem_insertionSort, mem_map]
  constructor
  · rintro ⟨v, member, same⟩
    obtain ⟨rfl, rfl⟩ := Prod.mk.inj same
    obtain ⟨listed, here⟩ := mem_filter.mp member
    exact ⟨of_decide_eq_true here, v, listed, rfl, rfl⟩
  · rintro ⟨here, v, listed, rfl, rfl⟩
    exact ⟨v, mem_filter.mpr ⟨listed, decide_eq_true here⟩, rfl⟩

namespace MerkleTree

variable {n i : Nat}

theorem node_fill_above (tree : MerkleTree) (above : n < i) : (fill n tree).node i = tree.node i := by
  induction n generalizing tree with
  | zero => rfl
  | succ n ih =>
    rw [fill, ih _ (Nat.lt_of_succ_lt above)]
    simp only [node, getD_eq_getElem?_getD]
    rw [getElem?_set_ne above.ne]

theorem node_fill_inner (tree : MerkleTree) (long : n < tree.nodes.length) (low : 0 < i) (high : i ≤ n) :
    (fill n tree).node i = mix ((fill n tree).node (2 * i)) ((fill n tree).node (2 * i + 1)) := by
  induction n generalizing tree with
  | zero => omega
  | succ n ih =>
    rw [fill]
    rcases Nat.lt_or_eq_of_le high with below | rfl
    · exact ih _ (by rw [length_set]; omega) (by omega)
    · rw [node_fill_above _ (by omega), node_fill_above _ (by omega), node_fill_above _ (by omega)]
      simp only [node, getD_eq_getElem?_getD]
      rw [getElem?_set_self long, getElem?_set_ne (by omega), getElem?_set_ne (by omega),
        Option.getD_some]

end MerkleTree

section

variable {differs : Nat → Bool}

def collect (differs : Nat → Bool) : Nat → Nat → List Nat
  | 0, i => if differs i then [i - leaves] else []
  | depth + 1, i => if differs i then collect differs depth (2 * i + 1) ++ collect differs depth (2 * i) else []

def AtLevel (depth i : Nat) : Prop := leaves ≤ i * 2 ^ depth ∧ (i + 1) * 2 ^ depth ≤ 2 * leaves

variable {depth i : Nat}

theorem AtLevel.left (level : AtLevel (depth + 1) i) : AtLevel depth (2 * i) := by
  obtain ⟨low, high⟩ := level
  have width := Nat.two_pow_pos depth
  have first : 2 * i * 2 ^ depth = i * 2 ^ (depth + 1) := by ring
  have next : (2 * i + 1) * 2 ^ depth + 2 ^ depth = (i + 1) * 2 ^ (depth + 1) := by ring
  exact ⟨by omega, by omega⟩

theorem AtLevel.right (level : AtLevel (depth + 1) i) : AtLevel depth (2 * i + 1) := by
  obtain ⟨low, high⟩ := level
  have width := Nat.two_pow_pos depth
  have first : (2 * i + 1) * 2 ^ depth = i * 2 ^ (depth + 1) + 2 ^ depth := by ring
  have next : (2 * i + 1 + 1) * 2 ^ depth = (i + 1) * 2 ^ (depth + 1) := by ring
  exact ⟨by omega, by omega⟩

theorem AtLevel.inner (level : AtLevel (depth + 1) i) : 0 < i ∧ i < leaves := by
  obtain ⟨low, high⟩ := level
  have wide : 2 ≤ 2 ^ (depth + 1) := Nat.le_self_pow (Nat.succ_ne_zero _) 2
  constructor
  · by_contra zero
    rw [Nat.eq_zero_of_not_pos zero, Nat.zero_mul] at low
    exact absurd low (by decide)
  · have := (Nat.mul_le_mul_left (i + 1) wide).trans high
    omega

theorem descend_collect (differs : Nat → Bool) (level : AtLevel depth i) :
    ∃ used, used < 2 ^ (depth + 1) ∧ ∀ stack out steps,
      descend differs (used + steps) (i :: stack) out = descend differs steps stack (out ++ collect differs depth i) := by
  induction depth generalizing i with
  | zero =>
    refine ⟨1, by decide, fun stack out steps => ?_⟩
    have leaf : leaves ≤ i := by simpa using level.1
    rw [Nat.add_comm, descend, if_pos leaf, collect]
    split
    · rfl
    · rw [append_nil]
  | succ depth ih =>
    have inner : ¬ leaves ≤ i := not_le.mpr level.inner.2
    by_cases marked : differs i = true
    · obtain ⟨used, few, left⟩ := ih level.left
      obtain ⟨used', few', right⟩ := ih level.right
      refine ⟨used' + used + 1, by rw [Nat.pow_succ]; omega, fun stack out steps => ?_⟩
      rw [show used' + used + 1 + steps = used' + (used + steps) + 1 by omega, descend, if_pos marked, if_neg inner, right,
        left, collect, if_pos marked, append_assoc]
    · refine ⟨1, Nat.one_lt_two_pow (Nat.succ_ne_zero _), fun stack out steps => ?_⟩
      rw [Nat.add_comm, descend, if_neg marked, collect, if_neg marked, append_nil]

theorem mem_collect {depth i b : Nat} (level : AtLevel depth i) :
    b ∈ collect differs depth i ↔ (leaves + b) / 2 ^ depth = i ∧ ∀ k ≤ depth, differs ((leaves + b) / 2 ^ k) := by
  induction depth generalizing i with
  | zero =>
    have leaf : leaves ≤ i := by simpa using level.1
    have same : b = i - leaves ↔ leaves + b = i := by omega
    rw [collect]
    simp only [Nat.le_zero, forall_eq, Nat.pow_zero, Nat.div_one]
    split
    · rename_i marked
      rw [mem_singleton, same]
      exact ⟨fun found => ⟨found, found ▸ marked⟩, And.left⟩
    · rename_i agrees
      simp only [not_mem_nil, false_iff, not_and]
      exact fun found => found ▸ agrees
  | succ depth ih =>
    have up : (leaves + b) / 2 ^ (depth + 1) = (leaves + b) / 2 ^ depth / 2 := by
      rw [Nat.div_div_eq_div_mul, Nat.pow_succ]
    have path : (∀ k ≤ depth + 1, differs ((leaves + b) / 2 ^ k)) ↔
        differs ((leaves + b) / 2 ^ (depth + 1)) ∧ ∀ k ≤ depth, differs ((leaves + b) / 2 ^ k) := by
      simp only [Nat.le_succ_iff, or_imp, forall_and, forall_eq, and_comm]
    rw [collect, path]
    split
    · rename_i marked
      rw [mem_append, ih level.right, ih level.left, ← or_and_right, ← and_assoc]
      refine and_congr_left fun _ => ?_
      constructor
      · intro child
        have parent : (leaves + b) / 2 ^ (depth + 1) = i := by omega
        exact ⟨parent, parent ▸ marked⟩
      · rintro ⟨parent, -⟩
        omega
    · rename_i agrees
      simp only [not_mem_nil, false_iff, not_and]
      exact fun found below => absurd (found ▸ below) agrees

theorem nodup_collect (level : AtLevel depth i) : (collect differs depth i).Nodup := by
  induction depth generalizing i with
  | zero =>
    rw [collect]
    split
    · exact nodup_singleton _
    · exact nodup_nil
  | succ depth ih =>
    rw [collect]
    split
    · refine nodup_append.mpr ⟨ih level.right, ih level.left, ?_⟩
      rintro b right _ left rfl
      have above := ((mem_collect level.right).mp right).1
      have above' := ((mem_collect level.left).mp left).1
      omega
    · exact nodup_nil

end

namespace MerkleTree

def NoCollision (tree other : MerkleTree) : Prop := ∀ i, 0 < i → i < leaves → tree.node i = other.node i →
  tree.node (2 * i) = other.node (2 * i) ∧ tree.node (2 * i + 1) = other.node (2 * i + 1)

theorem atLevel_root : AtLevel 8 1 := by
  unfold AtLevel
  decide

theorem differingLeaves_eq (tree other : MerkleTree) : tree.differingLeaves other =
    (collect (fun i => tree.node i ≠ other.node i) 8 1).insertionSort (· ≤ ·) := by
  obtain ⟨used, few, done⟩ := descend_collect (fun i => tree.node i ≠ other.node i) atLevel_root
  have whole : used + (2 * leaves - used) = 2 * leaves := Nat.add_sub_cancel' few.le
  have empty : ∀ steps out, descend (fun i => tree.node i ≠ other.node i) steps [] out = out := by
    intro steps out
    cases steps <;> rfl
  rw [differingLeaves, ← whole, done, empty, nil_append]

theorem differingLeaves_ascending (tree other : MerkleTree) : (tree.differingLeaves other).Pairwise (· < ·) := by
  rw [differingLeaves_eq]
  have sorted := pairwise_insertionSort (· ≤ ·) (collect (fun i => tree.node i ≠ other.node i) 8 1)
  have distinct : (collect (fun i => tree.node i ≠ other.node i) 8 1).Nodup := nodup_collect atLevel_root
  have distinct := (perm_insertionSort (· ≤ ·) _).nodup_iff.mpr distinct
  exact (sorted.and distinct).imp fun ⟨le, ne⟩ => lt_of_le_of_ne le ne

variable {tree other : MerkleTree} {b : Nat}

theorem mem_differingLeaves_iff : b ∈ tree.differingLeaves other ↔
    b < leaves ∧ ∀ k ≤ 8, tree.node ((leaves + b) / 2 ^ k) ≠ other.node ((leaves + b) / 2 ^ k) := by
  have root : (leaves + b) / 2 ^ 8 = 1 ↔ b < leaves := by
    unfold leaves
    omega
  rw [differingLeaves_eq, mem_insertionSort, mem_collect atLevel_root, root]
  simp only [decide_eq_true_eq]

theorem differs_or_collides (differs : tree.node (leaves + b) ≠ other.node (leaves + b)) (depth : Nat) :
    (∀ k ≤ depth, tree.node ((leaves + b) / 2 ^ k) ≠ other.node ((leaves + b) / 2 ^ k)) ∨
    ∃ k i, 0 < k ∧ k ≤ depth ∧ i = (leaves + b) / 2 ^ k ∧ tree.node i = other.node i ∧
      (tree.node (2 * i), tree.node (2 * i + 1)) ≠ (other.node (2 * i), other.node (2 * i + 1)) := by
  induction depth with
  | zero => exact Or.inl (by simpa using differs)
  | succ depth ih =>
    rcases ih with below | ⟨k, i, low, high, rest⟩
    · by_cases same : tree.node ((leaves + b) / 2 ^ (depth + 1)) = other.node ((leaves + b) / 2 ^ (depth + 1))
      · refine Or.inr ⟨depth + 1, _, Nat.succ_pos _, Nat.le_refl _, rfl, same, fun children => ?_⟩
        obtain ⟨left, right⟩ := Prod.mk.inj children
        have up : (leaves + b) / 2 ^ (depth + 1) = (leaves + b) / 2 ^ depth / 2 := by
          rw [Nat.div_div_eq_div_mul, Nat.pow_succ]
        rcases Nat.mod_two_eq_zero_or_one ((leaves + b) / 2 ^ depth) with even | odd
        · rw [show 2 * ((leaves + b) / 2 ^ (depth + 1)) = (leaves + b) / 2 ^ depth by omega] at left
          exact below depth (Nat.le_refl _) left
        · rw [show 2 * ((leaves + b) / 2 ^ (depth + 1)) + 1 = (leaves + b) / 2 ^ depth by omega] at right
          exact below depth (Nat.le_refl _) right
      · refine Or.inl fun k le => ?_
        rcases Nat.le_succ_iff.mp le with le | rfl
        · exact below k le
        · exact same
    · exact Or.inr ⟨k, i, low, Nat.le_succ_of_le high, rest⟩

theorem inner_of_path {b k : Nat} (inside : b < leaves) (low : 0 < k) (high : k ≤ 8) :
    0 < (leaves + b) / 2 ^ k ∧ (leaves + b) / 2 ^ k < leaves := by
  have narrow : 2 ^ k ≤ leaves := Nat.pow_le_pow_right Nat.two_pos high
  have wide : 2 ≤ 2 ^ k := Nat.le_self_pow low.ne' 2
  exact ⟨Nat.div_pos (by omega) (by omega), Nat.div_lt_of_lt_mul (by have := Nat.mul_le_mul_right leaves wide; omega)⟩

theorem mem_differingLeaves (safe : tree.NoCollision other) (inside : b < leaves)
    (differs : tree.node (leaves + b) ≠ other.node (leaves + b)) : b ∈ tree.differingLeaves other := by
  rcases differs_or_collides differs 8 with all | ⟨k, i, low, high, rfl, same, children⟩
  · exact mem_differingLeaves_iff.mpr ⟨inside, all⟩
  · have inner := inner_of_path inside low high
    obtain ⟨left, right⟩ := safe _ inner.1 inner.2 same
    exact absurd (Prod.mk.injEq .. ▸ ⟨left, right⟩) children

theorem node_fromDigest_leaf {d : Digest} : (fromDigest d).node (Server.leaves + b) = d.leaves.getD b 0 := by
  rw [fromDigest, node_fill_above _ (by unfold Server.leaves; omega)]
  simp only [node, getD_eq_getElem?_getD]
  rw [getElem?_append_right (by simp), length_replicate, Nat.add_sub_cancel_left]

theorem node_fromDigest_inner (d : Digest) {i : Nat} (low : 0 < i) (high : i < Server.leaves) :
    (fromDigest d).node i = mix ((fromDigest d).node (2 * i)) ((fromDigest d).node (2 * i + 1)) := by
  refine node_fill_inner _ ?_ low (Nat.le_sub_one_of_lt high)
  rw [length_append, length_replicate, Server.leaves]
  omega

/-- The hash above bucket `b` at a height, and that of every other subtree of the height, if the other buckets hash
alike. -/
def spine (b : Nat) (here beside : UInt64) : Nat → UInt64 × UInt64
  | 0 => (here, beside)
  | k + 1 =>
    let (h, other) := spine b here beside k
    (if (Server.leaves + b) / 2 ^ k % 2 = 0 then mix h other else mix other h, mix other other)

theorem node_spine {d : Digest} {here beside : UInt64}
    (lone : ∀ j < Server.leaves, d.leaves.getD j 0 = if j = b then here else beside) {depth i : Nat}
    (level : AtLevel depth i) : (fromDigest d).node i =
      if i = (Server.leaves + b) / 2 ^ depth then (spine b here beside depth).1 else (spine b here beside depth).2 := by
  induction depth generalizing i with
  | zero =>
    obtain ⟨low, high⟩ := level
    obtain ⟨j, rfl⟩ := Nat.exists_eq_add_of_le (by simpa using low)
    rw [node_fromDigest_leaf, lone j (by omega)]
    simp only [Nat.pow_zero, Nat.div_one, Nat.add_right_inj, spine]
  | succ depth ih =>
    have up : (Server.leaves + b) / 2 ^ (depth + 1) = (Server.leaves + b) / 2 ^ depth / 2 := by
      rw [Nat.div_div_eq_div_mul, Nat.pow_succ]
    rw [node_fromDigest_inner d level.inner.1 level.inner.2, ih level.left, ih level.right, up, spine]
    generalize spine b here beside depth = below
    generalize (Server.leaves + b) / 2 ^ depth = above
    dsimp only
    split_ifs <;> first | omega | rfl

theorem mem_diff_of_lone {d d' : Digest} {here here' beside : UInt64} (inside : b < Server.leaves)
    (lone : ∀ j < Server.leaves, d.leaves.getD j 0 = if j = b then here else beside)
    (lone' : ∀ j < Server.leaves, d'.leaves.getD j 0 = if j = b then here' else beside)
    (differ : ∀ k ≤ 8, (spine b here beside k).1 ≠ (spine b here' beside k).1) : b ∈ diff d d' := by
  refine mem_differingLeaves_iff.mpr ⟨inside, fun k low => ?_⟩
  have level : AtLevel k ((Server.leaves + b) / 2 ^ k) := by
    unfold AtLevel Server.leaves at *
    interval_cases k <;> omega
  rw [node_spine lone level, node_spine lone' level, if_pos rfl, if_pos rfl]
  exact differ k low

end MerkleTree

open MerkleTree in
theorem diff_exact_up_to_collisions (here there : Digest) (full : here.leaves.length = leaves)
    (full' : there.leaves.length = leaves) :
    (diff here there).Pairwise (· < ·) ∧
    (∀ b ∈ diff here there, b < leaves ∧ here.leaves[b]? ≠ there.leaves[b]?) ∧
    ∀ b < leaves, here.leaves[b]? ≠ there.leaves[b]? → b ∈ diff here there ∨
      ∃ k i, 0 < k ∧ k ≤ 8 ∧ i = (leaves + b) / 2 ^ k ∧ (fromDigest here).node i = (fromDigest there).node i ∧
        ((fromDigest here).node (2 * i), (fromDigest here).node (2 * i + 1)) ≠
          ((fromDigest there).node (2 * i), (fromDigest there).node (2 * i + 1)) ∧
        mix ((fromDigest here).node (2 * i)) ((fromDigest here).node (2 * i + 1)) =
          mix ((fromDigest there).node (2 * i)) ((fromDigest there).node (2 * i + 1)) := by
  have leaf {b : Nat} (inside : b < leaves) :
      (fromDigest here).node (leaves + b) = (fromDigest there).node (leaves + b) ↔
        here.leaves[b]? = there.leaves[b]? := by
    rw [node_fromDigest_leaf, node_fromDigest_leaf, getElem?_eq_getElem (full ▸ inside),
      getElem?_eq_getElem (full' ▸ inside), Option.some.injEq]
    simp [full, full', inside]
  refine ⟨differingLeaves_ascending _ _, fun b found => ?_, fun b inside differs => ?_⟩
  · obtain ⟨inside, path⟩ := mem_differingLeaves_iff.mp found
    have differs := path 0 (Nat.zero_le _)
    rw [Nat.pow_zero, Nat.div_one] at differs
    exact ⟨inside, mt (leaf inside).mpr differs⟩
  · rcases differs_or_collides (mt (leaf inside).mp differs) 8 with all | ⟨k, i, low, high, rfl, same, children⟩
    · exact Or.inl (mem_differingLeaves_iff.mpr ⟨inside, all⟩)
    · have inner := inner_of_path inside low high
      refine Or.inr ⟨k, _, low, high, rfl, same, children, ?_⟩
      rw [← node_fromDigest_inner here inner.1 inner.2, ← node_fromDigest_inner there inner.1 inner.2]
      exact same

theorem length_digest (versions : List Version) : (digest versions).leaves.length = leaves := by
  simp [digest]

theorem diff_exact_up_to_collisions_single :
    (diff (digest []) (digest [⟨[1], 5, [7], false⟩])).Pairwise (· < ·) ∧
      ∀ b ∈ diff (digest []) (digest [⟨[1], 5, [7], false⟩]), b < leaves := by
  obtain ⟨ascending, sound, -⟩ :=
    diff_exact_up_to_collisions (digest []) (digest [⟨[1], 5, [7], false⟩]) (length_digest _) (length_digest _)
  exact ⟨ascending, fun b found => (sound b found).1⟩

/-- Two replicas' versions of a region hash without collisions: equal hashes of a leaf mean equal entries, and equal
hashes of an inner node equal children. -/
structure NoCollision (here there : List Version) : Prop where
  leaf : ∀ bucket, leafHash (leafEntries here bucket) = leafHash (leafEntries there bucket) →
    leafEntries here bucket = leafEntries there bucket
  inner : (MerkleTree.fromDigest (digest here)).NoCollision (.fromDigest (digest there))

theorem bucketOf_lt (key : Bytes) : bucketOf key < leaves := Nat.mod_lt _ (by decide)

variable {here there : List Version}

theorem NoCollision.mem_diff (safe : NoCollision here there) (inside : bucket < leaves)
    (differ : leafEntries here bucket ≠ leafEntries there bucket) : bucket ∈ diff (digest here) (digest there) := by
  have leaf : ∀ versions, (digest versions).leaves.getD bucket 0 = leafHash (leafEntries versions bucket) := by
    intro versions
    simp [digest, inside]
  refine MerkleTree.mem_differingLeaves safe.inner inside ?_
  rw [MerkleTree.node_fromDigest_leaf, MerkleTree.node_fromDigest_leaf, leaf, leaf]
  exact mt (safe.leaf bucket) differ

theorem leafEntries_congr (same : (here.map fun v => (v.key, v.version)) = there.map fun v => (v.key, v.version))
    (bucket : Nat) : leafEntries here bucket = leafEntries there bucket := by
  have entries : ∀ versions : List Version, leafEntries versions bucket =
      ((versions.map fun v => (v.key, v.version)).filter fun e => bucketOf e.1 = bucket).insertionSort EntryLe := by
    intro versions
    rw [leafEntries, filter_map]
    rfl
  rw [entries, entries, same]

theorem digest_congr (same : (here.map fun v => (v.key, v.version)) = there.map fun v => (v.key, v.version)) :
    digest here = digest there := by
  simp only [digest, leafEntries_congr same]

theorem NoCollision.of_same (same : (here.map fun v => (v.key, v.version)) = there.map fun v => (v.key, v.version)) :
    NoCollision here there where
  leaf bucket _ := leafEntries_congr same bucket
  inner := by
    rw [digest_congr same]
    exact fun _ _ _ _ => ⟨rfl, rfl⟩

theorem digest_lone (v : Version) {j : Nat} (inside : j < leaves) : (digest [v]).leaves.getD j 0 =
    if j = bucketOf v.key then leafHash [(v.key, v.version)] else fnvOffset := by
  rcases eq_or_ne j (bucketOf v.key) with rfl | other
  · simp [digest, leafEntries, bucketOf_lt]
  · simp [digest, leafEntries, leafHash, inside, other, other.symm]

theorem diff_self (d : Digest) : diff d d = [] := by
  simp [diff, MerkleTree.differingLeaves, descend, leaves]

end Arcux.Server
