import Mathlib.Algebra.GroupWithZero.Nat
import Mathlib.Data.List.Pairwise
import Mathlib.Order.Lattice

namespace Arcux.Data

open List

structure OrdMap (κ ν : Type) [LinearOrder κ] where
  entries : List (κ × ν)
  sorted : entries.Pairwise (fun a b => a.1 < b.1)

namespace OrdMap

variable {κ ν : Type} [LinearOrder κ]

def empty : OrdMap κ ν := ⟨[], .nil⟩

def insertEntry (k : κ) (v : ν) : List (κ × ν) → List (κ × ν)
  | [] => [(k, v)]
  | e :: rest =>
    if k < e.1 then (k, v) :: e :: rest
    else if k = e.1 then (k, v) :: rest
    else e :: insertEntry k v rest

variable {l : List (κ × ν)} {k : κ} {v : ν}

theorem mem_insertEntry {e : κ × ν} (member : e ∈ insertEntry k v l) : e = (k, v) ∨ e ∈ l := by
  induction l with
  | nil => exact .inl (mem_singleton.mp member)
  | cons head rest ih =>
    rw [insertEntry] at member
    split_ifs at member
    · exact mem_cons.mp member
    · exact (mem_cons.mp member).imp_right (mem_cons_of_mem _)
    · rcases mem_cons.mp member with rfl | later
      · exact .inr (mem_cons_self ..)
      · exact (ih later).imp_right (mem_cons_of_mem _)

theorem sorted_insertEntry (sorted : l.Pairwise (fun a b => a.1 < b.1)) :
    (insertEntry k v l).Pairwise (fun a b => a.1 < b.1) := by
  induction l with
  | nil => exact pairwise_singleton _ _
  | cons head rest ih =>
    obtain ⟨least, tail⟩ := pairwise_cons.mp sorted
    rw [insertEntry]
    split_ifs with before same
    · refine pairwise_cons.mpr ⟨?_, sorted⟩
      intro e member
      rcases mem_cons.mp member with rfl | later
      · exact before
      · exact before.trans (least e later)
    · exact pairwise_cons.mpr ⟨fun e later => same ▸ least e later, tail⟩
    · refine pairwise_cons.mpr ⟨?_, ih tail⟩
      intro e member
      rcases mem_insertEntry member with rfl | later
      · exact lt_of_le_of_ne (not_lt.mp before) (Ne.symm same)
      · exact least e later

def insert (m : OrdMap κ ν) (k : κ) (v : ν) : OrdMap κ ν := ⟨insertEntry k v m.entries, sorted_insertEntry m.sorted⟩

def erase (m : OrdMap κ ν) (k : κ) : OrdMap κ ν := ⟨m.entries.filter (fun e => e.1 ≠ k), m.sorted.filter _⟩

def mapValues {ν' : Type} (f : κ → ν → ν') (m : OrdMap κ ν) : OrdMap κ ν' :=
  ⟨m.entries.map (fun e => (e.1, f e.1 e.2)), pairwise_map.mpr m.sorted⟩

def ofList (l : List (κ × ν)) : OrdMap κ ν := l.foldl (fun m e => m.insert e.1 e.2) empty

def find? (m : OrdMap κ ν) (k : κ) : Option ν := (m.entries.find? (fun e => e.1 = k)).map Prod.snd

def seek (m : OrdMap κ ν) (low : κ) : Option (κ × ν) := m.entries.find? (fun e => low ≤ e.1)

@[simp] theorem find?_empty (k : κ) : (empty : OrdMap κ ν).find? k = none := rfl

theorem eq_of_sorted (sorted : l.Pairwise (fun a b => a.1 < b.1)) {a b : κ × ν}
    (left : a ∈ l) (right : b ∈ l) (same : a.1 = b.1) : a = b := by
  induction l with
  | nil => cases left
  | cons head rest ih =>
    obtain ⟨least, tail⟩ := pairwise_cons.mp sorted
    rcases mem_cons.mp left with rfl | leftTail <;> rcases mem_cons.mp right with rfl | rightTail
    · rfl
    · exact absurd same (least b rightTail).ne
    · exact absurd same.symm (least a leftTail).ne
    · exact ih tail leftTail rightTail

variable {m : OrdMap κ ν}

theorem find?_eq_some : m.find? k = some v ↔ (k, v) ∈ m.entries := by
  simp only [find?, Option.map_eq_some_iff]
  constructor
  · rintro ⟨e, found, rfl⟩
    have same : e.1 = k := by simpa using find?_some found
    rw [← same]
    exact mem_of_find?_eq_some found
  · intro member
    obtain ⟨e, found⟩ := Option.isSome_iff_exists.mp
      (find?_isSome (p := fun e : κ × ν => e.1 = k) |>.mpr ⟨(k, v), member, by simp⟩)
    have same : e.1 = k := by simpa using find?_some found
    exact ⟨e, found, by rw [eq_of_sorted m.sorted (mem_of_find?_eq_some found) member same]⟩

theorem find?_insertEntry (l : List (κ × ν)) (k k' : κ) (v : ν) :
    (insertEntry k v l).find? (fun e => e.1 = k') =
      if k' = k then some (k, v) else l.find? (fun e => e.1 = k') := by
  induction l with
  | nil => by_cases same : k' = k <;> simp [insertEntry, same, eq_comm]
  | cons head rest ih =>
    rw [insertEntry]
    split_ifs with before equal same same
    all_goals grind

theorem insertEntry_last (above : ∀ e ∈ l, e.1 < k) : insertEntry k v l = l ++ [(k, v)] := by
  induction l with
  | nil => rfl
  | cons head rest ih =>
    obtain ⟨here, later⟩ := forall_mem_cons.mp above
    rw [insertEntry, if_neg here.not_gt, if_neg here.ne', ih later, cons_append]

theorem insertEntry_last_again {v v' : ν} (above : ∀ e ∈ l, e.1 < k) :
    insertEntry k v' (l ++ [(k, v)]) = l ++ [(k, v')] := by
  induction l with
  | nil => simp [insertEntry]
  | cons head rest ih =>
    obtain ⟨here, later⟩ := forall_mem_cons.mp above
    rw [cons_append, insertEntry, if_neg here.not_gt, if_neg here.ne', ih later, cons_append]

theorem ext {m m' : OrdMap κ ν} (same : m.entries = m'.entries) : m = m' := by
  cases m
  cases m'
  cases same
  rfl

theorem ofList_entries (m : OrdMap κ ν) : ofList m.entries = m := by
  suffices rest : ∀ (front : OrdMap κ ν) (l : List (κ × ν)), (front.entries ++ l).Pairwise (fun a b => a.1 < b.1) →
      (l.foldl (fun m e => m.insert e.1 e.2) front).entries = front.entries ++ l from
    ext (rest empty m.entries m.sorted)
  intro front l sorted
  induction l generalizing front with
  | nil => rw [foldl_nil, append_nil]
  | cons e rest ih =>
    have last : (front.insert e.1 e.2).entries = front.entries ++ [e] :=
      insertEntry_last fun e' member => (pairwise_append.mp sorted).2.2 e' member e (mem_cons_self ..)
    rw [append_cons, ← last] at sorted
    rw [foldl_cons, ih _ sorted, last, ← append_cons]

theorem lt_of_entries {front : List (κ × ν)} (entries : m.entries = front ++ [(k, v)]) : ∀ e ∈ front, e.1 < k := by
  have sorted := m.sorted
  rw [entries] at sorted
  exact fun e member => (pairwise_append.mp sorted).2.2 e member _ (mem_singleton_self _)

theorem find?_insert (m : OrdMap κ ν) (k k' : κ) (v : ν) :
    (m.insert k v).find? k' = if k' = k then some v else m.find? k' := by
  simp only [find?, insert, find?_insertEntry]
  split_ifs <;> rfl

theorem insert_known {old : ν} (known : m.find? k = some old) (v : ν) :
    ∃ front back, m.entries = front ++ (k, old) :: back ∧ (m.insert k v).entries = front ++ (k, v) :: back := by
  obtain ⟨front, back, entries⟩ := append_of_mem (find?_eq_some.mp known)
  refine ⟨front, back, entries, ?_⟩
  have below : ∀ e ∈ front, e.1 < k := by
    have sorted := m.sorted
    rw [entries, pairwise_append] at sorted
    exact fun e member => sorted.2.2 e member _ (mem_cons_self ..)
  change insertEntry k v m.entries = _
  rw [entries]
  clear entries
  induction front with
  | nil => simp [insertEntry]
  | cons e rest ih =>
    obtain ⟨first, later⟩ := forall_mem_cons.mp below
    rw [cons_append, insertEntry, if_neg first.not_gt, if_neg first.ne', ih later, cons_append]

theorem insert_same (known : m.find? k = some v) : m.insert k v = m := by
  obtain ⟨front, back, before, after⟩ := insert_known known v
  exact ext (after.trans before.symm)

theorem sum_insert (weight : ν → Nat) (m : OrdMap κ ν) (k : κ) (v : ν) :
    ((m.insert k v).entries.map fun e => weight e.2).sum + ((m.find? k).map weight).getD 0 =
      (m.entries.map fun e => weight e.2).sum + weight v := by
  obtain ⟨entries, sorted⟩ := m
  simp only [insert, find?]
  induction entries with
  | nil => simp [insertEntry]
  | cons head rest ih =>
    obtain ⟨least, tail⟩ := pairwise_cons.mp sorted
    have next := ih tail
    rw [insertEntry]
    split_ifs with before same
    · have absent : rest.find? (fun e => e.1 = k) = none :=
        find?_eq_none.mpr fun e member => by simpa using (before.trans (least e member)).ne'
      simp [find?_cons_of_neg, before.ne', absent]
      omega
    · simp [find?_cons_of_pos, same]
      omega
    · rw [find?_cons_of_neg (by simpa using Ne.symm same), map_cons, map_cons, sum_cons, sum_cons]
      omega

theorem find?_erase (m : OrdMap κ ν) (k k' : κ) : (m.erase k).find? k' = if k' = k then none else m.find? k' := by
  refine Option.ext fun v => ?_
  split_ifs with same
  · simp [find?_eq_some, erase, same]
  · simp [find?_eq_some, erase, same]

theorem find?_mapValues {ν' : Type} (f : κ → ν → ν') (m : OrdMap κ ν) (k : κ) :
    (m.mapValues f).find? k = (m.find? k).map (f k) := by
  refine Option.ext fun v => ?_
  rw [find?_eq_some, Option.map_eq_some_iff]
  simp only [find?_eq_some, mapValues, mem_map, Prod.exists, Prod.mk.injEq]
  grind

theorem mapValues_mapValues {ν' ν'' : Type} (f : κ → ν → ν') (g : κ → ν' → ν'') (m : OrdMap κ ν) :
    (m.mapValues f).mapValues g = m.mapValues fun k v => g k (f k v) :=
  ext (map_map ..)

theorem mapValues_insert {ν' : Type} (f : κ → ν → ν') (m : OrdMap κ ν) (k : κ) (v : ν) :
    (m.insert k v).mapValues f = (m.mapValues f).insert k (f k v) := by
  refine ext ?_
  simp only [mapValues, insert]
  induction m.entries with
  | nil => rfl
  | cons head rest ih =>
    rw [insertEntry, map_cons, insertEntry]
    split_ifs
    · rfl
    · rfl
    · rw [map_cons, ih]

theorem seek_eq_some {low k : κ} : m.seek low = some (k, v) ↔
    m.find? k = some v ∧ low ≤ k ∧ ∀ k' v', m.find? k' = some v' → low ≤ k' → k ≤ k' := by
  simp only [seek, find?_eq_some]
  obtain ⟨entries, sorted⟩ := m
  induction entries with
  | nil => simp
  | cons head rest ih =>
    obtain ⟨least, tail⟩ := pairwise_cons.mp sorted
    by_cases reached : low ≤ head.1
    · rw [find?_cons_of_pos (by simpa using reached)]
      constructor
      · rintro ⟨⟩
        refine ⟨mem_cons_self .., reached, fun k' v' member _ => ?_⟩
        rcases mem_cons.mp member with equal | later
        · exact (congrArg Prod.fst equal).ge
        · exact (least _ later).le
      · rintro ⟨member, -, lowest⟩
        rcases mem_cons.mp member with equal | later
        · rw [equal]
        · exact absurd (least _ later) (lowest _ _ (mem_cons_self ..) reached).not_gt
    · rw [find?_cons_of_neg (by simpa using reached), ih tail]
      constructor
      · rintro ⟨member, above, lowest⟩
        refine ⟨mem_cons_of_mem _ member, above, fun k' v' found bound => ?_⟩
        rcases mem_cons.mp found with equal | later
        · exact absurd (congrArg Prod.fst equal ▸ bound) reached
        · exact lowest k' v' later bound
      · rintro ⟨member, above, lowest⟩
        rcases mem_cons.mp member with equal | later
        · exact absurd (congrArg Prod.fst equal ▸ above) reached
        · exact ⟨later, above, fun k' v' found => lowest k' v' (mem_cons_of_mem _ found)⟩

theorem seek_eq_none {low : κ} : m.seek low = none ↔ ∀ k v, m.find? k = some v → k < low := by
  simp [seek, find?_eq_some]

end OrdMap

end Arcux.Data
