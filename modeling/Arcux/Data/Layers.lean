import Arcux.Data.OrdMap

namespace Arcux.Data

open List

/-! Maps stacked newest first: the first one that binds a key decides it. -/

namespace Layers

variable {κ ν : Type} [LinearOrder κ]

def find? (layers : List (OrdMap κ ν)) (k : κ) : Option ν := layers.findSome? (·.find? k)

def least : Option (κ × ν) → Option (κ × ν) → Option (κ × ν)
  | none, older => older
  | some e, none => some e
  | some e, some e' => if e'.1 < e.1 then some e' else some e

def seek (layers : List (OrdMap κ ν)) (low : κ) : Option (κ × ν) :=
  layers.foldr (fun m older => least (m.seek low) older) none

@[simp] theorem least_none (e : Option (κ × ν)) : least e none = e := by cases e <;> rfl

@[simp] theorem find?_nil (k : κ) : find? ([] : List (OrdMap κ ν)) k = none := rfl

@[simp] theorem find?_cons (m : OrdMap κ ν) (rest : List (OrdMap κ ν)) (k : κ) :
    find? (m :: rest) k = (m.find? k).or (find? rest k) := by
  rw [find?, findSome?_cons]
  cases m.find? k <;> rfl

theorem find?_append (above below : List (OrdMap κ ν)) (k : κ) :
    find? (above ++ below) k = (find? above k).or (find? below k) := findSome?_append

theorem find?_repeated (above below : List (OrdMap κ ν)) (m : OrdMap κ ν) (k : κ) :
    find? (above ++ m :: m :: below) k = find? (above ++ m :: below) k := by
  simp only [find?_append, find?_cons]
  cases m.find? k <;> simp

theorem find?_hollow (above below : List (OrdMap κ ν)) (k : κ) :
    find? (above ++ .empty :: below) k = find? (above ++ below) k := by
  simp only [find?_append, find?_cons, OrdMap.find?_empty, Option.none_or]

theorem seek_spec (layers : List (OrdMap κ ν)) (low : κ) :
    match seek layers low with
    | none => ∀ k v, find? layers k = some v → k < low
    | some e => find? layers e.1 = some e.2 ∧ low ≤ e.1 ∧ ∀ k v, find? layers k = some v → low ≤ k → e.1 ≤ k := by
  induction layers with
  | nil => exact nofun
  | cons m rest ih =>
    rw [seek, foldr_cons, ← seek]
    cases top : m.seek low with
    | none =>
      have above := OrdMap.seek_eq_none.mp top
      have skip (k : κ) (reached : low ≤ k) : m.find? k = none :=
        Option.eq_none_iff_forall_not_mem.mpr fun v bound => (above k v bound).not_ge reached
      cases below : seek rest low with
      | none =>
        rw [below] at ih
        intro k v found
        by_contra reached
        rw [find?_cons, skip k (not_lt.mp reached), Option.none_or] at found
        exact reached (ih k v found)
      | some e =>
        rw [below] at ih
        refine ⟨by rw [find?_cons, skip e.1 ih.2.1, Option.none_or, ih.1], ih.2.1, fun k v found reached => ?_⟩
        rw [find?_cons, skip k reached, Option.none_or] at found
        exact ih.2.2 k v found reached
    | some e =>
      obtain ⟨bound, reached, lowest⟩ := OrdMap.seek_eq_some.mp top
      have here : find? (m :: rest) e.1 = some e.2 := by rw [find?_cons, bound, Option.some_or]
      cases below : seek rest low with
      | none =>
        rw [below] at ih
        refine ⟨here, reached, fun k v found above => ?_⟩
        rw [find?_cons, Option.or_eq_some_iff] at found
        rcases found with found | ⟨-, found⟩
        · exact lowest k v found above
        · exact absurd above (ih k v found).not_ge
      | some e' =>
        rw [below] at ih
        simp only [least]
        split_ifs with smaller
        · have missing : m.find? e'.1 = none := Option.eq_none_iff_forall_not_mem.mpr fun v bound' =>
            smaller.not_ge (lowest e'.1 v bound' ih.2.1)
          refine ⟨by rw [find?_cons, missing, Option.none_or, ih.1], ih.2.1, fun k v found above => ?_⟩
          rw [find?_cons, Option.or_eq_some_iff] at found
          rcases found with found | ⟨-, found⟩
          · exact smaller.le.trans (lowest k v found above)
          · exact ih.2.2 k v found above
        · refine ⟨here, reached, fun k v found above => ?_⟩
          rw [find?_cons, Option.or_eq_some_iff] at found
          rcases found with found | ⟨-, found⟩
          · exact lowest k v found above
          · exact (not_lt.mp smaller).trans (ih.2.2 k v found above)

theorem seek_congr {layers layers' : List (OrdMap κ ν)} (same : ∀ k, find? layers k = find? layers' k) (low : κ) :
    seek layers low = seek layers' low := by
  have spec := seek_spec layers low
  have spec' := seek_spec layers' low
  simp only [same] at spec
  cases found : seek layers low with
  | none =>
    rw [found] at spec
    cases found' : seek layers' low with
    | none => rfl
    | some e' =>
      rw [found'] at spec'
      exact absurd spec'.2.1 (spec e'.1 e'.2 spec'.1).not_ge
  | some e =>
    rw [found] at spec
    cases found' : seek layers' low with
    | none =>
      rw [found'] at spec'
      exact absurd spec.2.1 (spec' e.1 e.2 spec.1).not_ge
    | some e' =>
      rw [found'] at spec'
      have key : e.1 = e'.1 := le_antisymm (spec.2.2 e'.1 e'.2 spec'.1 spec'.2.1) (spec'.2.2 e.1 e.2 spec.1 spec.2.1)
      have value : some e.2 = some e'.2 := by rw [← spec.1, ← spec'.1, key]
      exact congrArg some (Prod.ext key (Option.some.inj value))

theorem seek_eq {layers : List (OrdMap κ ν)} {m : OrdMap κ ν} (same : ∀ k, find? layers k = m.find? k) (low : κ) :
    seek layers low = m.seek low := by
  have alone (k : κ) : find? [m] k = m.find? k := by rw [find?_cons, find?_nil, Option.or_none]
  have single : seek [m] low = m.seek low := least_none _
  rw [← single]
  exact seek_congr (fun k => (same k).trans (alone k).symm) low

def candidates (low : κ) : List (OrdMap κ ν) → Nat → List ((κ × ν) × Nat)
  | [], _ => []
  | m :: rest, rank => (m.seek low).toList.map (·, rank) ++ candidates low rest (rank + 1)

def earlier (best next : (κ × ν) × Nat) : (κ × ν) × Nat :=
  if next.1.1 < best.1.1 ∨ next.1.1 = best.1.1 ∧ next.2 < best.2 then next else best

def earliest : List ((κ × ν) × Nat) → Option (κ × ν)
  | [] => none
  | first :: rest => some (rest.foldl earlier first).1

theorem least_assoc (a b c : Option (κ × ν)) : least (least a b) c = least a (least b c) := by
  cases a with
  | none => rfl
  | some a =>
    cases b with
    | none => rfl
    | some b =>
      cases c with
      | none => rw [least_none, least_none]
      | some c =>
        by_cases ab : b.1 < a.1 <;> by_cases bc : c.1 < b.1
        · simp [least, ab, bc, bc.trans ab]
        · simp [least, ab, bc]
        · simp [least, ab, bc]
        · have ac : ¬ c.1 < a.1 := fun smaller => ab ((not_lt.mp bc).trans_lt smaller)
          simp [least, ab, bc, ac]

theorem earlier_fst {best next : (κ × ν) × Nat} (older : best.2 < next.2) :
    some (earlier best next).1 = least (some best.1) (some next.1) := by
  have noTie : ¬ next.2 < best.2 := by omega
  simp only [earlier, least, noTie, and_false, or_false]
  split <;> rfl

theorem foldl_earlier (layers : List (OrdMap κ ν)) (low : κ) {best : (κ × ν) × Nat} {rank : Nat}
    (newer : best.2 < rank) :
    some ((candidates low layers rank).foldl earlier best).1 = least (some best.1) (seek layers low) := by
  induction layers generalizing best rank with
  | nil => rfl
  | cons m rest ih =>
    have unfolded : seek (m :: rest) low = least (m.seek low) (seek rest low) := rfl
    rw [unfolded, ← least_assoc, candidates, foldl_append]
    cases m.seek low with
    | none => exact ih (Nat.lt_succ_of_lt newer)
    | some e =>
      have bound : (earlier best (e, rank)).2 < rank + 1 := by
        rw [earlier]
        split
        · exact Nat.lt_succ_self rank
        · exact Nat.lt_succ_of_lt newer
      have step := earlier_fst (show best.2 < ((e, rank) : (κ × ν) × Nat).2 from newer)
      rw [← step]
      exact ih bound

theorem earliest_candidates (layers : List (OrdMap κ ν)) (low : κ) (rank : Nat) :
    earliest (candidates low layers rank) = seek layers low := by
  induction layers generalizing rank with
  | nil => rfl
  | cons m rest ih =>
    have unfolded : seek (m :: rest) low = least (m.seek low) (seek rest low) := rfl
    rw [unfolded, candidates]
    cases m.seek low with
    | none => exact ih (rank + 1)
    | some e => exact foldl_earlier rest low (Nat.lt_succ_self rank)

end Layers

end Arcux.Data
