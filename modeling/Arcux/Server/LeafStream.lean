import Arcux.Server.AntiEntropy

namespace Arcux.Server

open Codec Engine List
open scoped Codec.ByteOrder

def fnvFeed (h : UInt64) (bytes : Bytes) : UInt64 := bytes.foldl (fun h b => (h ^^^ b.toUInt64) * fnvPrime) h

def fieldStream (field : Bytes) : Bytes := field ++ [0xff]

def leafStream (entries : List (Bytes × Ts)) : Bytes :=
  entries.flatMap fun e => fieldStream e.1 ++ fieldStream (toBE 8 e.2.toNat)

theorem fnv1aStep_eq_feed (h : UInt64) (field : Bytes) : fnv1aStep h field = fnvFeed h (fieldStream field) := by
  rw [fnvFeed, fieldStream, foldl_append]
  rfl

theorem leafHash_eq_feed (entries : List (Bytes × Ts)) : leafHash entries = fnvFeed fnvOffset (leafStream entries) := by
  unfold leafHash
  generalize fnvOffset = h
  induction entries generalizing h with
  | nil => rfl
  | cons e rest ih =>
    rw [foldl_cons, ih, fnv1aStep_eq_feed, fnv1aStep_eq_feed]
    simp only [leafStream, flatMap_cons, fnvFeed, foldl_append]

/-- The parts of a field between its bytes 0xff: the hashed stream tells parts apart, but not fields. -/
def pieces : Bytes → List Bytes
  | [] => [[]]
  | b :: rest => if b = 0xff then [] :: pieces rest else (pieces rest).modifyHead (b :: ·)

def fieldPieces (entries : List (Bytes × Ts)) : List Bytes :=
  entries.flatMap fun e => pieces e.1 ++ pieces (toBE 8 e.2.toNat)

/-- Entries made up of the same pieces take the same number of them for each key. -/
def Separated (a b : List (Bytes × Ts)) : Prop :=
  fieldPieces a = fieldPieces b → a.map (fun e => e.1.count 0xff) = b.map (fun e => e.1.count 0xff)
  deriving Decidable

theorem pieces_ne_nil (field : Bytes) : pieces field ≠ [] := by
  induction field with
  | nil => exact cons_ne_nil _ _
  | cons b rest ih =>
    rw [pieces]
    split_ifs
    · exact cons_ne_nil _ _
    · exact mt modifyHead_eq_nil_iff.mp ih

theorem pieces_fieldStream_append (field rest : Bytes) : pieces (fieldStream field ++ rest) = pieces field ++ pieces rest := by
  induction field with
  | nil => rfl
  | cons b field ih =>
    obtain ⟨p, ps, split⟩ := exists_cons_of_ne_nil (pieces_ne_nil field)
    simp only [fieldStream, cons_append] at ih ⊢
    rw [pieces, pieces, ih, split]
    split_ifs <;> rfl

theorem flatMap_pieces (field : Bytes) : (pieces field).flatMap fieldStream = fieldStream field := by
  induction field with
  | nil => rfl
  | cons b rest ih =>
    obtain ⟨p, ps, split⟩ := exists_cons_of_ne_nil (pieces_ne_nil rest)
    rw [split] at ih
    rw [pieces, split]
    split_ifs with terminator
    · rw [flatMap_cons, ih, terminator]
      rfl
    · simpa [fieldStream] using ih

theorem leafStream_eq_iff (a b : List (Bytes × Ts)) : leafStream a = leafStream b ↔ fieldPieces a = fieldPieces b := by
  have cut (entries : List (Bytes × Ts)) : pieces (leafStream entries) = fieldPieces entries ++ [[]] := by
    induction entries with
    | nil => rfl
    | cons e rest ih =>
      simp only [leafStream, fieldPieces, flatMap_cons, append_assoc, pieces_fieldStream_append] at ih ⊢
      rw [ih]
  have join (entries : List (Bytes × Ts)) : leafStream entries = (fieldPieces entries).flatMap fieldStream := by
    simp only [leafStream, fieldPieces, flatMap_assoc, flatMap_append, flatMap_pieces]
  refine ⟨fun same => ?_, fun same => by rw [join, join, same]⟩
  exact append_cancel_right ((cut a).symm.trans (same ▸ cut b))

theorem eq_of_fieldStream_append {k k' x x' : Bytes} (counts : k.count 0xff = k'.count 0xff)
    (same : fieldStream k ++ x = fieldStream k' ++ x') : k = k' ∧ x = x' := by
  -- the longer key would go on with the terminator of the shorter one
  have whole {k m x y : Bytes} (counts : k.count 0xff = (k ++ m).count 0xff) (rest : 0xff :: x = m ++ y) : m = [] := by
    cases m with
    | nil => rfl
    | cons first more =>
      obtain ⟨rfl, -⟩ := cons.inj rest
      simp at counts
  simp only [fieldStream, append_assoc, singleton_append] at same
  rcases append_eq_append_iff.mp same with ⟨m, rfl, rest⟩ | ⟨m, rfl, rest⟩
  · obtain rfl := whole counts rest
    exact ⟨(append_nil k).symm, (cons.inj rest).2⟩
  · obtain rfl := whole counts.symm rest
    exact ⟨append_nil k', (cons.inj rest).2.symm⟩

theorem eq_of_leafStream {a b : List (Bytes × Ts)}
    (counts : a.map (fun e => e.1.count 0xff) = b.map (fun e => e.1.count 0xff)) (same : leafStream a = leafStream b) :
    a = b := by
  induction a generalizing b with
  | nil => exact (map_eq_nil_iff.mp counts.symm).symm
  | cons e rest ih =>
    cases b with
    | nil => cases counts
    | cons e' rest' =>
      obtain ⟨first, others⟩ := cons.inj counts
      simp only [leafStream, flatMap_cons, append_assoc] at same
      obtain ⟨key, stamped⟩ := eq_of_fieldStream_append first same
      obtain ⟨stamp, later⟩ := append_inj stamped (by simp [fieldStream])
      have version : e.2 = e'.2 := UInt64.toNat_inj.mp
        (toBE_inj e.2.toNat_lt e'.2.toNat_lt (append_cancel_right stamp))
      rw [Prod.ext key version, ih others later]

example : Separated [([0], 5)] [([0, 0xff, 69], 5)] := by decide +kernel

end Arcux.Server
