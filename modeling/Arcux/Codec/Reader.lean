import Arcux.Codec.BigEndian

namespace Arcux.Codec

open List

abbrev Reader (α : Type) := StateT Bytes Option α

def utf8 (s : String) : Bytes := s.toUTF8.data.toList

namespace Reader

variable {α β : Type}

def take (count : Nat) : Reader Bytes := fun bytes =>
  if bytes.length < count then none else some (bytes.take count, bytes.drop count)

def byte : Reader UInt8
  | [] => none
  | b :: rest => some (b, rest)

def number (width : Nat) : Reader Nat := do return fromBE (← take width)

def sized : Reader Bytes := do take (← number 4)

def u64 : Reader UInt64 := do return .ofNat (← number 8)

def u32 : Reader UInt32 := do return .ofNat (← number 4)

def text : Reader String := do StateT.lift (String.fromUTF8? ⟨(← sized).toArray⟩)

def many (item : Reader α) : Nat → Reader (List α)
  | 0 => return []
  | count + 1 => do
    let head ← item
    return head :: (← many item count)

def list (item : Reader α) : Reader (List α) := do many item (← number 4)

/-- The reader takes exactly `bytes` off the front of any input and returns `a`. -/
def Reads (p : Reader α) (bytes : Bytes) (a : α) : Prop := ∀ rest, p.run (bytes ++ rest) = some (a, rest)

theorem Reads.pure (a : α) : Reads (Pure.pure a) [] a := fun _ => rfl

variable {p : Reader α} {a : α}

theorem Reads.run_bind {first : Bytes} (reads : Reads p first a) (next : α → Reader β)
    (rest : Bytes) : (p >>= next).run (first ++ rest) = (next a).run rest := by
  rw [StateT.run_bind, reads]
  rfl

variable {next : α → Reader β}

theorem Reads.bind {first second : Bytes} {b : β} (reads : Reads p first a)
    (later : Reads (next a) second b) : Reads (p >>= next) (first ++ second) b := by
  intro rest
  rw [append_assoc, reads.run_bind]
  exact later rest

theorem run_bind_some (a : α) (next : α → Reader β) (rest : Bytes) :
    ((StateT.lift (some a) : Reader α) >>= next).run rest = (next a).run rest := rfl

theorem Reads.map {bytes : Bytes} (reads : Reads p bytes a) (f : α → β) :
    Reads (p >>= fun a => Pure.pure (f a)) bytes (f a) := by
  intro rest
  rw [StateT.run_bind, reads]
  rfl

theorem reads_take (bytes : Bytes) : Reads (take bytes.length) bytes bytes := by
  intro rest
  simp [take, StateT.run]

theorem reads_byte (b : UInt8) : Reads byte [b] b := fun _ => rfl

theorem reads_number {width n : Nat} (small : n < 256 ^ width) : Reads (number width) (toBE width n) n := by
  have front := reads_take (toBE width n)
  rw [toBE_length] at front
  have value := front.map fromBE
  rwa [fromBE_toBE_of_lt small] at value

theorem reads_sized {bytes : Bytes} (short : bytes.length < 2 ^ 32) :
    Reads sized (toBE 4 bytes.length ++ bytes) bytes :=
  (reads_number short).bind (reads_take bytes)

theorem reads_u64 (n : UInt64) : Reads u64 (toBE 8 n.toNat) n := by
  have small : n.toNat < 256 ^ 8 := n.toNat_lt
  have reads := (reads_number small).map UInt64.ofNat
  rwa [UInt64.ofNat_toNat] at reads

theorem reads_u32 (n : UInt32) : Reads u32 (toBE 4 n.toNat) n := by
  have small : n.toNat < 256 ^ 4 := n.toNat_lt
  have reads := (reads_number small).map UInt32.ofNat
  rwa [UInt32.ofNat_toNat] at reads

theorem fromUTF8_utf8 (s : String) : String.fromUTF8? ⟨(utf8 s).toArray⟩ = some s := by
  have same : ByteArray.mk (utf8 s).toArray = s.toUTF8 := by simp [utf8]
  rw [same]
  exact dif_pos s.isValidUTF8

theorem reads_text {s : String} (short : (utf8 s).length < 2 ^ 32) :
    Reads text (toBE 4 (utf8 s).length ++ utf8 s) s := by
  intro rest
  have reads := (reads_sized short).run_bind (fun bytes => StateT.lift (String.fromUTF8? ⟨bytes.toArray⟩)) rest
  rw [text, reads, fromUTF8_utf8]
  rfl

variable {encode : α → Bytes} {items : List α}

theorem length_le_flatMap (nonempty : ∀ a ∈ items, 0 < (encode a).length) :
    items.length ≤ (items.flatMap encode).length := by
  induction items with
  | nil => exact Nat.le_refl _
  | cons a rest ih =>
    obtain ⟨here, later⟩ := forall_mem_cons.mp nonempty
    have := ih later
    rw [flatMap_cons, length_append, length_cons]
    omega

variable {item : Reader α}

theorem Reads.many (reads : ∀ a ∈ items, Reads item (encode a) a) :
    Reads (Reader.many item items.length) (items.flatMap encode) items := by
  induction items with
  | nil => exact Reads.pure []
  | cons a rest ih =>
    obtain ⟨here, later⟩ := forall_mem_cons.mp reads
    exact here.bind ((ih later).map (a :: ·))

theorem reads_list (few : items.length < 2 ^ 32) (reads : ∀ a ∈ items, Reads item (encode a) a) :
    Reads (list item) (toBE 4 items.length ++ items.flatMap encode) items :=
  (reads_number few).bind (Reads.many reads)

def Forward (p : Reader α) : Prop :=
  ∀ bytes a rest, p.run bytes = some (a, rest) → ∀ more, p.run (bytes ++ more) = some (a, rest ++ more)

theorem Forward.pure (a : α) : Forward (Pure.pure a) := by
  rintro bytes _ rest ⟨⟩ more
  rfl

theorem Forward.lift (a : Option α) : Forward (StateT.lift a) := by
  cases a with
  | none => rintro bytes _ rest ⟨⟩
  | some a => exact Forward.pure a

theorem Forward.bind (first : Forward p) (later : ∀ a, Forward (next a)) : Forward (p >>= next) := by
  intro bytes b rest ran more
  obtain ⟨⟨a, middle⟩, front, back⟩ := Option.bind_eq_some_iff.mp ran
  rw [StateT.run_bind, first bytes a middle front more]
  exact later a middle b rest back more

theorem forward_byte : Forward byte := by
  intro bytes b rest ran more
  cases bytes with
  | nil => cases ran
  | cons head tail =>
    cases ran
    rfl

theorem forward_take (count : Nat) : Forward (take count) := by
  intro bytes taken rest ran more
  change (if bytes.length < count then none else some (bytes.take count, bytes.drop count)) = _ at ran
  change (if (bytes ++ more).length < count then none else
    some ((bytes ++ more).take count, (bytes ++ more).drop count)) = _
  split at ran
  case isTrue => cases ran
  case isFalse enough =>
    cases ran
    rw [not_lt] at enough
    rw [if_neg (by rw [length_append]; omega), take_append_of_le_length enough,
      drop_append_of_le_length enough]

theorem forward_number (width : Nat) : Forward (number width) := (forward_take width).bind fun _ => Forward.pure _

theorem forward_sized : Forward sized := (forward_number 4).bind forward_take

theorem forward_u64 : Forward u64 := (forward_number 8).bind fun _ => Forward.pure _

theorem Forward.list (each : Forward item) : Forward (list item) := by
  refine (forward_number 4).bind fun count => ?_
  induction count with
  | zero => exact Forward.pure []
  | succ count ih => exact each.bind fun _ => ih.bind fun _ => Forward.pure _

theorem Reads.cut {bytes front : Bytes} (reads : Reads p bytes a) (forward : Forward p)
    (part : front <+: bytes) (proper : front ≠ bytes) : p.run front = none := by
  obtain ⟨back, rfl⟩ := part
  cases ran : p.run front with
  | none => rfl
  | some result =>
    obtain ⟨b, rest⟩ := result
    have whole := reads []
    rw [append_nil, forward front b rest ran back] at whole
    obtain ⟨-, rfl⟩ := append_eq_nil_iff.mp (Prod.mk.inj (Option.some.inj whole)).2
    exact absurd (append_nil front).symm proper

def Yields (p : Reader α) (P : α → Prop) : Prop := ∀ bytes a rest, p.run bytes = some (a, rest) → P a

variable {P : α → Prop}

theorem Yields.pure (holds : P a) : Yields (Pure.pure a) P := by
  rintro bytes _ rest ⟨⟩
  exact holds

theorem Yields.bind {Q : β → Prop} (first : Yields p P)
    (later : ∀ a, P a → Yields (next a) Q) : Yields (p >>= next) Q := by
  intro bytes b rest ran
  obtain ⟨⟨a, middle⟩, front, back⟩ := Option.bind_eq_some_iff.mp ran
  exact later a (first bytes a middle front) middle b rest back

theorem Yields.anything (p : Reader α) : Yields p fun _ => True := fun _ _ _ _ => trivial

theorem Yields.many (each : Yields item P) (count : Nat) :
    Yields (many item count) fun items => ∀ a ∈ items, P a := by
  induction count with
  | zero => exact Yields.pure nofun
  | succ count ih =>
    refine each.bind fun head holds => ih.bind fun rest later => Yields.pure ?_
    exact forall_mem_cons.mpr ⟨holds, later⟩

theorem Yields.list (each : Yields item P) : Yields (list item) fun items => ∀ a ∈ items, P a :=
  (Yields.anything _).bind fun count _ => each.many count

theorem Yields.and {P Q : α → Prop} (one : Yields p P) (other : Yields p Q) : Yields p fun a => P a ∧ Q a :=
  fun bytes a rest ran => ⟨one bytes a rest ran, other bytes a rest ran⟩

theorem yields_take (count : Nat) : Yields (take count) fun bytes => bytes.length = count := by
  intro bytes taken rest ran
  change (if bytes.length < count then none else some (bytes.take count, bytes.drop count)) = _ at ran
  split at ran
  case isTrue => cases ran
  case isFalse enough =>
    cases ran
    rw [length_take, Nat.min_eq_left (not_lt.mp enough)]

theorem yields_number (width : Nat) : Yields (number width) fun n => n < 256 ^ width := by
  refine (yields_take width).bind fun bytes length => Yields.pure ?_
  rw [← length]
  exact fromBE_lt bytes

theorem yields_sized : Yields sized fun bytes => bytes.length < 2 ^ 32 := by
  refine (yields_number 4).bind fun count small => ?_
  intro bytes taken rest ran
  rw [yields_take count bytes taken rest ran]
  exact small

theorem yields_many_length (item : Reader α) (count : Nat) :
    Yields (many item count) fun items => items.length = count := by
  induction count with
  | zero => exact Yields.pure rfl
  | succ count ih =>
    refine (Yields.anything item).bind fun head _ => ih.bind fun rest length => Yields.pure ?_
    rw [length_cons, length]

theorem yields_list_length (item : Reader α) : Yields (list item) fun items => items.length < 2 ^ 32 := by
  refine (yields_number 4).bind fun count small => ?_
  intro bytes items rest ran
  rw [yields_many_length item count bytes items rest ran]
  exact small

end Reader

end Arcux.Codec
