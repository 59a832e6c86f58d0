import Arcux.Engine.Lsm
import Arcux.Engine.Sst

namespace Arcux.Engine

open Codec Data List
open Codec.Reader (sized)
open scoped Codec.ByteOrder

abbrev Entries := List (Bytes × Bytes)

namespace Block

def bytes (es : Entries) : Bytes := es.flatMap fun e => encodeEntry e.1 e.2

def sealed [Wal.Crc] (es : Entries) : Bytes := bytes es ++ toBE 4 (Wal.crc32c (bytes es)).toNat

@[simp] theorem encodeEntry_length (key value : Bytes) :
    (encodeEntry key value).length = 8 + key.length + value.length := by
  simp only [encodeEntry, putLengthPrefixed, length_append, toBE_length]
  omega

@[simp] theorem sealed_length [Wal.Crc] (es : Entries) : (sealed es).length = (bytes es).length + 4 := by
  rw [sealed, length_append, toBE_length]

theorem bytes_append (es es' : Entries) : bytes (es ++ es') = bytes es ++ bytes es' := flatMap_append

variable {es : Entries}

theorem bytes_isEmpty : (bytes es).isEmpty = es.isEmpty := by
  cases es with
  | nil => rfl
  | cons e rest =>
    have long : 0 < (bytes (e :: rest)).length := by
      rw [bytes, flatMap_cons, length_append, encodeEntry_length]
      omega
    cases shown : bytes (e :: rest) with
    | nil =>
      rw [shown] at long
      cases long
    | cons b tail => rfl

variable {e : Bytes × Bytes}

theorem entry_length_le (member : e ∈ es) : (encodeEntry e.1 e.2).length ≤ (bytes es).length := by
  obtain ⟨front, back, rfl⟩ := append_of_mem member
  rw [bytes_append, length_append, bytes, bytes, flatMap_cons, length_append]
  omega

theorem reads_readEntry (short : (encodeEntry e.1 e.2).length < 2 ^ 32) :
    Reader.Reads readEntry (encodeEntry e.1 e.2) e := by
  rw [encodeEntry_length] at short
  have key : Reader.Reads sized (putLengthPrefixed e.1) e.1 := reads_lengthPrefixed (by omega)
  have value : Reader.Reads sized (putLengthPrefixed e.2) e.2 := reads_lengthPrefixed (by omega)
  exact key.bind (value.map fun v => (e.1, v))

theorem readOn_bytes (short : ∀ e ∈ es, (encodeEntry e.1 e.2).length < 2 ^ 32) {rounds : Nat}
    (enough : es.length ≤ rounds) : readOn rounds (bytes es) = es := by
  induction es generalizing rounds with
  | nil => cases rounds <;> rfl
  | cons e rest ih =>
    obtain ⟨here, later⟩ := forall_mem_cons.mp short
    cases rounds with
    | zero => cases enough
    | succ rounds =>
      have front : readEntry.run (bytes (e :: rest)) = some (e, bytes rest) := reads_readEntry here (bytes rest)
      rw [readOn, front]
      exact congrArg _ (ih later (Nat.le_of_succ_le_succ enough))

theorem entries_bytes (short : (bytes es).length < 2 ^ 32) : entries (bytes es) = es := by
  refine readOn_bytes (fun e member => (entry_length_le member).trans_lt short) ?_
  refine Reader.length_le_flatMap fun e _ => ?_
  rw [encodeEntry_length]
  omega

end Block

section

variable [Wal.Crc]

theorem checked_sum (body : Bytes) (tooSmall mismatch : String) :
    checked (body ++ toBE 4 (Wal.crc32c body).toNat) tooSmall mismatch = .ok body := by
  have size : (body ++ toBE 4 (Wal.crc32c body).toNat).length - 4 = body.length := by
    rw [length_append, toBE_length, Nat.add_sub_cancel]
  have sum : fromBE (toBE 4 (Wal.crc32c body).toNat) = (Wal.crc32c body).toNat := fromBE_toBE_of_lt (UInt32.toNat_lt _)
  rw [checked, if_neg (by rw [length_append, toBE_length]; omega)]
  simp only [size, take_left' rfl, drop_left' rfl, sum, ne_eq, not_true, if_false]

def layout (offset : Nat) : List Entries → List (Bytes × Nat × Nat)
  | [] => []
  | es :: rest =>
    let len := (Block.sealed es).length % 2 ^ 32
    ((es.head?.map Prod.fst).getD [], offset, len) :: layout (offset + len) rest

def layoutEnd (blocks : List Entries) : Nat := (blocks.map fun es => (Block.sealed es).length % 2 ^ 32).sum

theorem layout_concat (offset : Nat) (blocks : List Entries) (es : Entries) : layout offset (blocks ++ [es]) =
    layout offset blocks ++ [((es.head?.map Prod.fst).getD [], offset + layoutEnd blocks, (Block.sealed es).length % 2 ^ 32)] := by
  induction blocks generalizing offset with
  | nil => rfl
  | cons first rest ih =>
    rw [cons_append, layout, ih]
    simp only [layout, layoutEnd, map_cons, sum_cons, cons_append, Nat.add_assoc]

namespace SstWriter

variable {w : SstWriter} {done : List Entries} {cur : Entries}

structure Holds (w : SstWriter) (done : List Entries) (cur : Entries) : Prop where
  file : w.file = done.flatMap Block.sealed
  offset : w.offset = layoutEnd done
  block : w.block = Block.bytes cur
  curFirstKey : w.curFirstKey = cur.head?.map Prod.fst
  index : w.index = layout 0 done
  nonempty : ∀ es ∈ done, es ≠ []

theorem holds_new : Holds {} [] [] := ⟨rfl, rfl, rfl, rfl, rfl, nofun⟩

theorem Holds.flushBlock (holds : w.Holds done cur) (filled : cur ≠ []) : w.flushBlock.Holds (done ++ [cur]) [] := by
  have started : ¬ w.block.isEmpty := by rwa [holds.block, Block.bytes_isEmpty, List.isEmpty_iff]
  rw [SstWriter.flushBlock, if_neg started]
  constructor
  · rw [flatMap_append, flatMap_singleton, holds.file, holds.block]
    rfl
  · rw [layoutEnd, map_append, sum_append, ← layoutEnd, holds.offset, holds.block]
    rfl
  · rfl
  · rfl
  · rw [layout_concat, Nat.zero_add, holds.index, holds.curFirstKey, holds.offset, holds.block]
    rfl
  · exact forall_mem_append.mpr ⟨holds.nonempty, fun es last => mem_singleton.mp last ▸ filled⟩

theorem Holds.add (holds : w.Holds done cur) (key value : Bytes) : ∃ done' cur',
    done'.flatten ++ cur' = done.flatten ++ cur ++ [(key, value)] ∧ (w.add key value).Holds done' cur' := by
  have taken : Holds { w with
      curFirstKey := if w.block.isEmpty then some key else w.curFirstKey
      block := w.block ++ Block.encodeEntry key value } done (cur ++ [(key, value)]) := by
    refine { holds with block := ?_, curFirstKey := ?_ }
    · rw [holds.block, Block.bytes_append, Block.bytes, Block.bytes, flatMap_singleton]
    · rw [holds.block, Block.bytes_isEmpty, holds.curFirstKey]
      cases cur <;> rfl
  rw [SstWriter.add]
  dsimp only
  split
  · refine ⟨done ++ [cur ++ [(key, value)]], [], ?_, taken.flushBlock (by simp)⟩
    simp
  · exact ⟨done, cur ++ [(key, value)], (append_assoc ..).symm, taken⟩

theorem Holds.addAll (holds : w.Holds done cur) (es : Entries) : ∃ done' cur',
    done'.flatten ++ cur' = done.flatten ++ cur ++ es ∧ (es.foldl (fun w e => w.add e.1 e.2) w).Holds done' cur' := by
  induction es generalizing w done cur with
  | nil => exact ⟨done, cur, (append_nil _).symm, holds⟩
  | cons e rest ih =>
    obtain ⟨done₁, cur₁, same, holds₁⟩ := holds.add e.1 e.2
    obtain ⟨done₂, cur₂, same', holds₂⟩ := ih holds₁
    refine ⟨done₂, cur₂, ?_, holds₂⟩
    rw [same', same, append_assoc, singleton_append]

end SstWriter

def indexBytes (blocks : List Entries) : Bytes :=
  let body := SstWriter.encodeIndex (layout 0 blocks)
  body ++ toBE 4 (Wal.crc32c body).toNat

def footer (blocks : List Entries) : Bytes :=
  toBE 8 (layoutEnd blocks) ++ toBE 4 (indexBytes blocks).length ++ toBE 8 footerMagic

def tableBytes (blocks : List Entries) : Bytes := blocks.flatMap Block.sealed ++ indexBytes blocks ++ footer blocks

theorem SstWriter.finish_eq (es : Entries) : ∃ blocks : List Entries, blocks.flatten = es ∧ (∀ b ∈ blocks, b ≠ []) ∧
    (es.foldl (fun w e => w.add e.1 e.2) ({} : SstWriter)).finish = tableBytes blocks := by
  obtain ⟨done, cur, same, holds⟩ := holds_new.addAll es
  have last : ∃ blocks : List Entries, blocks.flatten = es ∧
      (es.foldl (fun w e => w.add e.1 e.2) ({} : SstWriter)).flushBlock.Holds blocks [] := by
    by_cases filled : cur = []
    · subst filled
      have idle : (es.foldl (fun w e => w.add e.1 e.2) ({} : SstWriter)).flushBlock =
          es.foldl (fun w e => w.add e.1 e.2) ({} : SstWriter) := by
        rw [flushBlock, if_pos (by rw [holds.block]; rfl)]
      exact ⟨done, by simpa using same, by rw [idle]; exact holds⟩
    · exact ⟨done ++ [cur], by simpa using same, holds.flushBlock filled⟩
  obtain ⟨blocks, whole, flushed⟩ := last
  refine ⟨blocks, whole, flushed.nonempty, ?_⟩
  simp only [finish, flushed.file, flushed.index, flushed.offset]
  rfl

omit [Wal.Crc] in
theorem readExactAt_middle (front mid back : Bytes) :
    readExactAt (front ++ mid ++ back) front.length mid.length = .ok mid := by
  have inside : front.length + mid.length ≤ (front ++ mid ++ back).length := by
    simp only [length_append]
    omega
  rw [readExactAt, if_pos (.inr inside), append_assoc, drop_left' rfl, take_left' rfl]

def IndexEntry.ofTriple (t : Bytes × Nat × Nat) : IndexEntry := ⟨t.1, t.2.1, t.2.2⟩

def IndexFits (t : Bytes × Nat × Nat) : Prop := t.1.length < 2 ^ 32 ∧ t.2.1 < 2 ^ 64 ∧ t.2.2 < 2 ^ 32

omit [Wal.Crc] in
theorem readIndex_encodeIndex {index : List (Bytes × Nat × Nat)} (fits : ∀ t ∈ index, IndexFits t) {rounds : Nat}
    (enough : index.length ≤ rounds) :
    SstReader.readIndex rounds (SstWriter.encodeIndex index) = .ok (index.map IndexEntry.ofTriple) := by
  induction index generalizing rounds with
  | nil => cases rounds <;> rfl
  | cons t rest ih =>
    obtain ⟨⟨first, offset, len⟩, later⟩ := forall_mem_cons.mp fits
    cases rounds with
    | zero => cases enough
    | succ rounds =>
      let numbers := toBE 8 t.2.1 ++ toBE 4 t.2.2
      have numbers_length : numbers.length = 12 := by simp [numbers]
      have unfolded : SstWriter.encodeIndex (t :: rest) =
          putLengthPrefixed t.1 ++ (numbers ++ SstWriter.encodeIndex rest) := by
        simp [SstWriter.encodeIndex, numbers]
      have started : ¬ (SstWriter.encodeIndex (t :: rest)).isEmpty := by
        rw [unfolded, isEmpty_iff_length_eq_zero, length_append, length_append, numbers_length]
        omega
      have front : sized.run (SstWriter.encodeIndex (t :: rest)) = some (t.1, numbers ++ SstWriter.encodeIndex rest) := by
        rw [unfolded]
        exact reads_lengthPrefixed first _
      have long : ¬ (numbers ++ SstWriter.encodeIndex rest).length < 12 := by
        rw [length_append, numbers_length]
        omega
      have offsetRead : fromBE ((numbers ++ SstWriter.encodeIndex rest).take 8) = t.2.1 := by
        rw [append_assoc, take_left' (toBE_length ..), fromBE_toBE_of_lt offset]
      have lenRead : fromBE (((numbers ++ SstWriter.encodeIndex rest).drop 8).take 4) = t.2.2 := by
        rw [append_assoc, drop_left' (toBE_length ..), take_left' (toBE_length ..), fromBE_toBE_of_lt len]
      have tail : (numbers ++ SstWriter.encodeIndex rest).drop 12 = SstWriter.encodeIndex rest :=
        drop_left' numbers_length
      rw [SstReader.readIndex, if_neg started, front]
      simp only [if_neg long, offsetRead, lenRead, tail, ih later (Nat.le_of_succ_le_succ enough)]
      rfl

structure Small (blocks : List Entries) : Prop where
  each : ∀ es ∈ blocks, (Block.sealed es).length < 2 ^ 32
  data : (blocks.flatMap Block.sealed).length < 2 ^ 32
  index : (indexBytes blocks).length < 2 ^ 32

theorem small_of_tableBytes {blocks : List Entries} (short : (tableBytes blocks).length < 2 ^ 32) : Small blocks := by
  simp only [tableBytes, length_append] at short
  refine ⟨fun es member => ?_, by omega, by omega⟩
  obtain ⟨front, back, rfl⟩ := append_of_mem member
  simp only [flatMap_append, flatMap_cons, length_append] at short
  omega

theorem layoutEnd_eq {blocks : List Entries} (short : ∀ es ∈ blocks, (Block.sealed es).length < 2 ^ 32) :
    layoutEnd blocks = (blocks.flatMap Block.sealed).length := by
  induction blocks with
  | nil => rfl
  | cons es rest ih =>
    obtain ⟨here, later⟩ := forall_mem_cons.mp short
    rw [flatMap_cons, length_append, ← ih later, layoutEnd, map_cons, sum_cons, Nat.mod_eq_of_lt here]
    rfl

theorem layout_bound {blocks : List Entries} {offset : Nat} : ∀ t ∈ layout offset blocks, ∃ es ∈ blocks,
    t.1 = (es.head?.map Prod.fst).getD [] ∧ t.2.1 ≤ offset + layoutEnd blocks ∧ t.2.2 < 2 ^ 32 := by
  induction blocks generalizing offset with
  | nil => nofun
  | cons es rest ih =>
    intro t member
    rw [layout] at member
    rcases mem_cons.mp member with rfl | later
    · exact ⟨es, mem_cons_self, rfl, Nat.le_add_right .., Nat.mod_lt _ (by decide)⟩
    · obtain ⟨es', there, first, bound, len⟩ := ih t later
      refine ⟨es', mem_cons_of_mem _ there, first, ?_, len⟩
      rw [layoutEnd, map_cons, sum_cons, ← layoutEnd]
      omega

theorem firstKey_length_le (es : Entries) : ((es.head?.map Prod.fst).getD []).length ≤ (Block.sealed es).length := by
  cases es with
  | nil => exact Nat.zero_le _
  | cons e rest =>
    have bound : (Block.encodeEntry e.1 e.2).length ≤ (Block.bytes (e :: rest)).length :=
      Block.entry_length_le mem_cons_self
    rw [Block.encodeEntry_length] at bound
    simp only [head?_cons, Option.map_some, Option.getD_some, Block.sealed_length]
    omega

theorem openFile_tableBytes {blocks : List Entries} (small : Small blocks) (fileNo : Nat) :
    SstReader.openFile (tableBytes blocks) fileNo =
      .ok ⟨tableBytes blocks, (layout 0 blocks).map IndexEntry.ofTriple, fileNo⟩ := by
  have size : (footer blocks).length = footerLen := by simp [footer, footerLen]
  have total : (tableBytes blocks).length = (blocks.flatMap Block.sealed ++ indexBytes blocks).length + footerLen := by
    rw [tableBytes, length_append, size]
  have start : (tableBytes blocks).length - footerLen = (blocks.flatMap Block.sealed ++ indexBytes blocks).length := by
    omega
  have last := readExactAt_middle (blocks.flatMap Block.sealed ++ indexBytes blocks) (footer blocks) []
  rw [append_nil, size] at last
  have ending := layoutEnd_eq small.each
  have reach : (blocks.flatMap Block.sealed).length < 256 ^ 8 := lt_trans small.data (by decide)
  have offset : fromBE ((footer blocks).take 8) = (blocks.flatMap Block.sealed).length := by
    rw [footer, append_assoc, take_left' (toBE_length ..), ending, fromBE_toBE_of_lt reach]
  have len : fromBE (((footer blocks).drop 8).take 4) = (indexBytes blocks).length := by
    rw [footer, append_assoc, drop_left' (toBE_length ..), take_left' (toBE_length ..),
      fromBE_toBE_of_lt small.index]
  have magic : fromBE ((footer blocks).drop 12) = footerMagic := by
    rw [footer, drop_left' (by simp), fromBE_toBE_of_lt (by decide)]
  have index := readExactAt_middle (blocks.flatMap Block.sealed) (indexBytes blocks) (footer blocks)
  have fits : ∀ t ∈ layout 0 blocks, IndexFits t := by
    intro t member
    obtain ⟨es, there, first, bound, short⟩ := layout_bound t member
    have key := firstKey_length_le es
    have block := small.each es there
    have data := small.data
    exact ⟨by rw [first]; omega, by omega, short⟩
  have enough : (layout 0 blocks).length ≤ (SstWriter.encodeIndex (layout 0 blocks)).length := by
    refine Reader.length_le_flatMap fun t _ => ?_
    simp only [putLengthPrefixed, length_append, toBE_length]
    omega
  have parsed := readIndex_encodeIndex fits enough
  have sum := checked_sum (SstWriter.encodeIndex (layout 0 blocks)) "sstable index too small" "sstable index crc mismatch"
  rw [SstReader.openFile, if_neg (by omega), start]
  rw [← tableBytes] at last index
  rw [last]
  simp only [bind, Except.bind, offset, len, magic, index]
  rw [indexBytes, sum]
  simp only [ne_eq, not_true, if_false, parsed]
  rfl

structure Leads (file : Bytes) (e : IndexEntry) (es : Entries) : Prop where
  first : ∃ v rest, es = (e.firstKey, v) :: rest
  read : readExactAt file e.offset e.len = .ok (Block.sealed es)
  short : (Block.sealed es).length < 2 ^ 32

theorem layout_leads {blocks : List Entries} (nonempty : ∀ es ∈ blocks, es ≠ [])
    (short : ∀ es ∈ blocks, (Block.sealed es).length < 2 ^ 32) (front back : Bytes) :
    List.Forall₂ (Leads (front ++ blocks.flatMap Block.sealed ++ back))
      ((layout front.length blocks).map IndexEntry.ofTriple) blocks := by
  induction blocks generalizing front with
  | nil => exact .nil
  | cons es rest ih =>
    obtain ⟨filled, laterFilled⟩ := forall_mem_cons.mp nonempty
    obtain ⟨fits, laterFits⟩ := forall_mem_cons.mp short
    have len : (Block.sealed es).length % 2 ^ 32 = (Block.sealed es).length := Nat.mod_eq_of_lt fits
    have file : front ++ (es :: rest).flatMap Block.sealed ++ back =
        (front ++ Block.sealed es) ++ rest.flatMap Block.sealed ++ back := by
      simp only [flatMap_cons, append_assoc]
    have next := ih laterFilled laterFits (front ++ Block.sealed es)
    rw [← file, length_append] at next
    rw [layout, len]
    refine .cons ⟨?_, ?_, fits⟩ next
    · cases es with
      | nil => exact absurd rfl filled
      | cons e tail => exact ⟨e.2, tail, rfl⟩
    · have read := readExactAt_middle front (Block.sealed es) (rest.flatMap Block.sealed ++ back)
      rwa [← append_assoc, ← file] at read

namespace SstReader

variable {r : SstReader} {blocks : List Entries}

def Serves (r : SstReader) (blocks : List Entries) : Prop :=
  List.Forall₂ (fun e es => (∃ v rest, es = (e.firstKey, v) :: rest) ∧ Block.entries <$> r.readBlock e = .ok es) r.index blocks

theorem serves_of_leads (leads : List.Forall₂ (Leads r.file) r.index blocks) : r.Serves blocks := by
  refine leads.imp fun e es leads => ⟨leads.first, ?_⟩
  have sum := checked_sum (Block.bytes es) "sstable block too small" "sstable block crc mismatch"
  have block : r.readBlock e = .ok (Block.bytes es) := by
    rw [readBlock, leads.read]
    exact sum
  have short := leads.short
  rw [Block.sealed_length] at short
  rw [block]
  exact congrArg Except.ok (Block.entries_bytes (by omega))

theorem Serves.indexed (serves : r.Serves blocks) : Blocks.Indexed (r.index.map IndexEntry.firstKey) blocks :=
  forall₂_map_left_iff.mpr (serves.imp fun _ _ both => both.1)

variable {es : Entries}

omit [Wal.Crc] in
theorem scan_eq (ascending : Blocks.Ascending es) (sk : Bytes) : scan sk es =
    match es.find? (fun e => e.1 = sk) with
    | none => .ok none
    | some e => some <$> decodeValue e.2 := by
  induction es with
  | nil => rfl
  | cons e rest ih =>
    obtain ⟨first, later⟩ := pairwise_cons.mp ascending
    rw [scan]
    rcases lt_trichotomy e.1 sk with below | equal | above
    · rw [if_pos below, find?_cons_of_neg (by simpa using below.ne), ih later]
    · rw [if_neg (by rw [equal]; exact lt_irrefl _), if_pos equal, find?_cons_of_pos (by simpa using equal)]
    · have missing : (e :: rest).find? (fun e => e.1 = sk) = none := by
        rw [find?_eq_none]
        intro e' member found
        rcases mem_cons.mp member with rfl | there
        · exact above.ne' (by simpa using found)
        · exact (above.trans (first e' there)).ne' (by simpa using found)
      rw [if_neg above.not_gt, if_neg above.ne', missing]

omit [Wal.Crc] in
theorem candidateBlock_eq (sk : Bytes) : r.candidateBlock sk =
    if Blocks.partitionPoint (r.index.map IndexEntry.firstKey) sk = 0 then none
    else some (Blocks.partitionPoint (r.index.map IndexEntry.firstKey) sk - 1) := by
  rw [candidateBlock]
  split <;> simp_all

theorem readBlock_eq {e : IndexEntry} (read : Block.entries <$> r.readBlock e = .ok es) :
    ∃ block, r.readBlock e = .ok block ∧ Block.entries block = es := by
  cases found : r.readBlock e with
  | error e' =>
    rw [found] at read
    cases read
  | ok block =>
    rw [found] at read
    exact ⟨block, rfl, Except.ok.inj read⟩

theorem get_eq (serves : r.Serves blocks) (ascending : Blocks.Ascending blocks.flatten) (cf : Cf) (key : Bytes) :
    r.get cf key =
      match blocks.flatten.find? (fun e => e.1 = cf.code :: key) with
      | none => .ok none
      | some e => some <$> decodeValue e.2 := by
  rw [get, candidateBlock_eq, Blocks.find?_eq serves.indexed ascending fun e found => of_decide_eq_true found]
  split_ifs with before
  · rfl
  · dsimp only
    generalize Blocks.partitionPoint (r.index.map IndexEntry.firstKey) (cf.code :: key) - 1 = bi
    by_cases inside : bi < r.index.length
    · have inside' : bi < blocks.length := serves.length_eq ▸ inside
      obtain ⟨-, read⟩ := serves.get inside inside'
      obtain ⟨block, found, same⟩ := readBlock_eq read
      have part : Blocks.Ascending blocks[bi] := ascending.sublist (sublist_flatten_of_mem (getElem_mem inside'))
      rw [getElem?_eq_getElem inside, getElem?_eq_getElem inside', Option.getD_some, ← scan_eq part]
      have found : r.readBlock r.index[bi] = .ok block := found
      have same : Block.entries block = blocks[bi] := same
      simp only [found, ← same]
      rfl
    · have outside : blocks.length ≤ bi := serves.length_eq ▸ not_lt.mp inside
      rw [getElem?_eq_none (not_lt.mp inside), getElem?_eq_none outside]
      rfl

theorem seekBlocks_eq {index : List IndexEntry} (serves : List.Forall₂ (fun e es =>
      (∃ v rest, es = (e.firstKey, v) :: rest) ∧ Block.entries <$> r.readBlock e = .ok es) index blocks) (cf : Cf) (sk : Bytes) :
    r.seekBlocks cf sk index =
      match blocks.flatten.find? (fun e => sk ≤ e.1) with
      | none => .ok none
      | some e => if e.1.head? ≠ some cf.code then .ok none else (fun v => some (e.1.tail, v)) <$> decodeValue e.2 := by
  induction serves with
  | nil => rfl
  | @cons e es index blocks here later ih =>
    obtain ⟨block, found, same⟩ := readBlock_eq here.2
    rw [seekBlocks, found, flatten_cons, find?_append, ← same]
    simp only [bind, Except.bind]
    cases (Block.entries block).find? (fun entry => sk ≤ entry.1) with
    | none => exact ih
    | some entry => rfl

theorem seek_eq (serves : r.Serves blocks) (ascending : Blocks.Ascending blocks.flatten) (cf : Cf) (low : Bytes) :
    r.seek cf low =
      match blocks.flatten.find? (fun e => cf.code :: low ≤ e.1) with
      | none => .ok none
      | some e => if e.1.head? ≠ some cf.code then .ok none else (fun v => some (e.1.tail, v)) <$> decodeValue e.2 := by
  have start : (r.candidateBlock (cf.code :: low)).getD 0 =
      Blocks.partitionPoint (r.index.map IndexEntry.firstKey) (cf.code :: low) - 1 := by
    rw [candidateBlock_eq]
    split_ifs with before
    · rw [before]
      rfl
    · rfl
  rw [seek, start, Blocks.seek_eq serves.indexed ascending fun e reached => of_decide_eq_true reached]
  exact seekBlocks_eq (forall₂_drop _ serves) cf _

end SstReader

end

theorem Cf.code_inj {cf cf' : Cf} : cf.code = cf'.code ↔ cf = cf' := by
  refine ⟨fun same => ?_, congrArg _⟩
  have back := congrArg Cf.fromU8 same
  rw [Cf.fromU8_code, Cf.fromU8_code] at back
  exact Option.some.inj back

namespace SstEntry

def raw (e : SstEntry) : Bytes × Bytes := (e.sortKey, e.2.2.encode)

variable {e : SstEntry} {cf : Cf}

theorem sortKey_eq_iff {key : Bytes} : e.sortKey = cf.code :: key ↔ e.1 = cf ∧ e.2.1 = key := by
  rw [sortKey, cons.injEq, Cf.code_inj]

theorem le_sortKey_iff {low : Bytes} (same : e.1 = cf) : cf.code :: low ≤ e.sortKey ↔ low ≤ e.2.1 := by
  rw [← not_lt, ← not_lt, sortKey, same]
  simp

theorem find?_family {es : List SstEntry} (ascending : es.Pairwise (fun a b => a.sortKey < b.sortKey)) (cf : Cf)
    (low : Bytes) :
    es.find? (fun e => e.1 = cf ∧ low ≤ e.2.1) =
      (es.find? (fun e => cf.code :: low ≤ e.sortKey)).filter (fun e => e.1 = cf) := by
  induction es with
  | nil => rfl
  | cons e rest ih =>
    obtain ⟨first, later⟩ := pairwise_cons.mp ascending
    by_cases reached : cf.code :: low ≤ e.sortKey
    · have found : (e :: rest).find? (fun e => cf.code :: low ≤ e.sortKey) = some e :=
        find?_cons_of_pos (by simpa using reached)
      rw [found]
      by_cases same : e.1 = cf
      · rw [find?_cons_of_pos (by simpa [same] using (le_sortKey_iff same).mp reached), Option.filter_some,
          if_pos (decide_eq_true same)]
      · -- a later family, and so are all the entries after it
        have past : cf.code < e.1.code := by
          rcases lt_or_eq_of_le reached with less | equal
          · rw [sortKey, cons_lt_cons_iff] at less
            exact less.resolve_right fun tie => same (Cf.code_inj.mp tie.1.symm)
          · exact absurd (sortKey_eq_iff.mp equal.symm).1 same
        have missing : (e :: rest).find? (fun e => e.1 = cf ∧ low ≤ e.2.1) = none := by
          rw [find?_eq_none]
          intro e' member found
          obtain ⟨family, -⟩ : e'.1 = cf ∧ low ≤ e'.2.1 := by simpa using found
          rcases mem_cons.mp member with rfl | there
          · exact same family
          · have after := first e' there
            rw [sortKey, sortKey, family, cons_lt_cons_iff] at after
            rcases after with less | ⟨equal, -⟩
            · exact lt_asymm past less
            · exact past.ne equal.symm
        rw [missing, Option.filter_some, if_neg (by simpa using same)]
    · have skipped : ¬ (e.1 = cf ∧ low ≤ e.2.1) := fun found => reached ((le_sortKey_iff found.1).mpr found.2)
      rw [find?_cons_of_neg (by simpa using skipped), find?_cons_of_neg (by simpa using reached), ih later]

end SstEntry

theorem decodeValue_encode (v : MemValue) : SstReader.decodeValue v.encode = .ok v := by
  rw [SstReader.decodeValue, MemValue.decode_encode]

section

variable [Wal.Crc]

theorem openFile_writeEntries {es : List SstEntry} (short : (writeEntries es).length < 2 ^ 32) (fileNo : Nat) :
    ∃ reader, SstReader.openFile (writeEntries es) fileNo = .ok reader ∧
      ∃ blocks : List Entries, blocks.flatten = es.map SstEntry.raw ∧ reader.Serves blocks := by
  obtain ⟨blocks, flat, nonempty, written⟩ := SstWriter.finish_eq (es.map SstEntry.raw)
  rw [foldl_map] at written
  have file : writeEntries es = tableBytes blocks := written
  rw [file] at short ⊢
  have small := small_of_tableBytes short
  have leads := layout_leads nonempty small.each [] (indexBytes blocks ++ footer blocks)
  rw [nil_append, ← append_assoc] at leads
  exact ⟨_, openFile_tableBytes small fileNo, blocks, flat, SstReader.serves_of_leads leads⟩

namespace SstReader

variable {r : SstReader} {blocks : List Entries} {es : List SstEntry}

omit [Wal.Crc] in
theorem Serves.ascending (flat : blocks.flatten = es.map SstEntry.raw)
    (ascending : es.Pairwise (fun a b => a.sortKey < b.sortKey)) : Blocks.Ascending blocks.flatten := by
  rw [flat]
  exact pairwise_map.mpr ascending

theorem Serves.get (serves : r.Serves blocks) (flat : blocks.flatten = es.map SstEntry.raw)
    (ascending : es.Pairwise (fun a b => a.sortKey < b.sortKey)) (cf : Cf) (key : Bytes) :
    r.get cf key = .ok ((es.find? fun e => e.1 = cf ∧ e.2.1 = key).map (·.2.2)) := by
  rw [get_eq serves (Serves.ascending flat ascending), flat, find?_map]
  have same : (fun e : SstEntry => decide (e.1 = cf ∧ e.2.1 = key)) =
      (fun e : Bytes × Bytes => decide (e.1 = cf.code :: key)) ∘ SstEntry.raw := by
    funext e
    exact decide_eq_decide.mpr SstEntry.sortKey_eq_iff.symm
  rw [same]
  cases es.find? ((fun e : Bytes × Bytes => decide (e.1 = cf.code :: key)) ∘ SstEntry.raw) with
  | none => rfl
  | some e => exact congrArg (some <$> ·) (decodeValue_encode e.2.2)

theorem Serves.seek (serves : r.Serves blocks) (flat : blocks.flatten = es.map SstEntry.raw)
    (ascending : es.Pairwise (fun a b => a.sortKey < b.sortKey)) (cf : Cf) (low : Bytes) :
    r.seek cf low = .ok ((es.find? fun e => e.1 = cf ∧ low ≤ e.2.1).map (·.2)) := by
  rw [seek_eq serves (Serves.ascending flat ascending), flat, find?_map, SstEntry.find?_family ascending]
  have same : (fun e : SstEntry => decide (cf.code :: low ≤ e.sortKey)) =
      (fun e : Bytes × Bytes => decide (cf.code :: low ≤ e.1)) ∘ SstEntry.raw := rfl
  rw [same]
  cases es.find? ((fun e : Bytes × Bytes => decide (cf.code :: low ≤ e.1)) ∘ SstEntry.raw) with
  | none => rfl
  | some e =>
    have head : (SstEntry.raw e).1.head? = some e.1.code := rfl
    have value : decodeValue (SstEntry.raw e).2 = .ok e.2.2 := decodeValue_encode e.2.2
    simp only [Option.map_some, head, value, ne_eq, Option.some.injEq, Cf.code_inj, Option.filter_some]
    by_cases same : e.1 = cf
    · rw [if_neg (not_not.mpr same), if_pos (decide_eq_true same)]
      rfl
    · rw [if_pos same, if_neg (by simpa using same)]
      rfl

end SstReader

/-- Opened again, a table returns exactly the entries it was written with, family by family. -/
theorem sst_returns_written {es : List SstEntry} (ascending : es.Pairwise (fun a b => a.sortKey < b.sortKey))
    (short : (writeEntries es).length < 2 ^ 32) (fileNo : Nat) :
    ∃ reader, SstReader.openFile (writeEntries es) fileNo = .ok reader ∧
      (∀ cf key, reader.get cf key = .ok ((es.find? fun e => e.1 = cf ∧ e.2.1 = key).map (·.2.2))) ∧
      ∀ cf low, reader.seek cf low = .ok ((es.find? fun e => e.1 = cf ∧ low ≤ e.2.1).map (·.2)) := by
  obtain ⟨reader, opened, blocks, flat, serves⟩ := openFile_writeEntries short fileNo
  exact ⟨reader, opened, serves.get flat ascending, serves.seek flat ascending⟩

end

open scoped Wal.Castagnoli in
theorem sst_returns_written_two :
    ∃ reader, SstReader.openFile (writeEntries [(.default, [1], .put [7]), (.lock, [1], .delete)]) 3 = .ok reader ∧
      reader.get .lock [1] = .ok (some .delete) ∧ reader.seek .default [2] = .ok none := by
  obtain ⟨reader, opened, get, seek⟩ :=
    @sst_returns_written _ [(.default, [1], .put [7]), (.lock, [1], .delete)] (by decide) (by decide +kernel) 3
  exact ⟨reader, opened, get .lock [1], seek .default [2]⟩

def Cf.entry (cf : Cf) (e : Bytes × MemValue) : SstEntry := (cf, e)

def Memtable.entries (m : Memtable) : List SstEntry := Cf.all.flatMap fun cf => (m.cfs cf).entries.map cf.entry

def writeSst [Wal.Crc] (m : Memtable) : Bytes := writeEntries m.entries

namespace Memtable

variable {m : Memtable}

theorem entries_eq : m.entries = (m.cfs .default).entries.map Cf.default.entry ++
    ((m.cfs .write).entries.map Cf.write.entry ++ (m.cfs .lock).entries.map Cf.lock.entry) := by
  simp [entries, Cf.all]

theorem entries_ascending : m.entries.Pairwise (fun a b => a.sortKey < b.sortKey) := by
  have family (cf : Cf) : ((m.cfs cf).entries.map cf.entry).Pairwise (fun a b => a.sortKey < b.sortKey) := by
    refine pairwise_map.mpr ((m.cfs cf).sorted.imp fun less => ?_)
    exact cons_lt_cons_iff.mpr (.inr ⟨rfl, less⟩)
  have across {cf cf' : Cf} (less : cf.code < cf'.code) {l l' : List (Bytes × MemValue)} :
      ∀ a ∈ l.map cf.entry, ∀ b ∈ l'.map cf'.entry, a.sortKey < b.sortKey := by
    intro a first b second
    obtain ⟨-, -, rfl⟩ := mem_map.mp first
    obtain ⟨-, -, rfl⟩ := mem_map.mp second
    exact cons_lt_cons_iff.mpr (.inl less)
  rw [entries_eq]
  refine pairwise_append.mpr ⟨family _, pairwise_append.mpr ⟨family _, family _, across (by decide)⟩, ?_⟩
  intro a first b second
  rcases mem_append.mp second with there | there
  · exact across (by decide) a first b there
  · exact across (by decide) a first b there

theorem find?_entries {cf : Cf} {p : SstEntry → Bool} {q : Bytes × MemValue → Bool} (own : ∀ e, p (cf.entry e) = q e)
    (other : ∀ e, e.1 ≠ cf → p e = false) : (m.entries.find? p).map (·.2) = (m.cfs cf).entries.find? q := by
  have skip (cf' : Cf) (differ : cf' ≠ cf) (l : List (Bytes × MemValue)) : (l.map cf'.entry).find? p = none := by
    rw [find?_eq_none]
    intro e member found
    obtain ⟨e', -, rfl⟩ := mem_map.mp member
    rw [other _ differ] at found
    cases found
  have keep (l : List (Bytes × MemValue)) : ((l.map cf.entry).find? p).map (·.2) = l.find? q := by
    rw [find?_map, Function.comp_def]
    simp only [own]
    rw [Option.map_map]
    exact Option.map_id'
  rw [entries_eq, find?_append, find?_append, ← keep]
  cases cf with
  | default => rw [skip .write (by decide), skip .lock (by decide), Option.or_none, Option.or_none]
  | write => rw [skip .default (by decide), skip .lock (by decide), Option.or_none, Option.none_or]
  | lock => rw [skip .default (by decide), skip .write (by decide), Option.none_or, Option.none_or]

end Memtable

theorem writeSst_read [Wal.Crc] {m : Memtable} (short : (writeSst m).length < 2 ^ 32) (fileNo : Nat) :
    ∃ reader, SstReader.openFile (writeSst m) fileNo = .ok reader ∧
      (∀ cf key, reader.get cf key = .ok ((m.cfs cf).find? key)) ∧
      ∀ cf low, reader.seek cf low = .ok ((m.cfs cf).seek low) := by
  obtain ⟨reader, opened, blocks, flat, serves⟩ := openFile_writeEntries short fileNo
  refine ⟨reader, opened, fun cf key => ?_, fun cf low => ?_⟩
  · have found : ((m.entries.find? fun e => e.1 = cf ∧ e.2.1 = key).map (·.2)).map Prod.snd = (m.cfs cf).find? key :=
      congrArg _ (Memtable.find?_entries (fun e => by simp [Cf.entry]) (fun e differ => by simp [differ]))
    rw [serves.get flat Memtable.entries_ascending, ← found, Option.map_map]
    rfl
  · have found : (m.entries.find? fun e => e.1 = cf ∧ low ≤ e.2.1).map (·.2) = (m.cfs cf).seek low :=
      Memtable.find?_entries (fun e => by simp [Cf.entry]) (fun e differ => by simp [differ])
    rw [serves.seek flat Memtable.entries_ascending, ← found]

end Arcux.Engine
