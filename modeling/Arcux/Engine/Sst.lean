import Arcux.Data.Blocks
import Arcux.Engine.Batch

namespace Arcux.Engine

open Codec
open Codec.Reader (sized)
open Data (Blocks.partitionPoint)
open scoped Codec.ByteOrder

namespace MemValue

def encode : MemValue → Bytes
  | put v => 0 :: v
  | delete => [1]

def decode : Bytes → Option MemValue
  | 0 :: v => some (put v)
  | 1 :: _ => some delete
  | _ => none

theorem decode_encode (v : MemValue) : decode v.encode = some v := by cases v <;> rfl

end MemValue

namespace Block

def encodeEntry (key value : Bytes) : Bytes := putLengthPrefixed key ++ putLengthPrefixed value

def readEntry : Reader (Bytes × Bytes) := do return (← sized, ← sized)

def readOn : Nat → Bytes → List (Bytes × Bytes)
  | 0, _ => []
  | rounds + 1, unread =>
    match readEntry.run unread with
    | none => []
    | some (entry, rest) => entry :: readOn rounds rest

def entries (block : Bytes) : List (Bytes × Bytes) := readOn block.length block

end Block

def footerMagic : Nat := 0x535354425f563031

def footerLen : Nat := 8 + 4 + 8

def defaultBlockSize : Nat := 4 * 1024

structure SstWriter where
  file : Bytes := []
  offset : Nat := 0
  block : Bytes := []
  curFirstKey : Option Bytes := none
  -- the first key, the offset and the length of every finished block
  index : List (Bytes × Nat × Nat) := []

variable [Wal.Crc]

namespace SstWriter

def flushBlock (w : SstWriter) : SstWriter :=
  if w.block.isEmpty then w
  else
    let block := w.block ++ toBE 4 (Wal.crc32c w.block).toNat
    let len := block.length % 2 ^ 32
    { file := w.file ++ block
      offset := w.offset + len
      block := []
      curFirstKey := none
      -- there is a first key whenever the block is not empty
      index := w.index ++ [(w.curFirstKey.getD [], w.offset, len)] }

def add (w : SstWriter) (key value : Bytes) : SstWriter :=
  let w := { w with
    curFirstKey := if w.block.isEmpty then some key else w.curFirstKey
    block := w.block ++ Block.encodeEntry key value }
  if defaultBlockSize ≤ w.block.length then w.flushBlock else w

def encodeIndex (index : List (Bytes × Nat × Nat)) : Bytes :=
  index.flatMap fun (first, offset, len) => putLengthPrefixed first ++ toBE 8 offset ++ toBE 4 len

def finish (w : SstWriter) : Bytes :=
  let w := w.flushBlock
  let body := encodeIndex w.index
  let idx := body ++ toBE 4 (Wal.crc32c body).toNat
  w.file ++ idx ++ (toBE 8 w.offset ++ toBE 4 idx.length ++ toBE 8 footerMagic)

end SstWriter

structure IndexEntry where
  firstKey : Bytes
  offset : Nat
  len : Nat
  deriving DecidableEq

structure SstReader where
  file : Bytes
  index : List IndexEntry
  fileNo : Nat

def readExactAt (file : Bytes) (offset len : Nat) : Except Error Bytes :=
  if len = 0 ∨ offset + len ≤ file.length then .ok ((file.drop offset).take len) else .error .io

def checked (buf : Bytes) (tooSmall mismatch : String) : Except Error Bytes :=
  if buf.length < 4 then .error (.corruption tooSmall)
  else
    let body := buf.take (buf.length - 4)
    if (Wal.crc32c body).toNat ≠ fromBE (buf.drop (buf.length - 4)) then .error (.corruption mismatch) else .ok body

namespace SstReader

def readIndex : Nat → Bytes → Except Error (List IndexEntry)
  | 0, _ => .ok []
  | rounds + 1, unread =>
    if unread.isEmpty then .ok []
    else
      match sized.run unread with
      | none => .error (.corruption "sstable index entry")
      | some (firstKey, rest) =>
        if rest.length < 12 then .error (.corruption "sstable index truncated")
        else do
          let later ← readIndex rounds (rest.drop 12)
          return ⟨firstKey, fromBE (rest.take 8), fromBE ((rest.drop 8).take 4)⟩ :: later

def openFile (file : Bytes) (fileNo : Nat) : Except Error SstReader :=
  if file.length < footerLen then .error (.corruption "sstable smaller than footer")
  else do
    let footer ← readExactAt file (file.length - footerLen) footerLen
    let indexOffset := fromBE (footer.take 8)
    let indexLen := fromBE ((footer.drop 8).take 4)
    if fromBE (footer.drop 12) ≠ footerMagic then .error (.corruption "bad sstable magic")
    else
      let idx ← readExactAt file indexOffset indexLen
      let body ← checked idx "sstable index too small" "sstable index crc mismatch"
      let index ← readIndex body.length body
      return { file, index, fileNo }

def readBlock (r : SstReader) (e : IndexEntry) : Except Error Bytes := do
  checked (← readExactAt r.file e.offset e.len) "sstable block too small" "sstable block crc mismatch"

def candidateBlock (r : SstReader) (sk : Bytes) : Option Nat :=
  match Blocks.partitionPoint (r.index.map IndexEntry.firstKey) sk with
  | 0 => none
  | pp + 1 => some pp

def decodeValue (bytes : Bytes) : Except Error MemValue :=
  match MemValue.decode bytes with
  | some v => .ok v
  | none => .error (.corruption "sstable value")

def scan (sk : Bytes) : List (Bytes × Bytes) → Except Error (Option MemValue)
  | [] => .ok none
  | (ek, ev) :: rest =>
    if ek < sk then scan sk rest
    else if ek = sk then some <$> decodeValue ev
    else .ok none

def get (r : SstReader) (cf : Cf) (key : Bytes) : Except Error (Option MemValue) :=
  let sk := cf.code :: key
  match r.candidateBlock sk with
  | none => .ok none
  | some bi =>
    match r.index[bi]? with
    | none => .ok none
    | some e => do scan sk (Block.entries (← r.readBlock e))

def seekBlocks (r : SstReader) (cf : Cf) (sk : Bytes) : List IndexEntry → Except Error (Option (Bytes × MemValue))
  | [] => .ok none
  | e :: rest => do
    match (Block.entries (← r.readBlock e)).find? (fun entry => sk ≤ entry.1) with
    | none => seekBlocks r cf sk rest
    | some (ek, ev) =>
      -- crossed into the next family
      if ek.head? ≠ some cf.code then return none
      else return some (ek.tail, ← decodeValue ev)

def seek (r : SstReader) (cf : Cf) (low : Bytes) : Except Error (Option (Bytes × MemValue)) :=
  let sk := cf.code :: low
  r.seekBlocks cf sk (r.index.drop ((r.candidateBlock sk).getD 0))

end SstReader

abbrev SstEntry := Cf × Bytes × MemValue

def SstEntry.sortKey (e : SstEntry) : Bytes := e.1.code :: e.2.1

def writeEntries (es : List SstEntry) : Bytes :=
  (es.foldl (fun w e => w.add e.sortKey e.2.2.encode) ({} : SstWriter)).finish

def Cf.all : List Cf := [.default, .write, .lock]

end Arcux.Engine
