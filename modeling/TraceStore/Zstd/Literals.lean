import TraceStore.Bytes.Backreference
import TraceStore.Zstd.Huffman

/-!
# The literals of a block

A compressed block starts with the bytes that its sequences take over: as they are, as one byte
repeated, or in a Huffman code, which may be the one of an earlier block.
-/
namespace TraceStore.Zstd

/-- The literals of a block. -/
structure Literals where
  bytes : ByteArray
  /-- The code that a later block can use again. -/
  table : Option Huffman.Table
  /-- Bytes of the block that hold the literals. -/
  size : Nat

namespace Literals

/-- Length of contents and size of the header, for literals that are not coded. -/
def plainHeader (block : ByteArray) (format : Nat) : Option (Nat × Nat) :=
  match format with
  | 1 => if block.size < 2 then none else some (wordAt block 0 2 / 16, 2)
  | 3 => if block.size < 3 then none else some (wordAt block 0 3 / 16, 3)
  | _ => some (byteAt block 0 / 8, 1)

/-- Length of contents, length of the code and size of the header, for literals that are coded. -/
def codedHeader (block : ByteArray) (format : Nat) : Nat × Nat × Nat :=
  match format with
  | 2 => (bitsAt block 4 14, bitsAt block 18 14, 4)
  | 3 => (bitsAt block 4 18, bitsAt block 22 18, 5)
  | _ => (bitsAt block 4 10, bitsAt block 14 10, 3)

/-- Decodes literals in a Huffman code, read in front of them or the one of an earlier block. -/
def readCoded (block : ByteArray) (limit format : Nat) (earlier : Option Huffman.Table) :
    Option Literals := do
  if block.size < 5 then none
  let (count, codeSize, headerSize) := codedHeader block format
  let stop := headerSize + codeSize
  if limit < count ∨ block.size < stop ∨ (format ≠ 0 ∧ count < 6) then none
  let (table, start) ← match earlier with
    | some table => some (table, headerSize)
    | none => (Huffman.read (block.extract 0 stop) headerSize).bind fun (table, size) =>
      if codeSize ≤ size then none else some (table, headerSize + size)
  let code := block.extract start stop
  let bytes ←
    if format = 0 then Huffman.decodeStream table code count .empty
    else Huffman.decodeFour table code count
  return ⟨bytes, some table, stop⟩

/-- Reads the literals at the start of a block, of which there may be `limit`. `earlier` is the code
of an earlier block. -/
def read (block : ByteArray) (limit : Nat) (earlier : Option Huffman.Table) :
    Option Literals := do
  if block.size < 2 then none
  let format := byteAt block 0 / 4 % 4
  match byteAt block 0 % 4 with
  | 0 =>
    let (count, start) ← plainHeader block format
    if limit < count ∨ block.size < start + count then none
    return ⟨block.extract start (start + count), earlier, start + count⟩
  | 1 =>
    let (count, start) ← plainHeader block format
    if limit < count ∨ block.size < start + 1 then none
    return ⟨pushTimes .empty (UInt8.ofNat (byteAt block start)) count, earlier, start + 1⟩
  | 2 => readCoded block limit format none
  | _ =>
    match earlier with
    | none => none
    | some table => readCoded block limit format (some table)

end Literals
end TraceStore.Zstd
