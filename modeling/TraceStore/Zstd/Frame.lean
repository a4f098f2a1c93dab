import TraceStore.Zstd.Literals
import TraceStore.Zstd.Sequences

/-!
# Frames of zstd

A frame has a header, blocks, and maybe a check of its contents. Here are its header and its blocks.
-/
namespace TraceStore.Zstd

/-- Longest output of a block. -/
def maxBlockSize : Nat := 131072

/-- Largest window that a decoder provides. -/
def maxWindowSize : Nat := 2 ^ 27 + 1

/-- What the header of a frame says. -/
structure FrameHeader where
  /-- Distance up to which copies may reach. -/
  windowSize : Nat
  /-- Length of the contents, if it is told. -/
  contentSize : Option Nat
  /-- Whether a check follows the blocks. -/
  checked : Bool
  /-- Bytes of the header. -/
  size : Nat

namespace FrameHeader

/-- Longest block of the frame. -/
def blockLimit (h : FrameHeader) : Nat := min h.windowSize maxBlockSize

/-- The window that a header's byte describes. -/
def windowOf (b : Nat) : Nat :=
  let base := 2 ^ (10 + b / 8)
  base + base / 8 * (b % 8)

/-- Reads the header at byte `start`, behind the magic. Dictionaries are not supported. -/
def read? (bytes : ByteArray) (start : Nat) : Option FrameHeader := do
  if bytes.size ≤ start then none
  let flags := byteAt bytes start
  let singleSegment := flags / 32 % 2 == 1
  let windowBytes := if singleSegment then 0 else 1
  let dictionaryBytes := [0, 1, 2, 4].getD (flags % 4) 0
  let contentBytes := match flags / 64 with
    | 0 => if singleSegment then 1 else 0
    | 1 => 2
    | 2 => 4
    | _ => 8
  let size := 1 + windowBytes + dictionaryBytes + contentBytes
  if bytes.size < start + size ∨ flags / 8 % 2 = 1 then none
  let i := start + 1 + windowBytes
  if wordAt bytes i dictionaryBytes ≠ 0 then none
  let content := wordAt bytes (i + dictionaryBytes) contentBytes
  let contentSize := match contentBytes with
    | 0 => none
    | 2 => some (content + 256)
    | _ => some content
  let windowByte := byteAt bytes (start + 1)
  if !singleSegment ∧ 21 < windowByte / 8 then none
  let windowSize := if singleSegment then contentSize.getD 0 else windowOf windowByte
  return ⟨windowSize, contentSize, flags / 4 % 2 == 1, size⟩

end FrameHeader

/-- What a block leaves to the ones after it. -/
structure BlockMemory where
  literals : Option Huffman.Table
  sequences : SequenceMemory

namespace BlockMemory

/-- What the first block of a frame starts with. -/
def initial : BlockMemory := ⟨none, ⟨none, .initial⟩⟩

end BlockMemory

/-- Decodes a compressed block, with at most `limit` literals, to at most `longest` bytes at the end
of `out`. -/
def decodeBlock (block : ByteArray) (frameStart limit longest : Nat) (memory : BlockMemory)
    (out : ByteArray) : Option (BlockMemory × ByteArray) := do
  let literals ← Literals.read block limit memory.literals
  let (sequences, out) ← runSection block literals.size literals.bytes frameStart
    (out.size + longest) memory.sequences out
  return (⟨literals.table, sequences⟩, out)

/-- Where decoding of a frame stands. -/
structure FrameState where
  /-- Position of the next byte of the data. -/
  i : Nat
  memory : BlockMemory
  out : ByteArray

/-- Decodes the block at hand, and tells whether it is the last one and whether it is an empty
one. It may not be compressed to more than `limit` bytes, nor decode to more than `longest`. -/
def nextBlock (bytes : ByteArray) (frameStart limit longest : Nat) (s : FrameState) :
    Option (Bool × Bool × FrameState) := do
  if bytes.size < s.i + 3 then none
  let header := wordAt bytes s.i 3
  let last := header % 2 == 1
  let size := header / 8
  let i := s.i + 3
  match header / 2 % 4 with
  | 0 =>
    if longest < size ∨ bytes.size < i + size then none
    return (last, size == 0, { s with i := i + size, out := s.out ++ bytes.extract i (i + size) })
  | 1 =>
    if longest < size ∨ bytes.size ≤ i then none
    return (last, false,
      { s with i := i + 1, out := pushTimes s.out (UInt8.ofNat (byteAt bytes i)) size })
  | 2 =>
    if limit < size ∨ bytes.size < i + size then none
    let (memory, out) ← decodeBlock (bytes.extract i (i + size)) frameStart limit longest s.memory
      s.out
    return (last, size == 0, ⟨i + size, memory, out⟩)
  | _ => none

end TraceStore.Zstd
