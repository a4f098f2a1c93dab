import TraceStore.Format
import TraceStore.Options

/-!
# Block codecs

A codec turns the bytes of one chunk into a block and back. It may keep a memory between blocks
that it encodes, and may refuse to encode; decoding depends on the block alone. Three codecs that
transform next to nothing stand here: they make the layout of a chunked file visible.
-/
namespace TraceStore

/-- Encodes one chunk, or refuses, and leaves a memory of type `σ` to the next one. -/
abbrev Compressor (σ : Type) := WriteOptions → ByteArray → σ → Except Error ByteArray × σ

/-- A compressor without memory that encodes by a function of the bytes. -/
def Compressor.ofFunction (f : ByteArray → Except Error ByteArray) : Compressor Unit :=
  fun _ input memory => (f input, memory)

/-- A block codec with a memory of type `σ`. -/
structure Codec (σ : Type) where
  /-- Format that files of this codec report. -/
  format : Format
  /-- The two bytes that files of this codec start with. -/
  magic : UInt8 × UInt8
  /-- Encodes one chunk, or refuses. -/
  compress : Compressor σ
  /-- Decodes one block. -/
  decompress : ByteArray → Except Error ByteArray
  /-- Length of the longest block for a number of bytes. -/
  maxCompressedLen : Nat → Nat

namespace Codec

variable {σ : Type}

/-- The magic as a piece of a file. -/
def magicBytes (c : Codec σ) : ByteArray := ⟨#[c.magic.1, c.magic.2]⟩

@[simp] theorem size_magicBytes (c : Codec σ) : c.magicBytes.size = 2 := rfl

/-- Longest block that a reader accepts: that of a full chunk of the largest size. -/
def lengthLimit (c : Codec σ) : Nat := c.maxCompressedLen maxChunkSize

/-- A codec without memory that encodes by a function of the bytes. -/
def ofFunctions (format : Format) (magic : UInt8 × UInt8)
    (compress : ByteArray → Except Error ByteArray) (decompress : ByteArray → Except Error ByteArray)
    (maxCompressedLen : Nat → Nat) : Codec Unit where
  format
  magic
  compress := .ofFunction compress
  decompress
  maxCompressedLen

/-- Stores bytes as they are. -/
def plain : Codec Unit :=
  ofFunctions .snappy (0x70, 0x6c) .ok .ok id

/-- Stores bytes as they are, but encodes nothing that contains `ee` and decodes nothing that
starts with `dd`. -/
def picky : Codec Unit :=
  ofFunctions .zstd (0x70, 0x6b)
    (fun input => if input.data.contains 0xee
      then .error (.corrupt (.codec "picky compress")) else .ok input)
    (fun block => if block.data[0]? = some 0xdd
      then .error (.corrupt (.codec "picky decompress")) else .ok block)
    id

/-- Every byte of a list two times. -/
def double : List UInt8 → List UInt8
  | [] => []
  | b :: rest => b :: b :: double rest

/-- The list of which every byte was written two times. -/
def halve? : List UInt8 → Option (List UInt8)
  | [] => some []
  | [_] => none
  | a :: b :: rest => if a = b then (halve? rest).map (a :: ·) else none

/-- Stores every byte two times. -/
def twice : Codec Unit :=
  ofFunctions .zlib (0x74, 0x77)
    (fun input => .ok ⟨(double input.data.toList).toArray⟩)
    (fun block => match halve? block.data.toList with
      | some bytes => .ok ⟨bytes.toArray⟩
      | none => .error (.corrupt (.codec "twice mismatch")))
    (2 * ·)

end Codec
end TraceStore
