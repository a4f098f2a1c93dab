import TraceStore.Bytes.LittleEndian
import TraceStore.Bytes.Reading
import TraceStore.Codec.Basic
import TraceStore.Zstd.Reader

/-!
# The zstd codec

A block is a frame, or several. How it is decoded and encoded is left to a decoder and an encoder;
those that stand here write a block as one frame that tells the length of its contents and keeps them
in raw blocks, so every level of compression gives the same block.
-/
namespace TraceStore.Zstd

/-! ### Decoding -/

/-- A decoder of zstd data. -/
structure Decoder (δ : Type) where
  /-- Looks at the beginning of a block. -/
  start : ByteArray → Except IoError δ
  /-- Some of the next bytes, at most as many as asked for; none at the end of the block. -/
  read : Nat → δ → Except IoError ByteArray × δ

/-- Decodes a block, up to one byte behind the limit: that tells a block that is too long from one
that is just not. -/
def decompressWith {δ : Type} (decoder : Decoder δ) (room : Room) (block : ByteArray) :
    Except Error ByteArray :=
  match decoder.start block with
  | .error _ => .error (.corrupt .zstdDecoder)
  | .ok source =>
    match Take.readToEnd decoder.read room ⟨source, maxChunkSize + 1⟩ with
    | .error _ => .error (.corrupt .zstdFrame)
    | .ok out => if maxChunkSize < out.size then .error (.corrupt .zstdOverLimit) else .ok out

/-- The decoder that reads zstd data. -/
def decoder : Decoder Reader := ⟨fun block => .ok (.start block), Reader.read⟩

/-- Decodes a block. -/
def decompress (block : ByteArray) : Except Error ByteArray :=
  decompressWith decoder .doubling block

/-! ### Encoding -/

/-- An encoder of zstd frames: what it makes of bytes at a level of compression, and what it
remembers. -/
abbrev Encoder (σ : Type) := Int32 → ByteArray → σ → Except IoError ByteArray × σ

/-- Encodes a chunk at the level of the options. -/
def compressWith {σ : Type} (encode : Encoder σ) : Compressor σ := fun o bytes memory =>
  (encode o.zstdLevel bytes memory).map (·.mapError .io) id

/-- The raw blocks of the bytes from `start` on, added to `out`. Every block but an empty last one
takes bytes, so `fuel` blocks are enough for fewer bytes. -/
def rawBlocksWithin (bytes : ByteArray) : Nat → Nat → ByteArray → ByteArray
  | 0, _, out => out
  | fuel + 1, start, out =>
    let stop := min (start + maxBlockSize) bytes.size
    let last := if stop = bytes.size then 1 else 0
    let out := out ++ LittleEndian.bytes 3 (8 * (stop - start) + last)
      ++ bytes.extract start stop
    if stop = bytes.size then out else rawBlocksWithin bytes fuel stop out

/-- Descriptor of a frame that tells the length of its contents in eight bytes and has no window of
its own. -/
def frameDescriptor : Nat := 0xe0

/-- A frame with the given contents. -/
def encode (bytes : ByteArray) : ByteArray :=
  rawBlocksWithin bytes (bytes.size / maxBlockSize + 1) 0
    (LittleEndian.bytes 4 frameMagic ++ LittleEndian.bytes 1 frameDescriptor
      ++ LittleEndian.bytes 8 bytes.size)

/-- The encoder that takes bytes over. -/
def encoder : Encoder Unit := fun _ bytes memory => (.ok (encode bytes), memory)

/-! ### The codec -/

/-- Length of the longest block for `n` bytes. -/
def maxCompressedLen (n : Nat) : Nat :=
  n + n / 256 + if n < 131072 then (131072 - n) / 2048 else 0

/-- The codec of zstd files whose frames an encoder writes. -/
def codecOf {σ : Type} (encode : Encoder σ) : Codec σ where
  format := .zstd
  magic := Format.zstd.magic
  compress := compressWith encode
  decompress
  maxCompressedLen

/-- The codec of zstd files. -/
def codec : Codec Unit := codecOf encoder

end TraceStore.Zstd
