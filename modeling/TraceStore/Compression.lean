import TraceStore.Chunk.Backend
import TraceStore.Codec.Snappy
import TraceStore.Codec.Zstd
import TraceStore.Gzip.Decoder
import TraceStore.Gzip.Encoder
import TraceStore.Stream.Backend

/-!
# Compressors

The formats say how a trace is laid out in its file and how its blocks decode, and leave open how
small the blocks are. `Compression` is what a choice of encoders provides; unless another one is at
hand, the encoders are those that take bytes over as they are.
-/
namespace TraceStore

/-- Encoders for the formats of traces. -/
class Compression where
  /-- What the encoders of blocks remember from one block to the next. -/
  Memory : Type
  /-- The memory before the first block. -/
  fresh : Memory
  /-- Writes snappy blocks. -/
  snappy : Snappy.Encoder Memory
  /-- Writes zstd frames. -/
  zstd : Zstd.Encoder Memory
  /-- Writes gzip streams. -/
  Encoder : Type
  /-- Reads gzip streams. -/
  Decoder : Type
  encoder : StreamEncoder Encoder
  decoder : StreamDecoder Decoder

namespace Compression

instance [Compression] : StreamEncoder Encoder := encoder
instance [Compression] : StreamDecoder Decoder := decoder

/-- Encoders that take bytes over as they are. -/
instance stored : Compression where
  Memory := Unit
  fresh := ()
  snappy := Snappy.encoder
  zstd := Zstd.encoder
  Encoder := Gzip.Encoder
  Decoder := Gzip.Decoder
  encoder := inferInstance
  decoder := inferInstance

end Compression

variable [Compression]

/-- The codec of a chunked format. -/
def Format.codec? : Format → Option (Codec Compression.Memory)
  | .zlib => none
  | .snappy => some (Snappy.codecOf Compression.snappy)
  | .zstd => some (Zstd.codecOf Compression.zstd)

/-- The backend of gzip files. -/
abbrev GzipBackend := Streamed Compression.Decoder Compression.Encoder

end TraceStore
