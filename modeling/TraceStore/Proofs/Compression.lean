import TraceStore.Compression
import TraceStore.Proofs.Codec.Snappy
import TraceStore.Proofs.Codec.Zstd
import TraceStore.Proofs.Gzip.Decoder

/-!
# What the formats promise
-/
namespace TraceStore

/-- Encoders that lose nothing: what each of them has written, the decoder of its format gets back. -/
structure Compression.Lossless [Compression] : Prop where
  snappy : (Snappy.codecOf Compression.snappy).Lossless
  zstd : (Zstd.codecOf Compression.zstd).Lossless
  gzip : StreamLossless Compression.Decoder Compression.Encoder

/-- The encoders that take bytes over as they are lose nothing. -/
theorem Compression.stored_lossless : @Compression.Lossless Compression.stored where
  snappy := Snappy.lossless
  zstd := Zstd.lossless
  gzip := Gzip.lossless

/-- Encoders for the formats of traces that write gzip streams for the decoder of gzip files. -/
class Compression.ForGzip where
  Memory : Type
  fresh : Memory
  snappy : Snappy.Encoder Memory
  zstd : Zstd.Encoder Memory
  Encoder : Type
  encoder : StreamEncoder Encoder

namespace Compression

instance [ForGzip] : StreamEncoder ForGzip.Encoder := ForGzip.encoder

instance forGzip [ForGzip] : Compression where
  Memory := ForGzip.Memory
  fresh := ForGzip.fresh
  snappy := ForGzip.snappy
  zstd := ForGzip.zstd
  Encoder := ForGzip.Encoder
  Decoder := Gzip.Decoder
  encoder := inferInstance
  decoder := inferInstance

/-- The encoders that take bytes over as they are. -/
abbrev ForGzip.stored : ForGzip where
  Memory := Compression.stored.Memory
  fresh := Compression.stored.fresh
  snappy := Compression.stored.snappy
  zstd := Compression.stored.zstd
  Encoder := Gzip.Encoder
  encoder := inferInstance

end Compression

variable [Compression] {format : Format} {c : Codec Compression.Memory}

/-- What holds of the two codecs holds of the codec of every format that has one. -/
@[elab_as_elim] theorem Format.of_codec? {P : Format → Codec Compression.Memory → Prop}
    (h : format.codec? = some c) (snappy : P .snappy (Snappy.codecOf Compression.snappy))
    (zstd : P .zstd (Zstd.codecOf Compression.zstd)) : P format c := by
  cases format with
  | zlib => cases h
  | snappy => exact Option.some.inj h ▸ snappy
  | zstd => exact Option.some.inj h ▸ zstd

theorem Compression.Lossless.codec (h : Compression.Lossless) (hformat : format.codec? = some c) :
    c.Lossless :=
  Format.of_codec? hformat h.snappy h.zstd

namespace Format

theorem format_of_codec? (h : format.codec? = some c) : c.format = format :=
  of_codec? h rfl rfl

theorem eq_zlib_of_codec? (h : format.codec? = none) : format = .zlib := by
  cases format with
  | zlib => rfl
  | snappy => cases h
  | zstd => cases h

theorem magic_of_codec? (h : format.codec? = some c) : c.magic = format.magic :=
  of_codec? h rfl rfl

theorem bounded_of_codec? (h : format.codec? = some c) : c.Bounded :=
  of_codec? h (Snappy.bounded _) (Zstd.bounded _)

theorem roomy_of_codec? (h : format.codec? = some c) : c.Roomy :=
  of_codec? h (Snappy.roomy _) (Zstd.roomy _)

/-- The bound for blocks grows with the chunk. -/
theorem maxCompressedLen_mono_of_codec? (h : format.codec? = some c) {m n : Nat} (hmn : m ≤ n)
    (hn : n ≤ maxChunkSize) : c.maxCompressedLen m ≤ c.maxCompressedLen n :=
  of_codec? h (Snappy.maxCompressedLen_mono hmn hn) (Zstd.maxCompressedLen_mono hmn)

end Format
end TraceStore
