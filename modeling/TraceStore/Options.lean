import TraceStore.Error

/-!
# Write options

The settings of a writer and their ranges. They are checked when a file is opened for writing,
before anything on disk is touched.
-/
namespace TraceStore

/-- Largest number of decoded bytes in one chunk. -/
def maxChunkSize : Nat := 64 * 1024 * 1024

/-- Settings used when a file is opened for writing. -/
structure WriteOptions where
  /-- Decoded bytes per chunk, for the chunked formats. -/
  chunkSize : UInt64
  /-- Compression level of zlib. -/
  zlibLevel : UInt32
  /-- Compression level of zstd. -/
  zstdLevel : Int32
deriving DecidableEq, Repr

namespace WriteOptions

/-- One mebibyte per chunk, zlib level 6, zstd level 3. -/
instance : Inhabited WriteOptions := ⟨⟨1048576, 6, 3⟩⟩

/-- Refuses options out of range. The first fault in the order of the fields is reported. -/
def validate (o : WriteOptions) : Except Error Unit :=
  if o.chunkSize.toNat = 0 then .error (.invalidConfig .emptyChunk)
  else if maxChunkSize < o.chunkSize.toNat then .error (.invalidConfig .chunkTooLarge)
  else if 9 < o.zlibLevel.toNat then .error (.invalidConfig .zlibLevel)
  else if o.zstdLevel.toInt < 1 ∨ 22 < o.zstdLevel.toInt then .error (.invalidConfig .zstdLevel)
  else .ok ()

end WriteOptions
end TraceStore
