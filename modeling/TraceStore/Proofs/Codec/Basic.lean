import TraceStore.Codec.Basic

/-!
# What codecs promise

The backend for chunked files relies on its codec for the size of what it decodes, for the size of
what it encodes, and for getting back what was encoded.
-/
namespace TraceStore

theorem WriteOptions.chunkSize_of_validate {o : WriteOptions} (h : o.validate = .ok ()) :
    0 < o.chunkSize.toNat ∧ o.chunkSize.toNat ≤ maxChunkSize := by
  rw [validate] at h
  split at h
  · cases h
  split at h
  · cases h
  omega

namespace Codec

variable {σ : Type}

/-- No block decodes to more than the largest chunk. -/
def Bounded (c : Codec σ) : Prop :=
  ∀ {block data}, c.decompress block = .ok data → data.size ≤ maxChunkSize

/-- The bound for the largest chunk is one for the smaller chunks too, and fits the length field. -/
structure Roomy (c : Codec σ) : Prop where
  maxCompressedLen_le : ∀ {n}, n ≤ maxChunkSize → c.maxCompressedLen n ≤ c.lengthLimit
  lengthLimit_lt : c.lengthLimit < 2 ^ 32

/-- Every chunk that a writer with valid options can have is encoded, to a block of no more than the
bound, which decodes to that chunk. -/
def Lossless (c : Codec σ) : Prop :=
  ∀ (o : WriteOptions) (data : ByteArray) (memory : σ), o.validate = .ok () → 0 < data.size →
    data.size ≤ maxChunkSize → ∃ block memory', c.compress o data memory = (.ok block, memory') ∧
      c.decompress block = .ok data ∧ block.size ≤ c.maxCompressedLen data.size

end Codec
end TraceStore
