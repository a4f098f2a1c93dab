import TraceStore.Bytes.LittleEndian

/-!
# Positions in a trace

An `Offset` names a byte of a compressed trace: the file position of a chunk header and a count
of decoded bytes past the start of that chunk. Offsets are ordered by chunk first, and are kept in
index files as twelve bytes.
-/
namespace TraceStore

/-- A position in a compressed trace. The default value is the start of the stream. -/
structure Offset where
  /-- File position of a chunk header; zero stands for the first chunk. -/
  chunk : UInt64
  /-- Decoded bytes past the start of the chunk. -/
  inChunk : UInt32
deriving DecidableEq, Repr

namespace Offset

instance : Inhabited Offset := ⟨⟨0, 0⟩⟩

/-- The offset of byte `inChunk` of the chunk at file position `chunk`. -/
def ofNat (chunk inChunk : Nat) : Offset :=
  ⟨UInt64.ofNat chunk, UInt32.ofNat inChunk⟩

/-- Whether an offset is the start of the stream. -/
def isStart (a : Offset) : Bool := a == default

/-- Offsets compare by chunk, and within a chunk by the bytes past its start. -/
def compare (a b : Offset) : Ordering :=
  (Ord.compare a.chunk b.chunk).then (Ord.compare a.inChunk b.inChunk)

instance : Ord Offset := ⟨compare⟩
instance : LT Offset := ⟨fun a b => a.chunk < b.chunk ∨ a.chunk = b.chunk ∧ a.inChunk < b.inChunk⟩
instance : LE Offset := ⟨fun a b => a.chunk < b.chunk ∨ a.chunk = b.chunk ∧ a.inChunk ≤ b.inChunk⟩
instance (a b : Offset) : Decidable (a < b) :=
  inferInstanceAs (Decidable (a.chunk < b.chunk ∨ a.chunk = b.chunk ∧ a.inChunk < b.inChunk))
instance (a b : Offset) : Decidable (a ≤ b) :=
  inferInstanceAs (Decidable (a.chunk < b.chunk ∨ a.chunk = b.chunk ∧ a.inChunk ≤ b.inChunk))

/-- Length of the form kept in index files. -/
def encodedSize : Nat := 12

/-- The twelve bytes of an offset: the chunk in eight, then the bytes past its start in four,
each lowest first. -/
def encode (a : Offset) : List UInt8 :=
  LittleEndian.encode 8 a.chunk.toNat ++ LittleEndian.encode 4 a.inChunk.toNat

/-- The offset stored in twelve bytes. -/
def decode (bytes : List UInt8) : Offset :=
  ofNat (LittleEndian.decode (bytes.take 8)) (LittleEndian.decode ((bytes.drop 8).take 4))

@[simp] theorem length_encode (a : Offset) : a.encode.length = encodedSize := by
  simp [encode, encodedSize]

end Offset
end TraceStore
