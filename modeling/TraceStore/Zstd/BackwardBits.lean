import TraceStore.Bytes.Bits

/-!
# Bits read backwards

A compressed section of zstd is read from its last bit to its first. The highest bit that is set
in the last byte marks the end and is not part of the contents.
-/
namespace TraceStore.Zstd

/-- A section of which the first `left` bits have not been read. -/
structure BackwardBits where
  bytes : ByteArray
  left : Nat

namespace BackwardBits

/-- A section of which nothing has been read. It needs an end mark. -/
def start? (bytes : ByteArray) : Option BackwardBits :=
  let last := byteAt bytes (bytes.size - 1)
  if last = 0 then none else some ⟨bytes, 8 * (bytes.size - 1) + last.log2⟩

/-- The next `count` bits without reading them. Bits in front of the section are zero. -/
def peek (b : BackwardBits) (count : Nat) : Nat :=
  if count ≤ b.left then bitsAt b.bytes (b.left - count) count
  else bitsAt b.bytes 0 b.left <<< (count - b.left)

/-- Passes over `count` bits, if they are there. -/
def drop? (b : BackwardBits) (count : Nat) : Option BackwardBits :=
  if count ≤ b.left then some { b with left := b.left - count } else none

/-- Reads `count` bits, if they are there. -/
def read? (b : BackwardBits) (count : Nat) : Option (Nat × BackwardBits) :=
  (b.drop? count).map fun rest => (b.peek count, rest)

end BackwardBits
end TraceStore.Zstd
