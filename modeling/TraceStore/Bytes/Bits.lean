import TraceStore.Instances

/-!
# Bits of a piece of a file

Bit `i` is bit `i % 8` of byte `i / 8`, counted from the lowest. Bits behind the end are zero.
-/
namespace TraceStore

/-- Byte `i` as a number; zero behind the end. -/
def byteAt (bytes : ByteArray) (i : Nat) : Nat :=
  if h : i < bytes.size then bytes[i].toNat else 0

/-- The number in the `width` bytes from `i` on, lowest first. -/
def wordAt (bytes : ByteArray) (i : Nat) : Nat → Nat
  | 0 => 0
  | width + 1 => byteAt bytes i + 256 * wordAt bytes (i + 1) width

/-- The number in the `count` bits from bit `start` on, lowest first. -/
def bitsAt (bytes : ByteArray) (start count : Nat) : Nat :=
  wordAt bytes (start / 8) ((start % 8 + count + 7) / 8) >>> (start % 8) % (1 <<< count)

theorem bitsAt_lt (bytes : ByteArray) (start count : Nat) :
    bitsAt bytes start count < 2 ^ count := by
  rw [bitsAt, Nat.one_shiftLeft]
  exact Nat.mod_lt _ (Nat.two_pow_pos count)

end TraceStore
