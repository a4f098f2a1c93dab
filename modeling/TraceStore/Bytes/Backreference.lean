/-!
# Copying from what was written

Compressed formats name repeated bytes by how far back they were written. The copy may overlap
what it writes itself: a distance of one repeats the last byte.
-/
namespace TraceStore

/-- Byte of `out` that was written `distance` bytes ago; zero from before the start. -/
def byteBack (out : ByteArray) (distance : Nat) : UInt8 :=
  if h : 0 < distance ∧ distance ≤ out.size then out[out.size - distance] else 0

/-- Writes `length` bytes, each the one that was written `distance` bytes before it. -/
def copyBack (out : ByteArray) (distance : Nat) : Nat → ByteArray
  | 0 => out
  | length + 1 => copyBack (out.push (byteBack out distance)) distance length

/-- Writes a byte `count` times. -/
def pushTimes (out : ByteArray) (b : UInt8) : Nat → ByteArray
  | 0 => out
  | count + 1 => pushTimes (out.push b) b count

@[simp] theorem size_copyBack (out : ByteArray) (distance length : Nat) :
    (copyBack out distance length).size = out.size + length := by
  induction length generalizing out with
  | zero => rfl
  | succ length ih => simp [copyBack, ih, ByteArray.size_push]; omega

@[simp] theorem size_pushTimes (out : ByteArray) (b : UInt8) (count : Nat) :
    (pushTimes out b count).size = out.size + count := by
  induction count generalizing out with
  | zero => rfl
  | succ count ih => simp [pushTimes, ih, ByteArray.size_push]; omega

end TraceStore
