import TraceStore.Instances

/-!
# Little-endian numbers

Fixed-width numbers in files are stored lowest byte first. `encode` and `decode` are inverse to
each other on lists of one width: `decode_encode`, `encode_decode`.
-/
namespace TraceStore.LittleEndian

/-- The `width` lowest bytes of `n`, lowest first. -/
def encode : Nat → Nat → List UInt8
  | 0, _ => []
  | width + 1, n => UInt8.ofNat n :: encode width (n / 256)

/-- The number whose bytes are given, lowest first. -/
def decode : List UInt8 → Nat
  | [] => 0
  | b :: rest => b.toNat + 256 * decode rest

/-- The number stored in the `width` bytes of `bytes` from `start`, cut off at the end. -/
def decodeAt (bytes : ByteArray) (start width : Nat) : Nat :=
  decode (bytes.extract start (start + width)).data.toList

/-- The `width` lowest bytes of `n` as a piece of a file. -/
def bytes (width n : Nat) : ByteArray :=
  ⟨(encode width n).toArray⟩

@[simp] theorem length_encode (width n : Nat) : (encode width n).length = width := by
  induction width generalizing n with
  | zero => rfl
  | succ width ih => simp [encode, ih]

@[simp] theorem size_bytes (width n : Nat) : (bytes width n).size = width := by
  simp [bytes, ByteArray.size]

theorem decode_encode (width n : Nat) : decode (encode width n) = n % 256 ^ width := by
  induction width generalizing n with
  | zero => simp [encode, decode, Nat.mod_one]
  | succ width ih =>
    rw [encode, decode, ih, UInt8.toNat_ofNat', show 256 ^ (width + 1) = 256 * 256 ^ width by
      rw [Nat.pow_succ, Nat.mul_comm], Nat.mod_mul]

theorem encode_decode (list : List UInt8) : encode list.length (decode list) = list := by
  induction list with
  | nil => rfl
  | cons b rest ih =>
    have hb : b.toNat < 256 := b.toNat_lt
    simp only [List.length_cons, encode, decode]
    congr 1
    · apply UInt8.toNat_inj.1
      simp
    · rw [show (b.toNat + 256 * decode rest) / 256 = decode rest by omega, ih]

end TraceStore.LittleEndian
