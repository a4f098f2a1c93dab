/-!
# The 64-bit xxHash

The check of zstd frames, with a seed of zero: stripes of four words are mixed into four lanes,
which are merged, and the bytes left over are mixed in one by one.
-/
namespace TraceStore.XxHash64

/-- First prime of the hash. -/
def prime1 : UInt64 := 0x9e3779b185ebca87
/-- Second prime of the hash. -/
def prime2 : UInt64 := 0xc2b2ae3d27d4eb4f
/-- Third prime of the hash. -/
def prime3 : UInt64 := 0x165667b19e3779f9
/-- Fourth prime of the hash. -/
def prime4 : UInt64 := 0x85ebca77c2b2ae63
/-- Fifth prime of the hash. -/
def prime5 : UInt64 := 0x27d4eb2f165667c5

/-- A word turned left by `n` bits, for `n` from 1 to 63. -/
@[inline] def rotate (x : UInt64) (n : UInt64) : UInt64 := (x <<< n) ||| (x >>> (64 - n))

/-- Byte `i` as a word; zero behind the end. -/
@[inline] def byteWord (bytes : ByteArray) (i : Nat) : UInt64 :=
  if h : i < bytes.size then bytes[i].toUInt64 else 0

/-- The four bytes from `i` on as a word, lowest first. -/
def half (bytes : ByteArray) (i : Nat) : UInt64 :=
  byteWord bytes i ||| (byteWord bytes (i + 1) <<< 8) ||| (byteWord bytes (i + 2) <<< 16)
    ||| (byteWord bytes (i + 3) <<< 24)

/-- The eight bytes from `i` on as a word, lowest first. -/
def word (bytes : ByteArray) (i : Nat) : UInt64 :=
  half bytes i ||| (half bytes (i + 4) <<< 32)

/-- Mixes a word into a lane. -/
def mix (lane word : UInt64) : UInt64 := rotate (lane + word * prime2) 31 * prime1

/-- Merges a lane into the hash. -/
def merge (hash lane : UInt64) : UInt64 := (hash ^^^ mix 0 lane) * prime1 + prime4

/-- Mixes `count` stripes from byte `i` on into the lanes, and merges them. -/
def stripes (bytes : ByteArray) : Nat → Nat → UInt64 → UInt64 → UInt64 → UInt64 → UInt64
  | 0, _, a, b, c, d =>
    let hash := rotate a 1 + rotate b 7 + rotate c 12 + rotate d 18
    merge (merge (merge (merge hash a) b) c) d
  | count + 1, i, a, b, c, d =>
    stripes bytes count (i + 32) (mix a (word bytes i)) (mix b (word bytes (i + 8)))
      (mix c (word bytes (i + 16))) (mix d (word bytes (i + 24)))

/-- Mixes `count` words from byte `i` on into the hash. -/
def words (bytes : ByteArray) : Nat → Nat → UInt64 → UInt64
  | 0, _, hash => hash
  | count + 1, i, hash =>
    words bytes count (i + 8) (rotate (hash ^^^ mix 0 (word bytes i)) 27 * prime1 + prime4)

/-- Mixes `count` single bytes from byte `i` on into the hash. -/
def singles (bytes : ByteArray) : Nat → Nat → UInt64 → UInt64
  | 0, _, hash => hash
  | count + 1, i, hash =>
    singles bytes count (i + 1) (rotate (hash ^^^ byteWord bytes i * prime5) 11 * prime1)

/-- Spreads the hash over all its bits. -/
def avalanche (hash : UInt64) : UInt64 :=
  let hash := (hash ^^^ (hash >>> 33)) * prime2
  let hash := (hash ^^^ (hash >>> 29)) * prime3
  hash ^^^ (hash >>> 32)

/-- Hash of the bytes from `start` on. -/
def hashFrom (bytes : ByteArray) (start : Nat) : UInt64 :=
  let length := bytes.size - start
  let striped := length / 32
  let hash := if striped = 0 then prime5
    else stripes bytes striped start (prime1 + prime2) prime2 0 (0 - prime1)
  let hash := hash + UInt64.ofNat length
  let i := start + 32 * striped
  let rest := length % 32
  let hash := words bytes (rest / 8) i hash
  let i := i + rest / 8 * 8
  let rest := rest % 8
  let hash := if 4 ≤ rest then
      rotate (hash ^^^ half bytes i * prime1) 23 * prime2 + prime3 else hash
  let i := i + rest / 4 * 4
  avalanche (singles bytes (rest % 4) i hash)

end TraceStore.XxHash64
