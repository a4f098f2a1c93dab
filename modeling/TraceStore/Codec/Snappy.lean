import TraceStore.Bytes.Backreference
import TraceStore.Bytes.LittleEndian
import TraceStore.Codec.Basic

/-!
# The snappy codec

A raw snappy block is the length of its contents in groups of seven bits, and then elements: bytes
to take over, or a copy of bytes written before. How it is decoded and encoded is left to a decoder
and an encoder; those that stand here write a block as one element that takes all bytes over.
-/
namespace TraceStore.Snappy

/-- Largest length of contents that a block can declare, and of a block. -/
def maxLength : Nat := 2 ^ 32 - 1

/-! ### Lengths -/

/-- A number in groups of seven bits, lowest first, all but the last marked by the highest bit.
Every round leaves a smaller number, so `fuel` rounds are enough below `2 ^ (7 * fuel)`. -/
def encodeGroups : Nat → Nat → List UInt8
  | 0, _ => []
  | fuel + 1, n =>
    if n < 128 then [UInt8.ofNat n]
    else UInt8.ofNat (n % 128 + 128) :: encodeGroups fuel (n / 128)

/-- The length in front of a block, in as many groups as there is `fuel` at most. Delivers the
length and the number of groups. -/
def decodeGroups (bytes : ByteArray) : Nat → Nat → Nat → Option (Nat × Nat)
  | 0, _, _ => none
  | fuel + 1, i, n =>
    match bytes.data[i]? with
    | none => none
    | some b =>
      let n := n + b.toNat % 128 * 2 ^ (7 * i)
      if b.toNat < 128 then some (n, i + 1) else decodeGroups bytes fuel (i + 1) n

/-- Length of the contents of a block, and of the length itself, which has the five groups at most
that a number of 32 bits needs. A sixth is refused even if it adds nothing. -/
def declaredLength (block : ByteArray) : Option (Nat × Nat) :=
  if block.isEmpty then some (0, 0)
  else
    match decodeGroups block 5 0 0 with
    | some (n, i) => if n ≤ maxLength then some (n, i) else none
    | none => none

/-! ### Elements -/

/-- An element of a block. -/
inductive Element
  /-- Take over `length` bytes from `start` on. -/
  | literal (start length : Nat)
  /-- Copy `length` bytes from `distance` back. -/
  | copy (length distance : Nat)

/-- Reads `width` bytes of an element, if they are there. -/
def operand (block : ByteArray) (i width : Nat) : Option Nat :=
  if i + width ≤ block.size then some (LittleEndian.decodeAt block i width) else none

/-- The element at byte `i`, and the position of the next one. A literal whose length takes bytes
of its own is refused if fewer than four follow its tag, as it is too long to fit there. -/
def element (block : ByteArray) (i : Nat) : Option (Element × Nat) := do
  let tag := (← block.data[i]?).toNat
  let high := tag / 4
  let next := i + 1
  match tag % 4 with
  | 0 =>
    if high < 60 then return (.literal next (high + 1), next + high + 1)
    else
      let word ← operand block next 4
      let width := high - 59
      let length := word % 256 ^ width + 1
      return (.literal (next + width) length, next + width + length)
  | 1 => return (.copy (high % 8 + 4) (high / 8 * 256 + (← operand block next 1)), next + 1)
  | 2 => return (.copy (high + 1) (← operand block next 2), next + 2)
  | _ => return (.copy (high + 1) (← operand block next 4), next + 4)

/-- Decodes the elements from byte `i` on. The output may not grow beyond `length`. Every element
takes a byte at least, so `fuel` elements are enough for as many bytes. -/
def decodeElements (block : ByteArray) (length : Nat) : Nat → Nat → ByteArray → Option ByteArray
  | 0, _, out => some out
  | fuel + 1, i, out =>
    if block.size ≤ i then some out
    else
      match element block i with
      | none => none
      | some (.literal start count, next) =>
        if length < out.size + count ∨ block.size < start + count then none
        else decodeElements block length fuel next (out ++ block.extract start (start + count))
      | some (.copy count distance, next) =>
        if distance = 0 ∨ out.size < distance ∨ length < out.size + count then none
        else decodeElements block length fuel next (copyBack out distance count)

/-- The contents of a block whose length and start are known. -/
def decodeBody (block : ByteArray) (length start : Nat) : Option ByteArray :=
  match decodeElements block length (block.size + 1) start .empty with
  | some out => if out.size = length then some out else none
  | none => none

/-! ### Decoding -/

/-- A decoder of snappy blocks. -/
structure Decoder where
  /-- Length that a block declares. -/
  length? : ByteArray → Option Nat
  /-- Contents of a block. -/
  contents? : ByteArray → Option ByteArray

/-- Decodes a block. Its declared length is checked before anything is decoded. -/
def decompressWith (decoder : Decoder) (block : ByteArray) : Except Error ByteArray :=
  match decoder.length? block with
  | none => .error (.corrupt .snappyHeader)
  | some length =>
    if maxChunkSize < length then .error (.corrupt .snappyOverLimit)
    else
      match decoder.contents? block with
      | some out => .ok out
      | none => .error (.corrupt .snappyBlock)

/-- The contents of a block, which is not empty. -/
def contents? (block : ByteArray) : Option ByteArray :=
  if block.isEmpty then none
  else
    match declaredLength block with
    | some (length, start) => decodeBody block length start
    | none => none

/-- The decoder that follows the elements of a block. -/
def decoder : Decoder := ⟨fun block => (declaredLength block).map Prod.fst, contents?⟩

/-- Decodes a block. -/
def decompress (block : ByteArray) : Except Error ByteArray := decompressWith decoder block

/-! ### Encoding -/

/-- An encoder of snappy blocks: what it makes of bytes, if it takes them, and what it remembers. -/
abbrev Encoder (σ : Type) := ByteArray → σ → Option ByteArray × σ

/-- Encodes a chunk. The options are of no account. -/
def compressWith {σ : Type} (encode : Encoder σ) : Compressor σ := fun _ bytes memory =>
  match encode bytes memory with
  | (some block, memory) => (.ok block, memory)
  | (none, memory) => (.error (.corrupt .snappyEncoder), memory)

/-- The element that takes over all of `bytes`, which must not be empty. -/
def literalHeader (length : Nat) : List UInt8 :=
  if length ≤ 60 then [UInt8.ofNat ((length - 1) * 4)]
  else 63 * 4 :: LittleEndian.encode 4 (length - 1)

/-- A block with the given contents. -/
def encode (bytes : ByteArray) : ByteArray :=
  let header := encodeGroups 5 bytes.size
  if bytes.isEmpty then ⟨header.toArray⟩
  else ⟨(header ++ literalHeader bytes.size).toArray⟩ ++ bytes

/-- The encoder that takes bytes over, unless there are too many for a block. -/
def encoder : Encoder Unit := fun bytes memory =>
  (if maxLength < bytes.size then none else some (encode bytes), memory)

/-! ### The codec -/

/-- Length of the longest block for `n` bytes; zero if there is none. -/
def maxCompressedLen (n : Nat) : Nat :=
  let bound := 32 + n + n / 6
  if maxLength < n ∨ maxLength < bound then 0 else bound

/-- The codec of snappy files whose blocks an encoder writes. -/
def codecOf {σ : Type} (encode : Encoder σ) : Codec σ where
  format := .snappy
  magic := Format.snappy.magic
  compress := compressWith encode
  decompress
  maxCompressedLen

/-- The codec of snappy files. -/
def codec : Codec Unit := codecOf encoder

end TraceStore.Snappy
