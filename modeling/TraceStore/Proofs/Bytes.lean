import TraceStore.Bytes.Bits
import TraceStore.Bytes.LittleEndian

/-!
# Pieces of files as lists

The statements about files speak of lists of bytes, and a piece of a file is read as the list of its
bytes. Number fields of a fixed width are determined by that list as well.
-/
namespace TraceStore

theorem eq_of_toList_eq {a b : ByteArray} (h : a.data.toList = b.data.toList) : a = b :=
  ByteArray.ext (Array.toList_inj.1 h)

theorem length_toList (b : ByteArray) : b.data.toList.length = b.size := rfl

theorem toList_eq_nil_iff {b : ByteArray} : b.data.toList = [] ↔ b.size = 0 := by
  rw [← List.length_eq_zero_iff, length_toList]

theorem isEmpty_iff {b : ByteArray} : b.isEmpty = true ↔ b.size = 0 := by
  simp [ByteArray.isEmpty]

theorem toList_extract (b : ByteArray) (start count : Nat) :
    (b.extract start (start + count)).data.toList = (b.data.toList.drop start).take count := by
  simp

/-- Dropping a piece that other bytes follow, and more. -/
theorem drop_toList_append {piece : ByteArray} {count : Nat} (h : piece.size ≤ count)
    (rest : List UInt8) :
    (piece.data.toList ++ rest).drop count = rest.drop (count - piece.size) := by
  rw [List.drop_append, length_toList, List.drop_of_length_le h, List.nil_append]

/-- Behind a piece that is found at a place comes what follows the piece. -/
theorem drop_behind {b : ByteArray} {start : Nat} {piece rest : List UInt8}
    (h : b.data.toList.drop start = piece ++ rest) :
    b.data.toList.drop (start + piece.length) = rest := by
  rw [← List.drop_drop, h, List.drop_left]

/-- A piece that is found at a place and is not empty ends within the bytes. -/
theorem add_length_le_size {b : ByteArray} {start : Nat} {piece rest : List UInt8}
    (h : b.data.toList.drop start = piece ++ rest) (hpos : 0 < piece.length) :
    start + piece.length ≤ b.size := by
  have hlen := congrArg List.length h
  rw [List.length_drop, length_toList, List.length_append] at hlen
  omega

/-- A piece of a file, and what follows it, are what follows the place before. -/
theorem toList_drop_eq (b : ByteArray) (start count : Nat) :
    b.data.toList.drop start = (b.extract start (start + count)).data.toList ++
      b.data.toList.drop (start + (b.extract start (start + count)).size) := by
  have hbehind : b.data.toList.drop (start + (b.extract start (start + count)).size) =
      (b.data.toList.drop start).drop count := by
    rw [List.drop_drop, ByteArray.size_extract]
    by_cases h : start + count ≤ b.size
    · congr 1
      omega
    · rw [List.drop_of_length_le, List.drop_of_length_le]
      all_goals
        rw [length_toList]
        omega
  rw [toList_extract, hbehind, List.take_append_drop]

namespace LittleEndian

@[simp] theorem toList_bytes (width n : Nat) : (bytes width n).data.toList = encode width n := rfl

theorem decode_lt (list : List UInt8) : decode list < 256 ^ list.length := by
  induction list with
  | nil => simp [decode]
  | cons b rest ih =>
      have hb : b.toNat < 256 := b.toNat_lt
      rw [decode, List.length_cons, Nat.pow_succ]
      omega

theorem decode_encode_of_lt {width n : Nat} (h : n < 256 ^ width) :
    decode (encode width n) = n := by
  rw [decode_encode, Nat.mod_eq_of_lt h]

theorem encode_mod (width n : Nat) : encode width (n % 256 ^ width) = encode width n := by
  have h := encode_decode (encode width n)
  rwa [length_encode, decode_encode] at h

theorem decodeAt_of_drop {bytes : ByteArray} {start width n : Nat} {rest : List UInt8}
    (h : bytes.data.toList.drop start = encode width n ++ rest) :
    decodeAt bytes start width = n % 256 ^ width := by
  rw [decodeAt, toList_extract, h, List.take_left' (length_encode width n), decode_encode]

end LittleEndian

/-! ### Numbers at places -/

variable {bytes : ByteArray} {before rest : List UInt8}

theorem getElem?_of_append {b : UInt8} (h : bytes.data.toList = before ++ b :: rest) :
    bytes.data[before.length]? = some b := by
  rw [← Array.getElem?_toList, h]
  simp

theorem byteAt_of_append {b : UInt8} (h : bytes.data.toList = before ++ b :: rest) :
    byteAt bytes before.length = b.toNat := by
  have hget := getElem?_of_append h
  obtain ⟨hlt, hget⟩ := Array.getElem?_eq_some_iff.1 hget
  rw [byteAt, dif_pos (show before.length < bytes.size from hlt), ← hget]
  rfl

theorem wordAt_of_append {width n : Nat} (hn : n < 256 ^ width)
    (h : bytes.data.toList = before ++ (LittleEndian.encode width n ++ rest)) :
    wordAt bytes before.length width = n := by
  induction width generalizing n before with
  | zero =>
      rw [wordAt]
      omega
  | succ width ih =>
      rw [LittleEndian.encode, List.cons_append] at h
      have hrest : wordAt bytes (before ++ [UInt8.ofNat n]).length width = n / 256 :=
        ih (by rw [Nat.pow_succ] at hn; omega) (by simpa using h)
      rw [List.length_append, List.length_singleton] at hrest
      rw [wordAt, byteAt_of_append h, hrest, UInt8.toNat_ofNat']
      omega

end TraceStore
