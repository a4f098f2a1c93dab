import TraceStore.Proofs.Deflate.Inflate

/-!
# Stored blocks

A stream of stored blocks holds what its blocks hold: `Inflate.holds_blocks`.
-/
namespace TraceStore.Deflate

/-- What a stored block starts with: its kind, its length, and the complement of that. -/
def blockHead (last : Bool) (length : Nat) : List UInt8 :=
  LittleEndian.encode 1 (if last then 1 else 0) ++
    (LittleEndian.encode 2 length ++ LittleEndian.encode 2 (65535 - length))

@[simp] theorem length_blockHead (last : Bool) (length : Nat) :
    (blockHead last length).length = 5 := by
  simp [blockHead]

/-- A stored block. -/
def storedBlock (last : Bool) (bytes : List UInt8) : List UInt8 :=
  blockHead last bytes.length ++ bytes

namespace Inflate

variable {whole final : ByteArray} {place stop : Nat}

private theorem bitsAt_kind {bytes : ByteArray} {last : Bool}
    (h : byteAt bytes place = if last then 1 else 0) :
    bitsAt bytes (8 * place) 1 = (if last then 1 else 0) ∧ bitsAt bytes (8 * place + 1) 2 = 0 := by
  have hzero : 8 * place / 8 = place ∧ 8 * place % 8 = 0 := by omega
  have hone : (8 * place + 1) / 8 = place ∧ (8 * place + 1) % 8 = 1 := by omega
  simp only [bitsAt, hzero, hone, wordAt, h]
  cases last <;> decide

private theorem number_of_le {bytes : ByteArray} {bit count : Nat}
    (h : bit + count ≤ bytes.size * 8) :
    number bytes bit count = .ok (bitsAt bytes bit count, bit + count) :=
  if_neg (by omega)

/-- The kind of a block is read off its first byte. -/
private theorem numbers_kind {bytes : ByteArray} {last : Bool} {rest : List UInt8}
    (h : bytes.data.toList.drop place = LittleEndian.encode 1 (if last then 1 else 0) ++ rest) :
    number bytes (8 * place) 1 = .ok (if last then 1 else 0, 8 * place + 1) ∧
      number bytes (8 * place + 1) 2 = .ok (0, 8 * place + 1 + 2) := by
  have hlt : place < bytes.size := by
    have hlen := congrArg List.length h
    simp only [List.length_drop, length_toList, List.length_append,
      LittleEndian.length_encode] at hlen
    omega
  have hsplit := List.take_append_drop place bytes.data.toList
  rw [h] at hsplit
  have htake : (bytes.data.toList.take place).length = place := by
    rw [List.length_take, length_toList]
    omega
  have hbyte := byteAt_of_append hsplit.symm
  rw [htake] at hbyte
  obtain ⟨hlast, hkind⟩ : bitsAt bytes (8 * place) 1 = (if last then 1 else 0) ∧
      bitsAt bytes (8 * place + 1) 2 = 0 :=
    bitsAt_kind (by rw [hbyte]; cases last <;> rfl)
  rw [number_of_le (by omega), number_of_le (by omega), hlast, hkind]
  exact ⟨rfl, rfl⟩

/-- The header of a stored block. -/
private theorem header_of_drop {next : Bool} {bytes rest : List UInt8}
    (hsize : bytes.length ≤ 65535)
    (h : whole.data.toList.drop place = blockHead next bytes.length ++ rest) :
    header whole (8 * place) = .ok ((if bytes.length = 0 then afterBlock next
      else .stored bytes.length, next), 8 * (place + 5)) := by
  have hfits : place + 5 ≤ whole.size := by
    have hlen := congrArg List.length h
    rw [List.length_append, length_blockHead, List.length_drop, length_toList] at hlen
    omega
  simp only [blockHead, List.append_assoc] at h
  obtain ⟨hlast, hkind⟩ := numbers_kind h
  have hlength : LittleEndian.decodeAt whole (place + 1) 2 = bytes.length := by
    rw [LittleEndian.decodeAt_of_drop (by rw [← List.drop_drop, h]; rfl)]
    exact Nat.mod_eq_of_lt (by omega)
  have hcomplement : LittleEndian.decodeAt whole (place + 1 + 2) 2 = 65535 - bytes.length := by
    rw [LittleEndian.decodeAt_of_drop (by rw [Nat.add_assoc, ← List.drop_drop, h]; rfl)]
    exact Nat.mod_eq_of_lt (by omega)
  have hstart : (8 * place + 1 + 2 + 7) / 8 = place + 1 := by omega
  have hlengths : storedLengths whole (8 * place + 1 + 2) =
      .ok ((bytes.length, 65535 - bytes.length), 8 * (place + 5)) := by
    simp only [storedLengths, hstart, hlength, hcomplement]
    exact if_neg (by omega)
  have hflag : ((if next then 1 else 0 : Nat) == 1) = next := by cases next <;> rfl
  rw [header, hlast]
  simp only [bind, Except.bind, pure, Except.pure, hkind, hlengths, hflag]
  rw [if_neg (by omega)]

/-- Decoding completes in front of a stored block if it does behind it. -/
private theorem completes_block {next last : Bool} {bytes rest : List UInt8} {out : ByteArray}
    (hsize : bytes.length ≤ 65535)
    (h : whole.data.toList.drop place = storedBlock next bytes ++ rest)
    (hrest : Completes final stop whole ⟨afterBlock next, next, out ++ ⟨bytes.toArray⟩⟩
      (8 * (place + (storedBlock next bytes).length))) :
    Completes final stop whole ⟨.header, last, out⟩ (8 * place) := by
  rw [storedBlock, List.append_assoc] at h
  rw [storedBlock, List.length_append, length_blockHead, ← Nat.add_assoc] at hrest
  have hheader := header_of_drop hsize h
  have hnext : Inflate.next ⟨.header, last, out⟩ whole (8 * place) =
      .ok (⟨if bytes.length = 0 then afterBlock next else .stored bytes.length, next, out⟩,
        8 * (place + 5)) := by
    rw [Inflate.next]
    simp only [hheader]
    rfl
  refine .step hnext ?_
  by_cases hnone : bytes.length = 0
  · obtain rfl := List.length_eq_zero_iff.1 hnone
    rwa [show (⟨[].toArray⟩ : ByteArray) = .empty from rfl, ByteArray.append_empty] at hrest
  · have hbody : whole.data.toList.drop (place + 5) = bytes ++ rest := by
      rw [← List.drop_drop, h, List.drop_left' (length_blockHead ..)]
    have hfits : place + 5 + bytes.length ≤ whole.size := by
      have hlen := congrArg List.length hbody
      rw [List.length_append, List.length_drop, length_toList] at hlen
      omega
    have hplace : 8 * (place + 5) / 8 = place + 5 := by omega
    have hextract : whole.extract (place + 5) (place + 5 + bytes.length) = ⟨bytes.toArray⟩ := by
      apply eq_of_toList_eq
      rw [toList_extract, hbody, List.take_left]
    rw [if_neg hnone, completes_stored_iff bytes.length (Nat.pos_of_ne_zero hnone) (Nat.le_refl _)
      (by omega) (by omega), if_pos rfl, hplace, hextract, ← Nat.mul_add]
    exact hrest

/-- Decoding completes in front of some stored blocks that are the end of a stream. -/
private theorem completes_blocks {blocks : List (List UInt8)} {block : List UInt8}
    (hblocks : ∀ block ∈ blocks, block.length ≤ 65535) (hblock : block.length ≤ 65535) :
    ∀ {place : Nat} {last : Bool} {out : ByteArray},
    whole.data.toList.drop place = blocks.flatMap (storedBlock false) ++ storedBlock true block →
    Completes (out ++ ⟨(blocks.flatten ++ block).toArray⟩)
      (8 * (place + (blocks.flatMap (storedBlock false) ++ storedBlock true block).length)) whole
      ⟨.header, last, out⟩ (8 * place) := by
  induction blocks with
  | nil =>
      intro place last out h
      have hlast : whole.data.toList.drop place = storedBlock true block ++ [] := by simpa using h
      refine completes_block hblock hlast ?_
      simpa using .finished
  | cons first blocks ih =>
      intro place last out h
      obtain ⟨hfirst, hrest⟩ := List.forall_mem_cons.1 hblocks
      rw [List.flatMap_cons, List.append_assoc] at h
      refine completes_block hfirst h ?_
      have hdone : Completes (out ++ ⟨first.toArray⟩ ++ ⟨(blocks.flatten ++ block).toArray⟩) _ whole
          ⟨afterBlock false, false, out ++ ⟨first.toArray⟩⟩ _ := ih hrest (drop_behind h)
      rw [show out ++ ⟨first.toArray⟩ ++ ⟨(blocks.flatten ++ block).toArray⟩ =
        out ++ ⟨((first :: blocks).flatten ++ block).toArray⟩ from eq_of_toList_eq (by simp),
        Nat.add_assoc, ← List.length_append, ← List.append_assoc, ← List.flatMap_cons] at hdone
      exact hdone

/-- A stream of stored blocks holds what they hold. -/
theorem holds_blocks {blocks : List (List UInt8)}
    (hblocks : ∀ block ∈ blocks, block.length ≤ 65535) {block : List UInt8}
    (hblock : block.length ≤ 65535) :
    Holds (blocks.flatten ++ block)
      (blocks.flatMap (storedBlock false) ++ storedBlock true block) := by
  let whole : ByteArray := ⟨(blocks.flatMap (storedBlock false) ++ storedBlock true block).toArray⟩
  have hwhole : whole.data.toList.drop 0 =
      blocks.flatMap (storedBlock false) ++ storedBlock true block := rfl
  have hdone : Completes (.empty ++ _) _ whole ⟨.header, false, .empty⟩ (8 * 0) :=
    completes_blocks hblocks hblock hwhole
  rw [ByteArray.empty_append, Nat.zero_add] at hdone
  exact ⟨_, hdone, by omega⟩

end Inflate
end TraceStore.Deflate
