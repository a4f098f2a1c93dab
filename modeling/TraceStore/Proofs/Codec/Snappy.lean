import TraceStore.Codec.Snappy
import TraceStore.Proofs.Chunk.Layout

/-!
# Snappy blocks
-/
namespace TraceStore.Snappy

variable {σ : Type} {out : ByteArray}

/-! ### Limits -/

/-- Contents are as long as a block declares. -/
theorem size_of_contents? {block out : ByteArray} (h : contents? block = some out) :
    ∃ start, declaredLength block = some (out.size, start) := by
  rw [contents?] at h
  split at h
  · cases h
  split at h
  case h_1 length start hdeclared =>
    rw [decodeBody] at h
    split at h
    · split at h
      case isTrue hsize =>
        obtain rfl := Option.some.inj h
        exact ⟨start, hsize ▸ hdeclared⟩
      case isFalse => cases h
    · cases h
  case h_2 => cases h

/-- What is relied on in a decoder of snappy blocks: the contents of a block are as long as it
declares. -/
def Decoder.Declares (decoder : Decoder) (block : ByteArray) : Prop :=
  ∀ out, decoder.contents? block = some out → decoder.length? block = some out.size

theorem decoder_declares (block : ByteArray) : decoder.Declares block := by
  intro out h
  obtain ⟨start, hdeclared⟩ := size_of_contents? h
  show (declaredLength block).map Prod.fst = _
  rw [hdeclared, Option.map_some]

section

variable {decoder : Decoder} {block : ByteArray}

/-- The codec delivers what a block holds, within the limit. -/
theorem decompressWith_eq_ok_iff (hdeclares : decoder.Declares block) :
    decompressWith decoder block = .ok out ↔
      decoder.contents? block = some out ∧ out.size ≤ maxChunkSize := by
  rw [decompressWith]
  constructor
  · intro h
    split at h
    case h_1 => cases h
    case h_2 length hlength =>
      split at h
      case isTrue => cases h
      case isFalse hlimit =>
        split at h
        case h_2 => cases h
        case h_1 made hmade =>
          obtain rfl := Except.ok.inj h
          rw [hdeclares made hmade] at hlength
          obtain rfl := Option.some.inj hlength
          exact ⟨hmade, Nat.not_lt.1 hlimit⟩
  · rintro ⟨hout, hsize⟩
    simp only [hdeclares out hout, hout]
    exact if_neg (Nat.not_lt.2 hsize)

/-- What the codec does not accept it calls corrupt. -/
theorem corrupt_of_decompressWith {e : Error} (h : decompressWith decoder block = .error e) :
    ∃ cause, e = .corrupt cause := by
  rw [decompressWith] at h
  split at h
  · exact ⟨_, (Except.error.inj h).symm⟩
  split at h
  · exact ⟨_, (Except.error.inj h).symm⟩
  split at h
  · cases h
  · exact ⟨_, (Except.error.inj h).symm⟩

end

/-- No block holds more than the largest chunk. -/
theorem bounded (encode : Encoder σ) : (codecOf encode).Bounded :=
  fun h => ((decompressWith_eq_ok_iff (decoder_declares _)).1 h).2

theorem maxCompressedLen_eq {n : Nat} (hn : n ≤ maxChunkSize) :
    maxCompressedLen n = 32 + n + n / 6 := by
  rw [maxChunkSize] at hn
  exact if_neg (by rw [maxLength]; omega)

/-- The bound for blocks grows with the chunk, as long as that is not longer than the largest. -/
theorem maxCompressedLen_mono {m n : Nat} (hmn : m ≤ n) (hn : n ≤ maxChunkSize) :
    maxCompressedLen m ≤ maxCompressedLen n := by
  rw [maxCompressedLen_eq (Nat.le_trans hmn hn), maxCompressedLen_eq hn]
  omega

/-- The bound for the largest chunk is never near the largest length field. -/
theorem roomy (encode : Encoder σ) : (codecOf encode).Roomy where
  maxCompressedLen_le hn := maxCompressedLen_mono hn (Nat.le_refl _)
  lengthLimit_lt := by
    show maxCompressedLen maxChunkSize < 2 ^ 32
    rw [maxCompressedLen_eq (Nat.le_refl _), maxChunkSize]
    omega

/-! ### Blocks that take bytes over -/

variable {block bytes : ByteArray} {before rest : List UInt8}

/-- The length in front of a block is read back. -/
theorem decodeGroups_encodeGroups (fuel : Nat) : ∀ (n acc : Nat) (before : List UInt8),
    n < 2 ^ (7 * fuel) → 0 < fuel →
    block.data.toList = before ++ (encodeGroups fuel n ++ rest) →
    decodeGroups block fuel before.length acc =
      some (acc + n * 2 ^ (7 * before.length), before.length + (encodeGroups fuel n).length) := by
  induction fuel with
  | zero => intro n acc before _ hpos; omega
  | succ fuel ih =>
      intro n acc before hn _ hblock
      by_cases hlast : n < 128
      · rw [encodeGroups, if_pos hlast] at hblock ⊢
        have hb : (UInt8.ofNat n).toNat = n := by
          rw [UInt8.toNat_ofNat', Nat.mod_eq_of_lt (by omega)]
        rw [decodeGroups, getElem?_of_append hblock]
        simp [hb, hlast, Nat.mod_eq_of_lt hlast]
      · rw [encodeGroups, if_neg hlast] at hblock ⊢
        have hb : (UInt8.ofNat (n % 128 + 128)).toNat = n % 128 + 128 := by
          rw [UInt8.toNat_ofNat', Nat.mod_eq_of_lt (by omega)]
        have hfuel : 0 < fuel := by
          rcases Nat.eq_zero_or_pos fuel with rfl | hpos
          · simp at hn
            omega
          · exact hpos
        have hrest : n / 128 < 2 ^ (7 * fuel) := by
          rw [show 7 * (fuel + 1) = 7 * fuel + 7 by omega, Nat.pow_add] at hn
          omega
        have hnext := ih (n / 128) (acc + n % 128 * 2 ^ (7 * before.length))
          (before ++ [UInt8.ofNat (n % 128 + 128)]) hrest hfuel (by simpa using hblock)
        rw [List.length_append, List.length_singleton] at hnext
        have hvalue : n % 128 * 2 ^ (7 * before.length) + n / 128 * 2 ^ (7 * (before.length + 1)) =
            n * 2 ^ (7 * before.length) := by
          rw [Nat.mul_succ, Nat.pow_add, Nat.mul_comm (2 ^ _) (2 ^ 7), ← Nat.mul_assoc,
            ← Nat.add_mul]
          congr 1
          omega
        rw [decodeGroups, getElem?_of_append hblock]
        simp only [hb, Nat.add_mod_right, Nat.mod_mod]
        rw [if_neg (by omega), hnext, Nat.add_assoc, hvalue, List.length_cons]
        congr 2
        omega

/-- The number in some bytes of a block. -/
private theorem operand_of_append {width n : Nat} (hn : n < 256 ^ width)
    (h : block.data.toList = before ++ (LittleEndian.encode width n ++ rest)) :
    operand block before.length width = some n := by
  have hsize := congrArg List.length h
  simp only [length_toList, List.length_append, LittleEndian.length_encode] at hsize
  rw [operand, if_pos (by omega), LittleEndian.decodeAt, toList_extract, h, List.drop_left,
    List.take_left' (LittleEndian.length_encode ..), LittleEndian.decode_encode_of_lt hn]

/-- The element that takes bytes over. -/
private theorem element_of_literal {n : Nat} (hpos : 0 < n) (hn : n ≤ 2 ^ 32)
    (h : block.data.toList = before ++ (literalHeader n ++ rest)) :
    element block before.length = some (.literal (before.length + (literalHeader n).length) n,
      before.length + (literalHeader n).length + n) := by
  rw [literalHeader] at h ⊢
  split
  case isTrue hshort =>
    rw [if_pos hshort] at h
    have hb : (UInt8.ofNat ((n - 1) * 4)).toNat = (n - 1) * 4 := by
      rw [UInt8.toNat_ofNat', Nat.mod_eq_of_lt (by omega)]
    have htag : (n - 1) * 4 % 4 = 0 := by omega
    have hhigh : (n - 1) * 4 / 4 = n - 1 := by omega
    simp only [element, getElem?_of_append h, hb, Option.bind_eq_bind, Option.bind_some, htag, hhigh]
    rw [if_pos (by omega), Nat.add_assoc _ (n - 1), Nat.sub_add_cancel hpos]
    rfl
  case isFalse hlong =>
    rw [if_neg hlong] at h
    have hword : operand block (before ++ [252]).length 4 = some (n - 1) :=
      operand_of_append (by omega) (by simpa using h)
    have hb : (63 * 4 : UInt8).toNat = 252 := rfl
    have hmod : (n - 1) % 256 ^ 4 = n - 1 := Nat.mod_eq_of_lt (by omega)
    rw [List.length_append, List.length_singleton] at hword
    simp only [element, getElem?_of_append h, hb, Option.bind_eq_bind, Option.bind_some, hword]
    rw [if_neg (by decide)]
    show some (Element.literal (before.length + 1 + 4) ((n - 1) % 256 ^ 4 + 1),
      before.length + 1 + 4 + ((n - 1) % 256 ^ 4 + 1)) = _
    rw [hmod, Nat.sub_add_cancel hpos, List.length_cons, LittleEndian.length_encode]

private theorem decodeElements_end {length i : Nat} (fuel : Nat) (out : ByteArray)
    (h : block.size ≤ i) : decodeElements block length fuel i out = some out := by
  cases fuel with
  | zero => rfl
  | succ fuel => rw [decodeElements, if_pos h]

theorem toList_encode (hpos : 0 < bytes.size) : (encode bytes).data.toList =
    encodeGroups 5 bytes.size ++ (literalHeader bytes.size ++ bytes.data.toList) := by
  rw [encode, if_neg (mt isEmpty_iff.1 (by omega))]
  simp

/-- A block that takes bytes over decodes to these. -/
theorem decompress_encode (hpos : 0 < bytes.size) (hsize : bytes.size ≤ maxChunkSize) :
    decompress (encode bytes) = .ok bytes := by
  have hblock := toList_encode hpos
  generalize encode bytes = block at hblock
  rw [maxChunkSize] at hsize
  have hsizes := congrArg List.length hblock
  simp only [length_toList, List.length_append] at hsizes
  have hnonempty : ¬ block.isEmpty := mt isEmpty_iff.1 (by omega)
  have hgroups := decodeGroups_encodeGroups 5 bytes.size 0 [] (by omega) (by omega) hblock
  have hlength : declaredLength block = some (bytes.size, (encodeGroups 5 bytes.size).length) := by
    rw [declaredLength, if_neg hnonempty]
    simp only [List.length_nil, Nat.mul_zero, Nat.pow_zero, Nat.mul_one, Nat.zero_add] at hgroups
    rw [hgroups]
    exact if_pos (by rw [maxLength]; omega)
  have helement := element_of_literal hpos (by omega) hblock
  have hbody : decodeBody block bytes.size (encodeGroups 5 bytes.size).length = some bytes := by
    have helements : decodeElements block bytes.size (block.size + 1)
        (encodeGroups 5 bytes.size).length .empty = some bytes := by
      have hpiece : block.extract ((encodeGroups 5 bytes.size).length +
          (literalHeader bytes.size).length) ((encodeGroups 5 bytes.size).length +
          (literalHeader bytes.size).length + bytes.size) = bytes := by
        apply eq_of_toList_eq
        rw [toList_extract, hblock, ← List.drop_drop, List.drop_left, List.drop_left,
          List.take_of_length_le (Nat.le_of_eq (length_toList bytes))]
      rw [decodeElements, if_neg (by omega), helement]
      simp only [hpiece, ByteArray.empty_append]
      rw [if_neg (by simp; omega), decodeElements_end _ _ (by omega)]
    rw [decodeBody, helements]
    exact if_pos rfl
  have hcontents : contents? block = some bytes := by
    rw [contents?, if_neg hnonempty, hlength]
    exact hbody
  simp only [decompress, decompressWith, decoder, hlength, Option.map_some, hcontents]
  exact if_neg (by rw [maxChunkSize]; omega)

private theorem length_encodeGroups_le (fuel n : Nat) : (encodeGroups fuel n).length ≤ fuel := by
  induction fuel generalizing n with
  | zero => simp [encodeGroups]
  | succ fuel ih =>
      rw [encodeGroups]
      split
      · simp
      · simpa using ih (n / 128)

private theorem length_literalHeader_le (n : Nat) : (literalHeader n).length ≤ 5 := by
  rw [literalHeader]
  split <;> simp

/-- The encoder takes over the bytes of any chunk. -/
theorem compress_eq {o : WriteOptions} {memory : Unit} (hsize : bytes.size ≤ maxChunkSize) :
    codec.compress o bytes memory = (.ok (encode bytes), memory) := by
  rw [maxChunkSize] at hsize
  have hfits : ¬ maxLength < bytes.size := by
    rw [maxLength]
    omega
  simp only [codec, codecOf, compressWith, encoder, if_neg hfits]

/-- The encoder that takes bytes over loses nothing. -/
theorem lossless : codec.Lossless := by
  intro o data memory _ hpos hsize
  refine ⟨encode data, memory, compress_eq hsize, decompress_encode hpos hsize, ?_⟩
  show (encode data).size ≤ maxCompressedLen data.size
  have hgroups := length_encodeGroups_le 5 data.size
  have hliteral := length_literalHeader_le data.size
  rw [maxCompressedLen_eq hsize, ← length_toList, toList_encode hpos]
  simp only [List.length_append, length_toList]
  omega

end TraceStore.Snappy
