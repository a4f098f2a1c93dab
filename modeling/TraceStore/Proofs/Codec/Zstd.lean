import TraceStore.Codec.Zstd
import TraceStore.Proofs.Chunk.Layout
import TraceStore.Proofs.Codec.Reading

/-!
# Zstd blocks

Frames of raw blocks, with skippable frames between them, are handed out by a reader to requests of
any size: `delivers_of_frames`. So the codec gets back what its encoder writes.
-/
namespace TraceStore.Zstd

variable {σ : Type} {bytes : ByteArray}

/-! ### Limits -/

section

variable {δ : Type} {decoder : Decoder δ} {room : Room} {block out : ByteArray}

/-- What the codec delivers is within the limit, and was read to its end. -/
theorem of_decompressWith (h : decompressWith decoder room block = .ok out) :
    out.size ≤ maxChunkSize ∧ ∃ x, decoder.start block = .ok x ∧
      Take.readToEnd decoder.read room ⟨x, maxChunkSize + 1⟩ = .ok out := by
  rw [decompressWith] at h
  split at h
  case h_1 => cases h
  case h_2 x hstart =>
    split at h
    case h_1 => cases h
    case h_2 made hread =>
      split at h
      case isTrue => cases h
      case isFalse hlimit =>
        obtain rfl := Except.ok.inj h
        exact ⟨Nat.not_lt.1 hlimit, x, hstart, hread⟩

/-- What the codec does not accept it calls corrupt. -/
theorem corrupt_of_decompressWith {e : Error} (h : decompressWith decoder room block = .error e) :
    ∃ cause, e = .corrupt cause := by
  rw [decompressWith] at h
  split at h
  · exact ⟨_, (Except.error.inj h).symm⟩
  split at h
  · exact ⟨_, (Except.error.inj h).symm⟩
  split at h
  · exact ⟨_, (Except.error.inj h).symm⟩
  · cases h

end

/-- No block holds more than the largest chunk. -/
theorem bounded (encode : Encoder σ) : (codecOf encode).Bounded := by
  intro block data h
  have hmade : decompressWith decoder .doubling block = .ok data := h
  exact (of_decompressWith hmade).1

theorem lengthLimit_eq (encode : Encoder σ) : (codecOf encode).lengthLimit = 67371008 := rfl

/-- The bound for blocks grows with the chunk, although the share for short ones shrinks: that loses
one byte in 2048, and the chunk brings each of them. -/
theorem maxCompressedLen_mono {m n : Nat} (hmn : m ≤ n) :
    maxCompressedLen m ≤ maxCompressedLen n := by
  simp only [maxCompressedLen]
  split <;> split <;> omega

/-- The bound for the largest chunk is never near the largest length field. -/
theorem roomy (encode : Encoder σ) : (codecOf encode).Roomy where
  maxCompressedLen_le hn := maxCompressedLen_mono hn
  lengthLimit_lt := by
    rw [lengthLimit_eq]
    omega

/-! ### Raw blocks -/

variable {start : Nat}

/-- The bytes that a raw block takes over. -/
private def piece (bytes : ByteArray) (start : Nat) : ByteArray :=
  bytes.extract start (min (start + maxBlockSize) bytes.size)

/-- A raw block: its header, and the bytes that it takes over. -/
private def rawBlock (bytes : ByteArray) (start : Nat) : List UInt8 :=
  LittleEndian.encode 3 (8 * (piece bytes start).size +
    if start + (piece bytes start).size = bytes.size then 1 else 0) ++ (piece bytes start).data.toList

private theorem size_piece (hstart : start ≤ bytes.size) :
    (piece bytes start).size = min maxBlockSize (bytes.size - start) := by
  rw [piece, ByteArray.size_extract]
  omega

private theorem stop_eq (hstart : start ≤ bytes.size) :
    min (start + maxBlockSize) bytes.size = start + (piece bytes start).size := by
  rw [size_piece hstart]
  omega

private theorem extract_eq_piece (hstart : start ≤ bytes.size) :
    bytes.extract start (start + (piece bytes start).size) = piece bytes start := by
  rw [← stop_eq hstart]
  rfl

/-- The bytes up to the end of a piece. -/
private theorem take_piece (hstart : start ≤ bytes.size) :
    bytes.data.toList.take (start + (piece bytes start).size) =
      bytes.data.toList.take start ++ (piece bytes start).data.toList := by
  rw [List.take_add, ← toList_extract, extract_eq_piece hstart]

/-- The bytes from the start of a piece on. -/
private theorem drop_piece (hstart : start ≤ bytes.size) :
    bytes.data.toList.drop start = (piece bytes start).data.toList ++
      bytes.data.toList.drop (start + (piece bytes start).size) := by
  have h := toList_drop_eq bytes start (piece bytes start).size
  rwa [extract_eq_piece hstart] at h

private theorem length_rawBlock (bytes : ByteArray) (start : Nat) :
    (rawBlock bytes start).length = 3 + (piece bytes start).size := by
  rw [rawBlock, List.length_append, LittleEndian.length_encode, length_toList]

/-- A block is written behind what there is. -/
private theorem rawBlocksWithin_succ (out : ByteArray) (hstart : start ≤ bytes.size) (fuel : Nat) :
    ∃ out', out'.data.toList = out.data.toList ++ rawBlock bytes start ∧
      rawBlocksWithin bytes (fuel + 1) start out =
        if start + (piece bytes start).size = bytes.size then out'
        else rawBlocksWithin bytes fuel (start + (piece bytes start).size) out' := by
  refine ⟨_, ?_, by simp only [rawBlocksWithin, stop_eq hstart, extract_eq_piece hstart]; rfl⟩
  simp [rawBlock]

/-- The raw blocks of the bytes from `start` on. -/
private inductive RawBlocks (bytes : ByteArray) : Nat → List UInt8 → Prop
  | last {start : Nat} (stop : start + (piece bytes start).size = bytes.size) :
      RawBlocks bytes start (rawBlock bytes start)
  | more {start : Nat} {s : List UInt8} (inside : start + (piece bytes start).size < bytes.size)
      (rest : RawBlocks bytes (start + (piece bytes start).size) s) :
      RawBlocks bytes start (rawBlock bytes start ++ s)

/-- Blocks are written behind what there is, three bytes longer each than what they take over. -/
private theorem rawBlocksWithin_append (fuel : Nat) : ∀ (start : Nat) (out : ByteArray),
    start ≤ bytes.size → bytes.size - start ≤ fuel * maxBlockSize → 0 < fuel →
      ∃ s, (rawBlocksWithin bytes fuel start out).data.toList = out.data.toList ++ s ∧
        RawBlocks bytes start s ∧ s.length ≤ bytes.size - start + 3 * fuel := by
  induction fuel with
  | zero =>
      intro start out _ _ hpos
      exact absurd hpos (Nat.lt_irrefl 0)
  | succ fuel ih =>
      intro start out hstart hfuel _
      obtain ⟨out', hout', hrun⟩ := rawBlocksWithin_succ out hstart fuel
      have hlen := length_rawBlock bytes start
      have hpiece := size_piece hstart
      rw [hrun]
      by_cases hstop : start + (piece bytes start).size = bytes.size
      · rw [if_pos hstop]
        exact ⟨_, hout', .last hstop, by omega⟩
      · rw [if_neg hstop]
        rw [Nat.succ_mul] at hfuel
        have hmore : 0 < fuel := by
          refine Nat.pos_of_ne_zero ?_
          rintro rfl
          omega
        obtain ⟨s, hs, hblocks, hle⟩ :=
          ih (start + (piece bytes start).size) out' (by omega) (by omega) hmore
        refine ⟨rawBlock bytes start ++ s, by rw [hs, hout', List.append_assoc],
          .more (by omega) hblocks, ?_⟩
        rw [List.length_append]
        omega

/-- A raw block is decoded to the bytes that it takes over. -/
private theorem nextBlock_rawBlock {block : ByteArray} {before rest : List UInt8}
    {frameStart limit longest : Nat} {s : FrameState} (hstart : start ≤ bytes.size)
    (hblock : block.data.toList = before ++ (rawBlock bytes start ++ rest))
    (hi : s.i = before.length) (hlongest : (piece bytes start).size ≤ longest) :
    ∃ empty s', nextBlock block frameStart limit longest s =
        some (decide (start + (piece bytes start).size = bytes.size), empty, s') ∧
      s'.i = s.i + (rawBlock bytes start).length ∧ s'.out = s.out ++ piece bytes start := by
  have hsize : (piece bytes start).size ≤ maxBlockSize := by
    rw [size_piece hstart]
    exact Nat.min_le_left ..
  rw [maxBlockSize] at hsize
  rw [length_rawBlock]
  rw [rawBlock] at hblock
  generalize hlast : (if start + (piece bytes start).size = bytes.size then 1 else 0) = last
    at hblock
  have hlast' : last < 2 ∧ (last % 2 == 1) =
      decide (start + (piece bytes start).size = bytes.size) := by
    rw [← hlast]
    split <;> simp [*]
  have hheader : wordAt block before.length 3 = 8 * (piece bytes start).size + last :=
    wordAt_of_append (by omega) (by rw [hblock, List.append_assoc])
  have htake : block.extract (s.i + 3) (s.i + 3 + (piece bytes start).size) = piece bytes start := by
    apply eq_of_toList_eq
    rw [toList_extract, hblock, hi, List.append_assoc, ← List.append_assoc before,
      List.drop_left' (by simp), List.take_left' (length_toList _)]
  have hlen := congrArg List.length hblock
  simp only [length_toList, List.length_append, LittleEndian.length_encode] at hlen
  rw [← hi] at hheader hlen
  refine ⟨(piece bytes start).size == 0, { s with
    i := s.i + 3 + (piece bytes start).size, out := s.out ++ piece bytes start }, ?_, ?_, rfl⟩
  · have hodd : (8 * (piece bytes start).size + last) % 2 = last % 2 := by omega
    have hkind : (8 * (piece bytes start).size + last) / 2 % 4 = 0 := by omega
    have hbytes : (8 * (piece bytes start).size + last) / 8 = (piece bytes start).size := by omega
    simp only [nextBlock, hheader, hodd, hkind, hbytes, hlast'.2, htake]
    rw [if_neg (by omega)]
    simp only [Option.bind_eq_bind]
    rw [if_neg (by omega)]
    rfl
  · rw [Nat.add_assoc]

/-! ### Frames -/

/-- What stands in a frame before its blocks. -/
private def frameStart (bytes : ByteArray) : ByteArray :=
  LittleEndian.bytes 4 frameMagic ++ LittleEndian.bytes 1 frameDescriptor ++
    LittleEndian.bytes 8 bytes.size

private theorem toList_frameStart (bytes : ByteArray) : (frameStart bytes).data.toList =
    LittleEndian.encode 4 frameMagic ++ 0xe0 :: LittleEndian.encode 8 bytes.size := by
  simp only [frameStart, ByteArray.toList_data_append, LittleEndian.toList_bytes]
  rw [List.append_assoc]
  rfl

/-- What the header of a frame tells. -/
private def header (bytes : ByteArray) : FrameHeader := ⟨bytes.size, some bytes.size, false, 9⟩

/-- The header of a frame is read back. -/
private theorem read?_frameStart {block : ByteArray} {before rest : List UInt8}
    (hsize : bytes.size < 2 ^ 64)
    (hblock : block.data.toList = before ++ ((frameStart bytes).data.toList ++ rest)) :
    FrameHeader.read? block (before.length + 4) = some (header bytes) := by
  rw [toList_frameStart, List.append_assoc, List.cons_append, ← List.append_assoc] at hblock
  have hlen := congrArg List.length hblock
  simp only [length_toList, List.length_append, List.length_cons,
    LittleEndian.length_encode] at hlen
  have hflags := byteAt_of_append hblock
  rw [← List.singleton_append, ← List.append_assoc] at hblock
  have hcontent := wordAt_of_append (by omega) hblock
  simp only [List.length_append, LittleEndian.length_encode, List.length_singleton]
    at hflags hcontent
  have hdictionary (i : Nat) : wordAt block i 0 = 0 := rfl
  have hlong : ¬ block.size ≤ before.length + 4 ∧ ¬ block.size < before.length + 4 + 9 := by omega
  simpa [FrameHeader.read?, header, hflags, hlong, hdictionary] using hcontent

/-- A frame has its blocks behind its header. -/
private theorem exists_blocks (bytes : ByteArray) : ∃ blocks,
    (encode bytes).data.toList = (frameStart bytes).data.toList ++ blocks ∧
      RawBlocks bytes 0 blocks ∧
      blocks.length ≤ bytes.size + 3 * (bytes.size / maxBlockSize + 1) :=
  rawBlocksWithin_append (bytes.size / maxBlockSize + 1) 0 (frameStart bytes) (Nat.zero_le _)
    (by rw [maxBlockSize]; omega) (Nat.succ_pos _)

/-- Frames as the codec writes them, with skippable frames between them: what they look like in a
block, and their contents. -/
inductive Frames : List UInt8 → List UInt8 → Prop
  | nil : Frames [] []
  | frame {bytes : ByteArray} {s contents : List UInt8} (fits : bytes.size ≤ maxWindowSize)
      (rest : Frames s contents) :
      Frames ((encode bytes).data.toList ++ s) (bytes.data.toList ++ contents)
  | skippable {kind : Nat} {skipped s contents : List UInt8} (kind_lt : kind < 16)
      (length_lt : skipped.length < 2 ^ 32) (rest : Frames s contents) :
      Frames (LittleEndian.encode 4 (skippableMagic + kind) ++
        (LittleEndian.encode 4 skipped.length ++ (skipped ++ s))) contents

private theorem size_encode_pos (bytes : ByteArray) : 0 < (encode bytes).size := by
  obtain ⟨blocks, hblock, -⟩ := exists_blocks bytes
  rw [toList_frameStart] at hblock
  have hlen := congrArg List.length hblock
  simp only [length_toList, List.length_append, List.length_cons, LittleEndian.length_encode] at hlen
  omega

private theorem Frames.eq_nil {s contents : List UInt8} (h : Frames s contents) (hs : s = []) :
    contents = [] := by
  cases h with
  | nil => rfl
  | frame =>
      exact absurd (toList_eq_nil_iff.1 (List.append_eq_nil_iff.1 hs).1)
        (Nat.ne_of_gt (size_encode_pos _))
  | skippable => simp [LittleEndian.encode] at hs

/-! ### Readers of frames -/

namespace Reader

/-- A reader of some data that comes to such frames, or to blocks of one: `s` is what they decode to,
apart from what was decoded before. -/
private inductive Ahead (data : ByteArray) : List UInt8 → Reader → Prop
  | between {before behind contents : List UInt8} {i delivered : Nat} {out : ByteArray}
      (data_eq : data.data.toList = before ++ behind) (i_eq : i = before.length)
      (pos : 0 < i ∨ behind ≠ []) (frames : Frames behind contents) :
      Ahead data contents ⟨data, i, out, delivered, .between⟩
  | within {before blocks behind contents old : List UInt8} {bytes : ByteArray}
      {i start delivered : Nat} {out : ByteArray} {whole : Bool} {memory : BlockMemory}
      (data_eq : data.data.toList = before ++ (blocks ++ behind)) (i_eq : i = before.length)
      (blocks : RawBlocks bytes start blocks) (frames : Frames behind contents)
      (start_le : start ≤ bytes.size)
      (out_eq : out.data.toList = old ++ bytes.data.toList.take start) :
      Ahead data (bytes.data.toList.drop start ++ contents)
        ⟨data, i, out, delivered, .within ⟨header bytes, whole, old.length, memory⟩⟩

variable {data : ByteArray} {s : List UInt8} {r r' : Reader} {count : Nat}

/-- What happens to a reader that decodes on: it has taken bytes of the data, and what it has decoded
is the next part of what it was to decode. -/
private structure Goes (data : ByteArray) (s : List UInt8) (r r' : Reader) : Prop where
  delivered : r'.delivered = r.delivered
  lt : r.i < r'.i
  le : r'.i ≤ data.size
  out : ∃ new s', r'.out.data.toList = r.out.data.toList ++ new ∧ s = new ++ s' ∧ Ahead data s' r'

/-- A frame is begun. -/
private theorem exists_begun {before behind contents : List UInt8} {out : ByteArray} {delivered : Nat}
    (hdata : data.data.toList = before ++ ((encode bytes).data.toList ++ behind))
    (hfits : bytes.size ≤ maxWindowSize) (hframes : Frames behind contents) (count : Nat) :
    ∃ r', beginFrame count ⟨data, before.length, out, delivered, .between⟩ = some r' ∧
      Goes data (bytes.data.toList ++ contents)
        ⟨data, before.length, out, delivered, .between⟩ r' := by
  obtain ⟨blocks, hblock, hblocks, -⟩ := exists_blocks bytes
  rw [hblock, List.append_assoc] at hdata
  have hmagic : wordAt data before.length 4 = frameMagic := by
    rw [toList_frameStart, List.append_assoc] at hdata
    exact wordAt_of_append (by decide) hdata
  have hsize : bytes.size < 2 ^ 64 := by
    rw [maxWindowSize] at hfits
    omega
  have hheader := read?_frameStart hsize hdata
  have hwindow (whole : Bool) : ¬ ((!whole) = true ∧ maxWindowSize < (header bytes).windowSize) := by
    rintro ⟨-, hlong⟩
    exact absurd hfits (Nat.not_le.2 hlong)
  have hstart : (frameStart bytes).data.toList.length = 13 := by
    rw [toList_frameStart]
    simp
  have hlen := congrArg List.length hdata
  simp only [length_toList, List.length_append, hstart] at hlen
  obtain ⟨whole, hwhole⟩ : ∃ whole, (header bytes).contentSize.any (· ≤ count) = whole := ⟨_, rfl⟩
  rw [← List.append_assoc] at hdata
  refine ⟨⟨data, before.length + 4 + 9, out, delivered,
    .within ⟨header bytes, whole, out.size, .initial⟩⟩, ?_, rfl, ?_, ?_, [], _,
    (List.append_nil _).symm, rfl, .within hdata (by rw [List.length_append, hstart]) hblocks
      hframes (Nat.zero_le _) (List.append_nil out.data.toList).symm⟩
  · rw [beginFrame]
    simp only [hmagic, if_true, hheader, hwhole]
    rw [if_neg (by omega), if_neg (hwindow whole)]
    rfl
  · show before.length < before.length + 4 + 9
    omega
  · show before.length + 4 + 9 ≤ data.size
    omega

/-- A skippable frame is passed. -/
private theorem exists_passed {before skipped behind contents : List UInt8} {out : ByteArray}
    {kind delivered : Nat}
    (hdata : data.data.toList = before ++ (LittleEndian.encode 4 (skippableMagic + kind) ++
      (LittleEndian.encode 4 skipped.length ++ (skipped ++ behind))))
    (hkind : kind < 16) (hskipped : skipped.length < 2 ^ 32) (hframes : Frames behind contents)
    (count : Nat) :
    ∃ r', beginFrame count ⟨data, before.length, out, delivered, .between⟩ = some r' ∧
      Goes data contents ⟨data, before.length, out, delivered, .between⟩ r' := by
  have hmagic : wordAt data before.length 4 = skippableMagic + kind :=
    wordAt_of_append (by rw [skippableMagic]; omega) hdata
  rw [← List.append_assoc] at hdata
  have hlength := wordAt_of_append hskipped hdata
  have hlen := congrArg List.length hdata
  simp only [length_toList, List.length_append, LittleEndian.length_encode] at hlen hlength
  have hother : skippableMagic + kind ≠ frameMagic := by
    rw [skippableMagic, frameMagic]
    omega
  have hskippable : (skippableMagic + kind) / 16 * 16 = skippableMagic := by
    rw [skippableMagic]
    omega
  rw [← List.append_assoc, ← List.append_assoc] at hdata
  refine ⟨⟨data, before.length + 8 + skipped.length, out, delivered, .between⟩, ?_, rfl, ?_, ?_,
    [], contents, (List.append_nil _).symm, rfl,
    .between hdata (by simp; omega) (.inl (by omega)) hframes⟩
  · rw [beginFrame]
    simp only [hmagic, hlength, hskippable, if_true, if_neg hother]
    rw [if_neg (by omega), if_neg (by omega)]
  · show before.length < before.length + 8 + skipped.length
    omega
  · show before.length + 8 + skipped.length ≤ data.size
    omega

/-- A raw block of a frame is decoded. -/
private theorem exists_decodeBlock {before blocks behind contents old : List UInt8}
    {i start delivered : Nat} {out : ByteArray} (whole : Bool) (memory : BlockMemory)
    (hdata : data.data.toList = before ++ (blocks ++ behind)) (hi : i = before.length)
    (hblocks : RawBlocks bytes start blocks) (hframes : Frames behind contents)
    (hstart : start ≤ bytes.size) (hout : out.data.toList = old ++ bytes.data.toList.take start) :
    let frame : OpenFrame := ⟨header bytes, whole, old.length, memory⟩
    ∃ r', decodeBlock data frame delivered ⟨i, memory, out⟩ = some r' ∧
      Goes data (bytes.data.toList.drop start ++ contents)
        ⟨data, i, out, delivered, .within frame⟩ r' := by
  intro frame
  have hpiece := size_piece hstart
  have hstop : start + (piece bytes start).size ≤ bytes.size := by omega
  have hlongest : (piece bytes start).size ≤ frame.longest := by
    show _ ≤ if whole then bytes.size else min bytes.size maxBlockSize
    split <;> omega
  -- The block at hand, whatever follows it.
  obtain ⟨rest, hfound⟩ : ∃ rest, data.data.toList = before ++ (rawBlock bytes start ++ rest) := by
    cases hblocks with
    | last => exact ⟨behind, hdata⟩
    | more _ more => exact ⟨_, by rw [hdata, List.append_assoc]⟩
  obtain ⟨empty, s', hnext, hi', hout'⟩ : ∃ empty s',
      nextBlock data old.length frame.header.blockLimit frame.longest ⟨i, memory, out⟩ =
        some (decide (start + (piece bytes start).size = bytes.size), empty, s') ∧
      s'.i = i + (rawBlock bytes start).length ∧ s'.out = out ++ piece bytes start :=
    nextBlock_rawBlock hstart hfound hi hlongest
  have hdone : s'.out.data.toList =
      old ++ bytes.data.toList.take (start + (piece bytes start).size) := by
    rw [hout', ByteArray.toList_data_append, hout, List.append_assoc, take_piece hstart]
  have hdecoded : s'.out.size - frame.start = start + (piece bytes start).size := by
    show s'.out.size - old.length = _
    rw [← length_toList, hdone, List.length_append, List.length_take, length_toList,
      Nat.min_eq_left hstop, Nat.add_sub_cancel_left]
  have hlen := congrArg List.length hfound
  have hblock := length_rawBlock bytes start
  simp only [length_toList, List.length_append] at hlen
  have hadds : s'.out.data.toList = out.data.toList ++ (piece bytes start).data.toList := by
    rw [hout', ByteArray.toList_data_append]
  have htold : frame.header.contentSize.getD (start + (piece bytes start).size) = bytes.size := rfl
  rw [decodeBlock, hnext]
  simp only [hdecoded, htold]
  rw [if_neg (by omega)]
  cases hblocks with
  | last stop =>
      refine ⟨⟨data, s'.i, s'.out, delivered, .between⟩, ?_, rfl, by simp only; omega,
        by simp only; omega, (piece bytes start).data.toList, contents, hadds, ?_, ?_⟩
      · simp [stop, show frame.header.checked = false from rfl]
      · rw [drop_piece hstart, stop, List.drop_of_length_le (Nat.le_of_eq (length_toList bytes)),
          List.append_nil]
      · exact .between (by rw [hdata, List.append_assoc])
          (by rw [List.length_append, hi', hi]) (.inl (by omega)) hframes
  | more inside more =>
      refine ⟨⟨data, s'.i, s'.out, delivered, .within { frame with memory := s'.memory }⟩, ?_, rfl,
        by simp only; omega, by simp only; omega, (piece bytes start).data.toList, _, hadds, ?_,
        .within (by rw [hdata, List.append_assoc, List.append_assoc]) ?_ more hframes
          (Nat.le_of_lt inside) hdone⟩
      · simp [Nat.ne_of_lt inside]
      · rw [drop_piece hstart, List.append_assoc]
      · rw [List.length_append, hi', hi]

/-- A reader that is not at the end of its data decodes on. -/
private theorem Ahead.advance (h : Ahead data s r) (hmore : r.ended = false) (count : Nat) :
    ∃ r', r.advance count = some r' ∧ Goes data s r r' := by
  cases h with
  | @between before behind _ i delivered out hdata hi hpos hframes =>
      subst hi
      cases hframes with
      | nil =>
          have hpos := hpos.resolve_right (absurd rfl)
          have hlen := congrArg List.length hdata
          simp only [length_toList, List.append_nil] at hlen
          simp [ended, hpos, hlen] at hmore
      | frame fits rest => exact exists_begun hdata fits rest count
      | skippable kind_lt length_lt rest => exact exists_passed hdata kind_lt length_lt rest count
  | @within before blocks behind contents old bytes i start delivered out whole memory hdata hi
      hblocks hframes hstart hout =>
      exact exists_decodeBlock whole memory hdata hi hblocks hframes hstart hout

/-- Something is handed out only if there is some of it. -/
theorem lt_of_ready (hready : r.ready count = true) (hcount : 0 < count) :
    r.delivered < r.out.size := by
  rw [ready] at hready
  split at hready
  · simpa using hready
  · simp at hready
    omega
  · simp at hready
    omega
  · cases hready

/-- At the end of the data everything was handed out. -/
theorem le_of_ended (hended : r.ended = true) (hready : r.ready count = false) :
    r.out.size ≤ r.delivered := by
  rw [ended] at hended
  split at hended
  case h_1 hstage => simpa [ready, hstage] using hready
  case h_2 => cases hended

/-- Where a reader is on the way through such frames: `s` is what it has not handed out. -/
private structure Holds (data : ByteArray) (s : List UInt8) (r : Reader) : Prop where
  delivered_le : r.delivered ≤ r.out.size
  ahead : ∃ contents, s = r.out.data.toList.drop r.delivered ++ contents ∧ Ahead data contents r

private theorem Ahead.setDelivered {contents : List UInt8} (h : Ahead data contents r)
    (delivered : Nat) : Ahead data contents { r with delivered } := by
  cases h with
  | between hdata hi hpos hframes => exact .between hdata hi hpos hframes
  | within hdata hi hblocks hframes hstart hout => exact .within hdata hi hblocks hframes hstart hout

/-- At the end of the data nothing is left to decode. -/
private theorem Ahead.eq_nil {contents : List UInt8} (h : Ahead data contents r)
    (hended : r.ended = true) : contents = [] := by
  cases h with
  | between hdata hi hpos hframes =>
      have hlen := congrArg List.length hdata
      simp only [ended, Bool.and_eq_true, decide_eq_true_eq] at hended
      rw [length_toList, List.length_append] at hlen
      exact hframes.eq_nil (List.length_eq_zero_iff.1 (by omega))
  | within => cases hended

/-- A request is answered with the next bytes. -/
private theorem Holds.readWithin (hcount : 0 < count) (fuel : Nat) : ∀ {s : List UInt8} {r : Reader},
    Holds data s r → data.size < r.i + fuel → r.i ≤ data.size →
      ∃ piece r' rest, Reader.readWithin count fuel r = (.ok piece, r') ∧
        s = piece.data.toList ++ rest ∧ piece.size ≤ count ∧ (piece.size = 0 → s = []) ∧
        Holds data rest r' ∧ r'.i ≤ data.size := by
  induction fuel with
  | zero =>
      intro s r _ hfuel hle
      exact absurd hfuel (Nat.not_lt.2 hle)
  | succ fuel ih =>
      rintro s r ⟨hdelivered, contents, rfl, hahead⟩ hfuel hle
      rw [Reader.readWithin]
      cases hready : r.ready count with
      | true =>
          have hlt := lt_of_ready hready hcount
          have hsize : (r.out.extract r.delivered (r.delivered + count)).size =
              min (r.delivered + count) r.out.size - r.delivered := ByteArray.size_extract
          rw [if_pos rfl]
          refine ⟨_, _, _, rfl, ?_, by omega, by omega, ⟨?_, contents, rfl,
            hahead.setDelivered _⟩, hle⟩
          · rw [toList_drop_eq r.out r.delivered count, List.append_assoc]
            rfl
          · show r.delivered + (r.out.extract r.delivered (r.delivered + count)).size ≤ r.out.size
            omega
      | false =>
          rw [if_neg Bool.false_ne_true]
          cases hended : r.ended with
          | true =>
              rw [if_pos rfl]
              refine ⟨.empty, r, _, rfl, rfl, Nat.zero_le _, fun _ => ?_,
                ⟨hdelivered, contents, rfl, hahead⟩, hle⟩
              rw [hahead.eq_nil hended, List.append_nil,
                List.drop_of_length_le (le_of_ended hended hready)]
          | false =>
              rw [if_neg Bool.false_ne_true]
              obtain ⟨r', hadvance, hgoes⟩ := hahead.advance hended count
              obtain ⟨new, contents', hout, rfl, hahead'⟩ := hgoes.out
              rw [hadvance]
              have hlt := hgoes.lt
              have hdrop : r'.out.data.toList.drop r'.delivered =
                  r.out.data.toList.drop r.delivered ++ new := by
                rw [hout, hgoes.delivered, List.drop_append_of_le_length hdelivered]
              have hholds :
                  Holds data (r.out.data.toList.drop r.delivered ++ (new ++ contents')) r' := by
                refine ⟨?_, contents', by rw [hdrop, List.append_assoc], hahead'⟩
                have hlen := congrArg List.length hout
                rw [List.length_append, length_toList, length_toList] at hlen
                rw [hgoes.delivered]
                omega
              exact ih hholds (by omega) hgoes.le

private theorem Ahead.data_eq {contents : List UInt8} (h : Ahead data contents r) :
    r.data = data := by
  cases h <;> rfl

end Reader

/-- Frames as the codec writes them, with skippable frames between them, are handed out to requests of
any size. -/
theorem delivers_of_frames {block : ByteArray} {contents : List UInt8} (hpos : 0 < block.size)
    (h : Frames block.data.toList contents) :
    Delivers Reader.read contents (Reader.start block) := by
  have hstart : Reader.Holds block contents (Reader.start block) :=
    ⟨Nat.le_refl 0, contents, rfl,
      .between (List.nil_append _).symm rfl (.inr (mt toList_eq_nil_iff.1 (by omega))) h⟩
  refine .of_invariant (fun s r => Reader.Holds block s r ∧ r.i ≤ block.size) ?_
    ⟨hstart, Nat.zero_le _⟩
  rintro s r ⟨hholds, hle⟩ count hcount
  obtain ⟨_, _, hahead⟩ := hholds.ahead
  obtain ⟨piece, r', rest, hread, hs, hsize, hend, hrest, hle'⟩ :=
    hholds.readWithin hcount (block.size + 1) (by omega) hle
  exact ⟨piece, r', rest, by rw [Reader.read, hahead.data_eq, hread], hs, hsize, hend, hrest, hle'⟩

/-! ### The codec -/

/-- A block within the limit is decoded if a decoder delivers its contents. -/
theorem decompressWith_of_delivers {δ : Type} {decoder : Decoder δ} {block out : ByteArray} {x : δ}
    (room : Room) (hstart : decoder.start block = .ok x)
    (h : Delivers decoder.read out.data.toList x) (hsize : out.size ≤ maxChunkSize) :
    decompressWith decoder room block = .ok out := by
  rw [decompressWith, hstart]
  simp only [Take.readToEnd_of_delivers h (Nat.lt_succ_of_le hsize)]
  exact if_neg (Nat.not_lt.2 hsize)

/-- A frame of raw blocks decodes to the bytes that these take over. -/
theorem decompress_encode (hsize : bytes.size ≤ maxChunkSize) :
    decompress (encode bytes) = .ok bytes := by
  have hframes : Frames (encode bytes).data.toList bytes.data.toList := by
    have h := Frames.frame (Nat.le_trans hsize (by decide)) .nil
    rwa [List.append_nil, List.append_nil] at h
  exact decompressWith_of_delivers .doubling rfl
    (delivers_of_frames (size_encode_pos bytes) hframes) hsize

/-- The encoder that takes bytes over loses nothing. -/
theorem lossless : codec.Lossless := by
  intro o data memory _ hpos hsize
  refine ⟨encode data, memory, rfl, decompress_encode hsize, ?_⟩
  obtain ⟨rest, hblock, -, hrest⟩ := exists_blocks data
  rw [toList_frameStart] at hblock
  have hlen := congrArg List.length hblock
  simp only [length_toList, List.length_append, List.length_cons,
    LittleEndian.length_encode] at hlen
  rw [maxBlockSize] at hrest
  show (encode data).size ≤
    data.size + data.size / 256 + (if data.size < 131072 then (131072 - data.size) / 2048 else 0)
  split <;> omega

end TraceStore.Zstd
