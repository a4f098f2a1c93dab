import TraceStore.Chunk.Reader
import TraceStore.Proofs.Bytes
import TraceStore.Proofs.Codec.Basic

/-!
# The layout of chunked files

Behind its magic, any file is a run of chunks that a reader accepts and then a tail where that run
stops, which tells how reading ends: `exists_chunks`.
-/
namespace TraceStore

variable {σ : Type}

/-- The bytes of a file that a block takes: its length, and the block. -/
def frameOf (block : ByteArray) : List UInt8 :=
  LittleEndian.encode 4 block.size ++ block.data.toList

/-- A chunk that readers accept: its block, and what that decodes to. -/
structure Chunk (c : Codec σ) where
  block : ByteArray
  data : ByteArray
  size_lt : block.size < 2 ^ 32
  size_le : block.size ≤ c.lengthLimit
  decompress_eq : c.decompress block = .ok data

namespace Chunk

variable {c : Codec σ}

/-- The bytes of a file that a chunk takes. -/
def frame (chunk : Chunk c) : List UInt8 := frameOf chunk.block

/-- The bytes of a file that some chunks take. -/
def frames (chunks : List (Chunk c)) : List UInt8 := chunks.flatMap frame

/-- The bytes that some chunks decode to. -/
def decoded (chunks : List (Chunk c)) : List UInt8 := chunks.flatMap (·.data.data.toList)

@[simp] theorem length_frame (chunk : Chunk c) :
    chunk.frame.length = chunkHeaderSize + chunk.block.size := by
  simp [frame, frameOf, chunkHeaderSize]

theorem length_frame_pos (chunk : Chunk c) : 0 < chunk.frame.length := by
  rw [length_frame, chunkHeaderSize]
  omega

@[simp] theorem frames_nil : frames ([] : List (Chunk c)) = [] := rfl
@[simp] theorem frames_cons (chunk : Chunk c) (chunks : List (Chunk c)) :
    frames (chunk :: chunks) = chunk.frame ++ frames chunks := rfl
@[simp] theorem frames_append (chunks more : List (Chunk c)) :
    frames (chunks ++ more) = frames chunks ++ frames more := by simp [frames]

@[simp] theorem decoded_nil : decoded ([] : List (Chunk c)) = [] := rfl
@[simp] theorem decoded_cons (chunk : Chunk c) (chunks : List (Chunk c)) :
    decoded (chunk :: chunks) = chunk.data.data.toList ++ decoded chunks := rfl
@[simp] theorem decoded_append (chunks more : List (Chunk c)) :
    decoded (chunks ++ more) = decoded chunks ++ decoded more := by simp [decoded]

end Chunk

/-- How reading ends that comes to `tail` where a chunk could start: cleanly if nothing is left,
and with an error if what is left does not start with a chunk that is accepted. A length over the
limit is told even if the file is too short for it. -/
inductive Ends (c : Codec σ) : (tail : List UInt8) → Except Error Unit → Prop
  | clean : Ends c [] (.ok ())
  | truncatedHeader {tail} : 0 < tail.length → tail.length < chunkHeaderSize →
      Ends c tail (.error (.corrupt .truncatedHeader))
  | lengthOverLimit {length rest} : length < 2 ^ 32 → c.lengthLimit < length →
      Ends c (LittleEndian.encode 4 length ++ rest) (.error (.corrupt .lengthOverLimit))
  | truncatedChunk {length rest} : length < 2 ^ 32 → length ≤ c.lengthLimit →
      rest.length < length →
      Ends c (LittleEndian.encode 4 length ++ rest) (.error (.corrupt .truncatedChunk))
  | refused {block : ByteArray} {rest e} : block.size < 2 ^ 32 → block.size ≤ c.lengthLimit →
      c.decompress block = .error e →
      Ends c (LittleEndian.encode 4 block.size ++ (block.data.toList ++ rest)) (.error e)

/-- Reading ends cleanly at the end of the file only. -/
theorem Ends.eq_nil {c : Codec σ} {tail : List UInt8} (h : Ends c tail (.ok ())) : tail = [] := by
  cases h
  rfl

/-- What is left of a file ends reading, or starts with a chunk that is accepted. -/
theorem ends_or_chunk (c : Codec σ) (s : List UInt8) :
    (∃ ending, Ends c s ending) ∨ ∃ (chunk : Chunk c) (rest : List UInt8), s = chunk.frame ++ rest := by
  by_cases hshort : s.length < chunkHeaderSize
  · left
    cases s with
    | nil => exact ⟨_, .clean⟩
    | cons b rest => exact ⟨_, .truncatedHeader (by simp) hshort⟩
  · obtain ⟨header, rest, hheader, rfl⟩ :
        ∃ header rest : List UInt8, header.length = chunkHeaderSize ∧ s = header ++ rest :=
      ⟨s.take chunkHeaderSize, s.drop chunkHeaderSize,
        List.length_take_of_le (by omega), (List.take_append_drop ..).symm⟩
    obtain ⟨length, hlength, rfl⟩ :
        ∃ length, length < 2 ^ 32 ∧ header = LittleEndian.encode 4 length := by
      refine ⟨LittleEndian.decode header, ?_, ?_⟩
      · simpa [hheader, chunkHeaderSize] using LittleEndian.decode_lt header
      · have h := LittleEndian.encode_decode header
        rw [hheader] at h
        exact h.symm
    by_cases hlimit : c.lengthLimit < length
    · exact .inl ⟨_, .lengthOverLimit hlength hlimit⟩
    by_cases htrunc : rest.length < length
    · exact .inl ⟨_, .truncatedChunk hlength (by omega) htrunc⟩
    obtain ⟨block, rest, rfl, rfl⟩ :
        ∃ (block : ByteArray) (more : List UInt8),
          block.size = length ∧ rest = block.data.toList ++ more :=
      ⟨⟨(rest.take length).toArray⟩, rest.drop length, by
        simp only [ByteArray.size, List.size_toArray, List.length_take]
        omega, by simp⟩
    cases hblock : c.decompress block with
    | error e => exact .inl ⟨_, .refused hlength (by omega) hblock⟩
    | ok data =>
        exact .inr ⟨⟨block, data, hlength, by omega, hblock⟩, rest, by simp [Chunk.frame, frameOf]⟩

/-- Any bytes are a run of chunks that are accepted, and a tail that ends reading. -/
theorem exists_chunks (c : Codec σ) (s : List UInt8) :
    ∃ (chunks : List (Chunk c)) (tail : List UInt8) (ending : Except Error Unit),
      s = Chunk.frames chunks ++ tail ∧ Ends c tail ending := by
  induction hn : s.length using Nat.strongRecOn generalizing s with
  | _ n ih =>
      rcases ends_or_chunk c s with ⟨ending, hend⟩ | ⟨chunk, rest, rfl⟩
      · exact ⟨[], s, ending, rfl, hend⟩
      · have hlt : rest.length < n := by
          rw [← hn, List.length_append, Chunk.length_frame, chunkHeaderSize]
          omega
        obtain ⟨chunks, tail, ending, rfl, hend⟩ := ih rest.length hlt rest rfl
        exact ⟨chunk :: chunks, tail, ending, by simp, hend⟩

end TraceStore
