import TraceStore.Proofs.Chunk.Reader
import TraceStore.Proofs.Cursor

/-!
# Readers of chunks as cursors

A reader of a file that is chunks only is a cursor over what the chunks decode to, and hands out no
bytes of two chunks at once: `ChunkReader.Stands.runs`.
-/
namespace TraceStore

/-! ### Pieces of a stream -/

/-- The bytes from a position of a stream on to the end of the piece that it lies in. -/
def leftInPiece : List (List UInt8) → Nat → Nat
  | [], _ => 0
  | piece :: pieces, p =>
    if p < piece.length then piece.length - p else leftInPiece pieces (p - piece.length)

/-- A request for some bytes gets those of one piece, as many as there are left or asked for. -/
def CutAtPieces (pieces : List (List UInt8)) (p count k : Nat) : Prop :=
  k = min count (leftInPiece pieces p)

@[simp] theorem leftInPiece_nil_cons (pieces : List (List UInt8)) (p : Nat) :
    leftInPiece ([] :: pieces) p = leftInPiece pieces p := by
  simp [leftInPiece]

theorem leftInPiece_drop_cons {piece : List UInt8} {count : Nat} (h : count ≤ piece.length)
    (pieces : List (List UInt8)) (p : Nat) :
    leftInPiece (piece.drop count :: pieces) p = leftInPiece (piece :: pieces) (count + p) := by
  rw [leftInPiece, leftInPiece, List.length_drop]
  by_cases hp : p < piece.length - count
  · rw [if_pos hp, if_pos (by omega)]
    omega
  · rw [if_neg hp, if_neg (by omega)]
    congr 1
    omega

theorem leftInPiece_of_le {pieces : List (List UInt8)} {p : Nat} (h : pieces.flatten.length ≤ p) :
    leftInPiece pieces p = 0 := by
  induction pieces generalizing p with
  | nil => rfl
  | cons piece pieces ih =>
      rw [List.flatten_cons, List.length_append] at h
      rw [leftInPiece, if_neg (by omega)]
      exact ih (by omega)

/-- The streams that some chunks decode to, one for each. -/
def Chunk.pieces {σ : Type} {c : Codec σ} (chunks : List (Chunk c)) : List (List UInt8) :=
  chunks.map fun chunk => chunk.data.data.toList

theorem Chunk.flatten_pieces {σ : Type} {c : Codec σ} (chunks : List (Chunk c)) :
    (Chunk.pieces chunks).flatten = Chunk.decoded chunks := rfl

namespace ChunkReader

variable {σ : Type} {c : Codec σ} {d : Disk} {r : ChunkReader}
  {pieces : List (List UInt8)} {p : Nat}

/-- A request for exactly some bytes of a stream that ends cleanly. -/
private theorem Streams.read {s : List UInt8} (h : r.Streams c d s (.ok ())) (count : Nat) :
    ∃ result r', r.read c count d = (result, r') ∧ ReadsFrom s count result ∧
      r'.Streams c d (s.drop count) (.ok ()) := by
  by_cases hle : count ≤ s.length
  · obtain ⟨bytes, r', hread, hbytes, hrest⟩ := h.read_of_le hle
    exact ⟨_, r', hread, ⟨fun _ => ⟨bytes, rfl, hbytes⟩, fun hlt => by omega⟩, hrest⟩
  · obtain ⟨r', hread, hrest⟩ := h.read_of_lt (Nat.lt_of_not_le hle)
    rw [← List.drop_of_length_le (Nat.le_of_not_le hle)] at hrest
    exact ⟨_, r', hread, ⟨fun henough => absurd henough hle, fun _ => rfl⟩, hrest⟩

/-- A reader of a stream that ends cleanly reads on from what it has left. -/
theorem readsOn (c : Codec σ) (d : Disk) :
    ReadsOn (fun r : ChunkReader => r.ask c d) (fun s r => r.Streams c d s (.ok ())) where
  read h count := by
    obtain ⟨result, r', hread, hfrom, hrest⟩ := h.read count
    exact ⟨result, r', by rw [ask, hread]; rfl, hfrom, hrest⟩
  skip h count := by
    obtain ⟨result, r', hread, hfrom, hrest⟩ := h.read count
    exact ⟨result, r', by rw [ask, skip_eq_read, hread]; rfl, hfrom, hrest⟩
  getc h := by
    obtain ⟨r', hgetc, hrest⟩ := h.getc
    exact ⟨r', by rw [ask, hgetc]; rfl, hrest (.inr rfl)⟩
  readSome_zero r := rfl
  readSome := by
    intro s r h count hcount
    obtain ⟨piece, r', rest, hread, hpiece⟩ := Streams.readSome_step s r h count hcount
    exact ⟨piece, r', rest, by rw [ask, hread]; rfl, hpiece⟩

/-- A reader that stands at a position of the stream that the pieces make up, which it has split as
the pieces say. -/
structure Stands (c : Codec σ) (d : Disk) (pieces : List (List UInt8)) (p : Nat)
    (r : ChunkReader) : Prop where
  parked_eq : r.parked = false
  le : p ≤ pieces.flatten.length
  ahead : ∃ chunks : List (Chunk c), r.source.Ahead d (Chunk.frames chunks) ∧
    pieces.flatten.drop p = (r.cache.data.toList.drop r.pos :: Chunk.pieces chunks).flatten ∧
    ∀ q, leftInPiece (r.cache.data.toList.drop r.pos :: Chunk.pieces chunks) q =
      leftInPiece pieces (p + q)

/-- A reader just opened stands at the start of the stream. -/
theorem stands_of_open {path : String} {F : ByteArray} (hF : d.contents? path = some F)
    {chunks : List (Chunk c)}
    (hchunks : F.data.toList = c.magicBytes.data.toList ++ Chunk.frames chunks) :
    ∃ r, ChunkReader.open c path d = .ok r ∧ r.Stands c d (Chunk.pieces chunks) 0 := by
  obtain ⟨source, hopen, hahead, -⟩ := open_of_magic hF hchunks
  exact ⟨_, hopen, rfl, Nat.zero_le _, chunks, hahead, rfl, fun q => by simp⟩

namespace Stands

/-- What a reader has to deliver is what lies behind its position. -/
theorem streams (h : r.Stands c d pieces p) :
    r.Streams c d (pieces.flatten.drop p) (.ok ()) := by
  obtain ⟨chunks, hahead, hdrop, -⟩ := h.ahead
  exact ⟨h.parked_eq, chunks, [], by rwa [List.append_nil], .clean, hdrop⟩

/-- The position is that of the stream that is left. -/
private theorem of_streams {p' : Nat} (h : r.Stands c d pieces p') (hp : p ≤ pieces.flatten.length)
    (hs : r.Streams c d (pieces.flatten.drop p) (.ok ())) : r.Stands c d pieces p := by
  obtain ⟨hdrop, -⟩ := hs.unique h.streams
  have hlen := congrArg List.length hdrop
  rw [List.length_drop, List.length_drop] at hlen
  have hle := h.le
  obtain rfl : p' = p := by omega
  exact h

/-- Reading keeps a reader at some position. -/
private theorem kept (c : Codec σ) (d : Disk) (pieces : List (List UInt8)) :
    Kept c d (fun r => ∃ p, r.Stands c d pieces p) where
  load := by
    rintro r ⟨p, h⟩ hpos
    obtain ⟨chunks, hahead, hdrop, hleft⟩ := h.ahead
    have hnone : r.cache.data.toList.drop r.pos = [] := by
      rw [List.drop_eq_nil_iff, length_toList]
      exact hpos
    cases chunks with
    | nil =>
        obtain ⟨source, hload, hrest, -⟩ := loadNext_nil (c := c) h.parked_eq hahead
        rw [hload]
        exact ⟨p, h.parked_eq, h.le, [], hrest, hdrop, hleft⟩
    | cons chunk chunks =>
        obtain ⟨source, hload, hrest, -⟩ := loadNext_chunk h.parked_eq chunk hahead
        rw [hload]
        rw [hnone] at hdrop hleft
        exact ⟨p, h.parked_eq, h.le, chunks, hrest, hdrop, fun q => by rw [← hleft]; simp; rfl⟩
  pass := by
    rintro r count ⟨p, h⟩ hcount
    obtain ⟨chunks, hahead, hdrop, hleft⟩ := h.ahead
    have hlen : count ≤ (r.cache.data.toList.drop r.pos).length := by
      rw [List.length_drop, length_toList]
      exact hcount
    refine ⟨p + count, h.parked_eq, ?_, chunks, hahead, ?_, fun q => ?_⟩
    · have hall := congrArg List.length hdrop
      rw [List.length_drop, List.flatten_cons, List.length_append] at hall
      have hle := h.le
      omega
    · rw [← List.drop_drop, hdrop, List.flatten_cons, List.flatten_cons,
        List.drop_append_of_le_length hlen, List.drop_drop]
    · rw [← List.drop_drop, leftInPiece_drop_cons hlen, hleft, Nat.add_assoc]

/-- Filling that succeeds leaves the rest of a piece to deliver. -/
private theorem available_eq (h : r.Stands c d pieces p) (hpos : 0 < r.available) :
    r.available = leftInPiece pieces p := by
  obtain ⟨chunks, -, -, hleft⟩ := h.ahead
  have hfirst := hleft 0
  have hlen : (r.cache.data.toList.drop r.pos).length = r.available := by
    rw [List.length_drop, length_toList, available]
  rw [leftInPiece, if_pos (by omega), hlen] at hfirst
  exact hfirst

/-- A request for some bytes gets them from one piece. -/
private theorem readSome_cut (h : r.Stands c d pieces p) {count : Nat} {piece : ByteArray}
    (hread : (r.readSome c count d).1 = .ok piece) :
    CutAtPieces pieces p count piece.size := by
  rw [CutAtPieces]
  by_cases hcount : count = 0
  · rw [readSome, if_pos hcount] at hread
    cases hread
    simp [hcount]
  rw [readSome, if_neg hcount] at hread
  by_cases hend : pieces.flatten.drop p = []
  · have hs := h.streams
    rw [hend] at hs
    obtain ⟨_, hfill, -⟩ := hs.fill_of_nil
    rw [hfill] at hread
    cases hread
    rw [List.drop_eq_nil_iff] at hend
    simp [leftInPiece_of_le hend]
  · obtain ⟨r₁, hfill, hs⟩ := h.streams.fill_of_ne_nil hend
    obtain ⟨p₁, h₁⟩ : ∃ p₁, r₁.Stands c d pieces p₁ := by
      have hkept := (kept c d pieces).fill ⟨p, h⟩
      rwa [hfill] at hkept
    rw [hfill] at hread
    cases hread
    show (r₁.take (min r₁.available count)).1.size = min count (leftInPiece pieces p)
    rw [size_take (Nat.min_le_left ..), Nat.min_comm,
      (h₁.of_streams h.le hs).available_eq (available_of_fill hfill)]

/-- A request that reads on moves a reader as it moves a cursor. -/
private theorem moves (h : r.Stands c d pieces p) {request : ReadRequest}
    (hrequest : request.Sequential) :
    ∃ p', Moves pieces.flatten (CutAtPieces pieces) p request (r.ask c d request).1 p' ∧
      (r.ask c d request).2.Stands c d pieces p' := by
  obtain ⟨p', hmoves, hle, hrest⟩ := (readsOn c d).moves h.le h.streams
    (fun hask => h.readSome_cut (Answer.bytes.inj hask)) hrequest
  obtain ⟨_, hstands⟩ := (kept c d pieces).ask ⟨p, h⟩ hrequest
  exact ⟨p', hmoves, hstands.of_streams hle hrest⟩

/-- Requests that read on run a reader as they run a cursor. -/
theorem runs (h : r.Stands c d pieces p) {requests : List ReadRequest}
    (hrequests : ∀ request ∈ requests, request.Sequential) :
    ∃ p', Runs pieces.flatten (CutAtPieces pieces) p requests
      (ReadRequest.askAll (fun r => r.ask c d) requests r).1 p' :=
  Runs.of_invariant (Stands c d pieces) (fun _ _ h _ hrequest => h.moves hrequest) hrequests h

end Stands
end ChunkReader
end TraceStore
