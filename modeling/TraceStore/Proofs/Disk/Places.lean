import TraceStore.Disk.Writer
import TraceStore.Proofs.Disk.Gathering

/-!
# Places in a file behind a buffer

A buffered reader stands before the bytes that it has fetched and not handed out, and moves on by
what it delivers: `FileReader.position_of_read`. A buffered writer stands behind the bytes that it
holds back, and moves on by what it takes, which is all or nothing: `FileWriter.handed_write`.
-/
namespace TraceStore

/-! ### Reading -/

namespace FileReader

variable {d : Disk} {r r' : FileReader} {count : Nat} {bytes : ByteArray}

theorem size_le_of_read (h : r.read count d = (.ok bytes, r')) : bytes.size ≤ count := by
  rw [FileReader.read] at h
  split at h
  · cases h
    rw [ByteArray.size_extract]
    omega
  · dsimp only at h
    split at h
    · split at h
      case h_1 got hread =>
        have hle := Disk.size_le_of_readAt hread
        cases h
        rw [ByteArray.size_append]
        omega
      case h_2 => cases h
    · split at h
      · cases h
        rw [ByteArray.size_append, ByteArray.size_extract]
        omega
      · cases h

/-- A fetch leaves a reader where it stands. -/
theorem position_of_fetch (h : r.fetch d = .ok r') :
    r'.position + r.pending.size = r.position + r'.pending.size := by
  rw [fetch] at h
  split at h
  case isTrue hempty =>
    rw [isEmpty_iff.1 hempty]
    cases hread : d.readAt r.node r.position r.blockSize with
    | error cause => simp [hread, Except.map] at h
    | ok block =>
        simp only [hread, Except.map, Except.ok.injEq] at h
        rw [← h]
        rfl
  case isFalse =>
    cases h
    rfl

/-- A reader moves on by the bytes that it delivers. -/
theorem position_of_read (h : r.read count d = (.ok bytes, r')) :
    r'.position + r.pending.size = r.position + bytes.size + r'.pending.size := by
  rw [FileReader.read] at h
  split at h
  case isTrue hle =>
    cases h
    simp only [ByteArray.size_extract]
    omega
  case isFalse =>
    dsimp only at h
    split at h
    · split at h
      · cases h
        simp only [ByteArray.size_append, ByteArray.size_empty]
        omega
      · cases h
    · split at h
      case h_1 fetched hfetch =>
        have hfetched := position_of_fetch hfetch
        simp only [ByteArray.size_empty] at hfetched
        cases h
        simp only [ByteArray.size_append, ByteArray.size_extract]
        omega
      case h_2 => cases h

end FileReader

/-! ### Writing -/

namespace FileWriter

variable (w : FileWriter) (d : Disk)

/-- Bytes that a writer has taken: those passed on to the file, and those held back. -/
def handed (w : FileWriter) : Nat := w.position + w.pending.size

@[simp] theorem handed_flush : (w.flush d).state.handed = w.handed := by
  rw [flush, passOn]
  cases hwrite : d.writeAt w.node w.position w.pending <;> simp [handed]

private theorem handed_passOn (bytes : ByteArray) : (w.passOn bytes d).state.handed =
    if (w.passOn bytes d).result.isOk then w.handed + bytes.size else w.handed := by
  rw [passOn]
  split
  · show w.position + bytes.size + w.pending.size = w.position + w.pending.size + bytes.size
    omega
  · rfl

/-- A writer takes all of some bytes or, if the file refuses to go on, none of them. -/
theorem handed_write (bytes : ByteArray) : (w.write bytes d).state.handed =
    if (w.write bytes d).result.isOk then w.handed + bytes.size else w.handed := by
  have htaken (w : FileWriter) :
      FileWriter.handed { w with pending := w.pending ++ bytes } = w.handed + bytes.size := by
    simp only [handed, ByteArray.size_append]
    omega
  rw [write]
  split
  · exact htaken w
  · generalize hroom : (if w.pending.size + bytes.size ≤ blockSize then
        (⟨.ok (), w, d⟩ : Outcome FileWriter Unit) else w.flush d) = room
    have hmade : room.state.handed = w.handed := by
      rw [← hroom]
      split
      · rfl
      · exact w.handed_flush d
    rw [← hmade]
    obtain ⟨result, w₁, d₁⟩ := room
    cases result with
    | error e => rfl
    | ok =>
        by_cases hlong : blockSize ≤ bytes.size
        · simp only [if_pos hlong]
          exact w₁.handed_passOn d₁ bytes
        · simp only [if_neg hlong]
          exact htaken w₁

end FileWriter
end TraceStore
