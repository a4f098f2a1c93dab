import TraceStore.Proofs.Chunk.Placed

/-!
# Readers that wait for the next chunk

A position may lead to a place where no chunk lies yet. A reader that goes there waits for the next
chunk: `ChunkReader.Waits`. Like one that has loaded the chunk that it stands in, it stands behind
so many bytes of the stream, and as it reads on, the positions that it tells never move back:
`ChunkReader.counted_standing`.
-/
namespace TraceStore.ChunkReader

variable {σ : Type} {c : Codec σ} {d d' : Disk} {F F' : ByteArray} {k start pos : Nat}
  {r r' : ChunkReader}

/-- A reader that stands behind the first `k` bytes of the stream with no chunk loaded: the one that
comes next lies behind so many bytes. -/
structure Waits (c : Codec σ) (d : Disk) (F : ByteArray) (k : Nat) (r : ChunkReader) : Prop where
  parked_eq : r.parked = false
  within : r.source.Within d F
  ahead : r.source.Ahead d (F.data.toList.drop r.nextChunk)
  nextChunk_le : r.nextChunk ≤ F.size
  empty : r.cache = .empty ∧ r.pos = 0 ∧ r.chunkStart = r.nextChunk
  behind : ∃ before : List (Chunk c),
    F.data.toList.drop 2 = Chunk.frames before ++ F.data.toList.drop r.nextChunk ∧
    r.nextChunk = 2 + (Chunk.frames before).length ∧ k = (Chunk.decoded before).length

/-- A reader that stands behind the first `k` bytes of the stream, in a chunk or before the next. -/
def Standing (c : Codec σ) (d : Disk) (F : ByteArray) (k : Nat) (r : ChunkReader) : Prop :=
  r.Placed c d F k ∨ r.Waits c d F k

/-- Whether the position that a reader tells is not before a place of the file and some bytes
there. -/
def Reaches (start pos : Nat) (r : ChunkReader) : Prop :=
  start < r.chunkStart ∨ start = r.chunkStart ∧ pos ≤ r.pos

theorem Reaches.refl (r : ChunkReader) : r.Reaches r.chunkStart r.pos :=
  .inr ⟨rfl, Nat.le_refl _⟩

theorem Reaches.trans (h : r.Reaches start pos) (h' : r'.Reaches r.chunkStart r.pos) :
    r'.Reaches start pos := by
  simp only [Reaches] at h h' ⊢
  omega

/-! ### Waiting -/

namespace Waits

theorem grow (h : r.Waits c d F k) (hnode : d'.node? r.source.node = some (.file F'))
    (hgrown : F.data.toList <+: F'.data.toList) : r.Waits c d' F' k := by
  obtain ⟨added, hadded⟩ := hgrown
  have hle := h.nextChunk_le
  have hlen := congrArg List.length hadded
  rw [List.length_append, length_toList, length_toList] at hlen
  have hposition := h.within.position_le
  obtain ⟨before, hsplit, hnext, hk⟩ := h.behind
  refine ⟨h.parked_eq, ⟨hnode, by omega⟩, ?_, by omega, h.empty, before, ?_, hnext, hk⟩
  · rw [drop_of_grown hadded hle]
    exact h.ahead.grow h.within hnode hadded.symm
  · rw [drop_of_grown hadded hle, drop_of_grown hadded (by omega), hsplit, List.append_assoc]

/-- Once the next chunk is loaded, the reader stands at its start. -/
theorem loadNext (h : r.Waits c d F k) {more : Bool} (hload : r.loadNext c d = (.ok more, r')) :
    more = false ∧ r'.Waits c d F k ∨ more = true ∧ r'.Placed c d F k ∧ r'.pos = 0 := by
  obtain ⟨before, hbefore, hnext, hk⟩ := h.behind
  obtain ⟨hparked, hwithin, hahead, hle, ⟨hmore, hsame⟩ |
    ⟨chunk, hmore, hcache', hpos', hstart', hnext', hsplit⟩⟩ :=
    loadNext_of_within h.parked_eq h.within h.ahead h.nextChunk_le hload
  · refine .inl ⟨hmore, hparked, hwithin, hahead, hle, ?_, before, ?_⟩
    · rw [hsame]
      exact h.empty
    · rw [hsame]
      exact ⟨hbefore, hnext, hk⟩
  · refine .inr ⟨hmore, ⟨hparked, hwithin, hahead, hle, .inr ⟨before, chunk, hcache', by omega,
      ?_, ?_, by rw [hnext', hstart'], by rw [hpos', hk]; rfl⟩⟩, hpos'⟩
    · rw [hbefore, hsplit]
    · rw [hstart', hnext]

/-- A reader that waits trails behind what the first chunks hold. -/
theorem trails (h : r.Waits c d F k) {chunks : List (Chunk c)}
    (hbegins : F.data.toList <+: c.magicBytes.data.toList ++ Chunk.frames chunks) :
    k ≤ (Chunk.decoded chunks).length ∧ r.Trails c d F chunks ((Chunk.decoded chunks).take k) := by
  obtain ⟨before, hbefore, hnext, rfl⟩ := h.behind
  have hle := h.nextChunk_le
  obtain ⟨hfile, hbegins⟩ := drop_of_begins (by omega) hbegins
  obtain ⟨behind, rfl⟩ : before <+: chunks := by
    refine Chunk.prefix_of_frames (List.IsPrefix.trans ?_ hbegins)
    rw [hbefore]
    exact List.prefix_append _ _
  rw [hbefore] at hfile
  refine ⟨?_, h.parked_eq, h.within, before, behind, _, rfl, hfile, h.ahead, ?_⟩
  · rw [Chunk.decoded_append, List.length_append]
    exact Nat.le_add_right ..
  · rw [Chunk.decoded_append, List.take_left, h.empty.1]
    simp

end Waits

/-! ### Standing -/

namespace Standing

theorem grow (h : r.Standing c d F k) (hnode : d'.node? r.source.node = some (.file F'))
    (hgrown : F.data.toList <+: F'.data.toList) : r.Standing c d' F' k :=
  h.imp (·.grow hnode hgrown) (·.grow hnode hgrown)

theorem trails (h : r.Standing c d F k) {chunks : List (Chunk c)}
    (hbegins : F.data.toList <+: c.magicBytes.data.toList ++ Chunk.frames chunks) :
    k ≤ (Chunk.decoded chunks).length ∧ r.Trails c d F chunks ((Chunk.decoded chunks).take k) :=
  h.elim (·.trails hbegins) (·.trails hbegins)

/-- Loading does not move the position that a reader tells back. -/
theorem reaches_of_loadNext (h : r.Standing c d F k) {more : Bool}
    (hload : r.loadNext c d = (.ok more, r')) : r'.Reaches r.chunkStart r.pos := by
  -- The next chunk lies behind the one in the cache, if there is one.
  obtain ⟨hparked, hwithin, hahead, hle, hnext⟩ : r.parked = false ∧ r.source.Within d F ∧
      r.source.Ahead d (F.data.toList.drop r.nextChunk) ∧ r.nextChunk ≤ F.size ∧
      (r.chunkStart < r.nextChunk ∨ r.chunkStart = r.nextChunk ∧ r.pos = 0) := by
    rcases h with h | h
    · refine ⟨h.parked_eq, h.within, h.ahead, h.nextChunk_le, ?_⟩
      rcases h.loaded with ⟨-, hpos, hstart, hnext, -⟩ | ⟨_, chunk, -, -, -, -, hnext, -⟩
      · exact .inr ⟨by rw [hstart, hnext], hpos⟩
      · have hlength := chunk.length_frame_pos
        exact .inl (by omega)
    · exact ⟨h.parked_eq, h.within, h.ahead, h.nextChunk_le, .inr ⟨h.empty.2.2, h.empty.2.1⟩⟩
  obtain ⟨-, -, -, -, ⟨-, hsame⟩ | ⟨chunk, -, -, hpos', hstart', -⟩⟩ :=
    loadNext_of_within hparked hwithin hahead hle hload
  · rw [hsame]
    exact .refl _
  · rw [Reaches, hstart', hpos']
    exact hnext.imp_right fun hnext => ⟨hnext.1, Nat.le_of_eq hnext.2⟩

end Standing

/-- Reading moves a reader by what it takes, and does not move the position that it tells back, as
long as no chunk fails to load. -/
theorem counted_standing (c : Codec σ) (d : Disk) (F : ByteArray) (start pos : Nat) :
    Counted c d fun k r => r.Standing c d F k ∧ r.Reaches start pos where
  load := by
    rintro k r r' more ⟨h, hreaches⟩ hpos hload
    refine ⟨?_, hreaches.trans (h.reaches_of_loadNext hload)⟩
    rcases h with h | h
    · exact .inl ((counted_placed c d F).load h hpos hload)
    · rcases h.loadNext hload with ⟨-, hwaits⟩ | ⟨-, hplaced, -⟩
      · exact .inr hwaits
      · exact .inl hplaced
  pass := by
    rintro k r count ⟨h, hreaches⟩ hcount
    refine ⟨?_, hreaches.trans (.inr ⟨rfl, Nat.le_add_right ..⟩)⟩
    rcases h with h | h
    · exact .inl ((counted_placed c d F).pass h hcount)
    · -- Nothing can be passed over where no chunk is loaded.
      obtain ⟨hcache, hzero, hstart⟩ := h.empty
      obtain rfl : count = 0 := by simpa [available, hcache] using hcount
      exact .inr { h with }

/-! ### Going to a position -/

/-- A reader that goes to the place of a chunk or behind the last one, and is not rejected, stands
there and so many bytes further. -/
theorem standing_of_accepted (h : r.source.Within d F) (hsize : r.fileSize ≤ F.size) {a : Offset}
    {before : List (Chunk c)}
    (hbefore : F.data.toList.drop 2 = Chunk.frames before ++ F.data.toList.drop (target a))
    (htarget : target a = 2 + (Chunk.frames before).length)
    (hseek : r.setCurrentOffset c a d = (.ok (), r')) :
    r'.Standing c d F ((Chunk.decoded before).length + a.inChunk.toNat) := by
  rw [setCurrentOffset_eq] at hseek
  split at hseek
  case isTrue => cases hseek
  case isFalse hle =>
    have haimed : (r.aimed a).Waits c d F (Chunk.decoded before).length := {
      parked_eq := rfl
      within := ⟨h.node_eq, show target a ≤ F.size by omega⟩
      ahead := FileReader.ahead_seek h.node_eq _
      nextChunk_le := show target a ≤ F.size by omega
      empty := ⟨rfl, rfl, rfl⟩
      behind := ⟨before, hbefore, htarget, rfl⟩ }
    split at hseek
    case h_1 r₁ hload =>
      split at hseek
      case isTrue hin =>
        obtain ⟨-, rfl⟩ := Prod.mk.inj hseek
        rcases haimed.loadNext hload with ⟨hmore, -⟩ | ⟨-, hplaced, hpos⟩
        · cases hmore
        · have hpassed := (counted_placed c d F).pass hplaced
            (show a.inChunk.toNat ≤ r₁.available by rw [available, hpos]; exact hin)
          rw [hpos, Nat.zero_add] at hpassed
          exact .inl hpassed
      case isFalse => cases hseek
    case h_2 r₁ hload =>
      split at hseek
      case isTrue hzero =>
        obtain ⟨-, rfl⟩ := Prod.mk.inj hseek
        rcases haimed.loadNext hload with ⟨-, hwaits⟩ | ⟨hmore, -⟩
        · rw [hzero]
          exact .inr hwaits
        · cases hmore
      case isFalse => cases hseek
    case h_3 => cases hseek

end TraceStore.ChunkReader
