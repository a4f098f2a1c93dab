import TraceStore.Proofs.Chunk.Reader

/-!
# Where chunks start

The places in a file of the chunks that hold anything, and a reader that visits them one after the
other: a request for some bytes gets bytes of one chunk, and leaves the reader telling its place,
until there are no bytes of it left: `ChunkReader.Visits.readSome`.
-/
namespace TraceStore

variable {σ : Type} {c : Codec σ}

namespace Chunk

/-- The places of the chunks that decode to anything, if the first one of all is at `start`. -/
def starts : Nat → List (Chunk c) → List Nat
  | _, [] => []
  | start, chunk :: chunks =>
    if 0 < chunk.data.size then start :: starts (start + chunk.frame.length) chunks
    else starts (start + chunk.frame.length) chunks

/-- The places are those of chunks that hold anything, behind the frames of the ones before. -/
theorem mem_starts {start p : Nat} {chunks : List (Chunk c)} : p ∈ starts start chunks ↔
    ∃ before chunk behind, chunks = before ++ chunk :: behind ∧ 0 < chunk.data.size ∧
      p = start + (frames before).length := by
  induction chunks generalizing start with
  | nil => simp [starts]
  | cons first chunks ih =>
      constructor
      · intro hp
        rw [starts] at hp
        have hlater (hp : p ∈ starts (start + first.frame.length) chunks) :
            ∃ before chunk behind, first :: chunks = before ++ chunk :: behind ∧
              0 < chunk.data.size ∧ p = start + (frames before).length := by
          obtain ⟨before, chunk, behind, rfl, hsize, rfl⟩ := ih.1 hp
          refine ⟨first :: before, chunk, behind, rfl, hsize, ?_⟩
          rw [frames_cons, List.length_append]
          omega
        split at hp
        case isTrue hsize =>
          rcases List.mem_cons.1 hp with rfl | hp
          · exact ⟨[], first, chunks, rfl, hsize, rfl⟩
          · exact hlater hp
        case isFalse => exact hlater hp
      · rintro ⟨before, chunk, behind, hsplit, hsize, rfl⟩
        rw [starts]
        cases before with
        | nil =>
            obtain ⟨rfl, rfl⟩ := List.cons.inj hsplit
            rw [if_pos hsize]
            exact List.mem_cons_self
        | cons _ before =>
            obtain ⟨rfl, rfl⟩ := List.cons.inj hsplit
            have hmem : start + (frames (first :: before)).length ∈
                starts (start + first.frame.length) (before ++ chunk :: behind) :=
              ih.2 ⟨before, chunk, behind, rfl, hsize,
                by rw [frames_cons, List.length_append, Nat.add_assoc]⟩
            split
            · exact List.mem_cons_of_mem _ hmem
            · exact hmem

theorem le_of_mem_starts {start p : Nat} {chunks : List (Chunk c)} (h : p ∈ starts start chunks) :
    start ≤ p ∧ p < start + (frames chunks).length := by
  obtain ⟨before, chunk, behind, rfl, -, rfl⟩ := mem_starts.1 h
  have hpos := chunk.length_frame_pos
  rw [frames_append, frames_cons, List.length_append, List.length_append]
  omega

/-- The places lie in the file. -/
theorem lt_size_of_mem_starts {F : ByteArray} {p : Nat} {chunks : List (Chunk c)}
    (hF : F.data.toList = c.magicBytes.data.toList ++ frames chunks) (h : p ∈ starts 2 chunks) :
    p < F.size := by
  have hlength := congrArg List.length hF
  rw [length_toList, List.length_append, length_toList, Codec.size_magicBytes] at hlength
  rw [hlength]
  exact (le_of_mem_starts h).2

/-- The places are in the order of the file. -/
theorem pairwise_starts (start : Nat) (chunks : List (Chunk c)) :
    (starts start chunks).Pairwise (· < ·) := by
  induction chunks generalizing start with
  | nil => exact .nil
  | cons chunk chunks ih =>
      rw [starts]
      split
      · refine .cons (fun p hp => ?_) (ih _)
        have hle := (le_of_mem_starts hp).1
        have hpos := chunk.length_frame_pos
        omega
      · exact ih _

/-- Chunks that decode to nothing have no places. -/
theorem starts_of_decoded {start : Nat} {chunks : List (Chunk c)} (h : decoded chunks = []) :
    starts start chunks = [] := by
  induction chunks generalizing start with
  | nil => rfl
  | cons chunk chunks ih =>
      obtain ⟨hnone, hrest⟩ := List.append_eq_nil_iff.1 h
      rw [starts, if_neg (by rw [toList_eq_nil_iff.1 hnone]; omega)]
      exact ih hrest

end Chunk

namespace ChunkReader

variable {d : Disk} {r r' : ChunkReader} {places : List Nat}

/-- A reader that still delivers bytes of the chunks at some places, and the chunk in its cache is at
the first of them as long as there are bytes of it left. -/
structure Visits (c : Codec σ) (d : Disk) (places : List Nat) (r : ChunkReader) : Prop where
  parked_eq : r.parked = false
  ahead : ∃ chunks : List (Chunk c), r.source.Ahead d (Chunk.frames chunks) ∧
    places = if r.pos < r.cache.size then r.chunkStart :: Chunk.starts r.nextChunk chunks
      else Chunk.starts r.nextChunk chunks

theorem Visits.exists_streams (h : r.Visits c d places) : ∃ s, r.Streams c d s (.ok ()) := by
  obtain ⟨chunks, hahead, -⟩ := h.ahead
  exact ⟨_, h.parked_eq, chunks, [], by rwa [List.append_nil], .clean, rfl⟩

/-- A reader that has nothing left to deliver visits no places. -/
theorem Visits.eq_nil (h : r.Visits c d places) (hs : r.Streams c d [] (.ok ())) : places = [] := by
  obtain ⟨chunks, hahead, rfl⟩ := h.ahead
  have hown : r.Streams c d (r.cache.data.toList.drop r.pos ++ Chunk.decoded chunks) (.ok ()) :=
    ⟨h.parked_eq, chunks, [], by rwa [List.append_nil], .clean, rfl⟩
  obtain ⟨hnone, hdecoded⟩ := List.append_eq_nil_iff.1 (hs.unique hown).1.symm
  rw [List.drop_eq_nil_iff, length_toList] at hnone
  rw [if_neg (by omega), Chunk.starts_of_decoded hdecoded]

/-- Loading the next chunk changes nothing about the places that are still to be visited. -/
private theorem Visits.load (h : r.Visits c d places) (hpos : r.cache.size ≤ r.pos) :
    (r.loadNext c d).2.Visits c d places := by
  obtain ⟨chunks, hahead, hplaces⟩ := h.ahead
  rw [if_neg (by omega)] at hplaces
  cases chunks with
  | nil =>
      obtain ⟨source, hload, hrest, -⟩ := loadNext_nil (c := c) h.parked_eq hahead
      rw [hload]
      exact ⟨h.parked_eq, [], hrest, by rw [if_neg (by exact Nat.not_lt.2 hpos)]; exact hplaces⟩
  | cons chunk chunks =>
      obtain ⟨source, hload, hrest, -⟩ := loadNext_chunk h.parked_eq chunk hahead
      rw [hload]
      exact ⟨h.parked_eq, chunks, hrest, hplaces⟩

/-- A request for some bytes that gets any gets them from the chunk at the first place. That is
visited as long as bytes of it are left. -/
theorem Visits.readSome (h : r.Visits c d places) {count : Nat} {bytes : ByteArray}
    (hread : r.readSome c count d = (.ok bytes, r')) (hbytes : bytes.size ≠ 0) :
    ∃ rest, places = r'.chunkStart :: rest ∧ (r'.Visits c d places ∨ r'.Visits c d rest) := by
  rw [ChunkReader.readSome] at hread
  split at hread
  · obtain ⟨hnone, -⟩ := Prod.mk.inj hread
    cases hnone
    exact absurd rfl hbytes
  split at hread
  case h_1 => cases hread
  case h_2 =>
    obtain ⟨hnone, -⟩ := Prod.mk.inj hread
    cases hnone
    exact absurd rfl hbytes
  case h_3 r₁ hfill =>
    obtain ⟨-, rfl⟩ := Prod.mk.inj hread
    have h₁ : r₁.Visits c d places := by
      have hkept := fill_keeps (P := Visits c d places) (fun hr hpos => hr.load hpos) h
      rwa [hfill] at hkept
    have havailable := available_of_fill hfill
    obtain ⟨chunks, hahead, hplaces⟩ := h₁.ahead
    rw [available] at havailable
    rw [if_pos (by omega)] at hplaces
    refine ⟨_, hplaces, ?_⟩
    by_cases hleft : r₁.pos + min r₁.available count < r₁.cache.size
    · exact .inl ⟨h₁.parked_eq, chunks, hahead, by rw [hplaces]; exact (if_pos hleft).symm⟩
    · exact .inr ⟨h₁.parked_eq, chunks, hahead, (if_neg hleft).symm⟩

/-- A reader just opened visits the places of all chunks. -/
theorem visits_of_open {path : String} {F : ByteArray} (hF : d.contents? path = some F)
    {chunks : List (Chunk c)}
    (hchunks : F.data.toList = c.magicBytes.data.toList ++ Chunk.frames chunks)
    (hopen : ChunkReader.open c path d = .ok r) : r.Visits c d (Chunk.starts 2 chunks) := by
  obtain ⟨source, hopen', hahead, -⟩ := open_of_magic hF hchunks
  obtain rfl := Except.ok.inj (hopen.symm.trans hopen')
  exact ⟨rfl, chunks, hahead, rfl⟩

end ChunkReader
end TraceStore
