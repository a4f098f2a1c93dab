import TraceStore.Proofs.Chunk.Reader

/-!
# Positions of a reader of chunks

A reader is opened at the first chunk, and `setCurrentOffset` brings it to any chunk or to the end
of the file, whatever it did before. As long as all chunks decode, the position that a reader tells
is that of the byte it delivers next: `InStep` holds of every reader that did not go to a position
which it rejected, and `InStep.resume` says that the position it tells leads any reader of the file
to the same bytes.
-/
namespace TraceStore.ChunkReader

variable {σ : Type} {c : Codec σ} {d : Disk} {r : ChunkReader} {F : ByteArray}

/-! ### Readers of one file -/

/-- Two readers of the same file, wherever they stand. -/
structure SameFile (r r' : ChunkReader) : Prop where
  node_eq : r'.source.node = r.source.node
  blockSize_eq : r'.source.blockSize = r.source.blockSize
  fileSize_eq : r'.fileSize = r.fileSize

namespace SameFile

variable {r' r'' : ChunkReader}

theorem refl (r : ChunkReader) : SameFile r r := ⟨rfl, rfl, rfl⟩

theorem trans (h : SameFile r r') (h' : SameFile r' r'') : SameFile r r'' :=
  ⟨h'.node_eq.trans h.node_eq, h'.blockSize_eq.trans h.blockSize_eq,
    h'.fileSize_eq.trans h.fileSize_eq⟩

theorem symm (h : SameFile r r') : SameFile r' r :=
  ⟨h.node_eq.symm, h.blockSize_eq.symm, h.fileSize_eq.symm⟩

end SameFile

/-- Loading keeps a reader on its file. -/
private theorem sameFile_loadNext (r : ChunkReader) : SameFile r (r.loadNext c d).2 := by
  obtain ⟨⟨hnode, hblock⟩, hsize⟩ := loadNext_keeps (c := c) (d := d) (r := r)
    (P := fun source => source.node = r.source.node ∧ source.blockSize = r.source.blockSize)
    (fun source count h =>
      have hkeeps := FileReader.read_keeps source count d
      ⟨hkeeps.1.trans h.1, hkeeps.2.trans h.2⟩) ⟨rfl, rfl⟩
  exact ⟨hnode, hblock, hsize⟩

/-- Reading keeps a reader on its file. -/
theorem kept_sameFile (c : Codec σ) (d : Disk) (r : ChunkReader) : Kept c d (SameFile r) where
  load h _ := h.trans (sameFile_loadNext _)
  pass h _ := h.trans ⟨rfl, rfl, rfl⟩

/-- A reader of the file `F`, wherever it stands. -/
structure OnFile (d : Disk) (F : ByteArray) (r : ChunkReader) : Prop where
  node_eq : d.node? r.source.node = some (.file F)
  fileSize_eq : r.fileSize = F.size

theorem OnFile.of_sameFile {r' : ChunkReader} (h : r.OnFile d F) (hsame : SameFile r r') :
    r'.OnFile d F :=
  ⟨by rw [hsame.node_eq]; exact h.node_eq, hsame.fileSize_eq.trans h.fileSize_eq⟩

theorem onFile_of_open {path : String} (hF : d.contents? path = some F)
    (h : ChunkReader.open c path d = .ok r) : r.OnFile d F := by
  by_cases hmagic : c.magicBytes.data.toList <+: F.data.toList
  · obtain ⟨body, hbody⟩ := hmagic
    obtain ⟨source, hopen, -, hnode⟩ := open_of_magic hF hbody.symm
    obtain rfl := Except.ok.inj (h.symm.trans hopen)
    exact ⟨hnode, rfl⟩
  · rw [open_of_not_magic hF hmagic] at h
    cases h

/-! ### Going to a position -/

/-- The place in a file that a position leads to. -/
def target (a : Offset) : Nat := if a.chunk = 0 then 2 else a.chunk.toNat

/-- The reader that `setCurrentOffset` loads a chunk with. -/
def aimed (r : ChunkReader) (a : Offset) : ChunkReader :=
  { r with
    source := r.source.seek (target a), parked := false, nextChunk := target a
    cache := .empty, pos := 0, chunkStart := target a }

theorem ahead_aimed (h : r.OnFile d F) (a : Offset) :
    (r.aimed a).source.Ahead d (F.data.toList.drop (target a)) :=
  FileReader.ahead_seek h.node_eq _

theorem setCurrentOffset_eq (c : Codec σ) (d : Disk) (r : ChunkReader) (a : Offset) :
    r.setCurrentOffset c a d =
      if r.fileSize < target a then (.error (.invalidOffset a.chunk a.inChunk), r.park)
      else match (r.aimed a).loadNext c d with
      | (.ok true, r) =>
        if a.inChunk.toNat ≤ r.cache.size then (.ok (), { r with pos := a.inChunk.toNat })
        else (.error (.invalidOffset a.chunk a.inChunk), r.park)
      | (.ok false, r) =>
        if a.inChunk = 0 then (.ok (), r)
        else (.error (.invalidOffset a.chunk a.inChunk), r.park)
      | (.error _, r) => (.error (.invalidOffset a.chunk a.inChunk), r.park) := rfl

/-- Going to a position keeps a reader on its file, whether the position is accepted or not. -/
private theorem sameFile_setCurrentOffset (r : ChunkReader) (a : Offset) :
    SameFile r (r.setCurrentOffset c a d).2 := by
  rw [setCurrentOffset_eq]
  split
  · exact ⟨rfl, rfl, rfl⟩
  have haimed : SameFile r (r.aimed a) := ⟨rfl, rfl, rfl⟩
  have hload := haimed.trans (sameFile_loadNext (c := c) (d := d) (r.aimed a))
  split <;> rename_i hnext <;> rw [hnext] at hload
  · split <;> exact hload.trans ⟨rfl, rfl, rfl⟩
  · split <;> exact hload.trans ⟨rfl, rfl, rfl⟩
  · exact hload.trans ⟨rfl, rfl, rfl⟩

/-- Every request keeps a reader on its file. -/
theorem sameFile_ask (r : ChunkReader) (request : ReadRequest) :
    SameFile r (r.ask c d request).2 := by
  cases request with
  | seek a => exact sameFile_setCurrentOffset r a
  | _ => exact (kept_sameFile c d r).ask (.refl r) trivial

/-- A position in a chunk is accepted if the file was long enough for it when it was opened, and the
reader stands there. -/
theorem setCurrentOffset_of_le (hnode : d.node? r.source.node = some (.file F)) {a : Offset}
    (hle : target a ≤ r.fileSize) (chunk : Chunk c) {rest : List UInt8}
    (hchunk : F.data.toList.drop (target a) = chunk.frame ++ rest)
    (ha : a.inChunk.toNat ≤ chunk.data.size) :
    ∃ source, r.setCurrentOffset c a d = (.ok (), ⟨source, r.fileSize, target a,
        target a + chunk.frame.length, chunk.data, a.inChunk.toNat, false⟩) ∧
      source.Ahead d rest ∧ source.node = r.source.node := by
  have hahead : (r.aimed a).source.Ahead d (F.data.toList.drop (target a)) :=
    FileReader.ahead_seek hnode _
  rw [hchunk] at hahead
  obtain ⟨source, hload, hrest, hnode'⟩ := loadNext_chunk rfl chunk hahead
  refine ⟨source, ?_, hrest, hnode'⟩
  rw [setCurrentOffset_eq, if_neg (Nat.not_lt.2 hle), hload]
  simp [aimed, ha]

/-- A position in a chunk is accepted, and the reader stands there. -/
theorem setCurrentOffset_chunk (h : r.OnFile d F) {a : Offset} (chunk : Chunk c)
    {rest : List UInt8} (hchunk : F.data.toList.drop (target a) = chunk.frame ++ rest)
    (ha : a.inChunk.toNat ≤ chunk.data.size) :
    ∃ source, r.setCurrentOffset c a d = (.ok (), ⟨source, F.size, target a,
        target a + chunk.frame.length, chunk.data, a.inChunk.toNat, false⟩) ∧
      source.Ahead d rest ∧ source.node = r.source.node := by
  have hle : target a ≤ F.size :=
    Nat.le_trans (Nat.le_add_right ..) (add_length_le_size hchunk chunk.length_frame_pos)
  rw [← h.fileSize_eq] at hle ⊢
  exact setCurrentOffset_of_le h.node_eq hle chunk hchunk ha

/-- The end of the file is accepted as a position, and the reader stands there. -/
theorem setCurrentOffset_end (h : r.OnFile d F) {a : Offset} (hend : target a = F.size)
    (ha : a.inChunk = 0) :
    ∃ source, r.setCurrentOffset c a d =
        (.ok (), ⟨source, F.size, F.size, F.size, .empty, 0, false⟩) ∧
      source.Ahead d [] ∧ source.node = r.source.node := by
  have hahead := ahead_aimed h a
  rw [hend, List.drop_of_length_le (Nat.le_of_eq (length_toList F))] at hahead
  obtain ⟨source, hload, hrest, hnode⟩ := loadNext_nil (c := c) (r := r.aimed a) rfl hahead
  refine ⟨source, ?_, hrest, hnode⟩
  rw [setCurrentOffset_eq, if_neg (by rw [h.fileSize_eq, hend]; exact Nat.lt_irrefl _), hload]
  simp [aimed, ha, hend, h.fileSize_eq]

/-! ### The position that a reader tells -/

/-- The recorded positions are those of the chunk in the cache, if there is one, and of what lies
ahead, and all chunks ahead decode. -/
structure InStep (c : Codec σ) (d : Disk) (F : ByteArray) (r : ChunkReader) : Prop
    extends OnFile d F r where
  parked_eq : r.parked = false
  ahead : r.source.Ahead d (F.data.toList.drop r.nextChunk)
  clean : ∃ chunks : List (Chunk c), F.data.toList.drop r.nextChunk = Chunk.frames chunks
  nextChunk_le : r.nextChunk ≤ F.size
  two_le : 2 ≤ r.chunkStart
  cached : r.cache = .empty ∧ r.pos = 0 ∧ r.chunkStart = r.nextChunk ∨
    ∃ chunk : Chunk c, chunk.data = r.cache ∧ r.pos ≤ r.cache.size ∧
      F.data.toList.drop r.chunkStart = chunk.frame ++ F.data.toList.drop r.nextChunk ∧
      r.nextChunk = r.chunkStart + chunk.frame.length

/-- A reader just opened is in step if the file is chunks only. -/
theorem inStep_of_open {path : String} (hF : d.contents? path = some F) {chunks : List (Chunk c)}
    (hchunks : F.data.toList = c.magicBytes.data.toList ++ Chunk.frames chunks)
    (h : ChunkReader.open c path d = .ok r) : r.InStep c d F := by
  obtain ⟨source, hopen, hahead, hnode⟩ := open_of_magic hF hchunks
  obtain rfl := Except.ok.inj (h.symm.trans hopen)
  have hbehind : F.data.toList.drop 2 = Chunk.frames chunks := by
    rw [hchunks, List.drop_left' (by rfl)]
  exact {
    node_eq := hnode
    fileSize_eq := rfl
    parked_eq := rfl
    ahead := by rw [hbehind]; exact hahead
    clean := ⟨chunks, hbehind⟩
    nextChunk_le := by
      have hlen := congrArg List.length hchunks
      rw [length_toList, List.length_append, length_toList, Codec.size_magicBytes] at hlen
      show 2 ≤ F.size
      omega
    two_le := Nat.le_refl 2
    cached := .inl ⟨rfl, rfl, rfl⟩ }

/-- Reading keeps the recorded positions right where all chunks decode. -/
theorem kept_inStep (c : Codec σ) (d : Disk) (F : ByteArray) : Kept c d (InStep c d F) where
  load := by
    intro r h _
    obtain ⟨chunks, hchunks⟩ := h.clean
    have hahead := h.ahead
    cases chunks with
    | nil =>
        rw [hchunks, Chunk.frames_nil] at hahead
        obtain ⟨source, hload, hrest, hnode⟩ := loadNext_nil (c := c) h.parked_eq hahead
        rw [hload]
        exact { h with
          node_eq := by rw [hnode]; exact h.node_eq
          ahead := by rw [hchunks]; exact hrest }
    | cons chunk chunks =>
        rw [Chunk.frames_cons] at hchunks
        rw [hchunks] at hahead
        obtain ⟨source, hload, hrest, hnode⟩ := loadNext_chunk h.parked_eq chunk hahead
        have hbehind := drop_behind hchunks
        have htwo : 2 ≤ r.nextChunk := by
          have := h.two_le
          rcases h.cached with ⟨-, -, hstart⟩ | ⟨_, -, -, -, hnext⟩ <;> omega
        rw [hload]
        exact {
          node_eq := by rw [hnode]; exact h.node_eq
          fileSize_eq := h.fileSize_eq
          parked_eq := h.parked_eq
          ahead := by rw [hbehind]; exact hrest
          clean := ⟨chunks, hbehind⟩
          nextChunk_le := add_length_le_size hchunks chunk.length_frame_pos
          two_le := htwo
          cached := .inr ⟨chunk, rfl, Nat.zero_le _, by rw [hbehind]; exact hchunks, rfl⟩ }
  pass := by
    intro r count h hcount
    refine { h with cached := ?_ }
    rcases h.cached with ⟨hcache, hpos, hstart⟩ | ⟨chunk, hcache, hpos, hchunk, hnext⟩
    · have : count = 0 := by simpa [available, hcache] using hcount
      exact .inl ⟨hcache, by rw [this, hpos], hstart⟩
    · refine .inr ⟨chunk, hcache, ?_, hchunk, hnext⟩
      show r.pos + count ≤ r.cache.size
      simp only [available] at hcount
      omega

/-! ### Resuming -/

theorem target_ofNat {start count : Nat} (hpos : 0 < start) (hstart : start < 2 ^ 64) :
    target (.ofNat start count) = start := by
  have hne : UInt64.ofNat start ≠ 0 := by
    rw [Ne, ← UInt64.toNat_inj, UInt64.toNat_ofNat', Nat.mod_eq_of_lt hstart]
    simp
    omega
  rw [target, Offset.ofNat, if_neg hne, UInt64.toNat_ofNat', Nat.mod_eq_of_lt hstart]

theorem inChunk_ofNat {start count : Nat} (hcount : count < 2 ^ 32) :
    (Offset.ofNat start count).inChunk.toNat = count := by
  rw [Offset.ofNat, UInt32.toNat_ofNat', Nat.mod_eq_of_lt hcount]

/-- A position is accepted by every reader of the file if only chunks that decode lie behind its
place, and the first of them is as long as it says. The reader tells that position again, and
delivers what lies behind it. -/
theorem seek (h : r.OnFile d F) {a : Offset} {start count : Nat} (htarget : target a = start)
    (hin : a.inChunk.toNat = count) (htwo : 2 ≤ start) (hstart : start ≤ F.size)
    {chunks : List (Chunk c)} (hchunks : F.data.toList.drop start = Chunk.frames chunks)
    (hfirst : count = 0 ∨ ∃ chunk more, chunks = chunk :: more ∧ count ≤ chunk.data.size) :
    ∃ r', r.setCurrentOffset c a d = (.ok (), r') ∧ r'.currentOffset = .ofNat start count ∧
      r'.Streams c d ((Chunk.decoded chunks).drop count) (.ok ()) ∧ r'.InStep c d F := by
  cases chunks with
  | nil =>
      obtain rfl : count = 0 := by
        rcases hfirst with hzero | ⟨_, _, hcons, -⟩
        · exact hzero
        · cases hcons
      obtain rfl : start = F.size := by
        have hlen := congrArg List.length hchunks
        rw [List.length_drop, length_toList, Chunk.frames_nil, List.length_nil] at hlen
        omega
      have hzero : a.inChunk = 0 := UInt32.toNat_inj.1 hin
      obtain ⟨source, hseek, hahead, hnode⟩ := setCurrentOffset_end (c := c) h htarget hzero
      refine ⟨_, hseek, rfl, ⟨rfl, [], [], hahead, .clean, rfl⟩, ?_⟩
      exact {
        node_eq := by rw [hnode]; exact h.node_eq
        fileSize_eq := rfl
        parked_eq := rfl
        ahead := by rw [hchunks]; exact hahead
        clean := ⟨[], hchunks⟩
        nextChunk_le := Nat.le_refl _
        two_le := htwo
        cached := .inl ⟨rfl, rfl, rfl⟩ }
  | cons chunk chunks =>
      have hle : count ≤ chunk.data.size := by
        rcases hfirst with hzero | ⟨_, _, hcons, hle⟩
        · omega
        · cases hcons; exact hle
      rw [Chunk.frames_cons] at hchunks
      have hbehind := drop_behind hchunks
      obtain ⟨source, hseek, hahead, hnode⟩ :=
        setCurrentOffset_chunk h chunk (by rw [htarget]; exact hchunks) (by rw [hin]; exact hle)
      rw [htarget, hin] at hseek
      refine ⟨_, hseek, rfl, ⟨rfl, chunks, [], ?_, .clean, ?_⟩, ?_⟩
      · rw [List.append_nil]; exact hahead
      · rw [Chunk.decoded_cons, List.drop_append_of_le_length hle]
      · exact {
          node_eq := by rw [hnode]; exact h.node_eq
          fileSize_eq := rfl
          parked_eq := rfl
          ahead := by rw [hbehind]; exact hahead
          clean := ⟨chunks, hbehind⟩
          nextChunk_le := add_length_le_size hchunks chunk.length_frame_pos
          two_le := htwo
          cached := .inr ⟨chunk, rfl, hle, by rw [hbehind]; exact hchunks, rfl⟩ }

/-- The start of the stream is accepted by every reader of a file that is chunks only. -/
theorem OnFile.rewind (h : r.OnFile d F) {chunks : List (Chunk c)}
    (hchunks : F.data.toList = c.magicBytes.data.toList ++ Chunk.frames chunks) :
    ∃ r', r.setCurrentOffset c default d = (.ok (), r') ∧ r'.InStep c d F := by
  have hbehind : F.data.toList.drop 2 = Chunk.frames chunks := by
    rw [hchunks, List.drop_left' (by rfl)]
  have htwo : 2 ≤ F.size := by
    have hlen := congrArg List.length hchunks
    rw [length_toList, List.length_append, length_toList, Codec.size_magicBytes] at hlen
    omega
  obtain ⟨r', hseek, -, -, hstep⟩ :=
    seek h (a := default) rfl rfl (Nat.le_refl 2) htwo hbehind (.inl rfl)
  exact ⟨r', hseek, hstep⟩

/-- The position that a reader tells leads every reader of the file, on this disk or on another one
that holds the same file, to the same bytes. -/
theorem InStep.resume (h : r.InStep c d F) (hc : c.Bounded) (hF : F.size < 2 ^ 64) :
    ∃ s, r.Streams c d s (.ok ()) ∧ ∀ (d' : Disk) (g : ChunkReader), g.OnFile d' F →
      ∃ g', g.setCurrentOffset c r.currentOffset d' = (.ok (), g') ∧
        g'.currentOffset = r.currentOffset ∧ g'.Streams c d' s (.ok ()) ∧ g'.InStep c d' F := by
  obtain ⟨chunks, hchunks⟩ := h.clean
  have hahead := h.ahead
  rw [hchunks, ← List.append_nil (Chunk.frames chunks)] at hahead
  refine ⟨_, ⟨h.parked_eq, chunks, [], hahead, .clean, rfl⟩, fun d' g hg => ?_⟩
  have hnext := h.nextChunk_le
  have hstarts : 0 < r.chunkStart := Nat.lt_of_lt_of_le Nat.two_pos h.two_le
  rcases h.cached with ⟨hcache, hpos, hstart⟩ | ⟨chunk, hcache, hpos, hchunk, hbehind⟩
  · obtain ⟨g', hseek, htell, hstreams, hstep⟩ :=
      seek hg (target_ofNat hstarts (by omega)) (inChunk_ofNat (by omega)) h.two_le (by omega)
        (by rw [hstart]; exact hchunks) (.inl hpos)
    refine ⟨g', hseek, htell, ?_, hstep⟩
    rw [hpos, List.drop_zero] at hstreams
    rw [hcache, hpos]
    exact hstreams
  · have hbound : chunk.data.size ≤ maxChunkSize := hc chunk.decompress_eq
    rw [← hcache] at hpos ⊢
    have hfits : r.pos < 2 ^ 32 := by rw [maxChunkSize] at hbound; omega
    have hall : F.data.toList.drop r.chunkStart = Chunk.frames (chunk :: chunks) := by
      rw [hchunk, hchunks, Chunk.frames_cons]
    obtain ⟨g', hseek, htell, hstreams, hstep⟩ :=
      seek hg (target_ofNat hstarts (by omega)) (inChunk_ofNat hfits) h.two_le (by omega) hall
        (.inr ⟨chunk, chunks, rfl, hpos⟩)
    refine ⟨g', hseek, htell, ?_, hstep⟩
    rw [Chunk.decoded_cons, List.drop_append_of_le_length hpos] at hstreams
    exact hstreams

end TraceStore.ChunkReader
