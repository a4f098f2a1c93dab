import TraceStore.Proofs.Chunk.Handle
import TraceStore.Proofs.Chunk.Layout
import TraceStore.Proofs.Disk.Reader

/-!
# What a reader of chunks delivers
-/
namespace TraceStore.ChunkReader

variable {σ : Type} {c : Codec σ} {d : Disk} {r : ChunkReader} {s : List UInt8} {F : ByteArray}

/-! ### Opening -/

/-- Opening a file that starts with the magic. -/
theorem open_of_magic {path : String} {body : List UInt8} (hF : d.contents? path = some F)
    (hmagic : F.data.toList = c.magicBytes.data.toList ++ body) :
    ∃ source, ChunkReader.open c path d = .ok ⟨source, F.size, 2, 2, .empty, 0, false⟩ ∧
      source.Ahead d body ∧ d.node? source.node = some (.file F) := by
  obtain ⟨id, hlookup, hnode⟩ := Disk.lookup_of_contents hF
  obtain ⟨head, source, hread, hhead, hahead, hid⟩ := (FileReader.ahead_start hnode blockSize).read 2
  rw [hmagic, List.take_left' (by rfl)] at hhead
  rw [hmagic, List.drop_left' (by rfl)] at hahead
  have hnode' : d.node? source.node = some (.file F) := by rw [hid]; exact hnode
  refine ⟨source, ?_, hahead, hnode'⟩
  simp [ChunkReader.open, hlookup, hread, eq_of_toList_eq hhead, Disk.size_file hnode]

/-- Opening a file that starts otherwise, or is too short. -/
theorem open_of_not_magic {path : String} (hF : d.contents? path = some F)
    (hmagic : ¬ c.magicBytes.data.toList <+: F.data.toList) :
    ChunkReader.open c path d = .error (.corrupt .magicMismatch) := by
  obtain ⟨id, hlookup, hnode⟩ := Disk.lookup_of_contents hF
  obtain ⟨head, source, hread, hhead, -, -⟩ := (FileReader.ahead_start hnode blockSize).read 2
  have hne : head ≠ c.magicBytes := by
    rintro rfl
    exact hmagic (hhead ▸ List.take_prefix ..)
  simp [ChunkReader.open, hlookup, hread, hne]

/-! ### Loading a chunk -/

/-- At the end of the file there is no chunk to load. -/
theorem loadNext_nil (hparked : r.parked = false) (h : r.source.Ahead d []) :
    ∃ source, r.loadNext c d = (.ok false, { r with source }) ∧ source.Ahead d [] ∧
      source.node = r.source.node := by
  obtain ⟨header, source, hread, hheader, hahead, hnode⟩ := h.read chunkHeaderSize
  refine ⟨source, ?_, hahead, hnode⟩
  have hempty : header.isEmpty := isEmpty_iff.2 (toList_eq_nil_iff.1 hheader)
  simp [loadNext, hparked, hread, hempty]

private theorem length_header (length : Nat) :
    (LittleEndian.encode 4 length).length = chunkHeaderSize := LittleEndian.length_encode ..

/-- What loading does once a whole header is there. -/
private theorem loadNext_header {length : Nat} (hparked : r.parked = false)
    (hlength : length < 2 ^ 32) (h : r.source.Ahead d (LittleEndian.encode 4 length ++ s)) :
    ∃ source₁ block source₂, source₁.Ahead d s ∧ source₁.node = r.source.node ∧
      block.data.toList = s.take length ∧ source₂.Ahead d (s.drop length) ∧
      source₂.node = r.source.node ∧
      r.loadNext c d =
        if c.lengthLimit < length then
          (.error (.corrupt .lengthOverLimit), { r with source := source₁ })
        else if block.size < length then
          (.error (.corrupt .truncatedChunk), { r with source := source₂ })
        else match c.decompress block with
          | .error e => (.error e, { r with source := source₂ })
          | .ok cache => (.ok true, { r with
              source := source₂, cache, pos := 0, chunkStart := r.nextChunk
              nextChunk := r.nextChunk + chunkHeaderSize + length }) := by
  obtain ⟨header, source₁, hread₁, hheader, hahead₁, hnode₁⟩ := h.read chunkHeaderSize
  rw [List.take_left' (length_header _)] at hheader
  rw [List.drop_left' (length_header _)] at hahead₁
  obtain ⟨block, source₂, hread₂, hblock, hahead₂, hnode₂⟩ := hahead₁.read length
  refine ⟨source₁, block, source₂, hahead₁, hnode₁, hblock, hahead₂, hnode₂.trans hnode₁, ?_⟩
  have hsize : header.size = chunkHeaderSize := by
    rw [← length_toList, hheader, length_header]
  have hempty : header.isEmpty = false := by simp [ByteArray.isEmpty, hsize, chunkHeaderSize]
  have hdecode : LittleEndian.decode header.data.toList = length := by
    rw [hheader, LittleEndian.decode_encode_of_lt hlength]
  have hload := loadNext.eq_def c r d
  rw [if_neg (ne_true_of_eq_false hparked)] at hload
  simp only [hread₁, hempty, hsize, hdecode, hread₂, Nat.lt_irrefl, Bool.false_eq_true,
    if_false] at hload
  exact hload

/-- A block within the limits that lies ahead is loaded if the codec accepts it, and nothing but the
codec refuses it. -/
theorem loadNext_frame {block : ByteArray} (hparked : r.parked = false) (hlt : block.size < 2 ^ 32)
    (hle : block.size ≤ c.lengthLimit) (h : r.source.Ahead d (frameOf block ++ s)) :
    ∃ source, source.Ahead d s ∧ source.node = r.source.node ∧
      r.loadNext c d = match c.decompress block with
        | .error e => (.error e, { r with source })
        | .ok cache => (.ok true, { r with
            source, cache, pos := 0, chunkStart := r.nextChunk
            nextChunk := r.nextChunk + chunkHeaderSize + block.size }) := by
  rw [frameOf, List.append_assoc] at h
  obtain ⟨_, made, source, -, -, hmade, hahead, hnode, hload⟩ :=
    loadNext_header (c := c) hparked hlt h
  rw [List.drop_left' (length_toList _)] at hahead
  obtain rfl : made = block :=
    eq_of_toList_eq (by rw [hmade, List.take_left' (length_toList _)])
  refine ⟨source, hahead, hnode, ?_⟩
  rw [hload, if_neg (Nat.not_lt.2 hle), if_neg (Nat.lt_irrefl _)]

/-- A chunk that lies ahead is loaded, and the recorded positions move behind it. -/
theorem loadNext_chunk (hparked : r.parked = false) (chunk : Chunk c)
    (h : r.source.Ahead d (chunk.frame ++ s)) :
    ∃ source, r.loadNext c d = (.ok true, { r with
        source
        cache := chunk.data
        pos := 0
        chunkStart := r.nextChunk
        nextChunk := r.nextChunk + chunk.frame.length }) ∧
      source.Ahead d s ∧ source.node = r.source.node := by
  obtain ⟨source, hahead, hnode, hload⟩ := loadNext_frame hparked chunk.size_lt chunk.size_le h
  refine ⟨source, ?_, hahead, hnode⟩
  rw [hload, chunk.decompress_eq, Chunk.length_frame, Nat.add_assoc]

/-- Where reading ends with an error, loading fails with that error. Some of the file is used up,
and the recorded positions stay. -/
theorem loadNext_error {e : Error} (hparked : r.parked = false) (hend : Ends c s (.error e))
    (h : r.source.Ahead d s) :
    ∃ source rest, r.loadNext c d = (.error e, { r with source }) ∧ source.Ahead d rest ∧
      rest.length < s.length ∧ source.node = r.source.node := by
  cases hend with
  | truncatedHeader hpos hshort =>
      obtain ⟨header, source, hread, hheader, hahead, hnode⟩ := h.read chunkHeaderSize
      rw [List.take_of_length_le (Nat.le_of_lt hshort)] at hheader
      have hsize : header.size = s.length := by rw [← length_toList, hheader]
      refine ⟨source, _, ?_, hahead, ?_, hnode⟩
      · have hempty : header.isEmpty = false := by
          simp only [ByteArray.isEmpty, beq_eq_false_iff_ne]
          omega
        simp [loadNext, hparked, hread, hempty, hsize, hshort]
      · rw [List.length_drop, chunkHeaderSize]
        omega
  | lengthOverLimit hlength hlimit =>
      obtain ⟨source, _, _, hahead, hnode, -, -, -, hload⟩ :=
        loadNext_header (c := c) hparked hlength h
      exact ⟨source, _, by rw [hload, if_pos hlimit], hahead, by simp, hnode⟩
  | truncatedChunk hlength hlimit hshort =>
      obtain ⟨_, block, source, -, -, hblock, hahead, hnode, hload⟩ :=
        loadNext_header (c := c) hparked hlength h
      refine ⟨source, _, ?_, hahead, by simp; omega, hnode⟩
      rw [hload, if_neg (Nat.not_lt.2 hlimit), if_pos]
      rw [← length_toList, hblock, List.length_take]
      omega
  | refused hlength hlimit hrefuses =>
      obtain ⟨_, block, source, -, -, hblock, hahead, hnode, hload⟩ :=
        loadNext_header (c := c) hparked hlength h
      refine ⟨source, _, ?_, hahead, by simp; omega, hnode⟩
      rw [List.take_left' (length_toList _)] at hblock
      rw [hload, if_neg (Nat.not_lt.2 hlimit), eq_of_toList_eq hblock, if_neg (Nat.lt_irrefl _),
        hrefuses]

/-- All that loading can come to. -/
theorem loadNext_cases (c : Codec σ) (hparked : r.parked = false) (h : r.source.Ahead d s) :
    (s = [] ∧ ∃ source, r.loadNext c d = (.ok false, { r with source }) ∧ source.Ahead d [] ∧
        source.node = r.source.node) ∨
      (∃ (chunk : Chunk c) (rest : List UInt8) (source : FileReader), s = chunk.frame ++ rest ∧
        r.loadNext c d = (.ok true, { r with
          source
          cache := chunk.data
          pos := 0
          chunkStart := r.nextChunk
          nextChunk := r.nextChunk + chunk.frame.length }) ∧
        source.Ahead d rest ∧ source.node = r.source.node) ∨
      ∃ e source rest, r.loadNext c d = (.error e, { r with source }) ∧ source.Ahead d rest ∧
        rest.length < s.length ∧ source.node = r.source.node := by
  rcases ends_or_chunk c s with ⟨ending, hend⟩ | ⟨chunk, rest, rfl⟩
  · cases ending with
    | ok =>
        obtain rfl := hend.eq_nil
        exact .inl ⟨rfl, loadNext_nil hparked h⟩
    | error e =>
        obtain ⟨source, rest, hload⟩ := loadNext_error hparked hend h
        exact .inr (.inr ⟨e, source, rest, hload⟩)
  · obtain ⟨source, hload⟩ := loadNext_chunk hparked chunk h
    exact .inr (.inl ⟨chunk, rest, source, rfl, hload⟩)

/-- What every request to the source keeps, loading keeps. The length that the file had when it was
opened stays. -/
theorem loadNext_keeps {P : FileReader → Prop}
    (hread : ∀ source count, P source → P (source.read count d).2) (h : P r.source) :
    P (r.loadNext c d).2.source ∧ (r.loadNext c d).2.fileSize = r.fileSize := by
  rw [loadNext]
  split
  · exact ⟨h, rfl⟩
  have hheader := hread r.source chunkHeaderSize h
  split
  case h_1 hnext =>
    rw [hnext] at hheader
    exact ⟨hheader, rfl⟩
  case h_2 header source hnext =>
    rw [hnext] at hheader
    have hblock := hread source (LittleEndian.decode header.data.toList) hheader
    dsimp only
    split
    · exact ⟨hheader, rfl⟩
    split
    · exact ⟨hheader, rfl⟩
    split
    · exact ⟨hheader, rfl⟩
    split
    case h_1 hnext =>
      rw [hnext] at hblock
      exact ⟨hblock, rfl⟩
    case h_2 hnext =>
      rw [hnext] at hblock
      split
      · exact ⟨hblock, rfl⟩
      · split <;> exact ⟨hblock, rfl⟩

/-- Filling that succeeds leaves a byte to deliver. -/
theorem available_of_fill {r' : ChunkReader} (h : r.fill c d = (.ok true, r')) :
    0 < r'.available := by
  suffices ∀ fuel r, fillWithin c d fuel r = (.ok true, r') → r'.pos < r'.cache.size from
    Nat.sub_pos_of_lt (this _ _ h)
  intro fuel
  induction fuel with
  | zero =>
      intro r h
      simp only [fillWithin, Prod.mk.injEq, Except.ok.injEq, decide_eq_true_eq] at h
      exact h.2 ▸ h.1
  | succ fuel ih =>
      intro r h
      rw [fillWithin] at h
      split at h
      case isTrue hpos =>
        simp only [Prod.mk.injEq, true_and] at h
        exact h ▸ hpos
      case isFalse =>
        split at h
        · exact ih _ h
        · simp at h
        · simp at h

/-! ### Skipping -/

/-- Skipping is reading without the bytes. -/
theorem skip_eq_read (c : Codec σ) (d : Disk) (r : ChunkReader) (count : Nat) :
    r.skip c count d = (r.read c count d).map (Except.map fun _ => ()) id := by
  suffices ∀ fuel count done r, skipWithin c d fuel count r =
      (readWithin c d fuel count done r).map (Except.map fun _ => ()) id from this _ _ _ _
  intro fuel
  induction fuel with
  | zero => intro count done r; rfl
  | succ fuel ih =>
      intro count done r
      rw [skipWithin, readWithin]
      split
      · rfl
      · split
        · rfl
        · rfl
        · exact ih _ _ _

/-! ### What reading keeps -/

/-- What loading keeps, filling keeps. -/
theorem fill_keeps {P : ChunkReader → Prop}
    (load : ∀ {r}, P r → r.cache.size ≤ r.pos → P (r.loadNext c d).2) (hr : P r) :
    P (r.fill c d).2 := by
  suffices ∀ fuel r, P r → P (fillWithin c d fuel r).2 from this _ _ hr
  intro fuel
  induction fuel with
  | zero => intro r hr; exact hr
  | succ fuel ih =>
      intro r hr
      rw [fillWithin]
      split
      · exact hr
      · have hload := load hr (by omega)
        split <;> rename_i hnext <;> rw [hnext] at hload
        · exact ih _ hload
        · exact hload
        · exact hload

/-- A property of readers that loading keeps, whether it succeeds or not, and passing over bytes of
the chunk in the cache. -/
structure Kept (c : Codec σ) (d : Disk) (P : ChunkReader → Prop) : Prop where
  load : ∀ {r}, P r → r.cache.size ≤ r.pos → P (r.loadNext c d).2
  pass : ∀ {r count}, P r → count ≤ r.available → P { r with pos := r.pos + count }

namespace Kept

variable {P : ChunkReader → Prop}

theorem fill (h : Kept c d P) (hr : P r) : P (r.fill c d).2 := fill_keeps h.load hr

theorem readSome (h : Kept c d P) (hr : P r) (count : Nat) : P (r.readSome c count d).2 := by
  rw [ChunkReader.readSome]
  split
  · exact hr
  · have hfill := h.fill hr
    split <;> rename_i hnext <;> rw [hnext] at hfill
    · exact hfill
    · exact hfill
    · exact h.pass hfill (Nat.min_le_left ..)

theorem read (h : Kept c d P) (hr : P r) (count : Nat) : P (r.read c count d).2 := by
  suffices ∀ fuel count done r, P r → P (readWithin c d fuel count done r).2 from this _ _ _ _ hr
  intro fuel
  induction fuel with
  | zero => intro count done r hr; exact hr
  | succ fuel ih =>
      intro count done r hr
      rw [readWithin]
      split
      · exact hr
      · have hfill := h.fill hr
        split <;> rename_i hnext <;> rw [hnext] at hfill
        · exact hfill
        · exact hfill
        · exact ih _ _ _ (h.pass hfill (Nat.min_le_left ..))

theorem getc (h : Kept c d P) (hr : P r) : P (r.getc c d).2 := by
  rw [ChunkReader.getc]
  have hfill := h.fill hr
  split
  case h_1 hnext =>
    rw [hnext] at hfill
    exact h.pass hfill (available_of_fill hnext)
  case h_2 hnext =>
    rw [hnext] at hfill
    exact hfill

theorem skip (h : Kept c d P) (hr : P r) (count : Nat) : P (r.skip c count d).2 := by
  rw [skip_eq_read]
  exact h.read hr count

/-- What reading keeps, every request that reads on keeps. -/
theorem ask (h : Kept c d P) (hr : P r) {request : ReadRequest} (hrequest : request.Sequential) :
    P (r.ask c d request).2 := by
  cases request with
  | read count => exact h.read hr count
  | readSome count => exact h.readSome hr count
  | getc => exact h.getc hr
  | skip count => exact h.skip hr count
  | seek a => exact absurd hrequest id

end Kept

/-! ### The stream that a reader delivers -/

/-- A reader that has `s` to deliver, from the chunk in its cache and those ahead in the file, and
ends in `ending` after that. -/
def Streams (c : Codec σ) (d : Disk) (s : List UInt8) (ending : Except Error Unit)
    (r : ChunkReader) : Prop :=
  r.parked = false ∧ ∃ (chunks : List (Chunk c)) (tail : List UInt8),
    r.source.Ahead d (Chunk.frames chunks ++ tail) ∧ Ends c tail ending ∧
      s = r.cache.data.toList.drop r.pos ++ Chunk.decoded chunks

variable {ending : Except Error Unit}

@[simp] theorem size_take {count : Nat} (hcount : count ≤ r.available) :
    (r.take count).1.size = count := by
  rw [take, ByteArray.size_extract]
  simp only [available] at hcount
  omega

/-- The bytes that a request for some gets are the last ones delivered of the chunk in the cache. -/
theorem extract_of_readSome {count : Nat} {bytes : ByteArray} {r' : ChunkReader}
    (h : r.readSome c count d = (.ok bytes, r')) (hpos : 0 < bytes.size) :
    bytes.size ≤ r'.pos ∧ r'.pos ≤ r'.cache.size ∧
      bytes = r'.cache.extract (r'.pos - bytes.size) r'.pos := by
  rw [readSome] at h
  split at h
  · cases h
    cases hpos
  · split at h
    · cases h
    · cases h
      cases hpos
    case h_3 r₁ hfill =>
      have hsize := size_take (Nat.min_le_left r₁.available count)
      have hfilled := available_of_fill hfill
      cases h
      simp only [take, available] at hsize hfilled ⊢
      rw [hsize]
      refine ⟨Nat.le_add_left .., by omega, ?_⟩
      rw [Nat.add_sub_cancel]

private theorem drop_eq_nil_iff : r.cache.data.toList.drop r.pos = [] ↔ r.cache.size ≤ r.pos := by
  rw [List.drop_eq_nil_iff, length_toList]

namespace Streams

/-- Passing over bytes of the chunk in the cache. -/
theorem pass (h : r.Streams c d s ending) {count : Nat} (hcount : count ≤ r.available) :
    (r.take count).1.data.toList = s.take count ∧
      (r.take count).2.Streams c d (s.drop count) ending := by
  obtain ⟨hparked, chunks, tail, hahead, hend, rfl⟩ := h
  have hlen : count ≤ (r.cache.data.toList.drop r.pos).length := by
    rw [List.length_drop, length_toList]
    exact hcount
  refine ⟨?_, hparked, chunks, tail, hahead, hend, ?_⟩
  · rw [take, toList_extract, List.take_append_of_le_length hlen]
  · rw [take, List.drop_append_of_le_length hlen, List.drop_drop]

/-- Loading where no byte is left in the cache. -/
private theorem fillWithin_succ (hpos : r.cache.size ≤ r.pos) (fuel : Nat) :
    fillWithin c d (fuel + 1) r = match r.loadNext c d with
      | (.ok true, r) => fillWithin c d fuel r
      | (.ok false, r) => (.ok false, r)
      | (.error e, r) => (.error e, r) := by
  rw [fillWithin]
  exact if_neg (Nat.not_lt.2 hpos)

/-- Filling where bytes are to come, and filling where none are. Only chunks that decode to nothing
are passed over. -/
private theorem fillWithin_streams {tail : List UInt8} (hend : Ends c tail ending)
    (chunks : List (Chunk c)) : ∀ (fuel : Nat) (r : ChunkReader), r.parked = false →
      r.source.Ahead d (Chunk.frames chunks ++ tail) →
      (Chunk.frames chunks ++ tail).length < fuel →
      ∃ r', (r.cache.data.toList.drop r.pos ++ Chunk.decoded chunks ≠ [] →
          fillWithin c d fuel r = (.ok true, r') ∧
          r'.Streams c d (r.cache.data.toList.drop r.pos ++ Chunk.decoded chunks) ending) ∧
        (r.cache.data.toList.drop r.pos ++ Chunk.decoded chunks = [] →
          fillWithin c d fuel r = (ending.map fun _ => false, r') ∧
          (ending = .ok () → r'.Streams c d [] (.ok ()))) := by
  induction chunks with
  | nil =>
      intro fuel r hparked hahead hfuel
      obtain ⟨fuel, rfl⟩ : ∃ k, fuel = k + 1 := ⟨fuel - 1, by omega⟩
      by_cases hpos : r.pos < r.cache.size
      · refine ⟨r, fun _ => ⟨by rw [fillWithin, if_pos hpos], hparked, [], tail, hahead, hend, rfl⟩,
          fun hnil => ?_⟩
        simp at hnil
        omega
      · have hdrop : r.cache.data.toList.drop r.pos = [] := drop_eq_nil_iff.2 (by omega)
        cases ending with
        | ok =>
            cases hend
            obtain ⟨source, hload, hahead', -⟩ := loadNext_nil (c := c) hparked hahead
            refine ⟨{ r with source }, fun hne => by simp [hdrop] at hne, fun _ => ⟨?_, fun _ => ?_⟩⟩
            · rw [fillWithin_succ (by omega), hload]; rfl
            · exact ⟨hparked, [], [], hahead', .clean, by simp [hdrop]⟩
        | error e =>
            obtain ⟨source, _, hload, -⟩ := loadNext_error hparked hend hahead
            refine ⟨{ r with source }, fun hne => by simp [hdrop] at hne, fun _ => ⟨?_, by simp⟩⟩
            rw [fillWithin_succ (by omega), hload]; rfl
  | cons chunk chunks ih =>
      intro fuel r hparked hahead hfuel
      obtain ⟨fuel, rfl⟩ : ∃ k, fuel = k + 1 := ⟨fuel - 1, by omega⟩
      by_cases hpos : r.pos < r.cache.size
      · refine ⟨r, fun _ => ⟨by rw [fillWithin, if_pos hpos], hparked, _, tail, hahead, hend, rfl⟩,
          fun hnil => ?_⟩
        simp at hnil
        omega
      · have hdrop : r.cache.data.toList.drop r.pos = [] := drop_eq_nil_iff.2 (by omega)
        rw [Chunk.frames_cons, List.append_assoc] at hahead hfuel
        obtain ⟨source, hload, hahead', -⟩ := loadNext_chunk hparked chunk hahead
        rw [List.length_append, Chunk.length_frame, chunkHeaderSize] at hfuel
        rw [fillWithin_succ (by omega), hload, hdrop]
        exact ih fuel { r with
          source, cache := chunk.data, pos := 0, chunkStart := r.nextChunk
          nextChunk := r.nextChunk + chunk.frame.length } hparked hahead' (by omega)

/-- Filling where bytes are to come. -/
theorem fill_of_ne_nil (h : r.Streams c d s ending) (hs : s ≠ []) :
    ∃ r', r.fill c d = (.ok true, r') ∧ r'.Streams c d s ending := by
  obtain ⟨hparked, chunks, tail, hahead, hend, rfl⟩ := h
  obtain ⟨r', hne, -⟩ := fillWithin_streams hend chunks (r.source.unread d + 1) r hparked hahead
    (by rw [hahead.unread_eq]; omega)
  exact ⟨r', hne hs⟩

/-- Filling where no bytes are to come. -/
theorem fill_of_nil (h : r.Streams c d [] ending) :
    ∃ r', r.fill c d = (ending.map fun _ => false, r') ∧
      (ending = .ok () → r'.Streams c d [] (.ok ())) := by
  obtain ⟨hparked, chunks, tail, hahead, hend, hs⟩ := h
  obtain ⟨r', -, hnil⟩ := fillWithin_streams hend chunks (r.source.unread d + 1) r hparked hahead
    (by rw [hahead.unread_eq]; omega)
  exact ⟨r', hnil hs.symm⟩

/-- A request for some bytes where bytes are to come. -/
theorem readSome_of_ne_nil (h : r.Streams c d s ending) (hs : s ≠ []) {count : Nat}
    (hcount : 0 < count) :
    ∃ piece r' rest, r.readSome c count d = (.ok piece, r') ∧ s = piece.data.toList ++ rest ∧
      0 < piece.size ∧ piece.size ≤ count ∧ r'.Streams c d rest ending := by
  obtain ⟨r₁, hfill, h₁⟩ := h.fill_of_ne_nil hs
  obtain ⟨hpiece, hrest⟩ := h₁.pass (Nat.min_le_left r₁.available count)
  have hpos := available_of_fill hfill
  have hsize := size_take (Nat.min_le_left r₁.available count)
  refine ⟨(r₁.take (min r₁.available count)).1, _, _, ?_, ?_, ?_, ?_, hrest⟩
  · rw [readSome, if_neg (by omega), hfill]
  · rw [hpiece, List.take_append_drop]
  · rw [hsize]; omega
  · rw [hsize]; omega

/-- A request for some bytes where none are to come. -/
theorem readSome_of_nil (h : r.Streams c d [] ending) {count : Nat} (hcount : 0 < count) :
    ∃ r', r.readSome c count d = (ending.map fun _ => .empty, r') ∧
      (ending = .ok () → r'.Streams c d [] (.ok ())) := by
  obtain ⟨r', hfill, hkeep⟩ := h.fill_of_nil
  refine ⟨r', ?_, hkeep⟩
  rw [readSome, if_neg (by omega), hfill]
  cases ending <;> rfl

/-- A request for some bytes of a stream that ends cleanly. -/
theorem readSome_step (s : List UInt8) (r : ChunkReader) (h : r.Streams c d s (.ok ()))
    (count : Nat) (hcount : 0 < count) : ∃ piece r' rest, r.readSome c count d = (.ok piece, r') ∧
      s = piece.data.toList ++ rest ∧ piece.size ≤ count ∧ (piece.size = 0 → s = []) ∧
        r'.Streams c d rest (.ok ()) := by
  by_cases hs : s = []
  · subst hs
    obtain ⟨r', hread, hkeep⟩ := h.readSome_of_nil hcount
    exact ⟨.empty, r', [], hread, rfl, by simp, fun _ => rfl, hkeep rfl⟩
  · obtain ⟨piece, r', rest, hread, hsplit, hpos, hle, hrest⟩ := h.readSome_of_ne_nil hs hcount
    exact ⟨piece, r', rest, hread, hsplit, hle, by omega, hrest⟩

/-- A request for some bytes that gets none tells that the stream has ended, and cleanly. -/
theorem end_of_readSome (h : r.Streams c d s ending) {count : Nat} (hcount : 0 < count)
    (hread : (r.readSome c count d).1 = .ok .empty) : s = [] ∧ ending = .ok () := by
  by_cases hs : s = []
  · subst hs
    obtain ⟨r', hnext, -⟩ := h.readSome_of_nil hcount
    rw [hnext] at hread
    cases ending with
    | ok => exact ⟨rfl, rfl⟩
    | error e => cases hread
  · obtain ⟨piece, r', rest, hnext, -, hpos, -⟩ := h.readSome_of_ne_nil hs hcount
    rw [hnext] at hread
    cases hread
    cases hpos

/-- A stream that ends cleanly is delivered. -/
theorem delivers (h : r.Streams c d s (.ok ())) :
    Delivers (fun count r => r.readSome c count d) s r :=
  .of_invariant (fun s r => r.Streams c d s (.ok ())) readSome_step h

/-- Any stream is drained by requests of any size, up to its ending. -/
theorem drains (h : r.Streams c d s ending) {count : Nat} (hcount : 0 < count) :
    ∃ r', Drains (fun r => r.readSome c count d) r s ending r' := by
  induction hn : s.length using Nat.strongRecOn generalizing s r with
  | _ n ih =>
      by_cases hs : s = []
      · subst hs
        obtain ⟨r', hread, -⟩ := h.readSome_of_nil hcount
        cases ending with
        | ok => exact ⟨r', .ended hread rfl⟩
        | error e => exact ⟨r', .failed hread⟩
      · obtain ⟨piece, r', rest, hread, rfl, hpos, -, hrest⟩ := h.readSome_of_ne_nil hs hcount
        have hlt : rest.length < n := by
          rw [← hn, List.length_append, length_toList]
          omega
        obtain ⟨r'', hdrains⟩ := ih rest.length hlt hrest rfl
        exact ⟨r'', .more hread (by omega) hdrains⟩

/-- A reader has one stream to deliver, and one ending. -/
theorem unique {t : List UInt8} {ending' : Except Error Unit} (h : r.Streams c d s ending)
    (h' : r.Streams c d t ending') : s = t ∧ ending = ending' := by
  obtain ⟨_, hdrains⟩ := h.drains Nat.one_pos
  obtain ⟨_, hdrains'⟩ := h'.drains Nat.one_pos
  obtain ⟨hbytes, hending, -⟩ := hdrains.unique hdrains'
  exact ⟨hbytes, hending⟩

/-- One round of a request for exactly some bytes. -/
private theorem readWithin_round (h : r.Streams c d s ending) (hs : s ≠ []) {count : Nat}
    (hcount : count ≠ 0) (fuel : Nat) (done : ByteArray) :
    ∃ piece r' step, 0 < step ∧ step ≤ count ∧ step ≤ s.length ∧
      piece.data.toList = s.take step ∧ r'.Streams c d (s.drop step) ending ∧
      readWithin c d (fuel + 1) count done r =
        readWithin c d fuel (count - step) (done ++ piece) r' := by
  obtain ⟨r₁, hfill, h₁⟩ := h.fill_of_ne_nil hs
  obtain ⟨hpiece, hrest⟩ := h₁.pass (Nat.min_le_left r₁.available count)
  have hpos := available_of_fill hfill
  have hle : min r₁.available count ≤ s.length := by
    have hsize := size_take (Nat.min_le_left r₁.available count)
    rw [← length_toList, hpiece, List.length_take] at hsize
    omega
  refine ⟨(r₁.take (min r₁.available count)).1, _, _, by omega, by omega, hle, hpiece, hrest, ?_⟩
  rw [readWithin, if_neg hcount, hfill]

/-- A request for exactly as many bytes as there are, or fewer. -/
theorem read_of_le (h : r.Streams c d s ending) {count : Nat} (hcount : count ≤ s.length) :
    ∃ bytes r', r.read c count d = (.ok bytes, r') ∧ bytes.data.toList = s.take count ∧
      r'.Streams c d (s.drop count) ending := by
  suffices ∀ fuel count done (s : List UInt8) (r : ChunkReader), count ≤ fuel →
      count ≤ s.length → r.Streams c d s ending →
      ∃ bytes r', readWithin c d fuel count done r = (.ok bytes, r') ∧
        bytes.data.toList = done.data.toList ++ s.take count ∧
        r'.Streams c d (s.drop count) ending by
    simpa [read] using this count count .empty s r (Nat.le_refl _) hcount h
  intro fuel
  induction fuel with
  | zero =>
      intro count done s r hfuel hle h
      obtain rfl : count = 0 := by omega
      exact ⟨done, r, rfl, by simp, by simpa using h⟩
  | succ fuel ih =>
      intro count done s r hfuel hle h
      by_cases hzero : count = 0
      · subst hzero
        exact ⟨done, r, by rw [readWithin, if_pos rfl], by simp, by simpa using h⟩
      · have hs : s ≠ [] := by rintro rfl; simp at hle; omega
        obtain ⟨piece, r', step, hpos, hstep, hlen, hpiece, hrest, hround⟩ :=
          h.readWithin_round hs hzero fuel done
        obtain ⟨bytes, r'', hread, hbytes, hkeep⟩ :=
          ih (count - step) (done ++ piece) (s.drop step) r' (by omega)
            (by rw [List.length_drop]; omega) hrest
        refine ⟨bytes, r'', hround.trans hread, ?_, ?_⟩
        · rw [hbytes, ByteArray.toList_data_append, hpiece, List.append_assoc, ← List.take_add,
            Nat.add_sub_cancel' hstep]
        · rwa [List.drop_drop, Nat.add_sub_cancel' hstep] at hkeep

/-- A request for more bytes than there are before a clean end. -/
theorem read_of_lt (h : r.Streams c d s (.ok ())) {count : Nat} (hcount : s.length < count) :
    ∃ r', r.read c count d = (.error .unexpectedEof, r') ∧ r'.Streams c d [] (.ok ()) := by
  suffices ∀ fuel count done (s : List UInt8) (r : ChunkReader), count ≤ fuel →
      s.length < count → r.Streams c d s (.ok ()) →
      ∃ r', readWithin c d fuel count done r = (.error .unexpectedEof, r') ∧
        r'.Streams c d [] (.ok ()) from
    this count count .empty s r (Nat.le_refl _) hcount h
  intro fuel
  induction fuel with
  | zero => intro count done s r hfuel hlt; omega
  | succ fuel ih =>
      intro count done s r hfuel hlt h
      have hzero : count ≠ 0 := by omega
      by_cases hs : s = []
      · subst hs
        obtain ⟨r', hfill, hkeep⟩ := h.fill_of_nil
        refine ⟨r', ?_, hkeep rfl⟩
        rw [readWithin, if_neg hzero, hfill]
        rfl
      · obtain ⟨piece, r', step, hpos, hstep, hlen, hpiece, hrest, hround⟩ :=
          h.readWithin_round hs hzero fuel done
        obtain ⟨r'', hread, hkeep⟩ :=
          ih (count - step) (done ++ piece) (s.drop step) r' (by omega)
            (by rw [List.length_drop]; omega) hrest
        exact ⟨r'', hround.trans hread, hkeep⟩

/-- A request for a byte. -/
theorem getc (h : r.Streams c d s ending) : ∃ r', r.getc c d = (s.head?, r') ∧
    (s ≠ [] ∨ ending = .ok () → r'.Streams c d s.tail ending) := by
  cases s with
  | nil =>
      obtain ⟨r', hfill, hkeep⟩ := h.fill_of_nil
      refine ⟨r', ?_, ?_⟩
      · rw [ChunkReader.getc, hfill]
        cases ending <;> rfl
      · rintro (hne | rfl)
        · exact absurd rfl hne
        · exact hkeep rfl
  | cons b s =>
      obtain ⟨r₁, hfill, h₁⟩ := h.fill_of_ne_nil (List.cons_ne_nil b s)
      obtain ⟨hbyte, hrest⟩ := h₁.pass (available_of_fill hfill)
      refine ⟨_, ?_, fun _ => hrest⟩
      rw [ChunkReader.getc, hfill]
      dsimp only
      rw [← Array.getElem?_toList, hbyte]
      rfl

/-- A stream that ends cleanly is served. -/
theorem serves (h : r.Streams c d s (.ok ())) :
    Serves (fun count r => r.readSome c count d) (fun count r => r.read c count d) s r :=
  .of_invariant (fun s r => r.Streams c d s (.ok ())) readSome_step
    (fun s r h count hlt => by
      obtain ⟨r', hread, -⟩ := h.read_of_lt hlt
      rw [hread]) h

/-! ### Streams behind handles -/

variable {filename : String} {b : Chunked σ}

theorem delivers_handle (h : r.Streams b.codec d s (.ok ())) :
    Delivers (fun count f => f.readSome count d) s (r.handle filename b) :=
  Delivers.map (handle filename b) (fun count r => readSome_handle filename b r d count) h.delivers

theorem serves_handle (h : r.Streams b.codec d s (.ok ())) :
    Serves (fun count f => f.readSome count d) (fun count f => f.read count d) s
      (r.handle filename b) :=
  Serves.map (handle filename b) (fun count r => readSome_handle filename b r d count)
    (fun count r => read_handle filename b r d count) h.serves

theorem drains_handle (h : r.Streams b.codec d s ending) {count : Nat} (hcount : 0 < count) :
    ∃ f, Drains (fun f => f.readSome count d) (r.handle filename b) s ending f := by
  obtain ⟨r', hdrains⟩ := h.drains hcount
  exact ⟨_, Drains.map (handle filename b) (fun r => readSome_handle filename b r d count) hdrains⟩

end Streams

end TraceStore.ChunkReader
