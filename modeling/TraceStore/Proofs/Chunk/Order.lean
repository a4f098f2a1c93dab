import TraceStore.Proofs.Chunk.Follow
import TraceStore.Proofs.Chunk.Standing

/-!
# Positions are in the order of the stream

A place in the stream of a trace has several positions: the end of a chunk, the start of the next
one or the end of the file. While one handle writes the trace, others read it, and all of them tell
where they are. Of two positions that were told, the one of the place further behind in the stream
is the larger one, whoever told them and whenever: `Chunked.marks_in_order`.
-/
namespace TraceStore

/-! ### Comparing positions -/

namespace Offset

theorem ofNat_lt_iff {start₁ pos₁ start₂ pos₂ : Nat} (hstart₁ : start₁ < 2 ^ 64)
    (hstart₂ : start₂ < 2 ^ 64) (hpos₁ : pos₁ < 2 ^ 32) (hpos₂ : pos₂ < 2 ^ 32) :
    ofNat start₁ pos₁ < ofNat start₂ pos₂ ↔ start₁ < start₂ ∨ start₁ = start₂ ∧ pos₁ < pos₂ := by
  show UInt64.ofNat start₁ < UInt64.ofNat start₂ ∨ UInt64.ofNat start₁ = UInt64.ofNat start₂ ∧
    UInt32.ofNat pos₁ < UInt32.ofNat pos₂ ↔ _
  simp only [UInt64.lt_iff_toNat_lt, UInt32.lt_iff_toNat_lt, ← UInt64.toNat_inj,
    UInt64.toNat_ofNat', UInt32.toNat_ofNat', Nat.mod_eq_of_lt hstart₁, Nat.mod_eq_of_lt hstart₂,
    Nat.mod_eq_of_lt hpos₁, Nat.mod_eq_of_lt hpos₂]

theorem ofNat_le_iff {start₁ pos₁ start₂ pos₂ : Nat} (hstart₁ : start₁ < 2 ^ 64)
    (hstart₂ : start₂ < 2 ^ 64) (hpos₁ : pos₁ < 2 ^ 32) (hpos₂ : pos₂ < 2 ^ 32) :
    ofNat start₁ pos₁ ≤ ofNat start₂ pos₂ ↔ start₁ < start₂ ∨ start₁ = start₂ ∧ pos₁ ≤ pos₂ := by
  show UInt64.ofNat start₁ < UInt64.ofNat start₂ ∨ UInt64.ofNat start₁ = UInt64.ofNat start₂ ∧
    UInt32.ofNat pos₁ ≤ UInt32.ofNat pos₂ ↔ _
  simp only [UInt64.lt_iff_toNat_lt, UInt32.le_iff_toNat_le, ← UInt64.toNat_inj,
    UInt64.toNat_ofNat', UInt32.toNat_ofNat', Nat.mod_eq_of_lt hstart₁, Nat.mod_eq_of_lt hstart₂,
    Nat.mod_eq_of_lt hpos₁, Nat.mod_eq_of_lt hpos₂]

theorem not_le_of_lt {a b : Offset} (h : a < b) : ¬b ≤ a := by
  rintro (hle | ⟨hchunk, hle⟩) <;> rcases h with hlt | ⟨hchunk', hlt⟩
  all_goals
    simp only [UInt64.lt_iff_toNat_lt, UInt32.lt_iff_toNat_lt, UInt32.le_iff_toNat_le,
      ← UInt64.toNat_inj] at *
    omega

theorem default_le (a : Offset) : default ≤ a := by
  show (0 : UInt64) < a.chunk ∨ (0 : UInt64) = a.chunk ∧ (0 : UInt32) ≤ a.inChunk
  simp only [UInt64.lt_iff_toNat_lt, UInt32.le_iff_toNat_le, ← UInt64.toNat_inj]
  simp only [UInt64.toNat_zero, UInt32.toNat_zero]
  omega

end Offset

variable {σ : Type} {c : Codec σ} {o : WriteOptions}

namespace Chunk

variable {chunks chunks' : List (Chunk c)} {written written' start pos k : Nat}

/-- Whether the place `start` of a file, and `pos` bytes of the chunk there, is behind the first `k`
bytes of the stream. The bytes of that chunk were written at least, if it is not there yet. -/
def Tells (chunks : List (Chunk c)) (written start pos k : Nat) : Prop :=
  ∃ before behind, chunks = before ++ behind ∧ start = 2 + (frames before).length ∧
    k = (decoded before).length + pos ∧ k ≤ written ∧ pos ≤ maxChunkSize ∧
    ∀ chunk ∈ behind.head?, pos ≤ chunk.data.size

/-- The start of the stream. -/
theorem tells_start (chunks : List (Chunk c)) (written : Nat) : Tells chunks written 2 0 0 :=
  ⟨[], chunks, rfl, rfl, rfl, Nat.zero_le _, Nat.zero_le _, fun _ _ => Nat.zero_le _⟩

theorem Tells.bounds (h : Tells chunks written start pos k)
    (hsize : 2 + (frames chunks).length < 2 ^ 64) :
    2 ≤ start ∧ start < 2 ^ 64 ∧ pos < 2 ^ 32 := by
  obtain ⟨before, behind, rfl, rfl, -, -, hpos, -⟩ := h
  rw [frames_append, List.length_append] at hsize
  rw [maxChunkSize] at hpos
  omega

/-- As more is written, a place stays behind the same bytes. -/
theorem Tells.grow (h : Tells chunks written start pos k)
    (hextends : Extends chunks written chunks' written') : Tells chunks' written' start pos k := by
  obtain ⟨before, behind, rfl, hstart, hk, hle, hpos, hfirst⟩ := h
  obtain ⟨more, rfl, hmore⟩ := hextends.exists_more
  refine ⟨before, behind ++ more, List.append_assoc .., hstart, hk,
    Nat.le_trans hle hextends.written_le, hpos, ?_⟩
  cases behind with
  | nil =>
      intro chunk hchunk
      have hroom := hmore chunk hchunk
      rw [List.append_nil] at hroom
      omega
  | cons first behind => exact hfirst

/-- A place that is behind more bytes lies further behind in the file, or in the same chunk. -/
theorem Tells.lt_of_lt {start₁ pos₁ k₁ start₂ pos₂ k₂ : Nat}
    (h₁ : Tells chunks written start₁ pos₁ k₁) (h₂ : Tells chunks written start₂ pos₂ k₂)
    (hlt : k₁ < k₂) : start₁ < start₂ ∨ start₁ = start₂ ∧ pos₁ < pos₂ := by
  obtain ⟨before₁, behind₁, hsplit₁, rfl, rfl, -⟩ := h₁
  obtain ⟨before₂, behind₂, hsplit₂, rfl, rfl, -, -, hfirst₂⟩ := h₂
  rcases List.append_eq_append_iff.1 (hsplit₁.symm.trans hsplit₂) with
    ⟨between, rfl, -⟩ | ⟨between, rfl, rfl⟩
  · cases between with
    | nil =>
        rw [List.append_nil] at hlt ⊢
        exact .inr ⟨rfl, by omega⟩
    | cons chunk between =>
        left
        have hpos := chunk.length_frame_pos
        rw [frames_append, frames_cons, List.length_append, List.length_append]
        omega
  · cases between with
    | nil =>
        rw [List.append_nil] at hlt ⊢
        exact .inr ⟨rfl, by omega⟩
    | cons chunk between =>
        -- All of the chunk would be among the first bytes.
        have hle := hfirst₂ chunk rfl
        rw [decoded_append, decoded_cons, List.length_append, List.length_append,
          length_toList] at hlt
        omega

/-- What is pending after more was written is further behind than what was pending before. -/
theorem Extends.le_of_pending {pending pending' : Nat}
    (h : Extends chunks written chunks' written')
    (hpending : written = (decoded chunks).length + pending)
    (hpending' : written' = (decoded chunks').length + pending') :
    (frames chunks).length < (frames chunks').length ∨
      (frames chunks).length = (frames chunks').length ∧ pending ≤ pending' := by
  obtain ⟨more, rfl, -⟩ := h.exists_more
  have hle := h.written_le
  cases more with
  | nil =>
      rw [List.append_nil] at hpending' ⊢
      exact .inr ⟨rfl, by omega⟩
  | cons chunk more =>
      left
      have hpos := chunk.length_frame_pos
      rw [frames_append, frames_cons, List.length_append, List.length_append]
      omega

end Chunk

/-! ### What readers tell -/

namespace ChunkReader

variable {d : Disk} {F : ByteArray} {chunks : List (Chunk c)} {written k : Nat} {r r' : ChunkReader}

/-- A reader tells the position of the place where it stands. -/
theorem Standing.tells (h : r.Standing c d F k) (hc : c.Bounded)
    (hbegins : F.data.toList <+: c.magicBytes.data.toList ++ Chunk.frames chunks)
    (hwritten : (Chunk.decoded chunks).length ≤ written) :
    Chunk.Tells chunks written r.chunkStart r.pos k := by
  have hk := Nat.le_trans (h.trails hbegins).1 hwritten
  have htwo : 2 ≤ F.size := h.elim (·.two_le) fun h => by
    obtain ⟨_, -, hnext, -⟩ := h.behind
    have hle := h.nextChunk_le
    omega
  obtain ⟨-, hheld⟩ := drop_of_begins htwo hbegins
  rcases h with h | h
  · rcases h.names with ⟨hstart, hpos, rfl⟩ | ⟨before, chunk, rest, hsplit, hpos, hstart, hbehind⟩
    · rw [hstart, hpos]
      exact Chunk.tells_start chunks written
    · obtain ⟨behind, rfl⟩ : before ++ [chunk] <+: chunks := by
        refine Chunk.prefix_of_frames (List.IsPrefix.trans ⟨rest, ?_⟩ hheld)
        rw [hsplit]
        simp
      refine ⟨before, chunk :: behind, by simp, hstart, hbehind, hk,
        Nat.le_trans hpos (hc chunk.decompress_eq), fun first hfirst => ?_⟩
      obtain rfl := Option.some.inj hfirst
      exact hpos
  · obtain ⟨-, hpos, hstart⟩ := h.empty
    obtain ⟨before, hsplit, hnext, hbehind⟩ := h.behind
    obtain ⟨behind, rfl⟩ : before <+: chunks := by
      refine Chunk.prefix_of_frames (List.IsPrefix.trans ?_ hheld)
      rw [hsplit]
      exact List.prefix_append _ _
    rw [hpos, hstart]
    exact ⟨before, behind, rfl, hnext, hbehind, hk, Nat.zero_le _, fun _ _ => Nat.zero_le _⟩

/-- A reader that goes to a position that was told, and is not rejected, stands there. -/
theorem standing_of_tells (h : r.source.Within d F) (hsize : r.fileSize ≤ F.size) {a : Offset}
    (hbegins : F.data.toList <+: c.magicBytes.data.toList ++ Chunk.frames chunks)
    (htells : Chunk.Tells chunks written (target a) a.inChunk.toNat k)
    (hseek : r.setCurrentOffset c a d = (.ok (), r')) : r'.Standing c d F k := by
  have hle : target a ≤ F.size := by
    rw [setCurrentOffset_eq] at hseek
    split at hseek
    · cases hseek
    · omega
  obtain ⟨before, behind, rfl, hstart, rfl, -⟩ := htells
  obtain ⟨-, rest, hheld⟩ := drop_of_begins (by omega) hbegins
  refine standing_of_accepted h hsize ?_ hstart hseek
  -- The chunks before the place are in the file in full.
  have hfirst : Chunk.frames before <+: Chunk.frames (before ++ behind) := by
    rw [Chunk.frames_append]
    exact List.prefix_append _ _
  have hbefore : Chunk.frames before <+: F.data.toList.drop 2 := by
    refine List.prefix_of_prefix_length_le hfirst ⟨rest, hheld⟩ ?_
    rw [List.length_drop, length_toList]
    omega
  obtain ⟨rest', hrest'⟩ := hbefore
  have hsplit : F.data.toList.drop 2 = Chunk.frames before ++ rest' := hrest'.symm
  rwa [hstart, drop_behind hsplit]

end ChunkReader

/-! ### One writer and many readers -/

/-- A handle that writes a trace, handles that read it, and what they did. -/
structure Shared (σ : Type) where
  writer : File (Chunked σ)
  disk : Disk
  /-- The bytes written so far. -/
  written : List UInt8
  /-- The bytes written before the last flush or close. -/
  flushed : List UInt8
  /-- The handles that read, and how many of the bytes written each of them stands behind. -/
  readers : List (File (Chunked σ) × Nat)
  /-- The positions told so far, and how many bytes were written or passed by whoever told them. -/
  marks : List (Offset × Nat)

/-- The writer tells the position behind all that was written. -/
theorem Following.Writes.exists_pending {path : String} {d₀ d : Disk} {id : Nat}
    {chunks : List (Chunk c)} {F : ByteArray} {f : File (Chunked σ)} {written : List UInt8}
    (h : Following.Writes c o path d₀ id chunks F f d written) (hopened : f.opened = true) :
    ∃ pending, f.currentOffset.1 = .ofNat (2 + (Chunk.frames chunks).length) pending ∧
      written.length = (Chunk.decoded chunks).length + pending ∧ pending < o.chunkSize.toNat := by
  cases h with
  | @writing memory₀ memory w emitted hwriter hemits hlt _ hframes hwritten =>
      refine ⟨w.cache.size, ?_, ?_, hlt⟩
      · rw [hwriter, ChunkWriter.currentOffset_handle, ChunkWriter.currentOffset,
          hemits.written_eq, hframes]
      · rw [← hwritten, List.length_append, length_toList]
  | closed hwriter =>
      rw [hwriter] at hopened
      cases hopened

namespace Shared

/-- The handle that writes, and what it did. -/
def unread (s : Shared σ) : Following σ := ⟨s.writer, none, s.disk, s.written, s.flushed, []⟩

/-- What may happen next, as long as no reader meets an error. A reader may go to a position that
was told, or to the start; the step tells which one does. -/
inductive Step (c : Codec σ) (path : String) (s : Shared σ) : Option Nat → Shared σ → Prop
  | writer {t : Following σ} : Following.Step c path s.unread t → t.reader = none →
      Step c path s none { s with
        writer := t.writer, disk := t.disk, written := t.written, flushed := t.flushed }
  | openReader {f g : File (Chunked σ)} : f.backend.codec = c →
      f.open path .read s.disk = ⟨.ok (), g, s.disk⟩ →
      Step c path s none { s with readers := s.readers ++ [(g, 0)] }
  | ask {i : Nat} {g : File (Chunked σ)} {k : Nat} {request : ReadRequest} {count : Nat} :
      s.readers[i]? = some (g, k) → ¬ LoadFails s.disk g request →
      request.Takes (g.ask s.disk request).1 count →
      Step c path s none { s with
        readers := s.readers.set i ((g.ask s.disk request).2, k + count) }
  | mark {i : Nat} {g : File (Chunked σ)} {k : Nat} : s.readers[i]? = some (g, k) →
      Step c path s none { s with marks := (g.currentOffset.1, k) :: s.marks }
  | markWriter : s.writer.opened = true →
      Step c path s none { s with
        marks := (s.writer.currentOffset.1, s.written.length) :: s.marks }
  | goBack {i : Nat} {g g' : File (Chunked σ)} {k k' : Nat} {a : Offset} :
      s.readers[i]? = some (g, k) → (a, k') ∈ (default, 0) :: s.marks →
      g.setCurrentOffset a s.disk = (.ok (), g') →
      Step c path s (some i) { s with readers := s.readers.set i (g', k') }

theorem Step.write {path : String} {s : Shared σ} {bytes : ByteArray} {f : File (Chunked σ)}
    {d : Disk} (h : s.writer.write bytes s.disk = ⟨.ok (), f, d⟩) :
    Step c path s none
      { s with writer := f, disk := d, written := s.written ++ bytes.data.toList } :=
  .writer (s := s) (t := { s.unread with
    writer := f, disk := d, written := s.written ++ bytes.data.toList }) (.write h) rfl

theorem Step.flush {path : String} {s : Shared σ} {f : File (Chunked σ)} {d : Disk}
    (h : s.writer.flush s.disk = ⟨.ok (), f, d⟩) :
    Step c path s none { s with writer := f, disk := d, flushed := s.written } :=
  .writer (s := s) (t := { s.unread with writer := f, disk := d, flushed := s.written })
    (.flush h) rfl

/-- What may come to be in some steps, in which some of the readers only go forward. -/
def Leads (c : Codec σ) (path : String) (forward : Nat → Prop) : Shared σ → Shared σ → Prop :=
  Relation.ReflTransGen fun s s' => ∃ who, (∀ i, who = some i → ¬forward i) ∧ Step c path s who s'

/-- A step in which no reader goes back. -/
theorem Leads.next {path : String} {forward : Nat → Prop} {s s₁ s₂ : Shared σ}
    (h : Leads c path forward s s₁) (hstep : Step c path s₁ none s₂) :
    Leads c path forward s s₂ :=
  h.tail ⟨none, fun _ hwho => (by cases hwho), hstep⟩

/-- What a reader has of the file. The position that it tells is not before a place of the file and
some bytes there. -/
def Reads (c : Codec σ) (path : String) (d : Disk) (id : Nat) (F : ByteArray) (start pos : Nat)
    (reader : File (Chunked σ) × Nat) : Prop :=
  ∃ (r : ChunkReader) (b : Chunked σ), reader.1 = r.handle path b ∧ b.codec = c ∧
    r.source.node = id ∧ r.fileSize ≤ F.size ∧ r.Standing c d F reader.2 ∧ r.Reaches start pos

/-- What the handles have of the file and where the positions told lead to, as long as the places in
it are numbers of 64 bits. -/
structure Stands (c : Codec σ) (o : WriteOptions) (path : String) (d₀ : Disk) (id : Nat)
    (chunks : List (Chunk c)) (F : ByteArray) (s : Shared σ) : Prop where
  stored : Following.Stored c path d₀ id chunks F s.unread
  writes : Following.Writes c o path d₀ id chunks F s.writer s.disk s.written
  readers : 2 + (Chunk.frames chunks).length < 2 ^ 64 →
    ∀ (i : Nat) reader, s.readers[i]? = some reader → Reads c path s.disk id F 0 0 reader
  marks : 2 + (Chunk.frames chunks).length < 2 ^ 64 → ∀ mark ∈ s.marks,
    ∃ start pos, mark.1 = .ofNat start pos ∧
      Chunk.Tells chunks s.written.length start pos mark.2

variable {path : String} {d d' d₀ : Disk} {id start pos k k' written : Nat}
  {chunks chunks' : List (Chunk c)} {F F' : ByteArray} {s s' : Shared σ} {who : Option Nat}
  {g g' : File (Chunked σ)} {a : Offset}

namespace Reads

theorem grow {reader : File (Chunked σ) × Nat} (h : Reads c path d id F start pos reader)
    (hnode : d'.node? id = some (.file F')) (hgrown : F.data.toList <+: F'.data.toList) :
    Reads c path d' id F' start pos reader := by
  obtain ⟨r, b, hr, hb, hid, hsize, hstanding, hreaches⟩ := h
  have hlen := hgrown.length_le
  rw [length_toList, length_toList] at hlen
  exact ⟨r, b, hr, hb, hid, Nat.le_trans hsize hlen, hstanding.grow (by rwa [hid]) hgrown, hreaches⟩

/-- A request that takes some bytes moves a reader by these, and does not move the position that it
tells back. -/
theorem ask (h : Reads c path d id F start pos (g, k)) {request : ReadRequest} {count : Nat}
    (hloads : ¬ LoadFails d g request) (htakes : request.Takes (g.ask d request).1 count) :
    Reads c path d id F start pos ((g.ask d request).2, k + count) := by
  obtain ⟨r, b, hr, rfl, hid, hsize, hstanding, hreaches⟩ := h
  obtain rfl : g = r.handle path b := hr
  rw [ChunkReader.ask_handle] at htakes ⊢
  have hsame := ChunkReader.sameFile_ask (c := b.codec) (d := d) r request
  obtain ⟨hstanding', hreaches'⟩ := (ChunkReader.counted_standing b.codec d F start pos).ask
    ⟨hstanding, hreaches⟩ (fun e hfails => hloads ⟨e, hfails⟩) htakes
  exact ⟨_, b, rfl, rfl, hsame.node_eq.trans hid,
    Nat.le_trans (Nat.le_of_eq hsame.fileSize_eq) hsize, hstanding', hreaches'⟩

/-- Going to a position that was told. -/
theorem goBack (h : Reads c path d id F start pos (g, k))
    (hbegins : F.data.toList <+: c.magicBytes.data.toList ++ Chunk.frames chunks)
    (htells : Chunk.Tells chunks written (ChunkReader.target a) a.inChunk.toNat k')
    (hseek : g.setCurrentOffset a d = (.ok (), g')) : Reads c path d id F 0 0 (g', k') := by
  obtain ⟨r, b, hr, rfl, hid, hsize, hstanding, -⟩ := h
  obtain rfl : g = r.handle path b := hr
  have hsame : ChunkReader.SameFile r (r.setCurrentOffset b.codec a d).2 :=
    ChunkReader.sameFile_ask r (.seek a)
  have hwithin : r.source.Within d F := hstanding.elim (·.within) (·.within)
  rw [ChunkReader.setCurrentOffset_handle] at hseek
  generalize hanswer : r.setCurrentOffset b.codec a d = answer at hsame hseek
  obtain ⟨result, r'⟩ := answer
  obtain ⟨rfl, rfl⟩ := Prod.mk.inj hseek
  exact ⟨r', b, rfl, rfl, hsame.node_eq.trans hid,
    Nat.le_trans (Nat.le_of_eq hsame.fileSize_eq) hsize,
    ChunkReader.standing_of_tells hwithin hsize hbegins htells hanswer,
    by rw [ChunkReader.Reaches]; omega⟩

/-- Where a reader is. -/
theorem tells (h : Reads c path d id F start pos (g, k)) (hc : c.Bounded)
    (hbegins : F.data.toList <+: c.magicBytes.data.toList ++ Chunk.frames chunks)
    (hwritten : (Chunk.decoded chunks).length ≤ written) :
    ∃ start' pos', g.currentOffset.1 = .ofNat start' pos' ∧
      Chunk.Tells chunks written start' pos' k ∧ Reads c path d id F start' pos' (g, k) ∧
      (start < start' ∨ start = start' ∧ pos ≤ pos') := by
  obtain ⟨r, b, hr, hb, hid, hsize, hstanding, hreaches⟩ := h
  obtain rfl : g = r.handle path b := hr
  exact ⟨r.chunkStart, r.pos, rfl, hstanding.tells hc hbegins hwritten,
    ⟨r, b, rfl, hb, hid, hsize, hstanding, .refl r⟩, hreaches⟩

end Reads

/-! ### What every step keeps -/

/-- What becomes of the readers in a step: one goes on, and tells no position before the one that it
told, or it has gone back or was just opened. -/
def Moved (c : Codec σ) (path : String) (id : Nat) (F : ByteArray) (s : Shared σ)
    (who : Option Nat) (F' : ByteArray) (s' : Shared σ) : Prop :=
  s.readers.length ≤ s'.readers.length ∧ ∀ i reader', s'.readers[i]? = some reader' →
    (∃ reader, s.readers[i]? = some reader ∧ ∀ start pos,
      Reads c path s.disk id F start pos reader → Reads c path s'.disk id F' start pos reader') ∨
    (who = some i ∨ s.readers[i]? = none) ∧ Reads c path s'.disk id F' 0 0 reader'

/-- Readers that go on as they are. -/
theorem moved_of_eq (hreaders : s'.readers = s.readers) (hdisk : s'.disk = s.disk) :
    Moved c path id F s who F s' := by
  rw [Moved, hreaders, hdisk]
  exact ⟨Nat.le_refl _, fun i reader hi => .inl ⟨reader, hi, fun _ _ h => h⟩⟩

/-- One reader does something, and the others go on as they are. -/
theorem moved_set {i : Nat} {reader reader' : File (Chunked σ) × Nat}
    (hi : s.readers[i]? = some reader) (hreaders : s'.readers = s.readers.set i reader')
    (hdisk : s'.disk = s.disk)
    (hmoved : (∀ start pos, Reads c path s.disk id F start pos reader →
        Reads c path s.disk id F start pos reader') ∨
      who = some i ∧ Reads c path s.disk id F 0 0 reader') :
    Moved c path id F s who F s' := by
  rw [Moved, hreaders, hdisk, List.length_set]
  refine ⟨Nat.le_refl _, fun j reader'' hj => ?_⟩
  rw [List.getElem?_set] at hj
  split at hj
  case isTrue hsame =>
    subst hsame
    obtain ⟨-, rfl⟩ : i < s.readers.length ∧ reader' = reader'' := by
      split at hj
      case isTrue hlt => exact ⟨hlt, Option.some.inj hj⟩
      case isFalse => cases hj
    rcases hmoved with hgoes | ⟨hwho, hback⟩
    · exact .inl ⟨reader, hi, hgoes⟩
    · exact .inr ⟨.inl hwho, hback⟩
  case isFalse => exact .inl ⟨reader'', hj, fun _ _ h => h⟩

/-- The readers stand in the file after a step if they did before. -/
theorem Moved.readers (h : Moved c path id F s who F' s')
    (hreaders : ∀ (i : Nat) reader, s.readers[i]? = some reader →
      Reads c path s.disk id F 0 0 reader) (i : Nat) (reader : File (Chunked σ) × Nat)
    (hi : s'.readers[i]? = some reader) : Reads c path s'.disk id F' 0 0 reader := by
  rcases h.2 i reader hi with ⟨reader₀, hi₀, hgoes⟩ | ⟨-, hreads⟩
  · exact hgoes 0 0 (hreaders i reader₀ hi₀)
  · exact hreads

/-- A reader that does not go back goes on. -/
theorem Moved.forward (h : Moved c path id F s who F' s') {i : Nat}
    {reader : File (Chunked σ) × Nat} (hwho : who ≠ some i) (hi : s.readers[i]? = some reader)
    (hreads : Reads c path s.disk id F start pos reader) :
    ∃ reader', s'.readers[i]? = some reader' ∧ Reads c path s'.disk id F' start pos reader' := by
  obtain ⟨hlength, hall⟩ := h
  have hlt : i < s'.readers.length :=
    Nat.lt_of_lt_of_le (List.getElem?_eq_some_iff.1 hi).1 hlength
  refine ⟨_, List.getElem?_eq_getElem hlt, ?_⟩
  rcases hall i _ (List.getElem?_eq_getElem hlt) with ⟨reader₀, hi₀, hgoes⟩ | ⟨hback | hnone, -⟩
  · obtain rfl := Option.some.inj (hi.symm.trans hi₀)
    exact hgoes start pos hreads
  · exact absurd hback hwho
  · cases hi.symm.trans hnone

/-- A step of the readers leaves everything else as it is, but more positions may be told. -/
theorem Stands.of_moved (h : Stands c o path d₀ id chunks F s) (hunread : s'.unread = s.unread)
    (hmoved : 2 + (Chunk.frames chunks).length < 2 ^ 64 → Moved c path id F s who F s')
    (hmarks : 2 + (Chunk.frames chunks).length < 2 ^ 64 → ∀ mark ∈ s'.marks, mark ∈ s.marks ∨
      ∃ start pos, mark.1 = .ofNat start pos ∧
        Chunk.Tells chunks s.written.length start pos mark.2) :
    Chunk.Extends chunks s.written.length chunks s'.written.length ∧
      Stands c o path d₀ id chunks F s' ∧
      (2 + (Chunk.frames chunks).length < 2 ^ 64 → Moved c path id F s who F s') := by
  have hwritten : s'.written = s.written := congrArg Following.written hunread
  refine ⟨.of_le (Nat.le_of_eq (by rw [hwritten])), ⟨?_, ?_, ?_, ?_⟩, hmoved⟩
  · rw [hunread]
    exact h.stored
  · have hwriter : s'.writer = s.writer := congrArg Following.writer hunread
    have hdisk : s'.disk = s.disk := congrArg Following.disk hunread
    rw [hwriter, hdisk, hwritten]
    exact h.writes
  · exact fun hsize => (hmoved hsize).readers (h.readers hsize)
  · intro hsize mark hmark
    rw [hwritten]
    rcases hmarks hsize mark hmark with hold | hnew
    · exact h.marks hsize mark hold
    · exact hnew

section Step

variable (hencodes : c.Encodes o)
  (hdecodes : ∀ emitted : List (Emitted c o), ∃ chunks : List (Chunk c),
    Chunk.frames chunks = Emitted.frames emitted ∧ Chunk.decoded chunks = Emitted.contents emitted ∧
      chunks.map (·.data) = emitted.map (·.data))

include hencodes hdecodes

/-- A step of the writer. -/
theorem Stands.writer (h : Stands c o path d₀ id chunks F s) {t : Following σ}
    (hstep : Following.Step c path s.unread t) (hnone : t.reader = none)
    (hs' : s' = { s with
      writer := t.writer, disk := t.disk, written := t.written, flushed := t.flushed }) :
    ∃ (chunks' : List (Chunk c)) (F' : ByteArray),
      Chunk.Extends chunks s.written.length chunks' s'.written.length ∧
      Stands c o path d₀ id chunks' F' s' ∧ Moved c path id F s who F' s' := by
  subst hs'
  obtain ⟨chunks', F', hgrown, hextends, hstored, hwrites⟩ :=
    hstep.grows hencodes hdecodes h.stored h.writes
  have hmoved : Moved c path id F s who F' { s with
      writer := t.writer, disk := t.disk, written := t.written, flushed := t.flushed } :=
    ⟨Nat.le_refl _, fun i reader hi =>
      .inl ⟨reader, hi, fun _ _ hreads => hreads.grow hstored.node_eq hgrown⟩⟩
  refine ⟨chunks', F', hextends, ⟨?_, hwrites, ?_, ?_⟩, hmoved⟩
  · obtain ⟨writer, reader, disk, written, flushed, delivered⟩ := t
    obtain rfl : reader = none := hnone
    obtain rfl : delivered = [] := hstored.unread rfl
    exact hstored
  · exact fun hsize => hmoved.readers (h.readers (hextends.lt_of_lt hsize))
  · intro hsize mark hmark
    obtain ⟨start, pos, ha, htells⟩ := h.marks (hextends.lt_of_lt hsize) mark hmark
    exact ⟨start, pos, ha, htells.grow hextends⟩

/-- Every step keeps what the handles have of the file. -/
theorem Step.keeps (hstep : Step c path s who s') (hc : c.Bounded)
    (hmax : o.chunkSize.toNat ≤ maxChunkSize) (h : Stands c o path d₀ id chunks F s) :
    ∃ (chunks' : List (Chunk c)) (F' : ByteArray),
      Chunk.Extends chunks s.written.length chunks' s'.written.length ∧
      Stands c o path d₀ id chunks' F' s' ∧
      (2 + (Chunk.frames chunks').length < 2 ^ 64 → Moved c path id F s who F' s') := by
  have hbegins := h.stored.begins
  have hwritten := h.writes.decoded_begins.length_le
  cases hstep with
  | writer hwriter hnone =>
      obtain ⟨chunks', F', hextends, h', hmoved⟩ :=
        h.writer hencodes hdecodes hwriter hnone rfl
      exact ⟨chunks', F', hextends, h', fun _ => hmoved⟩
  | @openReader f g hcodec hopen =>
      refine ⟨chunks, F, h.of_moved rfl (fun _ => ⟨by simp, fun i reader hi => ?_⟩)
        fun _ _ hmark => .inl hmark⟩
      rw [List.getElem?_append] at hi
      split at hi
      case isTrue => exact .inl ⟨reader, hi, fun _ _ hreads => hreads⟩
      case isFalse hnew =>
        obtain rfl : reader = (g, 0) := List.mem_singleton.1 (List.mem_of_getElem? hi)
        obtain ⟨r, b, rfl, hb, hr, hid⟩ := h.stored.exists_opened hcodec hopen
        have hF := h.stored.contents_eq
        refine .inr ⟨.inr (List.getElem?_eq_none (Nat.le_of_not_lt hnew)), r, b, rfl, hb, hid,
          Nat.le_of_eq (ChunkReader.onFile_of_open hF hr).fileSize_eq,
          .inl (ChunkReader.Placed.of_open hF hr), ?_⟩
        rw [ChunkReader.Reaches]
        omega
  | @ask i g k request count hi hloads htakes =>
      exact ⟨chunks, F, h.of_moved rfl
        (fun _ => moved_set hi rfl rfl (.inl fun _ _ hreads => hreads.ask hloads htakes))
        fun _ _ hmark => .inl hmark⟩
  | @mark i g k hi =>
      refine ⟨chunks, F, h.of_moved rfl (fun _ => moved_of_eq rfl rfl) fun hsize mark hmark => ?_⟩
      rcases List.mem_cons.1 hmark with rfl | hmark
      · obtain ⟨start, pos, ha, htells, -⟩ := (h.readers hsize i _ hi).tells hc hbegins hwritten
        exact .inr ⟨start, pos, ha, htells⟩
      · exact .inl hmark
  | markWriter hopened =>
      refine ⟨chunks, F, h.of_moved rfl (fun _ => moved_of_eq rfl rfl) fun hsize mark hmark => ?_⟩
      rcases List.mem_cons.1 hmark with rfl | hmark
      · obtain ⟨pending, ha, hpending, hlt⟩ := h.writes.exists_pending hopened
        exact .inr ⟨_, pending, ha, chunks, [], by simp, rfl, hpending, Nat.le_refl _, by omega,
          by simp⟩
      · exact .inl hmark
  | @goBack i g g' k k' a hi hmark hseek =>
      refine ⟨chunks, F, h.of_moved rfl (fun hsize => moved_set hi rfl rfl (.inr ⟨rfl, ?_⟩))
        fun _ _ hmark => .inl hmark⟩
      have htells : Chunk.Tells chunks s.written.length (ChunkReader.target a) a.inChunk.toNat
          k' := by
        rcases List.mem_cons.1 hmark with hstart | hmark
        · obtain ⟨rfl, rfl⟩ := Prod.mk.inj hstart
          exact Chunk.tells_start chunks _
        · obtain ⟨start, pos, rfl, htells⟩ := h.marks hsize _ hmark
          obtain ⟨htwo, hstart, hpos⟩ := htells.bounds hsize
          rwa [ChunkReader.target_ofNat (by omega) hstart, ChunkReader.inChunk_ofNat hpos]
      exact (h.readers hsize i _ hi).goBack hbegins htells hseek

/-- So do several steps. A reader that only goes forward tells no position before one that it told
before. -/
theorem Leads.keeps {forward : Nat → Prop} (hleads : Leads c path forward s s') (hc : c.Bounded)
    (hmax : o.chunkSize.toNat ≤ maxChunkSize) (h : Stands c o path d₀ id chunks F s) :
    ∃ (chunks' : List (Chunk c)) (F' : ByteArray),
      Chunk.Extends chunks s.written.length chunks' s'.written.length ∧
      Stands c o path d₀ id chunks' F' s' ∧
      (2 + (Chunk.frames chunks').length < 2 ^ 64 → ∀ (i : Nat) start pos reader, forward i →
        s.readers[i]? = some reader → Reads c path s.disk id F start pos reader →
        ∃ reader', s'.readers[i]? = some reader' ∧
          Reads c path s'.disk id F' start pos reader') := by
  induction hleads with
  | refl =>
      exact ⟨chunks, F, .of_le (Nat.le_refl _), h, fun _ i _ _ reader _ hi hreads =>
        ⟨reader, hi, hreads⟩⟩
  | tail _ hstep ih =>
      obtain ⟨who, hwho, hstep⟩ := hstep
      obtain ⟨chunks₁, F₁, hextends₁, h₁, hforward₁⟩ := ih
      obtain ⟨chunks₂, F₂, hextends₂, h₂, hmoved⟩ := hstep.keeps hencodes hdecodes hc hmax h₁
      refine ⟨chunks₂, F₂, hextends₁.trans hextends₂, h₂,
        fun hsize i start pos reader hi₀ hi hreads => ?_⟩
      obtain ⟨reader₁, hi₁, hreads₁⟩ := hforward₁ (hextends₂.lt_of_lt hsize) i start pos reader hi₀
        hi hreads
      exact (hmoved hsize).forward (fun hback => hwho i hback hi₀) hi₁ hreads₁

end Step

/-- A reader that stands in the file goes on there. -/
theorem Stands.continues (h : Stands c o path d₀ id chunks F s)
    (hreads : Reads c path s.disk id F start pos (g, k)) : s.unread.Continues k g := by
  obtain ⟨r, b, hr, hb, -, -, hstanding, -⟩ := hreads
  obtain rfl : g = r.handle path b := hr
  obtain ⟨hk, htrails⟩ := hstanding.trails h.stored.begins
  exact h.stored.continues h.writes.decoded_begins hb hk htrails

/-- Of two positions that were told, the one behind more bytes is the larger one. -/
theorem Stands.in_order (h : Stands c o path d₀ id chunks F s)
    (hsize : 2 + (Chunk.frames chunks).length < 2 ^ 64) {mark₁ mark₂ : Offset × Nat}
    (hmark₁ : mark₁ ∈ s.marks) (hmark₂ : mark₂ ∈ s.marks) (hlt : mark₁.2 < mark₂.2) :
    mark₁.1 < mark₂.1 := by
  obtain ⟨start₁, pos₁, ha₁, htells₁⟩ := h.marks hsize mark₁ hmark₁
  obtain ⟨start₂, pos₂, ha₂, htells₂⟩ := h.marks hsize mark₂ hmark₂
  obtain ⟨-, hstart₁, hpos₁⟩ := htells₁.bounds hsize
  obtain ⟨-, hstart₂, hpos₂⟩ := htells₂.bounds hsize
  rw [ha₁, ha₂, Offset.ofNat_lt_iff hstart₁ hstart₂ hpos₁ hpos₂]
  exact htells₁.lt_of_lt htells₂ hlt

/-- The writer tells no position before one that it told before. -/
theorem Stands.writer_forward (h : Stands c o path d₀ id chunks F s)
    (h' : Stands c o path d₀ id chunks' F' s')
    (hextends : Chunk.Extends chunks s.written.length chunks' s'.written.length)
    (hmax : o.chunkSize.toNat ≤ maxChunkSize)
    (hsize : 2 + (Chunk.frames chunks').length < 2 ^ 64) (hopened : s'.writer.opened = true) :
    s.writer.currentOffset.1 ≤ s'.writer.currentOffset.1 := by
  cases hwriter : s.writer.opened with
  | false =>
      have hdefault : s.writer.currentOffset.1 = default := by
        rw [File.currentOffset, hwriter]
        rfl
      rw [hdefault]
      exact Offset.default_le _
  | true =>
      obtain ⟨pending, ha, hpending, hlt⟩ := h.writes.exists_pending hwriter
      obtain ⟨pending', ha', hpending', hlt'⟩ := h'.writes.exists_pending hopened
      have hle := hextends.le_of_pending hpending hpending'
      rw [maxChunkSize] at hmax
      rw [ha, ha', Offset.ofNat_le_iff (hextends.lt_of_lt hsize) hsize (by omega) (by omega)]
      omega

/-- What a reader tells that has not gone back is not before what it told. -/
theorem Stands.reader_forward (h : Stands c o path d₀ id chunks F s)
    (h' : Stands c o path d₀ id chunks' F' s') (hc : c.Bounded)
    (hsize : 2 + (Chunk.frames chunks).length < 2 ^ 64)
    (hsize' : 2 + (Chunk.frames chunks').length < 2 ^ 64)
    (hreads : Reads c path s.disk id F 0 0 (g, k))
    (hforward : ∀ start pos, Reads c path s.disk id F start pos (g, k) →
      Reads c path s'.disk id F' start pos (g', k')) :
    g.currentOffset.1 ≤ g'.currentOffset.1 := by
  obtain ⟨start, pos, ha, htells, hhere, -⟩ :=
    hreads.tells hc h.stored.begins h.writes.decoded_begins.length_le
  obtain ⟨start', pos', ha', htells', -, hle⟩ := (hforward start pos hhere).tells hc
    h'.stored.begins h'.writes.decoded_begins.length_le
  obtain ⟨-, hstart, hpos⟩ := htells.bounds hsize
  obtain ⟨-, hstart', hpos'⟩ := htells'.bounds hsize'
  rw [ha, ha', Offset.ofNat_le_iff hstart hstart' hpos hpos']
  exact hle

end Shared

/-- A handle writes a trace, while any others read it and go to positions that were told, or to the
start; all of them tell where they are. Every reader goes on where the bytes that it passed say. As
long as the places in the file are numbers of 64 bits when the handle is closed, of two positions
that were told, the one behind more bytes is the larger one. The positions that the writer tells
never move back, and neither do those of a reader that does not go back. -/
theorem Chunked.marks_in_order [Compression] {format : Format} {c : Codec Compression.Memory}
    (hformat : format.codec? = some c) (hc : c.Lossless) (ho : o.validate = .ok ())
    {d : Disk} {path : String} (hpath : d.Creatable path) :
    let opened := (File.new (Chunked.new c Compression.fresh o)).open path .write d
    opened.result = .ok () ∧
    ∀ s, Shared.Leads c path (fun _ => False) ⟨opened.state, opened.disk, [], [], [], []⟩ s →
    ∀ forward s', Shared.Leads c path forward s s' →
      ∃ F, (s'.writer.close s'.disk).2.contents? path = some F ∧ (F.size < 2 ^ 64 →
        (∀ (i : Nat) g k, s'.readers[i]? = some (g, k) → s'.unread.Continues k g) ∧
        (∀ mark₁ ∈ s'.marks, ∀ mark₂ ∈ s'.marks,
          (mark₁.2 < mark₂.2 → mark₁.1 < mark₂.1) ∧ (mark₁.1 ≤ mark₂.1 → mark₁.2 ≤ mark₂.2)) ∧
        (s'.writer.opened = true → s.writer.currentOffset.1 ≤ s'.writer.currentOffset.1) ∧
        ∀ (i : Nat) g k g' k', forward i → s.readers[i]? = some (g, k) →
          s'.readers[i]? = some (g', k') → g.currentOffset.1 ≤ g'.currentOffset.1) := by
  intro opened
  have hbounded : c.Bounded := Format.bounded_of_codec? hformat
  have hmax := (WriteOptions.chunkSize_of_validate ho).2
  have hencodes := hc.encodes (format.roomy_of_codec? hformat) ho
  have hdecodes := Following.exists_decoded ho hformat hc
  obtain ⟨f, d₀, d₁, id, F₀, hmade, hstored, hwrites⟩ := Following.exists_start (c := c) ho hpath
  replace hmade : opened = ⟨.ok (), f, d₁⟩ := hmade
  clear_value opened
  subst hmade
  refine ⟨rfl, fun s hleads forward s' hleads' => ?_⟩
  have hstart : Shared.Stands c o path d₀ id [] F₀ ⟨f, d₁, [], [], [], []⟩ :=
    ⟨hstored, hwrites, fun _ i reader hi => (by cases hi), fun _ mark hmark => (by cases hmark)⟩
  obtain ⟨chunks, F₁, -, h, -⟩ := hleads.keeps hencodes hdecodes hbounded hmax hstart
  obtain ⟨chunks', F₂, hextends, h', hforward⟩ := hleads'.keeps hencodes hdecodes hbounded hmax h
  obtain ⟨F, hF, hle⟩ := Following.exists_closed hencodes hdecodes h'.stored h'.writes
  refine ⟨F, hF, fun hsize => ?_⟩
  have hsize' : 2 + (Chunk.frames chunks').length < 2 ^ 64 := by omega
  refine ⟨fun i g k hi => h'.continues (h'.readers hsize' i _ hi),
    fun mark₁ hmark₁ mark₂ hmark₂ => ⟨h'.in_order hsize' hmark₁ hmark₂, fun hmarks => ?_⟩,
    h.writer_forward h' hextends hmax hsize', fun i g k g' k' hi₀ hi hi' => ?_⟩
  · by_contra hlt
    exact Offset.not_le_of_lt (h'.in_order hsize' hmark₂ hmark₁ (Nat.lt_of_not_le hlt)) hmarks
  · have hbefore := hextends.lt_of_lt hsize'
    have hgoes (start pos : Nat) (hreads : Shared.Reads c path s.disk id F₁ start pos (g, k)) :
        Shared.Reads c path s'.disk id F₂ start pos (g', k') := by
      obtain ⟨reader, hreader, hreads'⟩ := hforward hsize' i start pos _ hi₀ hi hreads
      obtain rfl := Option.some.inj (hi'.symm.trans hreader)
      exact hreads'
    exact h.reader_forward h' hbounded hbefore hsize' (h.readers hbefore i _ hi) hgoes

/-- A reader that was opened takes a byte and tells where it stands, and so does the writer when
more was written. -/
theorem Chunked.marks_in_order_snappy :
    let b := Chunked.new Snappy.codec () default
    let opened := (File.new b).open "t" .write .empty
    let wrote := opened.state.write ⟨#[7, 8]⟩ opened.disk
    let flushed := wrote.state.flush wrote.disk
    let reader := (File.new b).open "t" .read flushed.disk
    let read := reader.state.readSome 1 flushed.disk
    let more := flushed.state.write ⟨#[9]⟩ flushed.disk
    read.1 = .ok ⟨#[7]⟩ ∧ read.2.currentOffset.1 < more.state.currentOffset.1 ∧
      flushed.state.currentOffset.1 ≤ more.state.currentOffset.1 ∧
      reader.state.currentOffset.1 ≤ read.2.currentOffset.1 := by
  intro b opened wrote flushed reader read more
  have hwrote : opened.state.write ⟨#[7, 8]⟩ opened.disk = ⟨.ok (), wrote.state, wrote.disk⟩ :=
    Outcome.eq_of_result (by decide +kernel)
  have hflushed : wrote.state.flush wrote.disk = ⟨.ok (), flushed.state, flushed.disk⟩ :=
    Outcome.eq_of_result (by decide +kernel)
  have hcontents : flushed.disk.contents? "t" =
      some ⟨#[0x61, 0x74, 4, 0, 0, 0, 2, 4, 7, 8]⟩ := by decide +kernel
  have hcodec : (File.new b).backend.codec = Snappy.codec := rfl
  have hreader :
      (File.new b).open "t" .read flushed.disk = ⟨.ok (), reader.state, flushed.disk⟩ := by
    obtain ⟨_, hopen⟩ :=
      open_of_magic (c := Snappy.codec) () default hcontents (List.prefix_append [0x61, 0x74] _)
    show reader = _
    rw [show reader = _ from hopen]
  have hread : read.1 = .ok ⟨#[7]⟩ := by decide +kernel
  have hanswer : reader.state.ask flushed.disk (.readSome 1) = (.bytes (.ok ⟨#[7]⟩), read.2) := by
    have hpiece : reader.state.readSome 1 flushed.disk = (.ok ⟨#[7]⟩, read.2) := by rw [← hread]
    rw [File.ask, hpiece]
    rfl
  have hloads : ¬ LoadFails flushed.disk reader.state (.readSome 1) := by
    rw [loadFails_readSome_iff (.opened hcodec hreader)]
    rintro ⟨e, he⟩
    cases hread.symm.trans he
  have htakes : (ReadRequest.readSome 1).Takes
      (reader.state.ask flushed.disk (.readSome 1)).1 1 := by
    rw [hanswer]
    exact .readSome
  have hmore : flushed.state.write ⟨#[9]⟩ flushed.disk = ⟨.ok (), more.state, more.disk⟩ :=
    Outcome.eq_of_result (by decide +kernel)
  have hclosed : (more.state.close more.disk).2.contents? "t" =
      some ⟨#[0x61, 0x74, 4, 0, 0, 0, 2, 4, 7, 8, 3, 0, 0, 0, 1, 0, 9]⟩ := by decide +kernel
  have hwriting : more.state.opened = true := by decide +kernel
  have hpath : Disk.empty.Creatable "t" := ⟨2, _, rfl, rfl⟩
  obtain ⟨-, hgoes⟩ := @marks_in_order default Compression.stored .snappy Snappy.codec rfl
    Snappy.lossless rfl .empty "t" hpath
  replace hgoes : ∀ s, Shared.Leads Snappy.codec "t" (fun _ => False)
    ⟨opened.state, opened.disk, [], [], [], []⟩ s → _ := hgoes
  clear_value more read reader flushed wrote opened b
  have h₁ : Shared.Step Snappy.codec "t" ⟨opened.state, opened.disk, [], [], [], []⟩ none _ :=
    .write hwrote
  have h₂ : Shared.Step Snappy.codec "t" ⟨wrote.state, wrote.disk, [7, 8], [], [], []⟩ none _ :=
    .flush hflushed
  have h₃ : Shared.Step Snappy.codec "t"
      ⟨flushed.state, flushed.disk, [7, 8], [7, 8], [], []⟩ none _ := .openReader hcodec hreader
  have h₄ : Shared.Step Snappy.codec "t"
      ⟨flushed.state, flushed.disk, [7, 8], [7, 8], [(reader.state, 0)], []⟩ none _ :=
    .ask (i := 0) rfl hloads htakes
  rw [hanswer] at h₄
  have h₅ : Shared.Step Snappy.codec "t"
      ⟨flushed.state, flushed.disk, [7, 8], [7, 8], [(read.2, 1)], []⟩ none _ :=
    .mark (i := 0) rfl
  have h₆ : Shared.Step Snappy.codec "t" ⟨flushed.state, flushed.disk, [7, 8], [7, 8],
      [(read.2, 1)], [(read.2.currentOffset.1, 1)]⟩ none _ := .write hmore
  have h₇ : Shared.Step Snappy.codec "t" ⟨more.state, more.disk, [7, 8, 9], [7, 8],
      [(read.2, 1)], [(read.2.currentOffset.1, 1)]⟩ none _ := .markWriter hwriting
  obtain ⟨F, hF, hinOrder⟩ := hgoes _ (((Shared.Leads.next .refl h₁).next h₂).next h₃)
    (fun _ => True) _ ((((Shared.Leads.next .refl h₄).next h₅).next h₆).next h₇)
  obtain rfl := Option.some.inj (hclosed.symm.trans hF)
  obtain ⟨-, hmarks, hwriter, hreaders⟩ := hinOrder (by decide)
  exact ⟨hread, (hmarks (_, 1) (by simp) (_, 3) (by simp)).1 (show 1 < 3 by decide),
    hwriter hwriting, hreaders 0 _ 0 _ 1 trivial rfl rfl⟩

end TraceStore
