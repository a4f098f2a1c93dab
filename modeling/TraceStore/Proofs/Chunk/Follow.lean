import Mathlib.Data.List.Infix
import Mathlib.Logic.Relation
import TraceStore.Proofs.Chunk.RoundTrip
import TraceStore.Proofs.Chunk.Trail

/-!
# Following a trace that is being written

One handle writes a trace while another one reads it, and the buffer of the first passes bytes on to
the file whenever it likes. Whatever the order of what they do, the reader has delivered the
beginning of what was written, and it stops only behind everything that was flushed:
`Chunked.follows`.
-/
namespace TraceStore

variable {σ : Type} {c : Codec σ} {o : WriteOptions}

namespace ChunkWriter

variable {w : ChunkWriter} {memory : σ} {d : Disk}

/-! ### What emitting leaves behind -/

/-- Emitting that succeeds leaves nothing pending. -/
theorem cache_of_emit {w' : σ × ChunkWriter} {d' : Disk}
    (h : w.emit c o memory d = ⟨.ok (), w', d'⟩) : w'.2.cache.size = 0 := by
  rw [emit] at h
  split at h
  case isTrue hempty =>
    obtain ⟨-, rfl, -⟩ := Outcome.mk.inj h
    exact isEmpty_iff.1 hempty
  case isFalse =>
    split at h
    · cases h
    split at h
    · cases h
    dsimp only at h
    split at h
    · cases h
    split at h
    · cases h
    · obtain ⟨-, rfl, -⟩ := Outcome.mk.inj h
      rfl

/-- A flush that succeeds leaves nothing pending, and holds nothing back in the buffer. -/
theorem held_of_flush {w' : σ × ChunkWriter} {d' : Disk}
    (h : w.flush c o memory d = ⟨.ok (), w', d'⟩) :
    w'.2.cache.size = 0 ∧ w'.2.sink.pending = .empty := by
  rw [flush] at h
  split at h
  case h_1 => cases h
  case h_2 hemit =>
    have hcache := cache_of_emit hemit
    obtain ⟨hresult, rfl, -⟩ := Outcome.mk.inj h
    exact ⟨hcache, FileWriter.pending_of_flush hresult⟩

/-- What of the bytes emitted lies in the file. -/
theorem Emits.exists_file {d₀ : Disk} {id : Nat} {emitted : List (Emitted c o)}
    (h : w.Emits d₀ id emitted d) :
    ∃ F, d = d₀.setNode id (.file F) ∧ w.sink.position = F.size ∧
      F.data.toList ++ w.sink.pending.data.toList =
        c.magicBytes.data.toList ++ Emitted.frames emitted := by
  obtain ⟨F, hd, hposition, hbytes⟩ := h.wrote.passed
  exact ⟨F, hd, hposition, hbytes.symm⟩

end ChunkWriter

namespace Chunk

/-- Some chunks come after others, and the bytes written by then after those written before: chunks
were added behind, and the first of them has all that was written before and was in no chunk. -/
structure Extends (chunks : List (Chunk c)) (written : Nat) (chunks' : List (Chunk c))
    (written' : Nat) : Prop where
  exists_more : ∃ more, chunks' = chunks ++ more ∧
    ∀ chunk ∈ more.head?, written ≤ (decoded chunks).length + chunk.data.size
  written_le : written ≤ written'

variable {chunks chunks' chunks'' : List (Chunk c)} {written written' written'' : Nat}

theorem Extends.of_le (hle : written ≤ written') : Extends chunks written chunks written' :=
  ⟨⟨[], by simp, by simp⟩, hle⟩

theorem Extends.trans (h : Extends chunks written chunks' written')
    (h' : Extends chunks' written' chunks'' written'') :
    Extends chunks written chunks'' written'' := by
  obtain ⟨more, rfl, hfirst⟩ := h.exists_more
  obtain ⟨more', rfl, hfirst'⟩ := h'.exists_more
  refine ⟨⟨more ++ more', List.append_assoc .., ?_⟩, Nat.le_trans h.written_le h'.written_le⟩
  cases more with
  | nil =>
      intro chunk hchunk
      have hle := hfirst' chunk hchunk
      rw [List.append_nil] at hle
      exact Nat.le_trans h.written_le hle
  | cons first more => exact hfirst

/-- The chunks emitted before took no more of the file. -/
theorem Extends.lt_of_lt (h : Extends chunks written chunks' written') {size : Nat}
    (hlt : 2 + (frames chunks').length < size) : 2 + (frames chunks).length < size := by
  obtain ⟨more, rfl, -⟩ := h.exists_more
  rw [frames_append, List.length_append] at hlt
  omega

/-- The chunks that were emitted come after those emitted before, if the first of them starts with
what was pending. -/
theorem extends_of_emitted {more : List (Emitted c o)} {moreChunks : List (Chunk c)}
    (hdata : moreChunks.map (·.data) = more.map (·.data)) {pending : Nat}
    (hpending : written = (decoded chunks).length + pending)
    (hfirst : ∀ e ∈ more.head?, pending ≤ e.data.size) (hle : written ≤ written') :
    Extends chunks written (chunks ++ moreChunks) written' := by
  refine ⟨⟨moreChunks, rfl, fun chunk hchunk => ?_⟩, hle⟩
  cases moreChunks with
  | nil => cases hchunk
  | cons first moreChunks =>
      cases more with
      | nil => cases hdata
      | cons e more =>
          obtain rfl := Option.some.inj hchunk
          have hsame : first.data = e.data := (List.cons.inj hdata).1
          have hpos := hfirst e rfl
          rw [hsame, hpending]
          omega

end Chunk

/-! ### Two handles on one path -/

/-- The buffer of a handle that writes passes on as many of the bytes that it holds back. -/
def Chunked.spill (count : Nat) (f : File (Chunked σ)) (d : Disk) : File (Chunked σ) × Disk :=
  match f.backend.state with
  | .writing w =>
    let (sink, d) := w.sink.spill count d
    ({ f with backend := { f.backend with state := .writing { w with sink } } }, d)
  | _ => (f, d)

/-- A handle that writes a trace, a handle that reads it once it was opened, and what they did. -/
structure Following (σ : Type) where
  writer : File (Chunked σ)
  reader : Option (File (Chunked σ))
  disk : Disk
  /-- The bytes written so far. -/
  written : List UInt8
  /-- The bytes written before the last flush or close. -/
  flushed : List UInt8
  /-- The bytes that the reader delivered so far. -/
  delivered : List UInt8

namespace Following

/-- What may happen next, as long as the reader has met no error. -/
inductive Step (c : Codec σ) (path : String) (s : Following σ) : Following σ → Prop
  | write {bytes : ByteArray} {f : File (Chunked σ)} {d : Disk} :
      s.writer.write bytes s.disk = ⟨.ok (), f, d⟩ →
      Step c path s { s with writer := f, disk := d, written := s.written ++ bytes.data.toList }
  | refused {request : WriteRequest} {e : Error} {f : File (Chunked σ)} {d : Disk} :
      s.writer.perform request s.disk = ⟨.error e, f, d⟩ →
      Step c path s { s with writer := f, disk := d }
  | flush {f : File (Chunked σ)} {d : Disk} : s.writer.flush s.disk = ⟨.ok (), f, d⟩ →
      Step c path s { s with writer := f, disk := d, flushed := s.written }
  | close {f : File (Chunked σ)} {d : Disk} : s.writer.close s.disk = (f, d) →
      Step c path s { s with writer := f, disk := d, flushed := s.written }
  | spill {count : Nat} {f : File (Chunked σ)} {d : Disk} :
      Chunked.spill count s.writer s.disk = (f, d) →
      Step c path s { s with writer := f, disk := d }
  | openReader {f g : File (Chunked σ)} : s.reader = none → f.backend.codec = c →
      f.open path .read s.disk = ⟨.ok (), g, s.disk⟩ → Step c path s { s with reader := some g }
  | readSome {g g' : File (Chunked σ)} {count : Nat} {piece : ByteArray} : s.reader = some g →
      0 < count → g.readSome count s.disk = (.ok piece, g') →
      Step c path s { s with
        reader := some g', delivered := s.delivered ++ piece.data.toList }

/-- What the file at the path holds of the chunks emitted, and what the reader has of them. The other
files are as they were on the disk `d₀`. -/
structure Stored (c : Codec σ) (path : String) (d₀ : Disk) (id : Nat) (chunks : List (Chunk c))
    (F : ByteArray) (s : Following σ) : Prop where
  find_eq : d₀.find? path = some id
  id_lt : id < d₀.nodes.size
  disk_eq : s.disk = d₀.setNode id (.file F)
  begins : F.data.toList <+: c.magicBytes.data.toList ++ Chunk.frames chunks
  flushed : ∃ full, full <+: chunks ∧ Chunk.frames full <+: F.data.toList.drop 2 ∧
    Chunk.decoded full = s.flushed
  unread : s.reader = none → s.delivered = []
  reader : ∀ g ∈ s.reader, ∃ (r : ChunkReader) (b : Chunked σ), g = r.handle path b ∧
    b.codec = c ∧ r.source.node = id ∧ r.Trails c s.disk F chunks s.delivered

/-- What a handle that writes has made of the bytes written, and how much of it is in the file. -/
inductive Writes (c : Codec σ) (o : WriteOptions) (path : String) (d₀ : Disk) (id : Nat)
    (chunks : List (Chunk c)) (F : ByteArray) (f : File (Chunked σ)) (d : Disk)
    (written : List UInt8) : Prop
  | writing {memory₀ memory : σ} {w : ChunkWriter} {emitted : List (Emitted c o)} :
      f = ChunkWriter.handle path (.new c memory₀ o) (memory, w) →
      w.Emits d₀ id emitted d → w.cache.size < o.chunkSize.toNat →
      w.sink.position = F.size → Emitted.frames emitted = Chunk.frames chunks →
      Chunk.decoded chunks ++ w.cache.data.toList = written →
      Writes c o path d₀ id chunks F f d written
  | closed {b : Chunked σ} : f = ⟨path, .write, false, b⟩ → b.state = .closed →
      F.data.toList = c.magicBytes.data.toList ++ Chunk.frames chunks →
      Chunk.decoded chunks = written → Writes c o path d₀ id chunks F f d written

namespace Stored

variable {path : String} {d₀ : Disk} {id : Nat} {chunks : List (Chunk c)} {F F' : ByteArray}
  {s : Following σ}

theorem node_eq (h : Stored c path d₀ id chunks F s) : s.disk.node? id = some (.file F) := by
  rw [h.disk_eq]
  exact Disk.node?_setNode h.id_lt

theorem contents_eq (h : Stored c path d₀ id chunks F s) : s.disk.contents? path = some F := by
  rw [h.disk_eq]
  exact Disk.contents?_setNode h.find_eq h.id_lt

theorem lookup_eq (h : Stored c path d₀ id chunks F s) : s.disk.lookup path = .ok id := by
  rw [h.disk_eq, Disk.lookup, Disk.find?_setNode, h.find_eq]

/-- The reader of a handle that was opened is on the file. -/
theorem exists_opened (h : Stored c path d₀ id chunks F s) {f g : File (Chunked σ)}
    (hcodec : f.backend.codec = c) (hopen : f.open path .read s.disk = ⟨.ok (), g, s.disk⟩) :
    ∃ r b, g = r.handle path b ∧ b.codec = c ∧ ChunkReader.open c path s.disk = .ok r ∧
      r.source.node = id := by
  obtain ⟨r, b, hr, hb, rfl⟩ := Chunked.reader_of_open hopen
  rw [hcodec] at hr hb
  have hlookup := (ChunkReader.source_of_open h.contents_eq hr).1
  exact ⟨r, b, rfl, hb, hr, Except.ok.inj (hlookup.symm.trans h.lookup_eq)⟩

/-- What the reader has stays as the writer goes on. -/
theorem advance (h : Stored c path d₀ id chunks F s) (hgrown : F.data.toList <+: F'.data.toList)
    (more : List (Chunk c))
    (hbegins : F'.data.toList <+: c.magicBytes.data.toList ++ Chunk.frames (chunks ++ more))
    (f : File (Chunked σ)) (written : List UInt8) :
    Stored c path d₀ id (chunks ++ more) F'
      { s with writer := f, disk := d₀.setNode id (.file F'), written } where
  find_eq := h.find_eq
  id_lt := h.id_lt
  disk_eq := rfl
  begins := hbegins
  flushed := by
    obtain ⟨full, hfull, hheld, hflushed⟩ := h.flushed
    exact ⟨full, hfull.trans (List.prefix_append ..), hheld.trans (hgrown.drop 2), hflushed⟩
  unread := h.unread
  reader := by
    intro g hg
    obtain ⟨r, b, hr, hb, hnode, htrails⟩ := h.reader g hg
    refine ⟨r, b, hr, hb, hnode, htrails.grow ?_ hgrown more⟩
    rw [hnode]
    exact Disk.node?_setNode h.id_lt

/-- Once the file holds all chunks, what they hold counts as flushed. -/
theorem flush (h : Stored c path d₀ id chunks F s)
    (hall : F.data.toList = c.magicBytes.data.toList ++ Chunk.frames chunks) :
    Stored c path d₀ id chunks F { s with flushed := Chunk.decoded chunks } where
  find_eq := h.find_eq
  id_lt := h.id_lt
  disk_eq := h.disk_eq
  begins := h.begins
  flushed := by
    refine ⟨chunks, List.prefix_rfl, ?_, rfl⟩
    rw [hall, List.drop_left' (by rfl)]
  unread := h.unread
  reader := h.reader

end Stored

/-! ### What every step keeps -/

variable {path : String} {d₀ : Disk} {id : Nat} {chunks : List (Chunk c)} {F : ByteArray}
  {s : Following σ}

namespace Stored

/-- Opening a reader. -/
theorem openReader (h : Stored c path d₀ id chunks F s) {f g : File (Chunked σ)}
    (hnone : s.reader = none) (hcodec : f.backend.codec = c)
    (hopen : f.open path .read s.disk = ⟨.ok (), g, s.disk⟩) :
    Stored c path d₀ id chunks F { s with reader := some g } where
  find_eq := h.find_eq
  id_lt := h.id_lt
  disk_eq := h.disk_eq
  begins := h.begins
  flushed := h.flushed
  unread hreader := by cases hreader
  reader := by
    intro g' hg'
    obtain rfl := Option.mem_some.1 hg'
    obtain ⟨r, b, hr, hb, hopened, hnode⟩ := h.exists_opened hcodec hopen
    refine ⟨r, b, hr, hb, hnode, ?_⟩
    rw [h.unread hnone]
    exact (ChunkReader.trails_of_open h.contents_eq hopened).2

/-- A reader opens once the magic is in the file. -/
theorem exists_open (h : Stored c path d₀ id chunks F s) {F' : ByteArray}
    (hF : s.disk.contents? path = some F') (hvisible : 2 ≤ F'.size) (memory : σ)
    (o : WriteOptions) :
    ∃ g, (File.new (Chunked.new c memory o)).open path .read s.disk = ⟨.ok (), g, s.disk⟩ := by
  obtain rfl := Option.some.inj (hF.symm.trans h.contents_eq)
  have hmagic : c.magicBytes.data.toList <+: F'.data.toList := by
    refine List.prefix_of_prefix_length_le (List.prefix_append _ _) h.begins ?_
    rw [length_toList]
    exact hvisible
  obtain ⟨_, hopen⟩ := Chunked.open_of_magic memory o hF hmagic
  exact ⟨_, hopen⟩

/-- What the next request of the reader comes to. -/
theorem exists_read (h : Stored c path d₀ id chunks F s) {g : File (Chunked σ)}
    (hreader : s.reader = some g) {count : Nat} (hcount : 0 < count) :
    (∃ (piece : ByteArray) (g' : File (Chunked σ)),
      g.readSome count s.disk = (.ok piece, g') ∧ 0 < piece.size ∧
      Stored c path d₀ id chunks F
        { s with reader := some g', delivered := s.delivered ++ piece.data.toList }) ∨
    ∃ (result : Except Error ByteArray) (g' : File (Chunked σ)),
      g.readSome count s.disk = (result, g') ∧
      (result = .ok .empty ∧ Stored c path d₀ id chunks F { s with reader := some g' } ∨
        ∃ e, result = .error e) ∧
      s.flushed <+: s.delivered := by
  obtain ⟨r, b, rfl, hb, hnode, htrails⟩ := h.reader g hreader
  have hsame := (ChunkReader.kept_sameFile c s.disk r).readSome (.refl r) count
  have hstored : ∀ {r' : ChunkReader} {delivered : List UInt8}, ChunkReader.SameFile r r' →
      r'.Trails c s.disk F chunks delivered → Stored c path d₀ id chunks F
        { s with reader := some (r'.handle path b), delivered } := by
    intro r' delivered hsame htrails'
    exact { h with
      unread := fun hnone => by cases hnone
      reader := fun g' hg' => ⟨r', b, (Option.mem_some.1 hg').symm, hb,
        hsame.node_eq.trans hnode, htrails'⟩ }
  rw [ChunkReader.readSome_handle, hb]
  rcases htrails.readSome h.begins hcount with
    ⟨piece, r', hread, hpos, htrails'⟩ | ⟨result, r', hread, hresult, hcaught⟩
  · rw [hread] at hsame ⊢
    exact .inl ⟨piece, r'.handle path b, rfl, hpos, hstored hsame htrails'⟩
  · rw [hread] at hsame ⊢
    refine .inr ⟨result, r'.handle path b, rfl, ?_, ?_⟩
    · exact hresult.imp_left fun hend => ⟨hend.1, hstored hsame hend.2⟩
    · obtain ⟨full, hfull, hheld, hflushed⟩ := h.flushed
      rw [← hflushed]
      exact hcaught full hfull hheld

end Stored

/-- The buffer of the writer may pass on what it likes. -/
private theorem exists_spill (hs : Stored c path d₀ id chunks F s)
    (hw : Writes c o path d₀ id chunks F s.writer s.disk s.written) (count : Nat) :
    ∃ F' : ByteArray, F.data.toList <+: F'.data.toList ∧
      Stored c path d₀ id chunks F'
        { s with
          writer := (Chunked.spill count s.writer s.disk).1
          disk := (Chunked.spill count s.writer s.disk).2 } ∧
      Writes c o path d₀ id chunks F' (Chunked.spill count s.writer s.disk).1
        (Chunked.spill count s.writer s.disk).2 s.written := by
  cases hw with
  | @closed b hwriter hclosed hfile hwritten =>
      have hspill : Chunked.spill count s.writer s.disk = (s.writer, s.disk) := by
        rw [hwriter, Chunked.spill, hclosed]
      rw [hspill]
      exact ⟨F, List.prefix_rfl, hs, .closed hwriter hclosed hfile hwritten⟩
  | @writing memory₀ memory w emitted hwriter hemits hlt hposition hframes hwritten =>
      obtain ⟨sink, d', hsink, hle, hwrote⟩ := hemits.wrote.spill count
      have hspill : Chunked.spill count s.writer s.disk =
          (ChunkWriter.handle path (.new c memory₀ o) (memory, { w with sink }), d') := by
        rw [hwriter]
        show (let (sink, d) := w.sink.spill count s.disk
          (ChunkWriter.handle path (.new c memory₀ o) (memory, { w with sink }), d)) = _
        rw [hsink]
      have hemits' : ({ w with sink } : ChunkWriter).Emits d₀ id emitted d' :=
        ⟨hwrote, hemits.written_eq, hemits.cache_le⟩
      obtain ⟨F', rfl, hposition', hfile⟩ := hemits'.exists_file
      rw [hspill]
      have hbegins' : F'.data.toList <+: c.magicBytes.data.toList ++ Chunk.frames chunks :=
        ⟨_, by rw [hfile, hframes]⟩
      have hgrown : F.data.toList <+: F'.data.toList := by
        refine List.prefix_of_prefix_length_le hs.begins hbegins' ?_
        rw [length_toList, length_toList, ← hposition, ← hposition']
        exact hle
      have hs' := hs.advance hgrown [] (by rwa [List.append_nil])
        (ChunkWriter.handle path (.new c memory₀ o) (memory, { w with sink })) s.written
      rw [List.append_nil] at hs'
      exact ⟨F', hgrown, hs', .writing rfl hemits' hlt hposition' hframes hwritten⟩

section Step

variable (hencodes : c.Encodes o)
  (hdecodes : ∀ emitted : List (Emitted c o), ∃ chunks : List (Chunk c),
    Chunk.frames chunks = Emitted.frames emitted ∧ Chunk.decoded chunks = Emitted.contents emitted ∧
      chunks.map (·.data) = emitted.map (·.data))

include hencodes hdecodes

/-- A request to the handle that writes succeeds, unless it is closed. After a flush the file holds
everything written. -/
private theorem exists_perform (hs : Stored c path d₀ id chunks F s)
    (hw : Writes c o path d₀ id chunks F s.writer s.disk s.written) (request : WriteRequest) :
    (∃ (f : File (Chunked σ)) (d : Disk) (chunks' : List (Chunk c)) (F' : ByteArray),
      s.writer.perform request s.disk = ⟨.ok (), f, d⟩ ∧
      F.data.toList <+: F'.data.toList ∧
      Stored c path d₀ id chunks' F'
        { s with writer := f, disk := d, written := s.written ++ request.bytes } ∧
      Writes c o path d₀ id chunks' F' f d (s.written ++ request.bytes) ∧
      Chunk.Extends chunks s.written.length chunks' (s.written ++ request.bytes).length ∧
      (request = .flush → F'.data.toList = c.magicBytes.data.toList ++ Chunk.frames chunks' ∧
        Chunk.decoded chunks' = s.written)) ∨
    s.writer.opened = false ∧
      F.data.toList = c.magicBytes.data.toList ++ Chunk.frames chunks ∧
      Chunk.decoded chunks = s.written := by
  cases hw with
  | closed hwriter _ hfile hwritten => exact .inr ⟨by rw [hwriter], hfile, hwritten⟩
  | @writing memory₀ memory w emitted hwriter hemits hlt hposition hframes hwritten =>
      left
      obtain ⟨more, w', d', memory', hperform, hemits', hgrows, hlt'⟩ :=
        hemits.perform hencodes hlt memory request
      obtain ⟨moreChunks, hmoreFrames, hmoreDecoded, hmoreData⟩ := hdecodes more
      obtain ⟨F', rfl, hposition', hfile⟩ := hemits'.exists_file
      have hframes' : Emitted.frames (emitted ++ more) = Chunk.frames (chunks ++ moreChunks) := by
        rw [Emitted.frames_append, Chunk.frames_append, hframes, hmoreFrames]
      have hwritten' : Chunk.decoded (chunks ++ moreChunks) ++ w'.cache.data.toList =
          s.written ++ request.bytes := by
        rw [Chunk.decoded_append, List.append_assoc, hmoreDecoded, hgrows.contents_eq,
          ← List.append_assoc, hwritten]
      have hbegins' : F'.data.toList <+: c.magicBytes.data.toList ++
          Chunk.frames (chunks ++ moreChunks) := ⟨_, by rw [hfile, hframes']⟩
      have hgrown : F.data.toList <+: F'.data.toList := by
        have hle := (ChunkWriter.advances_perform c o request (memory, w) s.disk).position_le
        rw [hperform] at hle
        refine List.prefix_of_prefix_length_le (hs.begins.trans ?_) hbegins' ?_
        · rw [Chunk.frames_append, ← List.append_assoc]
          exact List.prefix_append ..
        · rw [length_toList, length_toList, ← hposition, ← hposition']
          exact hle
      refine ⟨ChunkWriter.handle path (.new c memory₀ o) (memory', w'), _, chunks ++ moreChunks, F',
        ?_, hgrown, hs.advance hgrown moreChunks hbegins' _ _,
        .writing rfl hemits' hlt' hposition' hframes' hwritten', ?_, ?_⟩
      · rw [hwriter, ChunkWriter.perform_handle]
        exact congrArg (Outcome.mapState _) hperform
      · refine Chunk.extends_of_emitted hmoreData ?_ hgrows.first_le ?_
        · rw [← hwritten, List.length_append, length_toList]
        · exact (List.prefix_append _ _).length_le
      · rintro rfl
        obtain ⟨hcache, hpending⟩ := ChunkWriter.held_of_flush hperform
        constructor
        · rw [hframes', hpending] at hfile
          simpa using hfile
        · rw [toList_eq_nil_iff.2 hcache, List.append_nil] at hwritten'
          rw [hwritten', WriteRequest.bytes, List.append_nil]

/-- Closing leaves everything written in the file. -/
private theorem exists_close (hs : Stored c path d₀ id chunks F s)
    (hw : Writes c o path d₀ id chunks F s.writer s.disk s.written) :
    ∃ (chunks' : List (Chunk c)) (F' : ByteArray),
      F.data.toList <+: F'.data.toList ∧
      F'.data.toList = c.magicBytes.data.toList ++ Chunk.frames chunks' ∧
      Chunk.decoded chunks' = s.written ∧
      Stored c path d₀ id chunks' F'
        { s with writer := (s.writer.close s.disk).1, disk := (s.writer.close s.disk).2 } ∧
      Writes c o path d₀ id chunks' F' (s.writer.close s.disk).1 (s.writer.close s.disk).2
        s.written ∧
      Chunk.Extends chunks s.written.length chunks' s.written.length := by
  cases hw with
  | closed hwriter hclosed hfile hwritten =>
      have hclose : s.writer.close s.disk = (s.writer, s.disk) := by rw [hwriter]; rfl
      rw [hclose]
      exact ⟨chunks, F, List.prefix_rfl, hfile, hwritten, hs,
        .closed hwriter hclosed hfile hwritten, .of_le (Nat.le_refl _)⟩
  | @writing memory₀ memory w emitted hwriter hemits hlt hposition hframes hwritten =>
      obtain ⟨more, hcontents, hfirst, hfinish⟩ := hemits.finish hencodes memory
      obtain ⟨moreChunks, hmoreFrames, hmoreDecoded, hmoreData⟩ := hdecodes more
      have hfile : c.magicBytes.data.toList ++ Emitted.frames (emitted ++ more) =
          c.magicBytes.data.toList ++ Chunk.frames (chunks ++ moreChunks) := by
        rw [Emitted.frames_append, Chunk.frames_append, hframes, hmoreFrames]
      have hdecoded : Chunk.decoded (chunks ++ moreChunks) = s.written := by
        rw [Chunk.decoded_append, hmoreDecoded, hcontents, hwritten]
      rw [hfile] at hfinish
      have hgrown : F.data.toList <+: c.magicBytes.data.toList ++
          Chunk.frames (chunks ++ moreChunks) := by
        refine hs.begins.trans ?_
        rw [Chunk.frames_append, ← List.append_assoc]
        exact List.prefix_append ..
      refine ⟨chunks ++ moreChunks, ⟨(c.magicBytes.data.toList ++
        Chunk.frames (chunks ++ moreChunks)).toArray⟩, hgrown, rfl, hdecoded, ?_, ?_, ?_⟩
      · have hclose := ChunkWriter.close_handle path (.new c memory₀ o) (memory, w) s.disk
        rw [hwriter, hclose, show (w.finish (Chunked.new c memory₀ o).codec
          (Chunked.new c memory₀ o).options memory s.disk).2 = _ from hfinish]
        exact hs.advance hgrown moreChunks List.prefix_rfl _ _
      · rw [hwriter]
        exact .closed rfl rfl rfl hdecoded
      · refine Chunk.extends_of_emitted hmoreData ?_ hfirst (Nat.le_refl _)
        rw [← hwritten, List.length_append, length_toList]

/-- Every step keeps what the file holds of the chunks, and what the handles have of them. The file
grows, and so do the chunks and what was written. -/
theorem Step.grows {s' : Following σ} (hstep : Step c path s s')
    (hs : Stored c path d₀ id chunks F s)
    (hw : Writes c o path d₀ id chunks F s.writer s.disk s.written) :
    ∃ (chunks' : List (Chunk c)) (F' : ByteArray), F.data.toList <+: F'.data.toList ∧
      Chunk.Extends chunks s.written.length chunks' s'.written.length ∧
      Stored c path d₀ id chunks' F' s' ∧
      Writes c o path d₀ id chunks' F' s'.writer s'.disk s'.written := by
  have hsame : Chunk.Extends chunks s.written.length chunks s.written.length :=
    .of_le (Nat.le_refl _)
  have hperform := exists_perform hencodes hdecodes hs hw
  cases hstep with
  | @write bytes f d hrun =>
      rcases hperform (.write bytes) with
        ⟨_, _, chunks', F', hrun', hgrown, hs', hw', hextends, -⟩ | ⟨hclosed, -, -⟩
      · obtain ⟨-, rfl, rfl⟩ := Outcome.mk.inj (hrun.symm.trans hrun')
        exact ⟨chunks', F', hgrown, hextends, hs', hw'⟩
      · simp [File.write, File.check, hclosed] at hrun
  | @refused request e f d hrun =>
      rcases hperform request with ⟨_, _, _, _, hrun', -⟩ | ⟨hclosed, -, -⟩
      · cases hrun.symm.trans hrun'
      · -- A closed handle refuses the bytes, and stays as it is.
        cases request with
        | write bytes =>
            simp only [File.perform, File.write, File.check, hclosed] at hrun
            obtain ⟨-, rfl, rfl⟩ := Outcome.mk.inj hrun
            exact ⟨chunks, F, List.prefix_rfl, hsame, hs, hw⟩
        | flush => simp [File.perform, File.flush, File.check, hclosed] at hrun
  | @flush f d hrun =>
      rcases hperform .flush with
        ⟨_, _, chunks', F', hrun', hgrown, hs', hw', hextends, hall⟩ | ⟨hclosed, hfile, hwritten⟩
      · obtain ⟨-, rfl, rfl⟩ := Outcome.mk.inj (hrun.symm.trans hrun')
        obtain ⟨hfile, hwritten⟩ := hall rfl
        rw [WriteRequest.bytes, List.append_nil] at hs' hw' hextends
        refine ⟨chunks', F', hgrown, hextends, ?_, hw'⟩
        have hflushed := hs'.flush hfile
        rwa [hwritten] at hflushed
      · simp only [File.flush, File.check, hclosed] at hrun
        obtain ⟨-, rfl, rfl⟩ := Outcome.mk.inj hrun
        refine ⟨chunks, F, List.prefix_rfl, hsame, ?_, hw⟩
        have hflushed := hs.flush hfile
        rwa [hwritten] at hflushed
  | @close f d hrun =>
      obtain ⟨chunks', F', hgrown, hfile, hwritten, hs', hw', hextends⟩ :=
        exists_close hencodes hdecodes hs hw
      rw [hrun] at hs' hw'
      refine ⟨chunks', F', hgrown, hextends, ?_, hw'⟩
      have hflushed := hs'.flush hfile
      rwa [hwritten] at hflushed
  | @spill count f d hrun =>
      obtain ⟨F', hgrown, hs', hw'⟩ := exists_spill hs hw count
      rw [hrun] at hs' hw'
      exact ⟨chunks, F', hgrown, hsame, hs', hw'⟩
  | openReader hnone hcodec hopen =>
      exact ⟨chunks, F, List.prefix_rfl, hsame, hs.openReader hnone hcodec hopen, hw⟩
  | @readSome g g' count piece hreader hcount hread =>
      rcases hs.exists_read hreader hcount with
        ⟨_, _, hread', -, hs'⟩ | ⟨result, _, hread', ⟨rfl, hs'⟩ | ⟨e, rfl⟩, -⟩
      · cases hread.symm.trans hread'
        exact ⟨chunks, F, List.prefix_rfl, hsame, hs', hw⟩
      · cases hread.symm.trans hread'
        exact ⟨chunks, F, List.prefix_rfl, hsame, by simpa using hs', hw⟩
      · cases hread.symm.trans hread'

/-- Every step keeps what the file holds of the chunks, and what the handles have of them. The file
grows. -/
theorem Step.keeps {s' : Following σ} (hstep : Step c path s s')
    (hs : Stored c path d₀ id chunks F s)
    (hw : Writes c o path d₀ id chunks F s.writer s.disk s.written) :
    ∃ (chunks' : List (Chunk c)) (F' : ByteArray), F.data.toList <+: F'.data.toList ∧
      Stored c path d₀ id chunks' F' s' ∧
      Writes c o path d₀ id chunks' F' s'.writer s'.disk s'.written := by
  obtain ⟨chunks', F', hgrown, -, hs', hw'⟩ := hstep.grows hencodes hdecodes hs hw
  exact ⟨chunks', F', hgrown, hs', hw'⟩

/-- Closing leaves a file that has all chunks emitted by now, and perhaps one more. -/
theorem exists_closed (hs : Stored c path d₀ id chunks F s)
    (hw : Writes c o path d₀ id chunks F s.writer s.disk s.written) :
    ∃ F' : ByteArray, (s.writer.close s.disk).2.contents? path = some F' ∧
      2 + (Chunk.frames chunks).length ≤ F'.size := by
  obtain ⟨_, F', -, hfile, -, hs', -, hextends⟩ := exists_close hencodes hdecodes hs hw
  obtain ⟨more, rfl, -⟩ := hextends.exists_more
  refine ⟨F', ?_, ?_⟩
  · exact hs'.contents_eq
  · rw [← length_toList, hfile, List.length_append, length_toList, Codec.size_magicBytes,
      Chunk.frames_append, List.length_append]
    omega

end Step

/-- What the chunks emitted hold is the beginning of what was written. -/
theorem Writes.decoded_begins {f : File (Chunked σ)} {d : Disk} {written : List UInt8}
    (hw : Writes c o path d₀ id chunks F f d written) : Chunk.decoded chunks <+: written := by
  cases hw with
  | writing _ _ _ _ _ hwritten => exact ⟨_, hwritten⟩
  | closed _ _ _ hwritten => exact hwritten ▸ List.prefix_rfl

/-- A handle goes on behind the first `k` bytes written: it delivers bytes that come next there, or
all that was flushed is among the first `k`. -/
def Continues (s : Following σ) (k : Nat) (g : File (Chunked σ)) : Prop :=
  k ≤ s.written.length ∧ ∀ count, 0 < count →
    (∃ piece g', g.readSome count s.disk = (.ok piece, g') ∧ 0 < piece.size ∧
      piece.data.toList <+: s.written.drop k) ∨ s.flushed.length ≤ k

/-- A handle that trails behind the first `k` bytes goes on there. -/
theorem Stored.continues (hs : Stored c path d₀ id chunks F s)
    (hwritten : Chunk.decoded chunks <+: s.written) {r : ChunkReader} {b : Chunked σ}
    (hb : b.codec = c) {k : Nat} (hk : k ≤ (Chunk.decoded chunks).length)
    (htrails : r.Trails c s.disk F chunks ((Chunk.decoded chunks).take k)) :
    s.Continues k (r.handle path b) := by
  refine ⟨Nat.le_trans hk hwritten.length_le, fun count hcount => ?_⟩
  rcases htrails.readSome hs.begins hcount with
    ⟨piece, r', hread, hpos, htrails'⟩ | ⟨_, _, -, -, hcaught⟩
  · refine .inl ⟨piece, r'.handle path b, ?_, hpos, ?_⟩
    · rw [ChunkReader.readSome_handle, hb, hread]
      rfl
    · obtain ⟨rest, hrest⟩ := htrails'.delivered_begins.trans hwritten
      refine ⟨rest, ?_⟩
      rw [← hrest, List.append_assoc, List.drop_left' (List.length_take_of_le hk)]
  · obtain ⟨full, hfull, hheld, hflushed⟩ := hs.flushed
    have hle := (hcaught full hfull hheld).length_le
    rw [hflushed] at hle
    exact .inr (Nat.le_trans hle (List.length_take_le ..))

section

variable [Compression] {c : Codec Compression.Memory} (ho : o.validate = .ok ())

include ho

/-- A new handle opens a path that can be created for writing, and has emitted no chunk then. -/
theorem exists_start {d : Disk} (hpath : d.Creatable path) :
    ∃ (f : File (Chunked Compression.Memory)) (d₀ d₁ : Disk) (id : Nat) (F : ByteArray),
      (File.new (Chunked.new c Compression.fresh o)).open path .write d = ⟨.ok (), f, d₁⟩ ∧
      Stored c path d₀ id [] F ⟨f, none, d₁, [], [], []⟩ ∧ Writes c o path d₀ id [] F f d₁ [] := by
  obtain ⟨id, d₀, w, d₁, hcreate, hmade, hemits, hempty⟩ :=
    ChunkWriter.create_of_creatable (c := c) ho hpath
  obtain ⟨F, rfl, hposition, hfile⟩ := hemits.exists_file
  refine ⟨ChunkWriter.handle path (.new c Compression.fresh o) (Compression.fresh, w), d₀, _, id, F,
    by rw [Chunked.open_new_write, hmade], ?_, .writing rfl hemits ?_ hposition rfl ?_⟩
  · exact {
      find_eq := Disk.find?_create hcreate
      id_lt := hemits.wrote.id_lt
      disk_eq := rfl
      begins := ⟨_, hfile⟩
      flushed := ⟨[], List.prefix_rfl, List.nil_prefix, rfl⟩
      unread := fun _ => rfl
      reader := fun g hg => by cases hg }
  · rw [hempty]
    exact (WriteOptions.chunkSize_of_validate ho).1
  · rw [hempty]
    rfl

/-- What the chunks of a format hold is what was emitted into them. -/
theorem exists_decoded {format : Format} (hformat : format.codec? = some c) (hc : c.Lossless)
    (emitted : List (Emitted c o)) :
    ∃ chunks : List (Chunk c), Chunk.frames chunks = Emitted.frames emitted ∧
      Chunk.decoded chunks = Emitted.contents emitted ∧
      chunks.map (·.data) = emitted.map (·.data) :=
  Emitted.exists_chunks hc (format.roomy_of_codec? hformat) ho emitted

end
end Following

/-- A handle writes a trace, and another one follows it, while the buffer of the first passes bytes
on to the file whenever it likes. Whatever the order of their requests, what the reader has delivered
is the beginning of what was written. And if it delivers nothing now, it has delivered everything
that was written before the last flush or close. A reader opens as soon as the magic is there. -/
theorem Chunked.follows [Compression] {format : Format} {c : Codec Compression.Memory}
    (hformat : format.codec? = some c) (hc : c.Lossless) (ho : o.validate = .ok ())
    {d : Disk} {path : String} (hpath : d.Creatable path) :
    let opened := (File.new (Chunked.new c Compression.fresh o)).open path .write d
    opened.result = .ok () ∧
    ∀ s, Relation.ReflTransGen (Following.Step c path)
        ⟨opened.state, none, opened.disk, [], [], []⟩ s →
      (∀ F, s.disk.contents? path = some F → 2 ≤ F.size →
        ∃ g, (File.new (Chunked.new c Compression.fresh o)).open path .read s.disk =
          ⟨.ok (), g, s.disk⟩) ∧
      s.delivered <+: s.written ∧
      ∀ g, s.reader = some g → ∀ count, 0 < count →
        (∃ piece g', g.readSome count s.disk = (.ok piece, g') ∧ 0 < piece.size) ∨
        s.flushed <+: s.delivered := by
  intro opened
  obtain ⟨f, d₀, d₁, id, F₀, hmade, hstored, hwrites⟩ :=
    Following.exists_start (c := c) ho hpath
  replace hmade : opened = ⟨.ok (), f, d₁⟩ := hmade
  clear_value opened
  subst hmade
  refine ⟨rfl, fun s hreached => ?_⟩
  obtain ⟨chunks, F, hs, hw⟩ : ∃ chunks F, Following.Stored c path d₀ id chunks F s ∧
      Following.Writes c o path d₀ id chunks F s.writer s.disk s.written := by
    induction hreached with
    | refl => exact ⟨[], F₀, hstored, hwrites⟩
    | tail _ hstep ih =>
        obtain ⟨chunks, F, hs, hw⟩ := ih
        obtain ⟨chunks, F, -, hs, hw⟩ := hstep.keeps
          (hc.encodes (format.roomy_of_codec? hformat) ho)
          (Following.exists_decoded ho hformat hc) hs hw
        exact ⟨chunks, F, hs, hw⟩
  refine ⟨fun F' hF' hvisible => hs.exists_open hF' hvisible Compression.fresh o, ?_, ?_⟩
  · cases hreader : s.reader with
    | none =>
        rw [hs.unread hreader]
        exact List.nil_prefix
    | some g =>
        obtain ⟨r, b, -, -, -, htrails⟩ := hs.reader g hreader
        exact htrails.delivered_begins.trans hw.decoded_begins
  · intro g hg count hcount
    rcases hs.exists_read hg hcount with ⟨piece, g', hread, hsize, -⟩ | ⟨_, _, -, -, hflushed⟩
    · exact .inl ⟨piece, g', hread, hsize⟩
    · exact .inr hflushed

theorem Chunked.follows_snappy :
    let b := Chunked.new Snappy.codec () default
    let opened := (File.new b).open "t" .write .empty
    let spilled := Chunked.spill 2 opened.state opened.disk
    let reader := (File.new b).open "t" .read spilled.2
    let wrote := spilled.1.write ⟨#[7, 8]⟩ spilled.2
    let flushed := wrote.state.flush wrote.disk
    let read := reader.state.readSome 1 flushed.disk
    reader.result = .ok () ∧ read.1 = .ok ⟨#[7]⟩ ∧
      ∃ piece g', read.2.readSome 9 flushed.disk = (.ok piece, g') ∧ 0 < piece.size := by
  intro b opened spilled reader wrote flushed read
  have hwrote : spilled.1.write ⟨#[7, 8]⟩ spilled.2 = ⟨.ok (), wrote.state, wrote.disk⟩ :=
    Outcome.eq_of_result (by decide +kernel)
  have hflushed : wrote.state.flush wrote.disk = ⟨.ok (), flushed.state, flushed.disk⟩ :=
    Outcome.eq_of_result (by decide +kernel)
  have hmagic : spilled.2.contents? "t" = some ⟨#[0x61, 0x74]⟩ := by decide +kernel
  have hreader : (File.new b).open "t" .read spilled.2 = ⟨.ok (), reader.state, spilled.2⟩ := by
    obtain ⟨_, hopen⟩ :=
      open_of_magic (c := Snappy.codec) () default hmagic (List.prefix_append [0x61, 0x74] _)
    show reader = _
    rw [show reader = _ from hopen]
  have hpiece : read.1 = .ok ⟨#[7]⟩ := by decide +kernel
  have hread : reader.state.readSome 1 flushed.disk = (.ok ⟨#[7]⟩, read.2) := by rw [← hpiece]
  have hpath : Disk.empty.Creatable "t" := ⟨2, _, rfl, rfl⟩
  obtain ⟨-, hfollows⟩ := @follows default Compression.stored .snappy Snappy.codec rfl
    Snappy.lossless rfl .empty "t" hpath
  have hspilled : Chunked.spill 2 opened.state opened.disk = spilled := rfl
  have hcodec : (File.new b).backend.codec = Snappy.codec := rfl
  replace hfollows : ∀ s, Relation.ReflTransGen (Following.Step Snappy.codec "t")
    ⟨opened.state, none, opened.disk, [], [], []⟩ s → _ := hfollows
  have hopened : reader.result = .ok () := congrArg Outcome.result hreader
  clear_value read flushed wrote reader spilled opened b
  have h₁ : Following.Step Snappy.codec "t" ⟨opened.state, none, opened.disk, [], [], []⟩ _ :=
    .spill hspilled
  have h₂ : Following.Step Snappy.codec "t" ⟨spilled.1, none, spilled.2, [], [], []⟩ _ :=
    .openReader rfl hcodec hreader
  have h₃ : Following.Step Snappy.codec "t"
      ⟨spilled.1, some reader.state, spilled.2, [], [], []⟩ _ := .write hwrote
  have h₄ : Following.Step Snappy.codec "t"
      ⟨wrote.state, some reader.state, wrote.disk, [7, 8], [], []⟩ _ := .flush hflushed
  have h₅ : Following.Step Snappy.codec "t"
      ⟨flushed.state, some reader.state, flushed.disk, [7, 8], [7, 8], []⟩ _ :=
    .readSome rfl (by decide) hread
  have hreached := ((((Relation.ReflTransGen.single h₁).tail h₂).tail h₃).tail h₄).tail h₅
  obtain ⟨-, -, hnext⟩ := hfollows _ hreached
  refine ⟨hopened, hpiece, ?_⟩
  rcases hnext _ rfl 9 (by decide) with hmore | hbehind
  · exact hmore
  · -- The reader has but the first of the two bytes that were flushed.
    have hshort : ([7, 8] : List UInt8) <+: [7] := hbehind
    exact absurd hshort (by decide)

end TraceStore
