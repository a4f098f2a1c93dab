import TraceStore.Proofs.Chunk.Resume
import TraceStore.Proofs.Chunk.Writer
import TraceStore.Proofs.Compression

/-!
# Reading back what was written

The chunks that a writer emits are chunks that readers accept, if the codec is lossless. So a file
that a writer has finished delivers the bytes that were written to it, and does so from the position
that the writer told at any moment on with the bytes that were written after it.
-/
namespace TraceStore

variable {σ : Type} {c : Codec σ} {o : WriteOptions}

/-! ### Emitted chunks are accepted -/

theorem Codec.Lossless.encodes (hc : c.Lossless) (hroom : c.Roomy) (ho : o.validate = .ok ()) :
    c.Encodes o := by
  intro data memory hpos hle
  have hmax := (WriteOptions.chunkSize_of_validate ho).2
  obtain ⟨block, memory', hblock, -, hsize⟩ := hc o data memory ho hpos (by omega)
  have hlimit := hroom.maxCompressedLen_le (n := data.size) (by omega)
  have hfield := hroom.lengthLimit_lt
  exact ⟨block, memory', hblock, by omega⟩

namespace Emitted

/-- A chunk that was emitted, as one that readers accept. -/
theorem exists_chunk (hc : c.Lossless) (hroom : c.Roomy) (ho : o.validate = .ok ())
    (e : Emitted c o) : ∃ chunk : Chunk c, chunk.block = e.block ∧ chunk.data = e.data := by
  have hmax := (WriteOptions.chunkSize_of_validate ho).2
  have hle := e.data_le
  obtain ⟨memory, memory', hcompress⟩ := e.compress_eq
  obtain ⟨block, _, hblock, hdata, hsize⟩ := hc o e.data memory ho e.data_pos (by omega)
  obtain rfl := Except.ok.inj (Prod.mk.inj (hblock.symm.trans hcompress)).1
  have hlimit := hroom.maxCompressedLen_le (n := e.data.size) (by omega)
  exact ⟨⟨e.block, e.data, e.size_lt, by omega, hdata⟩, rfl, rfl⟩

/-- Chunks that were emitted, as chunks that readers accept. -/
theorem exists_chunks (hc : c.Lossless) (hroom : c.Roomy) (ho : o.validate = .ok ())
    (emitted : List (Emitted c o)) : ∃ chunks : List (Chunk c),
      Chunk.frames chunks = frames emitted ∧ Chunk.decoded chunks = contents emitted ∧
        chunks.map (·.data) = emitted.map (·.data) := by
  induction emitted with
  | nil => exact ⟨[], rfl, rfl, rfl⟩
  | cons e emitted ih =>
      obtain ⟨chunk, hblock, hdata⟩ := e.exists_chunk hc hroom ho
      obtain ⟨chunks, hframes, hdecoded, hall⟩ := ih
      exact ⟨chunk :: chunks, by simp [hframes, Chunk.frame, hblock], by simp [hdecoded, hdata],
        by simp [hall, hdata]⟩

end Emitted

/-! ### A whole session -/

namespace ChunkWriter

variable {d₀ d : Disk} {id : Nat} {emitted : List (Emitted c o)} {w : ChunkWriter}

/-- Requests from some moment on, and the end of the session, leave a file in which the pending
bytes of that moment and the bytes written after it lie in chunks behind those emitted before. -/
theorem Emits.runAll_finish (h : w.Emits d₀ id emitted d) (hc : c.Encodes o)
    (hlt : w.cache.size < o.chunkSize.toNat) (memory : σ) (requests : List WriteRequest) :
    ∃ (more : List (Emitted c o)) (w' : ChunkWriter) (d' : Disk) (memory' : σ),
      WriteRequest.runAll (ChunkWriter.perform c o) requests (memory, w) d = ⟨.ok (), (memory', w'), d'⟩ ∧
        (w'.finish c o memory' d').2 = d₀.setNode id (.file ⟨(c.magicBytes.data.toList ++
          Emitted.frames (emitted ++ more)).toArray⟩) ∧
        Emitted.contents more = w.cache.data.toList ++ WriteRequest.written requests ∧
        ∀ e ∈ more.head?, w.cache.size ≤ e.data.size := by
  obtain ⟨more₁, w', d', memory', hrun, h', hgrows, -⟩ := h.runAll hc hlt memory requests
  obtain ⟨more₂, hcontents, hfirst, hfinish⟩ := h'.finish hc memory'
  have hall : Grows (more₁ ++ more₂) (WriteRequest.written requests ++ []) w
      { w' with cache := .empty } := hgrows.trans ⟨by simp [hcontents], hfirst⟩
  refine ⟨more₁ ++ more₂, w', d', memory', hrun, ?_, ?_, hall.first_le⟩
  · rw [hfinish, List.append_assoc]
  · simpa using hall.contents_eq

end ChunkWriter

/-- Every reader of a finished file accepts a position that its writer told, tells it again, and
delivers what was written after it. -/
theorem ChunkReader.OnFile.seek_mark {r : ChunkReader} {d : Disk} {F pending : ByteArray}
    {s : List UInt8} {emitted more : List (Emitted c o)} (h : r.OnFile d F) (hc : c.Lossless)
    (hroom : c.Roomy) (ho : o.validate = .ok ()) (hsize : F.size < 2 ^ 64)
    (hF : F.data.toList = c.magicBytes.data.toList ++ Emitted.frames (emitted ++ more))
    (hmore : Emitted.contents more = pending.data.toList ++ s)
    (hpending : pending.size < o.chunkSize.toNat)
    (hfirst : ∀ e ∈ more.head?, pending.size ≤ e.data.size) :
    let mark := Offset.ofNat (2 + (Emitted.frames emitted).length) pending.size
    ∃ r', r.setCurrentOffset c mark d = (.ok (), r') ∧ r'.currentOffset = mark ∧
      r'.Streams c d s (.ok ()) := by
  intro mark
  have hmax := (WriteOptions.chunkSize_of_validate ho).2
  rw [maxChunkSize] at hmax
  obtain ⟨chunks, hframes, hdecoded, hall⟩ := Emitted.exists_chunks hc hroom ho more
  have hlen := congrArg List.length hF
  rw [length_toList, Emitted.frames_append, List.length_append, List.length_append, length_toList,
    Codec.size_magicBytes] at hlen
  have hbehind : F.data.toList.drop (2 + (Emitted.frames emitted).length) = Chunk.frames chunks := by
    rw [hF, Emitted.frames_append, ← List.append_assoc, hframes, List.drop_left']
    rw [List.length_append, length_toList, Codec.size_magicBytes]
  obtain ⟨r', hseek, htell, hstreams, -⟩ :=
    ChunkReader.seek (a := mark) h (target_ofNat (by omega) (by omega)) (inChunk_ofNat (by omega))
      (by omega) (by omega) hbehind (by
        cases chunks with
        | nil =>
            -- No chunk follows, so nothing was pending.
            have hnone := congrArg List.length (hdecoded.trans hmore)
            rw [Chunk.decoded_nil, List.length_nil, List.length_append, length_toList] at hnone
            exact .inl (by omega)
        | cons chunk chunks =>
            refine .inr ⟨chunk, chunks, rfl, ?_⟩
            cases more with
            | nil => simp at hall
            | cons e more =>
                have hdata : chunk.data = e.data := (List.cons.inj hall).1
                rw [hdata]
                exact hfirst e (by simp))
  refine ⟨r', hseek, htell, ?_⟩
  rwa [hdecoded, hmore, List.drop_left' (length_toList _)] at hstreams

/-- A session with some requests before a moment and others after it. All of them succeed, and the
file that is left has the chunks emitted before that moment in front, and those that hold what was
pending then and written later behind them. -/
theorem Chunked.session (hc : c.Lossless) (hroom : c.Roomy) (ho : o.validate = .ok ())
    {d : Disk} {path : String} (hpath : d.Creatable path) (memory : σ)
    (before after : List WriteRequest) :
    let b := Chunked.new c memory o
    ∃ (w₀ w₁ w₂ : σ × ChunkWriter) (d₀ d₁ d₂ : Disk) (F : ByteArray)
      (emitted more : List (Emitted c o)),
      (File.new b).open path .write d = ⟨.ok (), ChunkWriter.handle path b w₀, d₀⟩ ∧
      WriteRequest.runAll File.perform before (ChunkWriter.handle path b w₀) d₀ =
        ⟨.ok (), ChunkWriter.handle path b w₁, d₁⟩ ∧
      WriteRequest.runAll File.perform after (ChunkWriter.handle path b w₁) d₁ =
        ⟨.ok (), ChunkWriter.handle path b w₂, d₂⟩ ∧
      (w₂.2.finish c o w₂.1 d₂).2.contents? path = some F ∧
      F.data.toList = c.magicBytes.data.toList ++ Emitted.frames (emitted ++ more) ∧
      w₁.2.written = 2 + (Emitted.frames emitted).length ∧
      w₁.2.cache.size < o.chunkSize.toNat ∧
      Emitted.contents emitted ++ w₁.2.cache.data.toList = WriteRequest.written before ∧
      Emitted.contents more = w₁.2.cache.data.toList ++ WriteRequest.written after ∧
      ∀ e ∈ more.head?, w₁.2.cache.size ≤ e.data.size := by
  intro b
  have hpos := (WriteOptions.chunkSize_of_validate ho).1
  have hencodes := hc.encodes hroom ho
  obtain ⟨id, d', w₀, d₀, hcreate, hopen, h₀, hempty⟩ :=
    ChunkWriter.create_of_creatable (c := c) ho hpath
  obtain ⟨emitted, w₁, d₁, memory₁, hbefore, h₁, hgrows, hlt⟩ :=
    h₀.runAll hencodes (by rw [hempty]; exact hpos) memory before
  obtain ⟨more, w₂, d₂, memory₂, hafter, hfinish, hmore, hfirst⟩ :=
    h₁.runAll_finish hencodes hlt memory₁ after
  have hhandle := WriteRequest.runAll_mapState (ChunkWriter.handle path b)
    (fun request w d => ChunkWriter.perform_handle path b w d request)
  refine ⟨(memory, w₀), (memory₁, w₁), (memory₂, w₂), d₀, d₁, d₂,
    ⟨(c.magicBytes.data.toList ++ Emitted.frames (emitted ++ more)).toArray⟩, emitted, more, ?_, ?_,
    ?_, ?_, rfl, h₁.written_eq, hlt, ?_, hmore, hfirst⟩
  · rw [open_new_write, hopen]
  · rw [hhandle]
    exact congrArg (Outcome.mapState _) hbefore
  · rw [hhandle]
    exact congrArg (Outcome.mapState _) hafter
  · rw [hfinish, List.nil_append]
    exact Disk.contents?_setNode (Disk.find?_create hcreate) h₁.wrote.id_lt
  · simpa [hempty] using hgrows.contents_eq

/-- Whatever is requested of a new handle that writes, a new handle on the file reads it back. -/
theorem Chunked.roundTrips (hc : c.Lossless) (hroom : c.Roomy) (hmagic : c.magic = c.format.magic)
    (ho : o.validate = .ok ()) {d : Disk} {path : String} (hpath : d.Creatable path) (memory : σ)
    (requests : List WriteRequest) :
    File.RoundTrips (Chunked.new c memory) c.format o path d requests := by
  obtain ⟨w₀, w₁, w₂, d₀, d₁, d₂, F, emitted, more, hopen, hbefore, hafter, hcontents, hF, -, -,
    hnone, hmore, -⟩ := session hc hroom ho hpath memory [] requests
  obtain ⟨-, hw, rfl⟩ := Outcome.mk.inj hbefore
  generalize hfinish : (w₂.2.finish c o w₂.1 d₂).2 = d' at hcontents
  have hwritten : Emitted.contents (emitted ++ more) = WriteRequest.written requests := by
    rw [Emitted.contents_append, hmore, ← List.append_assoc, hnone]
    rfl
  obtain ⟨chunks, hframes, hdecoded, -⟩ := Emitted.exists_chunks hc hroom ho (emitted ++ more)
  have hbody : F.data.toList = c.magicBytes.data.toList ++ (Chunk.frames chunks ++ []) := by
    rw [hF, hframes, List.append_nil]
  obtain ⟨r, hr, hstreams⟩ := ChunkReader.streams_of_open hcontents chunks .clean hbody
  have hclose := (ChunkWriter.close_handle path (new c memory o) w₂ d₂).trans hfinish
  have hrelease := (ChunkWriter.release_handle path (new c memory o) w₂ d₂).trans hfinish
  rw [← hw] at hafter
  refine ⟨_, _, d₀, d₂, d', F, hopen, hafter, hclose, hrelease, hcontents, ?_, fun o' => ?_⟩
  · rw [hF, ← hmagic]
    exact List.prefix_append ..
  · refine ⟨r.handle path (.new c memory o'), ?_, rfl, ?_⟩
    · rw [open_new_read, hr]
    · rw [← hwritten, ← hdecoded]
      exact hstreams.serves_handle

/-- The position that a writer tells between any two requests is accepted by every handle on the
file, once the writer is closed or given up. The handle then tells it too, and delivers exactly
what was written after it was told. The places in a file are numbers of 64 bits, so this is about
files that are not longer. -/
theorem Chunked.mark_resumes [Compression] {format : Format} {c : Codec Compression.Memory}
    (hformat : format.codec? = some c) (hc : c.Lossless) (ho : o.validate = .ok ())
    {d : Disk} {path : String} (hpath : d.Creatable path) (before after : List WriteRequest) :
    let opened := (File.new (Chunked.new c Compression.fresh o)).open path .write d
    let marked := WriteRequest.runAll File.perform before opened.state opened.disk
    let ended := WriteRequest.runAll File.perform after marked.state marked.disk
    opened.result = .ok () ∧ marked.result = .ok () ∧ ended.result = .ok () ∧
    ∀ d', d' = (ended.state.close ended.disk).2 ∨ d' = ended.state.release ended.disk →
      ∃ F, d'.contents? path = some F ∧ (F.size < 2 ^ 64 →
        ∀ g, OpenOn c path d' g → ∃ g',
          g.setCurrentOffset marked.state.currentOffset.1 d' = (.ok (), g') ∧
          g'.currentOffset.1 = marked.state.currentOffset.1 ∧
          Delivers (fun count g => g.readSome count d') (WriteRequest.written after) g') := by
  intro opened marked ended
  have hroom : c.Roomy := format.roomy_of_codec? hformat
  obtain ⟨w₀, w₁, w₂, d₀, d₁, d₂, F, emitted, more, hopen, hbefore, hafter, hcontents, hF, hwritten,
    hlt, -, hmore, hfirst⟩ := session hc hroom ho hpath Compression.fresh before after
  have hopened : opened = ⟨.ok (), ChunkWriter.handle path _ w₀, d₀⟩ := hopen
  clear_value opened
  subst hopened
  have hmarked : marked = ⟨.ok (), ChunkWriter.handle path _ w₁, d₁⟩ := hbefore
  clear_value marked
  subst hmarked
  have hended : ended = ⟨.ok (), ChunkWriter.handle path _ w₂, d₂⟩ := hafter
  clear_value ended
  subst hended
  refine ⟨rfl, rfl, rfl, fun d' hd' => ?_⟩
  have hfinish : d' = (w₂.2.finish c o w₂.1 d₂).2 := by
    rcases hd' with hclose | hrelease
    · exact hclose.trans (ChunkWriter.close_handle ..)
    · exact hrelease.trans (ChunkWriter.release_handle ..)
  rw [← hfinish] at hcontents
  refine ⟨F, hcontents, fun hsize g hg => ?_⟩
  obtain ⟨r, b, rfl, hb, hr⟩ := hg.exists_reader hcontents
  obtain ⟨r', hseek, htell, hstreams⟩ :=
    hr.seek_mark hc hroom ho hsize hF hmore hlt hfirst
  have hmark : (ChunkWriter.handle path (Chunked.new c Compression.fresh o) w₁).currentOffset.1 =
      .ofNat (2 + (Emitted.frames emitted).length) w₁.2.cache.size := by
    rw [ChunkWriter.currentOffset_handle, ChunkWriter.currentOffset, hwritten]
  refine ⟨r'.handle path b, ?_, ?_, ?_⟩
  · rw [hmark, ChunkReader.setCurrentOffset_handle, hb, hseek]
    rfl
  · rw [hmark]
    exact htell
  · rw [← hb] at hstreams
    exact hstreams.delivers_handle

theorem Chunked.mark_resumes_on_new_file :
    let opened := (File.new (Chunked.new Snappy.codec () default)).open "t" .write .empty
    let marked := WriteRequest.runAll File.perform [.write ⟨#[7]⟩] opened.state opened.disk
    let ended := WriteRequest.runAll File.perform [.flush, .write ⟨#[8]⟩] marked.state marked.disk
    let d' := (ended.state.close ended.disk).2
    ∃ g, OpenOn Snappy.codec "t" d' g ∧
      ∃ g', g.setCurrentOffset marked.state.currentOffset.1 d' = (.ok (), g') ∧
        Delivers (fun count g => g.readSome count d') [8] g' := by
  intro opened marked ended d'
  have hpath : Disk.empty.Creatable "t" := ⟨2, _, rfl, rfl⟩
  obtain ⟨-, -, -, hfile⟩ := @mark_resumes default Compression.stored .snappy Snappy.codec rfl
    Snappy.lossless rfl .empty "t" hpath [.write ⟨#[7]⟩] [.flush, .write ⟨#[8]⟩]
  obtain ⟨F, hF, hmark⟩ := hfile d' (.inl rfl)
  have hF' : d'.contents? "t" = some ⟨#[0x61, 0x74, 3, 0, 0, 0, 1, 0, 7, 3, 0, 0, 0, 1, 0, 8]⟩ := by
    decide +kernel
  clear_value d'
  obtain rfl := Option.some.inj (hF.symm.trans hF')
  obtain ⟨_, hopen⟩ :=
    Chunked.open_of_magic (c := Snappy.codec) () default hF' (List.prefix_append [0x61, 0x74] _)
  have hg := OpenOn.opened (c := Snappy.codec) rfl hopen
  obtain ⟨g', hseek, -, hdelivers⟩ := hmark (by decide) _ hg
  exact ⟨_, hg, g', hseek, hdelivers⟩

end TraceStore
