import TraceStore.Proofs.Chunk.Grammar
import TraceStore.Proofs.Chunk.Position
import TraceStore.Proofs.Codec.Snappy

/-!
# Positions told while reading

A position that a handle tells while it reads a file leads every handle on that file, in whatever
state, to the bytes that the first one would have delivered next.
-/
namespace TraceStore

variable {σ : Type}

/-- The handles on a path of a disk: those that were opened for reading, and were then asked for
anything in any order. -/
inductive OpenOn (c : Codec σ) (path : String) (d : Disk) : File (Chunked σ) → Prop
  | opened {f g : File (Chunked σ)} : f.backend.codec = c →
      f.open path .read d = ⟨.ok (), g, d⟩ → OpenOn c path d g
  | asked {f : File (Chunked σ)} (request : ReadRequest) : OpenOn c path d f →
      OpenOn c path d (f.ask d request).2

/-- The handles on a path of a disk that went to no positions but the start of the stream and those
that such handles told. -/
inductive Browsed (c : Codec σ) (path : String) (d : Disk) : File (Chunked σ) → Prop
  | opened {f g : File (Chunked σ)} : f.backend.codec = c →
      f.open path .read d = ⟨.ok (), g, d⟩ → Browsed c path d g
  | read {f : File (Chunked σ)} (count : Nat) : Browsed c path d f →
      Browsed c path d (f.read count d).2
  | readSome {f : File (Chunked σ)} (count : Nat) : Browsed c path d f →
      Browsed c path d (f.readSome count d).2
  | getc {f : File (Chunked σ)} : Browsed c path d f → Browsed c path d (f.getc d).2
  | skip {f : File (Chunked σ)} (count : Nat) : Browsed c path d f →
      Browsed c path d (f.skip count d).2
  | rewind {f : File (Chunked σ)} : Browsed c path d f →
      Browsed c path d (f.setCurrentOffset default d).2
  | resume {f g : File (Chunked σ)} : Browsed c path d f → Browsed c path d g →
      Browsed c path d (f.setCurrentOffset g.currentOffset.1 d).2

variable {c : Codec σ} {path : String} {d : Disk} {F : ByteArray} {f : File (Chunked σ)}

/-- A handle on a path has a reader of the file open that the path leads to. -/
theorem OpenOn.exists_sameFile (h : OpenOn c path d f) :
    ∃ (r₀ r : ChunkReader) (b : Chunked σ), ChunkReader.open c path d = .ok r₀ ∧
      f = r.handle path b ∧ b.codec = c ∧ ChunkReader.SameFile r₀ r := by
  induction h with
  | opened hcodec hopen =>
      obtain ⟨r, b, hr, hb, rfl⟩ := Chunked.reader_of_open hopen
      rw [hcodec] at hr hb
      exact ⟨r, r, b, hr, rfl, hb, .refl r⟩
  | asked request _ ih =>
      obtain ⟨r₀, r, b, hr₀, rfl, rfl, hsame⟩ := ih
      exact ⟨r₀, _, b, hr₀, by rw [ChunkReader.ask_handle]; rfl, rfl,
        hsame.trans (ChunkReader.sameFile_ask r request)⟩

/-- A handle on the path of a file has a reader of that file open. -/
theorem OpenOn.exists_reader (h : OpenOn c path d f) (hF : d.contents? path = some F) :
    ∃ (r : ChunkReader) (b : Chunked σ), f = r.handle path b ∧ b.codec = c ∧ r.OnFile d F := by
  obtain ⟨r₀, r, b, hr₀, rfl, hb, hsame⟩ := h.exists_sameFile
  exact ⟨r, b, rfl, hb, (ChunkReader.onFile_of_open hF hr₀).of_sameFile hsame⟩

/-- A handle that went to no other positions has a reader open that is in step. -/
private theorem Browsed.exists_inStep (h : Browsed c path d f) (hF : d.contents? path = some F)
    (hc : c.Bounded) (hsize : F.size < 2 ^ 64) {chunks : List (Chunk c)}
    (hchunks : F.data.toList = c.magicBytes.data.toList ++ Chunk.frames chunks) :
    ∃ (r : ChunkReader) (b : Chunked σ), f = r.handle path b ∧ b.codec = c ∧ r.InStep c d F := by
  have kept := ChunkReader.kept_inStep c d F
  induction h with
  | opened hcodec hopen =>
      obtain ⟨r, b, hr, hb, rfl⟩ := Chunked.reader_of_open hopen
      rw [hcodec] at hr hb
      exact ⟨r, b, rfl, hb, ChunkReader.inStep_of_open hF hchunks hr⟩
  | read count _ ih =>
      obtain ⟨r, b, rfl, rfl, hr⟩ := ih
      exact ⟨_, b, rfl, rfl, kept.read hr count⟩
  | readSome count _ ih =>
      obtain ⟨r, b, rfl, rfl, hr⟩ := ih
      exact ⟨_, b, rfl, rfl, kept.readSome hr count⟩
  | getc _ ih =>
      obtain ⟨r, b, rfl, rfl, hr⟩ := ih
      exact ⟨_, b, rfl, rfl, kept.getc hr⟩
  | skip count _ ih =>
      obtain ⟨r, b, rfl, rfl, hr⟩ := ih
      exact ⟨_, b, rfl, rfl, kept.skip hr count⟩
  | rewind _ ih =>
      obtain ⟨r, b, rfl, rfl, hr⟩ := ih
      obtain ⟨r', hseek, hstep⟩ := hr.toOnFile.rewind hchunks
      refine ⟨r', b, ?_, rfl, hstep⟩
      rw [ChunkReader.setCurrentOffset_handle, hseek]
      rfl
  | resume _ _ ih ih' =>
      obtain ⟨r, b, rfl, rfl, hr⟩ := ih
      obtain ⟨g, b', rfl, -, hg⟩ := ih'
      obtain ⟨_, -, hresume⟩ := hg.resume hc hsize
      obtain ⟨r', hseek, -, -, hstep⟩ := hresume d r hr.toOnFile
      refine ⟨r', b, ?_, rfl, hstep⟩
      rw [ChunkReader.currentOffset_handle, ChunkReader.setCurrentOffset_handle, hseek]
      rfl

/-- On a file of chunks that all decode, the position that a handle tells is accepted by every
handle on that file, which then tells it again and delivers what the first one would. The places in
a file are numbers of 64 bits, so the file is not longer, and no codec decodes a block to more than
the largest chunk. -/
theorem Browsed.resumes (h : Browsed c path d f) (hF : d.contents? path = some F)
    (hc : c.Bounded) (hsize : F.size < 2 ^ 64)
    (hchunks : ∃ chunks : List (Chunk c),
      F.data.toList = c.magicBytes.data.toList ++ Chunk.frames chunks) :
    ∃ s, Delivers (fun count f => f.readSome count d) s f ∧
      ∀ (path' : String) (d' : Disk) (g : File (Chunked σ)), d'.contents? path' = some F →
        OpenOn c path' d' g → ∃ g', g.setCurrentOffset f.currentOffset.1 d' = (.ok (), g') ∧
          g'.currentOffset.1 = f.currentOffset.1 ∧
          Delivers (fun count g => g.readSome count d') s g' := by
  obtain ⟨chunks, hchunks⟩ := hchunks
  obtain ⟨r, b, rfl, rfl, hr⟩ := h.exists_inStep hF hc hsize hchunks
  obtain ⟨s, hstreams, hresume⟩ := hr.resume hc hsize
  refine ⟨s, hstreams.delivers_handle, ?_⟩
  intro path' d' g hF' hg
  obtain ⟨g, b', rfl, hb', hfile⟩ := hg.exists_reader hF'
  obtain ⟨g', hseek, htell, hstreams', -⟩ := hresume d' g hfile
  refine ⟨g'.handle path' b', ?_, htell, ?_⟩
  · rw [ChunkReader.currentOffset_handle, ChunkReader.setCurrentOffset_handle, hb', hseek]
    rfl
  · rw [← hb'] at hstreams'
    exact hstreams'.delivers_handle

/-- A handle has read into the last of three chunks. The position that it tells then leads one there
that was led astray before. -/
theorem Browsed.resumes_in_last_chunk :
    let d : Disk := ⟨[("t", 0)], #[.file ⟨#[0x61, 0x74, 4, 0, 0, 0, 2, 4, 7, 8,
      3, 0, 0, 0, 1, 0, 9, 4, 0, 0, 0, 2, 4, 5, 6]⟩]⟩
    let opened := (File.new (Chunked.new Snappy.codec () default)).open "t" .read d
    let f := (opened.state.read 4 d).2
    let g := (opened.state.setCurrentOffset ⟨99, 0⟩ d).2
    Browsed Snappy.codec "t" d f ∧ OpenOn Snappy.codec "t" d g ∧ f.currentOffset.1 = ⟨17, 1⟩ ∧
      ∃ g', g.setCurrentOffset ⟨17, 1⟩ d = (.ok (), g') ∧ g'.currentOffset.1 = ⟨17, 1⟩ ∧
        Delivers (fun count g => g.readSome count d) [6] g' := by
  intro d opened f g
  obtain ⟨chunks, hframes⟩ : ∃ chunks : List (Chunk Snappy.codec), Chunk.frames chunks =
      [4, 0, 0, 0, 2, 4, 7, 8, 3, 0, 0, 0, 1, 0, 9, 4, 0, 0, 0, 2, 4, 5, 6] :=
    ⟨[⟨⟨#[2, 4, 7, 8]⟩, ⟨#[7, 8]⟩, by decide, by decide, rfl⟩,
      ⟨⟨#[1, 0, 9]⟩, ⟨#[9]⟩, by decide, by decide, rfl⟩,
      ⟨⟨#[2, 4, 5, 6]⟩, ⟨#[5, 6]⟩, by decide, by decide, rfl⟩], rfl⟩
  obtain ⟨F, hF, hsize, hfile⟩ : ∃ F, d.contents? "t" = some F ∧ F.size < 2 ^ 64 ∧
      F.data.toList = Snappy.codec.magicBytes.data.toList ++ Chunk.frames chunks :=
    ⟨_, rfl, by decide, by rw [hframes]; rfl⟩
  obtain ⟨r, hr, -⟩ := ChunkReader.streams_of_open hF chunks .clean (by rw [hfile, List.append_nil])
  have hopen : opened = ⟨.ok (), opened.state, d⟩ := by
    have hmade : opened = ⟨.ok (), r.handle "t" (.new Snappy.codec () default), d⟩ := by
      show (File.new _).open "t" .read d = _
      rw [Chunked.open_new_read, hr]
    rw [hmade]
  have hf : Browsed Snappy.codec "t" d f := .read 4 (.opened rfl hopen)
  have hg : OpenOn Snappy.codec "t" d g := .asked (.seek ⟨99, 0⟩) (.opened rfl hopen)
  have htell : f.currentOffset.1 = ⟨17, 1⟩ := by decide +kernel
  have hlast : (f.readSome 9 d).1 = .ok ⟨#[6]⟩ := by decide +kernel
  have hnone : ((f.readSome 9 d).2.readSome 9 d).1 = .ok .empty := by decide +kernel
  clear_value f g opened d
  obtain ⟨s, hdelivers, hresumes⟩ := hf.resumes hF (Snappy.bounded _) hsize ⟨chunks, hfile⟩
  obtain ⟨g', hseek, htold, hrest⟩ := hresumes "t" d g hF hg
  obtain ⟨_, hdrains, -⟩ := hdelivers.drains (by decide : 0 < 9)
  obtain ⟨rfl, -, -⟩ := hdrains.unique
    (.more (Prod.ext hlast rfl) (by decide) (.ended (Prod.ext hnone rfl) rfl))
  rw [htell] at hseek htold
  exact ⟨hf, hg, htell, g', hseek, htold, hrest⟩

end TraceStore
