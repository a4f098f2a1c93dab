import TraceStore.Proofs.Chunk.Reader
import TraceStore.Proofs.Chunk.Refusal
import TraceStore.Proofs.Codec.Unlimited

/-!
# The limits of writers and readers

Writers limit the bytes of a chunk, and readers the length of its block and what that decodes to.
With compressors that keep to the bound of their format, whatever a writer emits is within the
limits of a reader: `Chunked.emits_within_limits`.
-/
namespace TraceStore

variable {σ : Type} {c : Codec σ} {o : WriteOptions}

/-- No block of a chunk is longer than the bound for as many bytes. The codec may refuse chunks. -/
def Codec.Compact (c : Codec σ) : Prop :=
  ∀ {o : WriteOptions} {data block : ByteArray} {memory memory' : σ}, 0 < data.size →
    data.size ≤ maxChunkSize → c.compress o data memory = (.ok block, memory') →
    block.size ≤ c.maxCompressedLen data.size

/-- Compressors that keep to the bounds of their formats. -/
structure Compression.Compact [Compression] : Prop where
  snappy : (Snappy.codecOf Compression.snappy).Compact
  zstd : (Zstd.codecOf Compression.zstd).Compact

theorem Codec.Lossless.compact (h : c.Lossless) (ho : ∀ o data memory, c.compress o data memory =
    c.compress default data memory) : c.Compact := by
  intro o data block memory memory' hpos hle hblock
  obtain ⟨made, _, hmade, -, hsize⟩ := h default data memory rfl hpos hle
  rw [ho, hmade] at hblock
  obtain ⟨rfl⟩ := Except.ok.inj (Prod.mk.inj hblock).1
  exact hsize

/-- The compressors that take bytes over as they are keep to the bounds. -/
theorem Compression.stored_compact : @Compression.Compact Compression.stored where
  snappy := Snappy.lossless.compact fun _ _ _ => rfl
  zstd := Zstd.lossless.compact fun _ _ _ => rfl

theorem Compression.Compact.codec [Compression] (h : Compression.Compact) {format : Format}
    {c : Codec Compression.Memory} (hformat : format.codec? = some c) : c.Compact :=
  Format.of_codec? hformat h.snappy h.zstd

/-! ### Chunks -/

/-- A chunk that is within all limits, those of the writer and those of readers. A reader that comes
to it does with it what the codec makes of its block, and nothing else; and if the block decodes to
the bytes of the chunk when there is no limit, it does so within the limit of the codec. -/
structure Emitted.WithinLimits (Decodes : ByteArray → ByteArray → Prop) (e : Emitted c o) : Prop
    where
  pos : 0 < e.data.size
  data_le : e.data.size ≤ o.chunkSize.toNat
  chunkSize_le : o.chunkSize.toNat ≤ maxChunkSize
  block_lt : e.block.size < 2 ^ 32
  block_le : e.block.size ≤ c.maxCompressedLen maxChunkSize
  decoded : Decodes e.block e.data → c.decompress e.block = .ok e.data
  loaded : ∀ {r : ChunkReader} {d : Disk} {s : List UInt8}, r.parked = false →
    r.source.Ahead d (frameOf e.block ++ s) → ∃ source, source.Ahead d s ∧
      r.loadNext c d = match c.decompress e.block with
        | .error e => (.error e, { r with source })
        | .ok cache => (.ok true, { r with
            source, cache, pos := 0, chunkStart := r.nextChunk
            nextChunk := r.nextChunk + chunkHeaderSize + e.block.size })

/-- What a codec keeps to whose writers and readers have limits that fit. -/
structure Codec.Fits (c : Codec σ) (Decodes : ByteArray → ByteArray → Prop) : Prop where
  compact : c.Compact
  roomy : c.Roomy
  decodes : ∀ {block out}, Decodes block out → out.size ≤ maxChunkSize → c.decompress block = .ok out

namespace Codec.Fits

variable {Decodes : ByteArray → ByteArray → Prop} (hc : c.Fits Decodes)

include hc

/-- A block that the codec makes of a chunk is no longer than the limits of readers. -/
theorem block_le (ho : o.validate = .ok ()) {data block : ByteArray} {memory memory' : σ}
    (hpos : 0 < data.size) (hle : data.size ≤ o.chunkSize.toNat)
    (h : c.compress o data memory = (.ok block, memory')) : block.size ≤ c.lengthLimit := by
  have hmax := Nat.le_trans hle (WriteOptions.chunkSize_of_validate ho).2
  exact Nat.le_trans (hc.compact hpos hmax h) (hc.roomy.maxCompressedLen_le hmax)

theorem withinLimits (ho : o.validate = .ok ()) (e : Emitted c o) : e.WithinLimits Decodes := by
  have hmax := (WriteOptions.chunkSize_of_validate ho).2
  obtain ⟨memory, memory', hcompress⟩ := e.compress_eq
  have hblock := hc.block_le ho e.data_pos e.data_le hcompress
  refine ⟨e.data_pos, e.data_le, hmax, e.size_lt, hblock, 
    fun hdecodes => hc.decodes hdecodes (Nat.le_trans e.data_le hmax), ?_⟩
  intro r d s hparked h
  obtain ⟨source, hahead, -, hload⟩ := ChunkReader.loadNext_frame hparked e.size_lt hblock h
  exact ⟨source, hahead, hload⟩

/-- A chunk that is refused is refused by the compressor, and not for the length of its block. -/
theorem refused (ho : o.validate = .ok ()) {data : ByteArray} {memory : σ} {e : Error}
    (hpos : 0 < data.size) (hle : data.size ≤ o.chunkSize.toNat)
    (h : c.Refuses o data memory e) : (c.compress o data memory).1 = .error e := by
  rcases h with hrefused | ⟨block, hblock, hlong, -⟩
  · exact hrefused
  · have hsize := hc.block_le ho hpos hle (Prod.ext hblock rfl)
    have hlimit := hc.roomy.lengthLimit_lt
    omega

/-- A turn that fails does so with an error of the compressor. -/
theorem refused_of_follows (ho : o.validate = .ok ()) {pending : ByteArray}
    (hle : pending.size ≤ o.chunkSize.toNat) {turn : ChunkWriter.Turn c o}
    (h : turn.Follows pending) {e : Error} (herror : turn.result = .error e) :
    ∃ memory, (c.compress o turn.pending memory).1 = .error e := by
  have hpos := (WriteOptions.chunkSize_of_validate ho).1
  cases h with
  | stopped taken kept full size_eq refused =>
      obtain rfl := Except.error.inj herror
      exact ⟨_, hc.refused ho (size_eq ▸ hpos) (Nat.le_of_eq size_eq) refused⟩
  | unflushed pos refused =>
      obtain rfl := Except.error.inj herror
      exact ⟨_, hc.refused ho pos hle refused⟩
  | _ => cases herror

/-- What a writer adds when it ends is the frame of the pending chunk, unless nothing is pending or
the compressor refuses it. -/
theorem exists_last (ho : o.validate = .ok ()) {pending : ByteArray}
    (hle : pending.size ≤ o.chunkSize.toNat) (memory : σ) :
    ∃ last : List (Emitted c o), c.lastFrame o pending memory = Emitted.frames last ∧
      (∀ e ∈ last, e.data = pending) ∧
      (last = [] → pending.size = 0 ∨ ∃ e, (c.compress o pending memory).1 = .error e) := by
  rw [Codec.lastFrame]
  split
  case isTrue hempty => exact ⟨[], rfl, by simp, fun _ => .inl (isEmpty_iff.1 hempty)⟩
  case isFalse hmore =>
    have hpos := Nat.pos_of_ne_zero (mt isEmpty_iff.2 hmore)
    obtain ⟨⟨result, memory'⟩, hcompress⟩ : ∃ made, c.compress o pending memory = made := ⟨_, rfl⟩
    cases result with
    | error e => exact ⟨[], by rw [hcompress]; rfl, by simp, fun _ => .inr ⟨e, by rw [hcompress]⟩⟩
    | ok block =>
        have hsize : block.size < 2 ^ 32 :=
          Nat.lt_of_le_of_lt (hc.block_le ho hpos hle hcompress) hc.roomy.lengthLimit_lt
        refine ⟨[⟨pending, block, ⟨_, _, hcompress⟩, hsize, hpos, hle⟩], ?_, by simp, by simp⟩
        have hframe : frameMade (c.compress o pending memory).1 = frameOf block := by
          rw [hcompress, frameMade, if_neg (Nat.not_le.2 hsize)]
        rw [hframe, Emitted.frames_cons, Emitted.frames_nil, List.append_nil]

end Codec.Fits

/-! ### Sessions -/

/-- The limits of writers lie within those of readers, with any compressors that keep to the bounds
of their formats, which grow with the chunk. Whatever is requested of a new handle that writes with
valid options, all its chunks are within the limits of both: those that its requests emit, and the
one that is emitted at the end. What fails, and what is missing at the end, the compressor refused
itself. -/
theorem Chunked.emits_within_limits [Compression] (hcompact : Compression.Compact) {format : Format}
    {c : Codec Compression.Memory} (hformat : format.codec? = some c) {o : WriteOptions}
    (ho : o.validate = .ok ()) {d : Disk} {path : String} (hpath : d.Creatable path)
    (memory : Compression.Memory) (requests : List WriteRequest) :
    (∀ m n, m ≤ n → n ≤ maxChunkSize → c.maxCompressedLen m ≤ c.maxCompressedLen n) ∧
    let b := Chunked.new c memory o
    let opened := (File.new b).open path .write d
    opened.result = .ok () ∧
    ∃ (turns : List (ChunkWriter.Turn c o)) (w : Compression.Memory × ChunkWriter) (d₁ : Disk),
      turns.map (·.request) = requests ∧
      Operation.runAll (requests.map .perform) opened.state opened.disk =
        (turns.map (.done ·.result), ChunkWriter.handle path b w, d₁) ∧
      (∀ turn ∈ turns, ∀ e ∈ turn.emitted, e.WithinLimits format.Decodes) ∧
      (∀ turn ∈ turns, ∀ e, turn.result = .error e →
        ∃ memory, (c.compress o turn.pending memory).1 = .error e) ∧
      ∀ d₂, d₂ = ((ChunkWriter.handle path b w).close d₁).2 ∨
          d₂ = (ChunkWriter.handle path b w).release d₁ →
        ∃ last : List (Emitted c o),
          d₂.contents? path = some ⟨(c.magicBytes.data.toList ++
            Emitted.frames (turns.flatMap (·.emitted) ++ last)).toArray⟩ ∧
          (∀ e ∈ last, e.data = w.2.cache ∧ e.WithinLimits format.Decodes) ∧
          (last = [] → w.2.cache.size = 0 ∨ ∃ e, (c.compress o w.2.cache w.1).1 = .error e) := by
  have hc : c.Fits format.Decodes :=
    ⟨hcompact.codec hformat, Format.roomy_of_codec? hformat, Format.decompress_of_decodes hformat⟩
  refine ⟨fun m n => Format.maxCompressedLen_mono_of_codec? hformat, ?_⟩
  intro b opened
  have hpos := (WriteOptions.chunkSize_of_validate ho).1
  obtain ⟨id, d₀, w₀, d₁, hcreate, hmade, h₀, hempty⟩ :=
    ChunkWriter.create_of_creatable (c := c) ho hpath
  have hopened : opened = ⟨.ok (), ChunkWriter.handle path b (memory, w₀), d₁⟩ := by
    show (File.new b).open path .write d = _
    rw [open_new_write, hmade]
  clear_value opened
  subst hopened
  obtain ⟨turns, rfl, hmoments⟩ := h₀.exists_turns hpos path memory requests memory
  obtain ⟨w, d', memory', hrun, h, -, -, -⟩ := hmoments turns [] (List.append_nil turns).symm
  refine ⟨rfl, turns, (memory', w), d', rfl, ?_, fun _ _ e _ => hc.withinLimits ho e, ?_, ?_⟩
  · rw [← hrun, List.map_map]
    rfl
  · intro turn hturn e herror
    obtain ⟨before, after, hsplit⟩ := List.append_of_mem hturn
    obtain ⟨w₁, _, _, -, h₁, -, -, hfollows⟩ := hmoments before (turn :: after) hsplit
    exact hc.refused_of_follows ho h₁.cache_le (hfollows turn rfl) herror
  · intro d₂ hd₂
    obtain ⟨last, hlast, hdata, hnone⟩ := hc.exists_last ho h.cache_le memory'
    refine ⟨last, ?_, fun e he => ⟨hdata e he, hc.withinLimits ho e⟩, hnone⟩
    have hfinish : d₂ = (w.finish c o memory' d').2 := by
      rcases hd₂ with hclose | hrelease
      · exact hclose.trans (ChunkWriter.close_handle ..)
      · exact hrelease.trans (ChunkWriter.release_handle ..)
    rw [hfinish, h.finish_eq, hlast, List.append_assoc, ← Emitted.frames_append, List.nil_append]
    exact Disk.contents?_setNode (Disk.find?_create hcreate) h.wrote.id_lt

/-- A session that emits a chunk for being full, one for being flushed, and one at the end. -/
theorem Chunked.emits_within_limits_stored :
    let o : WriteOptions := ⟨2, 6, 3⟩
    let b := Chunked.new Zstd.codec () o
    let opened := (File.new b).open "t" .write .empty
    let requests : List WriteRequest := [.write ⟨#[1, 2, 3]⟩, .flush, .write ⟨#[4]⟩]
    let ran := Operation.runAll (requests.map .perform) opened.state opened.disk
    ran.1 = [.done (.ok ()), .done (.ok ()), .done (.ok ())] ∧
    (ran.2.1.close ran.2.2).2.contents? "t" = some ⟨(Zstd.codec.magicBytes.data.toList ++
      frameOf (Zstd.encode ⟨#[1, 2]⟩) ++ frameOf (Zstd.encode ⟨#[3]⟩) ++
      frameOf (Zstd.encode ⟨#[4]⟩)).toArray⟩ ∧
    ∃ (turns : List (ChunkWriter.Turn Zstd.codec o)) (last : List (Emitted Zstd.codec o)),
      turns.map (·.request) = requests ∧ ran.1 = turns.map (.done ·.result) ∧
      (ran.2.1.close ran.2.2).2.contents? "t" = some ⟨(Zstd.codec.magicBytes.data.toList ++
        Emitted.frames (turns.flatMap (·.emitted) ++ last)).toArray⟩ ∧
      (∀ turn ∈ turns, ∀ e ∈ turn.emitted, e.WithinLimits Zstd.Decodes) ∧
      ∀ e ∈ last, e.WithinLimits Zstd.Decodes := by
  intro o b opened requests ran
  have hpath : Disk.empty.Creatable "t" := ⟨2, _, rfl, rfl⟩
  obtain ⟨-, -, turns, w, d₁, hturns, hrun, hlimits, -, hends⟩ :=
    @Chunked.emits_within_limits .stored Compression.stored_compact .zstd _ rfl o rfl _ _ hpath ()
      requests
  obtain ⟨last, hcontents, hlast, -⟩ := hends _ (.inl rfl)
  have hran : ran = (turns.map (.done ·.result), ChunkWriter.handle "t" b w, d₁) := hrun
  refine ⟨by decide +kernel, by decide +kernel, turns, last, hturns, congrArg Prod.fst hran, ?_,
    hlimits, fun e he => (hlast e he).2⟩
  rw [hran]
  exact hcontents

end TraceStore
