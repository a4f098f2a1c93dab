import TraceStore.Proofs.Chunk.Split
import TraceStore.Proofs.Trace

/-!
# What is left of a trace that was written

A trace that was written and given up is one file of the disk, made where its path was created. In a
chunked format, the file has a chunk for each of the pieces that the stream was cut into:
`Trace.exists_records`.
-/
namespace TraceStore

/-! ### Sessions -/

namespace File

variable {β γ : Type} [Backend β] [Backend γ]

/-- Whether a new handle over a backend opens a path for writing and does whatever is requested, and
a disk is left when it is given up. -/
def Records (b : β) (path : String) (d : Disk) (requests : List WriteRequest) (d' : Disk) : Prop :=
  ∃ (f f' : File β) (d₁ d₂ : Disk), (File.new b).open path .write d = ⟨.ok (), f, d₁⟩ ∧
    WriteRequest.runAll perform requests f d₁ = ⟨.ok (), f', d₂⟩ ∧ f'.release d₂ = d'

/-- There is one way to go through a session. -/
theorem Records.exists_run {b : β} {path : String} {d d' d₁ : Disk} {requests : List WriteRequest}
    {f : File β} (h : Records b path d requests d')
    (hopen : (File.new b).open path .write d = ⟨.ok (), f, d₁⟩) :
    ∃ f' d₂, WriteRequest.runAll perform requests f d₁ = ⟨.ok (), f', d₂⟩ ∧ f'.release d₂ = d' := by
  obtain ⟨g, f', d₁', d₂, hopen', hrun, hrelease⟩ := h
  obtain ⟨-, rfl, rfl⟩ := Outcome.mk.inj (hopen'.symm.trans hopen)
  exact ⟨f', d₂, hrun, hrelease⟩

theorem Records.unique {b : β} {path : String} {d d' d'' : Disk} {requests : List WriteRequest}
    (h : Records b path d requests d') (h' : Records b path d requests d'') : d' = d'' := by
  obtain ⟨f, f', d₁, d₂, hopen, hrun, rfl⟩ := h
  obtain ⟨f'', d₂', hrun', rfl⟩ := h'.exists_run hopen
  obtain ⟨-, rfl, rfl⟩ := Outcome.mk.inj (hrun.symm.trans hrun')
  rfl

theorem Records.map {g : β → γ} (hg : Backend.Embeds g) {b : β} {path : String} {d d' : Disk}
    {requests : List WriteRequest} (h : Records b path d requests d') :
    Records (g b) path d requests d' := by
  obtain ⟨f, f', d₁, d₂, hopen, hrun, hrelease⟩ := h
  refine ⟨f.map g, f'.map g, d₁, d₂, ?_, ?_, by rw [release_map hg, hrelease]⟩
  · rw [show File.new (g b) = (File.new b).map g from rfl, open_map hg, hopen]
    rfl
  · rw [WriteRequest.runAll_mapState (File.map g) fun request f d => perform_map hg f d request,
      hrun]
    rfl

end File

/-- A path is opened for writing if the options are valid and the path is created. -/
theorem Streamed.create_of_open {δ ε : Type} [StreamDecoder δ] [StreamEncoder ε] {o : WriteOptions}
    {d d' : Disk} {path : String} {f : File (Streamed δ ε)}
    (hopen : (File.new (new o)).open path .write d = ⟨.ok (), f, d'⟩) :
    o.validate = .ok () ∧ ∃ id d₀, d.create path = .ok (id, d₀) := by
  rw [open_new_write] at hopen
  split at hopen
  case h_1 => cases (Outcome.mk.inj hopen).1
  case h_2 => cases (Outcome.mk.inj hopen).1
  case h_3 id d₀ hvalid hcreate => exact ⟨hvalid, id, d₀, hcreate⟩

/-- A stream backend leaves what its encoder has written. -/
theorem Streamed.exists_records {δ ε : Type} [StreamDecoder δ] [StreamEncoder ε]
    (hlossless : StreamLossless δ ε) {o : WriteOptions} (ho : o.validate = .ok ()) {d : Disk}
    {path : String} (hpath : d.Creatable path) (requests : List WriteRequest) :
    ∃ id d₀ F, d.create path = .ok (id, d₀) ∧
      File.Records (new o : Streamed δ ε) path d requests (d₀.setNode id (.file F)) := by
  obtain ⟨id, d₀, hcreate, hnode⟩ := hpath
  obtain ⟨e, d₂, F, hrun, hfinish, -⟩ := hlossless o d₀ id requests ho hnode
  refine ⟨id, d₀, F, hcreate, StreamEncoder.handle path o (StreamEncoder.start o (FileWriter.start id)),
    StreamEncoder.handle path o e, d₀, d₂, ?_, ?_, hfinish⟩
  · rw [open_new_write, ho, hcreate]
  · rw [StreamEncoder.runAll_handle, hrun]
    rfl

section Chunks

variable {σ : Type} {c : Codec σ} {o : WriteOptions}

/-- A path is opened for writing if the options are valid and the path is created. -/
theorem Chunked.create_of_open {memory : σ} {d d' : Disk} {path : String} {f : File (Chunked σ)}
    (hopen : (File.new (new c memory o)).open path .write d = ⟨.ok (), f, d'⟩) :
    o.validate = .ok () ∧ ∃ id d₀, d.create path = .ok (id, d₀) := by
  rw [open_new_write] at hopen
  split at hopen
  case h_1 => cases (Outcome.mk.inj hopen).1
  case h_2 w d₀ hmade =>
    obtain ⟨hvalid, id, hcreate, -⟩ := ChunkWriter.create_ok_iff.1 hmade
    exact ⟨hvalid, id, d₀, hcreate⟩

/-- The chunk that is emitted last is what is pending, if anything is. -/
theorem Emitted.map_data_eq_cut {emitted : List (Emitted c o)} {s : List UInt8}
    (hcontents : contents emitted = s) (hfirst : ∀ e ∈ emitted.head?, s.length ≤ e.data.size)
    (hs : s.length ≤ o.chunkSize.toNat) :
    emitted.map (·.data.data.toList) = cut o.chunkSize.toNat s := by
  subst hcontents
  cases emitted with
  | nil => exact cut_nil.symm
  | cons e emitted =>
      have hlength := hfirst e rfl
      rw [contents_cons, List.length_append, length_toList] at hlength
      cases emitted with
      | nil =>
          have hpos : 0 < e.data.data.toList.length := by
            rw [length_toList]
            exact e.data_pos
          rw [contents_cons, contents_nil, List.append_nil] at hs ⊢
          rw [cut_of_le hpos hs]
          rfl
      | cons e' emitted =>
          have hpos := e'.data_pos
          rw [contents_cons, List.length_append, length_toList] at hlength
          omega

/-- A chunked backend leaves the magic and a chunk for each of the pieces of its stream. -/
theorem Chunked.exists_records (hc : c.Lossless) (hroom : c.Roomy) (ho : o.validate = .ok ())
    {d : Disk} {path : String} (hpath : d.Creatable path) (memory : σ)
    (requests : List WriteRequest) :
    ∃ id d₀ F, d.create path = .ok (id, d₀) ∧
      File.Records (new c memory o) path d requests (d₀.setNode id (.file F)) ∧
      ∃ chunks : List (Chunk c), F.data.toList = c.magicBytes.data.toList ++ Chunk.frames chunks ∧
        chunks.map (·.data.data.toList) = WriteRequest.pieces o.chunkSize.toNat requests [] := by
  have hpos := (WriteOptions.chunkSize_of_validate ho).1
  have hencodes := hc.encodes hroom ho
  obtain ⟨id, d₀, w₀, d₁, hcreate, hmade, h₀, hempty⟩ :=
    ChunkWriter.create_of_creatable (c := c) ho hpath
  obtain ⟨-, w, d₂, memory', hrun, -⟩ :=
    h₀.runAll hencodes (by rw [hempty]; exact hpos) memory requests
  obtain ⟨emitted, h, -, hpieces⟩ := h₀.runAll_pieces (by rw [hempty]; exact hpos) hrun
  obtain ⟨last, hlast, hfirst, hfinish⟩ := h.finish hencodes memory'
  obtain ⟨chunks, hframes, -, hdata⟩ := Emitted.exists_chunks hc hroom ho (emitted ++ last)
  refine ⟨id, d₀, ⟨(c.magicBytes.data.toList ++ Emitted.frames (emitted ++ last)).toArray⟩, hcreate,
    ?_, chunks, by rw [hframes], ?_⟩
  · refine ⟨ChunkWriter.handle path (new c memory o) (memory, w₀),
      ChunkWriter.handle path (new c memory o) (memory', w), d₁, d₂, ?_, ?_, ?_⟩
    · rw [open_new_write, hmade]
    · rw [WriteRequest.runAll_mapState (ChunkWriter.handle path (new c memory o))
        fun request w d => ChunkWriter.perform_handle path (new c memory o) w d request]
      exact congrArg (Outcome.mapState _) hrun
    · exact (ChunkWriter.release_handle path (new c memory o) (memory', w) d₂).trans hfinish
  · have hpending : last.map (·.data.data.toList) = cut o.chunkSize.toNat w.cache.data.toList :=
      Emitted.map_data_eq_cut hlast (by simpa using hfirst) (by simpa using h.cache_le)
    have hbytes := congrArg (List.map (·.data.toList)) hdata
    rw [List.map_map, List.map_map, List.map_append] at hbytes
    rw [hempty] at hpieces
    calc chunks.map (·.data.data.toList)
        = emitted.map (·.data.data.toList) ++ last.map (·.data.data.toList) := hbytes
      _ = emitted.map (·.data.data.toList) ++ cut o.chunkSize.toNat w.cache.data.toList := by
          rw [hpending]
      _ = WriteRequest.pieces o.chunkSize.toNat requests [] := hpieces.symm

end Chunks

/-! ### Traces -/

namespace Trace

variable [Compression] {format : Format} {o : WriteOptions} {d : Disk} {path : String}

/-- A trace is opened for writing if the options are valid and its path is created. -/
theorem create_of_openForWrite {t : Trace} {d' : Disk}
    (hopen : openForWrite path format o d = .ok (t, d')) :
    o.validate = .ok () ∧ ∃ id d₀, d.create path = .ok (id, d₀) := by
  rw [openForWrite_eq_ok, AnyBackend.ofFormat] at hopen
  split at hopen
  · obtain ⟨f, -, hf⟩ := File.exists_open_of_map AnyBackend.embeds_chunked hopen
    exact Chunked.create_of_open hf
  · obtain ⟨f, -, hf⟩ := File.exists_open_of_map AnyBackend.embeds_gzip hopen
    exact Streamed.create_of_open hf

/-- Whatever is requested of a trace of any format, one file is left of it. -/
theorem exists_records (hlossless : Compression.Lossless) (format : Format)
    (ho : o.validate = .ok ()) (hpath : d.Creatable path) (requests : List WriteRequest) :
    ∃ id d₀ F, d.create path = .ok (id, d₀) ∧
      File.Records (AnyBackend.ofFormat o format) path d requests (d₀.setNode id (.file F)) ∧
      ∀ c, format.codec? = some c → ∃ chunks : List (Chunk c),
        F.data.toList = c.magicBytes.data.toList ++ Chunk.frames chunks ∧
        chunks.map (·.data.data.toList) = WriteRequest.pieces o.chunkSize.toNat requests [] := by
  cases hcodec : format.codec? with
  | some c =>
      obtain ⟨id, d₀, F, hcreate, hrecords, hchunks⟩ := Chunked.exists_records
        (hlossless.codec hcodec) (Format.roomy_of_codec? hcodec) ho hpath Compression.fresh requests
      refine ⟨id, d₀, F, hcreate, ?_, fun c' hc' => ?_⟩
      · rw [AnyBackend.ofFormat, hcodec]
        exact hrecords.map AnyBackend.embeds_chunked
      · obtain rfl := Option.some.inj hc'
        exact hchunks
  | none =>
      obtain ⟨id, d₀, F, hcreate, hrecords⟩ :=
        Streamed.exists_records hlossless.gzip ho hpath requests
      refine ⟨id, d₀, F, hcreate, ?_, fun c' hc' => by cases hc'⟩
      rw [AnyBackend.ofFormat, hcodec]
      exact hrecords.map AnyBackend.embeds_gzip

end Trace
end TraceStore
