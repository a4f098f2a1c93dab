import TraceStore.Proofs.Chunk.RoundTrip
import TraceStore.Proofs.Embedding
import TraceStore.Proofs.Stream.Backend
import TraceStore.Trace

/-!
# Traces of any format

A backend that is chosen when a trace is opened does what the backend that was chosen does, so a
handle over it answers as a handle over that one. With compressors that are lossless, every trace
that is written in some format is found to be of that format and read back.
-/
namespace TraceStore

namespace AnyBackend

variable [Compression]

theorem embeds_chunked : Backend.Embeds chunked where
  format _ := rfl
  supportsOffsets _ := rfl
  acquire _ _ _ _ := rfl
  write _ _ _ := rfl
  read _ _ _ := rfl
  readSome _ _ _ := rfl
  getc _ _ := rfl
  skip _ _ _ := rfl
  flush _ _ := rfl
  close _ _ := rfl
  currentOffset _ := rfl
  setCurrentOffset _ _ _ := rfl
  percentRead _ := rfl
  release _ _ := rfl

theorem embeds_gzip : Backend.Embeds gzip where
  format _ := rfl
  supportsOffsets _ := rfl
  acquire _ _ _ _ := rfl
  write _ _ _ := rfl
  read _ _ _ := rfl
  readSome _ _ _ := rfl
  getc _ _ := rfl
  skip _ _ _ := rfl
  flush _ _ := rfl
  close _ _ := rfl
  currentOffset _ := rfl
  setCurrentOffset _ _ _ := rfl
  percentRead _ := rfl
  release _ _ := rfl

/-- In every format, a new handle on the file reads back whatever a handle wrote. -/
theorem roundTrips (hlossless : Compression.Lossless) (format : Format) {o : WriteOptions}
    (ho : o.validate = .ok ()) {d : Disk} {path : String} (hpath : d.Creatable path)
    (requests : List WriteRequest) :
    File.RoundTrips (ofFormat · format) format o path d requests := by
  cases hcodec : format.codec? with
  | some c =>
      have hformat := Format.format_of_codec? hcodec
      have hmagic : c.magic = c.format.magic := by rw [hformat, Format.magic_of_codec? hcodec]
      have h := Chunked.roundTrips (hlossless.codec hcodec) (Format.roomy_of_codec? hcodec) hmagic
        ho hpath Compression.fresh requests
      rw [hformat] at h
      have hnew : (ofFormat · format) = fun o => chunked (.new c Compression.fresh o) := by
        funext o
        rw [ofFormat, hcodec]
      rw [hnew]
      exact h.map embeds_chunked
  | none =>
      obtain rfl := Format.eq_zlib_of_codec? hcodec
      exact (Streamed.roundTrips hlossless.gzip ho hpath requests).map embeds_gzip

end AnyBackend

/-! ### Traces -/

namespace Trace

variable [Compression] {format : Format} {o : WriteOptions} {path : String} {d d' : Disk}
  {t : Trace} {e : Error}

theorem openForWrite_eq_ok : openForWrite path format o d = .ok (t, d') ↔
    (File.new (AnyBackend.ofFormat o format)).open path .write d = ⟨.ok (), t, d'⟩ := by
  rw [openForWrite]
  generalize (File.new (AnyBackend.ofFormat o format)).open path .write d = opened
  obtain ⟨result, t', d₁⟩ := opened
  cases result <;> simp [Except.map]

theorem openForWrite_eq_error : openForWrite path format o d = .error e ↔
    ((File.new (AnyBackend.ofFormat o format)).open path .write d).result = .error e := by
  rw [openForWrite]
  generalize (File.new (AnyBackend.ofFormat o format)).open path .write d = opened
  obtain ⟨result, t', d₁⟩ := opened
  cases result <;> simp [Except.map]

theorem openForRead_eq_ok : openForRead path d = .ok (t, d') ↔
    ∃ format, Format.detect path d = some format ∧
      (File.new (AnyBackend.ofFormat default format)).open path .read d = ⟨.ok (), t, d'⟩ := by
  rw [openForRead]
  cases Format.detect path d with
  | none => simp
  | some format =>
      simp only [Option.some.injEq, exists_eq_left']
      generalize (File.new (AnyBackend.ofFormat default format)).open path .read d = opened
      obtain ⟨result, t', d₁⟩ := opened
      cases result <;> simp [Except.map]

theorem openForRead_eq_error : openForRead path d = .error e ↔
    (Format.detect path d = none ∧ e = .unknownFormat) ∨
    ∃ format, Format.detect path d = some format ∧
      ((File.new (AnyBackend.ofFormat default format)).open path .read d).result = .error e := by
  rw [openForRead]
  cases Format.detect path d with
  | none => simp [eq_comm]
  | some format =>
      simp only [Option.some.injEq, exists_eq_left', reduceCtorEq, false_and, false_or]
      generalize (File.new (AnyBackend.ofFormat default format)).open path .read d = opened
      obtain ⟨result, t', d₁⟩ := opened
      cases result <;> simp [Except.map]

end Trace

/-- A file that starts with the magic of a format is of that format. -/
theorem Format.detect_of_magic {format : Format} {d : Disk} {path : String} {F : ByteArray}
    (hF : d.contents? path = some F)
    (hmagic : [format.magic.1, format.magic.2] <+: F.data.toList) :
    Format.detect path d = some format := by
  obtain ⟨id, hlookup, hnode⟩ := Disk.lookup_of_contents hF
  have hhead : (headOf path d).data.toList = [format.magic.1, format.magic.2] := by
    obtain ⟨rest, hrest⟩ := hmagic
    simp only [headOf, hlookup, Disk.readAt_file hnode, Except.toOption, Option.getD_some]
    rw [toList_extract, ← hrest]
    rfl
  simp only [detect, ofHead?, matchesHead, hhead]
  cases format <;> rfl

/-- A file that is too short for a magic has no format. -/
theorem Format.detect_of_short {d : Disk} {path : String} {F : ByteArray}
    (hF : d.contents? path = some F) (hshort : F.size < 2) : Format.detect path d = none := by
  obtain ⟨id, hlookup, hnode⟩ := Disk.lookup_of_contents hF
  have hhead : headOf path d = F.extract 0 2 := by
    simp only [headOf, hlookup, Disk.readAt_file hnode, Except.toOption, Option.getD_some]
  have hnone : ∀ format : Format, format.matchesHead (headOf path d) = false := by
    intro format
    rw [matchesHead, beq_eq_false_iff_ne]
    intro heq
    have hlength := congrArg List.length heq
    rw [length_toList, hhead, ByteArray.size_extract] at hlength
    simp only [List.length_cons, List.length_nil] at hlength
    omega
  simp [detect, ofHead?, hnone]

/-- A file is opened for reading by the backend of the format that its magic tells. -/
theorem Trace.openForRead_of_magic [Compression] {β : Type} [Backend β] {g : β → AnyBackend}
    (hg : Backend.Embeds g) {format : Format} {b : β} (hb : AnyBackend.ofFormat default format = g b)
    {d : Disk} {path : String} {F : ByteArray} (hF : d.contents? path = some F)
    (hmagic : [format.magic.1, format.magic.2] <+: F.data.toList) {f : File β}
    (hopen : (File.new b).open path .read d = ⟨.ok (), f, d⟩) :
    openForRead path d = .ok (f.map g, d) := by
  have hnew : File.new (g b) = (File.new b).map g := rfl
  simp only [openForRead, Format.detect_of_magic hF hmagic, hb, hnew, File.open_map hg, hopen]
  rfl

/-- With compressors that lose nothing, and with any valid options, a trace can be written in any
format to a path that can be created: all requests succeed. Once the handle is closed or given up,
the file is found to be of that format and is drained to the end of what was written, whatever the
sizes of the requests are; and a request for more bytes than are left says that the stream has
ended. -/
theorem Trace.round_trip [Compression] (hlossless : Compression.Lossless) (format : Format) {o : WriteOptions}
    (ho : o.validate = .ok ()) {d : Disk} {path : String} (hpath : d.Creatable path)
    (requests : List WriteRequest) :
    ∃ t d₁, Trace.openForWrite path format o d = .ok (t, d₁) ∧
      let ended := WriteRequest.runAll File.perform requests t d₁
      ended.result = .ok () ∧
      ∀ d', d' = (ended.state.close ended.disk).2 ∨ d' = ended.state.release ended.disk →
        Format.detect path d' = some format ∧
        ∃ r, Trace.openForRead path d' = .ok (r, d') ∧ r.format = format ∧
          (∀ count, 0 < count → ∃ r', Drains (fun r => r.readSome count d') r
            (WriteRequest.written requests) (.ok ()) r') ∧
          Serves (fun count r => r.readSome count d') (fun count r => r.read count d')
            (WriteRequest.written requests) r := by
  obtain ⟨t, t', d₁, d₂, d₃, F, hopen, hrun, hclose, hrelease, hcontents, hmagic, hread⟩ :=
    AnyBackend.roundTrips hlossless format ho hpath requests
  have hdetect := Format.detect_of_magic hcontents hmagic
  obtain ⟨r, hr, hformat, hserves⟩ := hread default
  refine ⟨t, d₁, ?_, ?_⟩
  · simp only [openForWrite, hopen]
    rfl
  · rw [hrun]
    refine ⟨rfl, fun d' hd' => ?_⟩
    obtain rfl : d' = d₃ := by
      rcases hd' with hd' | hd'
      · exact hd'.trans hclose
      · exact hd'.trans hrelease
    refine ⟨hdetect, r, ?_, hformat, fun count hcount => ?_, hserves⟩
    · simp only [openForRead, hdetect, hr]
      rfl
    · obtain ⟨r', hdrains, -⟩ := hserves.delivers.drains hcount
      exact ⟨r', hdrains⟩

theorem Trace.round_trip_stored :
    ∃ (t : @Trace Compression.stored) (d₁ : Disk),
      Trace.openForWrite "t" .zlib default .empty = .ok (t, d₁) ∧
      let ended := WriteRequest.runAll File.perform [.write ⟨#[1, 2]⟩, .flush, .write ⟨#[3]⟩] t d₁
      let d' := (ended.state.close ended.disk).2
      ∃ r r', Trace.openForRead "t" d' = .ok (r, d') ∧
        Drains (fun r => r.readSome 2 d') r [1, 2, 3] (.ok ()) r' := by
  have hpath : Disk.empty.Creatable "t" := ⟨2, _, rfl, rfl⟩
  obtain ⟨t, d₁, hopen, -, hfile⟩ := @round_trip Compression.stored Compression.stored_lossless .zlib
    default rfl .empty "t" hpath [.write ⟨#[1, 2]⟩, .flush, .write ⟨#[3]⟩]
  obtain ⟨-, r, hread, -, hdrains, -⟩ := hfile _ (.inl rfl)
  obtain ⟨r', hdrains⟩ := hdrains 2 (by decide)
  exact ⟨t, d₁, hopen, r, r', hread, hdrains⟩

end TraceStore
