import TraceStore.Proofs.Gzip.Beyond
import TraceStore.Proofs.Trace.Source

/-!
# What an open trace still looks at

A trace that is read looks only at what its file holds from the position on that its source has come
to. If that is the same on another disk, it delivers the same there: `Trace.Beyond.readSome_eq`.
A file that is no longer than what is fetched of it at first, is fetched in full when it is opened:
`Trace.beyond_of_open`.
-/
namespace TraceStore

variable {d d' : Disk} {node position count : Nat}

/-! ### Chunked files -/

namespace ChunkReader

variable {σ : Type} {c : Codec σ} {r : ChunkReader}

theorem kept_beyond (c : Codec σ) (d : Disk) :
    Kept c d fun r => r.source.Beyond node position where
  load h _ := (loadNext_keeps (fun _ count h => h.read count d) h).1
  pass h _ := h

section

variable (hd : d.AgreeFrom node position d')

include hd

theorem loadNext_eq (c : Codec σ) (h : r.source.Beyond node position) :
    r.loadNext c d' = r.loadNext c d := by
  have hheader := h.read chunkHeaderSize d
  rw [loadNext, loadNext, h.read_eq hd]
  generalize r.source.read chunkHeaderSize d = answer at hheader ⊢
  obtain ⟨_ | header, source⟩ := answer
  · rfl
  · simp only [FileReader.Beyond.read_eq hd hheader]

theorem fill_eq (c : Codec σ) (h : r.source.Beyond node position) : r.fill c d' = r.fill c d := by
  suffices ∀ fuel {r : ChunkReader}, r.source.Beyond node position →
      fillWithin c d' fuel r = fillWithin c d fuel r by rw [fill, fill, h.unread_eq hd, this _ h]
  intro fuel
  induction fuel with
  | zero => intro r h; rfl
  | succ fuel ih =>
      intro r h
      have hload := (loadNext_keeps (c := c) (fun _ count h => h.read count d) h).1
      rw [fillWithin, fillWithin, loadNext_eq hd c h]
      generalize r.loadNext c d = answer at hload ⊢
      obtain ⟨_ | loaded, r'⟩ := answer
      · rfl
      · cases loaded with
        | false => rfl
        | true => simp only [ih hload]

theorem readSome_eq (c : Codec σ) (h : r.source.Beyond node position) (count : Nat) :
    r.readSome c count d' = r.readSome c count d := by
  rw [readSome, readSome, fill_eq hd c h]

end

/-- A file that is no longer than a block is fetched in full when it is opened. -/
theorem beyond_of_open {path : String} {F : ByteArray} (hnode : d.node? node = some (.file F))
    (hlookup : d.lookup path = .ok node) (hle : F.size ≤ blockSize)
    (hopen : ChunkReader.open c path d = .ok r) : r.source.Beyond node F.size := by
  have hread := FileReader.beyond_read_start hnode hle (by decide : 0 < 2)
  rw [ChunkReader.open, hlookup] at hopen
  dsimp only at hopen
  split at hopen
  case h_1 => cases hopen
  case h_2 hnext =>
    rw [hnext] at hread
    split at hopen
    · obtain rfl := Except.ok.inj hopen
      exact hread
    · cases hopen

end ChunkReader

/-! ### Single streams -/

namespace StreamReader

variable {r : StreamReader Gzip.Decoder}

theorem beyond_readSome (h : r.decoder.source.Beyond node position) (count : Nat) (d : Disk) :
    (r.readSome count d).2.decoder.source.Beyond node position := by
  have hread : (StreamDecoder.read count r.decoder d).2.source.Beyond node position :=
    Gzip.Decoder.beyond_read h count d
  rw [readSome]
  split
  · exact h
  split
  · exact h
  split <;> rename_i hanswer <;> rw [hanswer] at hread <;> exact hread

theorem readSome_eq (hd : d.AgreeFrom node position d') (h : r.decoder.source.Beyond node position)
    (count : Nat) : r.readSome count d' = r.readSome count d := by
  have hread : StreamDecoder.read count r.decoder d' = StreamDecoder.read count r.decoder d :=
    Gzip.Decoder.read_eq hd h count
  rw [readSome, readSome, hread]

end StreamReader

/-! ### Traces -/

variable [Compression.ForGzip]

/-- A trace that is read, whose source is on a node and has come to a position of it, or beyond. -/
inductive Trace.Beyond (node position : Nat) : Trace → Prop
  | chunked {path : String} {c : Codec Compression.Memory} {r : ChunkReader} :
      r.source.Beyond node position → Beyond node position (r.trace path c)
  | gzip {path : String} {r : StreamReader Gzip.Decoder} :
      r.decoder.source.Beyond node position → Beyond node position (StreamReader.trace path r)

namespace Trace.Beyond

variable {t : Trace} (h : t.Beyond node position)

include h

theorem readSome (count : Nat) (d : Disk) : Beyond node position (t.readSome count d).2 := by
  cases h with
  | @chunked path c r h =>
      rw [ChunkReader.readSome_trace]
      exact .chunked ((ChunkReader.kept_beyond c d).readSome h count)
  | @gzip path r h =>
      rw [StreamReader.readSome_trace]
      exact .gzip (StreamReader.beyond_readSome h count d)

section

variable (hd : d.AgreeFrom node position d')

include hd

theorem readSome_eq (count : Nat) : t.readSome count d' = t.readSome count d := by
  cases h with
  | @chunked path c r h =>
      rw [ChunkReader.readSome_trace, ChunkReader.readSome_trace, ChunkReader.readSome_eq hd c h]
  | @gzip path r h =>
      rw [StreamReader.readSome_trace, StreamReader.readSome_trace, StreamReader.readSome_eq hd h]

theorem remaining_eq : t.backend.remaining d' = t.backend.remaining d := by
  cases h with
  | @chunked path c r h =>
      show r.available + maxChunkSize * r.source.unread d' = _
      rw [h.unread_eq hd]
      rfl
  | @gzip path r h => exact Gzip.Decoder.remaining_eq hd h

end

end Trace.Beyond

/-- Bytes of a file that are fetched when a trace of a format is opened, at most. -/
def Format.blockSize (format : Format) : Nat :=
  match format.codec? with
  | some _ => ChunkReader.blockSize
  | none => Gzip.blockSize

theorem Format.blockSize_of_codec? {format : Format} {c : Codec Compression.Memory}
    (hcodec : format.codec? = some c) : format.blockSize = ChunkReader.blockSize := by
  rw [blockSize, hcodec]

/-- A trace that is opened stands at the start of its file. A file that is no longer than a block
has been fetched in full. -/
theorem Trace.beyond_of_open {path : String} {t : Trace} {F : ByteArray}
    (hlookup : d.lookup path = .ok node) (hnode : d.node? node = some (.file F))
    (hopen : openForRead path d = .ok (t, d')) :
    t.Beyond node 0 ∧ ∀ format, Format.detect path d = some format → F.size ≤ format.blockSize →
      t.Beyond node F.size := by
  obtain ⟨-, node', F', format, hlookup', hF, hnode', hdetect, hcases⟩ := openForRead_cases hopen
  obtain rfl := Except.ok.inj (hlookup.symm.trans hlookup')
  obtain rfl := Node.file.inj (Option.some.inj (hnode.symm.trans hnode'))
  rcases hcases with ⟨c, r, hcodec, hr, rfl, -⟩ | ⟨rfl, rfl⟩
  · have hsource := (ChunkReader.source_of_open hF hr).1
    rw [hlookup] at hsource
    refine ⟨.chunked ⟨(Except.ok.inj hsource).symm, Nat.zero_le _⟩, fun format' hformat hle => ?_⟩
    obtain rfl := Option.some.inj (hdetect.symm.trans hformat)
    rw [Format.blockSize_of_codec? hcodec] at hle
    exact .chunked (ChunkReader.beyond_of_open hnode hlookup hle hr)
  · refine ⟨.gzip (Gzip.Decoder.beyond_start node d), fun format' hformat hle => ?_⟩
    obtain rfl := Option.some.inj (hdetect.symm.trans hformat)
    exact .gzip (Gzip.Decoder.beyond_start_of_size_le hnode hle)

end TraceStore
