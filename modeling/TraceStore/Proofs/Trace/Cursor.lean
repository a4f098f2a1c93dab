import TraceStore.Proofs.Chunk.Cursor
import TraceStore.Proofs.Stream.Cursor
import TraceStore.Proofs.Trace

/-!
# Traces as cursors

Whatever the format of a trace is, requests that read on are answered by a cursor over its decoded
content: `Trace.reads_as_cursor`.
-/
namespace TraceStore.Trace

section

variable [Compression] {d : Disk} {path : String} {format : Format}

/-- The file at a path is a well-formed trace: its format, its decoded content, and how many bytes
of that a request for some bytes may get. A chunked file is its magic and then chunks, and is cut
where they are. A gzip file is one whose decoder delivers the content in pieces of its own. -/
inductive WellFormed (d : Disk) (path : String) :
    Format → List UInt8 → (Nat → Nat → Nat → Prop) → Prop
  | chunked {format : Format} {c : Codec Compression.Memory} {F : ByteArray}
      {chunks : List (Chunk c)} : format.codec? = some c → d.contents? path = some F →
      F.data.toList = c.magicBytes.data.toList ++ Chunk.frames chunks →
      WellFormed d path format (Chunk.decoded chunks) (CutAtPieces (Chunk.pieces chunks))
  | gzip {id : Nat} {F : ByteArray} {s : List UInt8} : d.contents? path = some F →
      d.lookup path = .ok id →
      [Format.zlib.magic.1, Format.zlib.magic.2] <+: F.data.toList →
      Delivers (fun count x => StreamDecoder.read count x d) s
        (StreamDecoder.start id d : Compression.Decoder) →
      WellFormed d path .zlib s fun _ _ _ => True

/-- A well-formed trace of any format opens in that format, and whatever is then requested that
reads on, in any order, is answered by a cursor over its content, from the start of that. -/
theorem reads_as_cursor {s : List UInt8} {cut : Nat → Nat → Nat → Prop}
    (h : WellFormed d path format s cut) :
    ∃ t : Trace, openForRead path d = .ok (t, d) ∧ t.format = format ∧
      ∀ requests : List ReadRequest, (∀ request ∈ requests, request.Sequential) →
        ∃ p, Runs s cut 0 requests (ReadRequest.askAll (fun t => t.ask d) requests t).1 p := by
  cases h with
  | @chunked _ c F chunks hcodec hF hchunks =>
      obtain ⟨r, hopen, hstands⟩ := ChunkReader.stands_of_open hF hchunks
      have hmagic : [format.magic.1, format.magic.2] <+: F.data.toList := by
        rw [hchunks, ← Format.magic_of_codec? hcodec]
        exact List.prefix_append _ _
      have hnew := Chunked.open_new_read c Compression.fresh default path d
      rw [hopen] at hnew
      have hformat : AnyBackend.ofFormat default format =
          .chunked (.new c Compression.fresh default) := by
        rw [AnyBackend.ofFormat, hcodec]
      refine ⟨_, openForRead_of_magic AnyBackend.embeds_chunked hformat hF hmagic hnew, ?_,
        fun requests hrequests => ?_⟩
      · exact Format.format_of_codec? hcodec
      · obtain ⟨p, hruns⟩ := hstands.runs hrequests
        rw [ReadRequest.askAll_map (File.map AnyBackend.chunked)
            (fun f request => File.ask_map AnyBackend.embeds_chunked f d request),
          ReadRequest.askAll_map (ChunkReader.handle path (.new c Compression.fresh default))
            (fun r request => ChunkReader.ask_handle path _ r d request)]
        exact ⟨p, hruns⟩
  | @gzip id F s hF hlookup hmagic hdelivers =>
      obtain ⟨_, hlookup', hnode⟩ := Disk.lookup_of_contents hF
      obtain rfl := Except.ok.inj (hlookup.symm.trans hlookup')
      have hnew := Streamed.open_new_read (δ := Compression.Decoder) (ε := Compression.Encoder)
        default hlookup hnode
      refine ⟨_, openForRead_of_magic AnyBackend.embeds_gzip rfl hF hmagic hnew, rfl,
        fun requests hrequests => ?_⟩
      obtain ⟨p, hruns⟩ := StreamReader.Streams.runs (p := 0) (Nat.zero_le s.length)
        (r := ⟨StreamDecoder.start id d, F.size, .pending⟩) ⟨by simp, hdelivers⟩ hrequests
      rw [ReadRequest.askAll_map (File.map AnyBackend.gzip)
          (fun f request => File.ask_map AnyBackend.embeds_gzip f d request),
        ReadRequest.askAll_map (StreamReader.handle path default)
          (fun r request => StreamReader.ask_handle path default r d request)]
      exact ⟨p, hruns⟩

end

theorem reads_as_cursor_stored :
    (let d : Disk := ⟨[("t", 0)], #[.file ⟨#[0x61, 0x74, 3, 0, 0, 0, 1, 0, 7]⟩]⟩
      ∃ (t : @Trace Compression.stored) (p : Nat), openForRead "t" d = .ok (t, d) ∧
        Runs [7] (CutAtPieces [[7]]) 0 [.readSome 9, .skip 1, .getc]
          (ReadRequest.askAll (fun t => t.ask d) [.readSome 9, .skip 1, .getc] t).1 p) ∧
    ∃ (d : Disk) (t : @Trace Compression.stored) (p : Nat), openForRead "t" d = .ok (t, d) ∧
      Runs [1, 2] (fun _ _ _ => True) 0 [.getc, .skip 9, .read 1]
        (ReadRequest.askAll (fun t => t.ask d) [.getc, .skip 9, .read 1] t).1 p := by
  refine ⟨?_, ?_⟩
  · intro d
    obtain ⟨chunk, hchunk, hdata⟩ : ∃ chunk : Chunk Snappy.codec,
        chunk.frame = [3, 0, 0, 0, 1, 0, 7] ∧ chunk.data.data.toList = [7] :=
      ⟨⟨⟨#[1, 0, 7]⟩, ⟨#[7]⟩, by decide, by decide, rfl⟩, rfl, rfl⟩
    have hwell := @WellFormed.chunked Compression.stored d "t" .snappy Snappy.codec
      ⟨#[0x61, 0x74, 3, 0, 0, 0, 1, 0, 7]⟩ [chunk] rfl rfl (by simp [hchunk]; rfl)
    obtain ⟨t, hopen, -, hruns⟩ := @reads_as_cursor Compression.stored _ _ _ _ _ hwell
    obtain ⟨p, hruns⟩ := hruns [.readSome 9, .skip 1, .getc] (by simp [ReadRequest.Sequential])
    have hpieces : Chunk.pieces [chunk] = [[7]] := by simp [Chunk.pieces, hdata]
    rw [← Chunk.flatten_pieces, hpieces] at hruns
    exact ⟨t, p, hopen, hruns⟩
  · obtain ⟨e, d, F, -, -, hmagic, hdelivers⟩ := Gzip.lossless default
      ⟨[("t", 0)], #[.file .empty]⟩ 0 [.write ⟨#[1, 2]⟩] rfl rfl
    have hwell := @WellFormed.gzip Compression.stored ⟨[("t", 0)], #[.file F]⟩ "t" 0 F [1, 2]
      rfl rfl hmagic (hdelivers _ 0 rfl)
    obtain ⟨t, hopen, -, hruns⟩ := @reads_as_cursor Compression.stored _ _ _ _ _ hwell
    obtain ⟨p, hruns⟩ := hruns [.getc, .skip 9, .read 1] (by simp [ReadRequest.Sequential])
    exact ⟨_, t, p, hopen, hruns⟩

end TraceStore.Trace
