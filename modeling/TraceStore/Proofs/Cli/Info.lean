import TraceStore.Proofs.Chunk.Starts
import TraceStore.Proofs.Cli.Commands
import TraceStore.Proofs.Json.Print
import TraceStore.Proofs.Trace.Source

/-!
# What the info command reports

Of a trace that is drained up to a clean end the info command reports what is drained, and where the
chunks start that hold any of it. What it prints tells all of its report: `Cli.info_reports`.
-/
namespace TraceStore

section

variable [Compression] {path : String} {d : Disk} {c : Codec Compression.Memory}

/-- The pieces that a trace is read in come from the chunks that its reader visits, in that order. -/
theorem Trace.chunksOf_piecesWithin {count : Nat} (hcount : 0 < count) {t t' : Trace}
    {bytes : List UInt8} (h : Drains (fun t => t.readSome count d) t bytes (.ok ()) t') (fuel : Nat)
    (hfuel : bytes.length < fuel) {r : ChunkReader} (ht : t = r.trace path c) {places : List Nat}
    (hvisits : r.Visits c d places) (hincreasing : places.Pairwise (· < ·))
    (hlt : ∀ p ∈ places, p < 2 ^ 64) :
    Cli.chunksOf (piecesWithin count d fuel t).1 = places.map UInt64.ofNat := by
  generalize hending : (.ok () : Except Error Unit) = ending at h
  induction h generalizing fuel r places with
  | failed => cases hending
  | @ended t t' piece hread hsize =>
      obtain ⟨fuel, rfl⟩ := Nat.exists_eq_succ_of_ne_zero (by omega : fuel ≠ 0)
      have hpieces : (piecesWithin count d (fuel + 1) t).1 = [] := by
        rw [piecesWithin, hread]
        exact congrArg Prod.fst (if_pos (isEmpty_iff.2 hsize))
      subst ht
      rw [ChunkReader.readSome_trace] at hread
      obtain ⟨s, hstreams⟩ := hvisits.exists_streams
      obtain ⟨rfl, -⟩ := hstreams.end_of_readSome hcount (by
        rw [show (r.readSome c count d).1 = .ok piece from congrArg Prod.fst hread,
          ByteArray.size_eq_zero_iff.1 hsize])
      rw [hvisits.eq_nil hstreams, hpieces]
      rfl
  | @more t t₁ t' piece bytes ending hread hsize _ ih =>
      obtain ⟨fuel, rfl⟩ := Nat.exists_eq_succ_of_ne_zero (by omega : fuel ≠ 0)
      rw [List.length_append, length_toList] at hfuel
      have hpieces : (piecesWithin count d (fuel + 1) t).1 =
          ⟨piece, t₁.currentOffset.1.chunk⟩ :: (piecesWithin count d fuel t₁).1 := by
        rw [piecesWithin, hread]
        simp only [mt isEmpty_iff.1 hsize, Bool.false_eq_true, if_false, currentOffset_snd]
      subst ht
      rw [ChunkReader.readSome_trace] at hread
      obtain ⟨⟨result, r₁⟩, hr⟩ : ∃ answer, r.readSome c count d = answer := ⟨_, rfl⟩
      rw [hr] at hread
      obtain ⟨hresult, rfl⟩ := Prod.mk.inj hread
      obtain rfl : result = .ok piece := hresult
      obtain ⟨rest, rfl, hvisits'⟩ := hvisits.readSome hr hsize
      have hlater := List.pairwise_cons.1 hincreasing
      have htell : (r₁.trace path c).currentOffset.1.chunk = UInt64.ofNat r₁.chunkStart := rfl
      rw [hpieces, htell, Cli.chunksOf]
      rcases hvisits' with hstays | hgoes
      · rw [ih fuel (by omega) rfl hstays hincreasing hlt hending]
        exact if_pos rfl
      · rw [ih fuel (by omega) rfl hgoes hlater.2
          (fun p hp => hlt p (List.mem_cons_of_mem _ hp)) hending]
        cases rest with
        | nil => rfl
        | cons p rest =>
            -- The next piece is of a chunk further behind.
            have hne : UInt64.ofNat r₁.chunkStart ≠ UInt64.ofNat p := by
              rw [Ne, ← UInt64.toNat_inj, UInt64.toNat_ofNat', UInt64.toNat_ofNat',
                Nat.mod_eq_of_lt (hlt _ List.mem_cons_self), Nat.mod_eq_of_lt (hlt p (by simp))]
              exact Nat.ne_of_lt (hlater.1 p List.mem_cons_self)
            exact if_neg hne

/-- A trace that was just opened accepts the place of any chunk, and the end of the file, and delivers
what the chunks from there on decode to. -/
theorem Trace.resumes_at_chunk {format : Format} (hcodec : format.codec? = some c) {F : ByteArray}
    (hF : d.contents? path = some F) {before behind : List (Chunk c)}
    (hchunks : F.data.toList = c.magicBytes.data.toList ++ Chunk.frames (before ++ behind))
    {a : Offset} (hplace : a.chunk.toNat = 2 + (Chunk.frames before).length)
    (hzero : a.inChunk = 0) :
    ∃ t t', openForRead path d = .ok (t, d) ∧ t.setCurrentOffset a d = (.ok (), t') ∧
      Delivers (fun count t => t.readSome count d) (Chunk.decoded behind) t' := by
  obtain ⟨r, hr, hopen, -⟩ := openForRead_of_chunks hcodec hF .clean (by rwa [List.append_nil])
  rw [Chunk.frames_append, ← List.append_assoc] at hchunks
  have hlength : (c.magicBytes.data.toList ++ Chunk.frames before).length =
      2 + (Chunk.frames before).length := by
    rw [List.length_append, length_toList, Codec.size_magicBytes]
  have hbehind : F.data.toList.drop (2 + (Chunk.frames before).length) = Chunk.frames behind := by
    rw [hchunks, List.drop_left' hlength]
  have hle : 2 + (Chunk.frames before).length ≤ F.size := by
    rw [← hlength, ← length_toList, hchunks]
    exact (List.prefix_append _ _).length_le
  have htarget : ChunkReader.target a = 2 + (Chunk.frames before).length := by
    rw [ChunkReader.target, if_neg, hplace]
    intro hstart
    rw [hstart] at hplace
    exact absurd hplace (by simp; omega)
  obtain ⟨r', hseek, -, hstreams, -⟩ := ChunkReader.seek (ChunkReader.onFile_of_open hF hr) htarget
    (congrArg UInt32.toNat hzero) (Nat.le_add_right 2 _) hle hbehind (.inl rfl)
  refine ⟨r.trace path c, r'.trace path c, hopen, ?_, ?_⟩
  · rw [ChunkReader.trace, File.setCurrentOffset_map AnyBackend.embeds_chunked,
      ChunkReader.setCurrentOffset_handle]
    exact congrArg (Prod.map id (File.map AnyBackend.chunked)) (congrArg _ hseek)
  · exact hstreams.delivers.map (ChunkReader.trace path c)
      fun count r => ChunkReader.readSome_trace c count r

/-- Some positions are the places of the chunks of a file that hold anything, each once and in the
order of the file. A trace that was just opened accepts them, and delivers what the chunks from there
on decode to. -/
structure Trace.Indexes (path : String) (d : Disk) (chunks : List (Chunk c)) (listed : List Offset) :
    Prop where
  increasing : listed.Pairwise (· < ·)
  mem_iff : ∀ a, a ∈ listed ↔ ∃ before chunk behind, chunks = before ++ chunk :: behind ∧
    0 < chunk.data.size ∧ a.chunk.toNat = 2 + (Chunk.frames before).length ∧ a.inChunk = 0
  resumes : ∀ a ∈ listed, ∀ before behind, chunks = before ++ behind →
    a.chunk.toNat = 2 + (Chunk.frames before).length →
    ∃ t t', openForRead path d = .ok (t, d) ∧ t.setCurrentOffset a d = (.ok (), t') ∧
      Delivers (fun count t => t.readSome count d) (Chunk.decoded behind) t'

theorem Trace.indexes_starts {format : Format} (hcodec : format.codec? = some c) {F : ByteArray}
    (hF : d.contents? path = some F) (hsize : F.size < 2 ^ 64) {chunks : List (Chunk c)}
    (hchunks : F.data.toList = c.magicBytes.data.toList ++ Chunk.frames chunks) :
    Indexes path d chunks (((Chunk.starts 2 chunks).map UInt64.ofNat).map (⟨·, 0⟩)) := by
  have hlt {p : Nat} (hp : p ∈ Chunk.starts 2 chunks) : (UInt64.ofNat p).toNat = p := by
    have hplace := Chunk.lt_size_of_mem_starts hchunks hp
    rw [UInt64.toNat_ofNat', Nat.mod_eq_of_lt (by omega)]
  rw [List.map_map]
  refine ⟨?_, fun a => ?_, ?_⟩
  · rw [List.pairwise_map]
    refine (Chunk.pairwise_starts 2 chunks).imp_of_mem fun hp hq hpq => .inl ?_
    rw [UInt64.lt_iff_toNat_lt]
    exact (hlt hp).symm ▸ (hlt hq).symm ▸ hpq
  · rw [List.mem_map]
    constructor
    · rintro ⟨p, hp, rfl⟩
      obtain ⟨before, chunk, behind, hsplit, hpos, hplace⟩ := Chunk.mem_starts.1 hp
      exact ⟨before, chunk, behind, hsplit, hpos, (hlt hp).trans hplace, rfl⟩
    · rintro ⟨before, chunk, behind, hsplit, hpos, hplace, hzero⟩
      obtain ⟨place, inChunk⟩ := a
      obtain rfl : inChunk = 0 := hzero
      refine ⟨place.toNat, Chunk.mem_starts.2 ⟨before, chunk, behind, hsplit, hpos, hplace⟩, ?_⟩
      rw [Function.comp_apply, UInt64.ofNat_toNat]
  · rintro a ha before behind rfl hplace
    obtain ⟨p, -, rfl⟩ := List.mem_map.1 ha
    exact resumes_at_chunk hcodec hF hchunks hplace rfl

end

namespace Cli

/-- The sizes of pieces add up to that of the bytes in them. -/
theorem length_of_pieces [Compression] (pieces : List Trace.Piece) :
    pieces.foldl (fun size piece => size + piece.bytes.size) 0 =
      (pieces.flatMap (·.bytes.data.toList)).length := by
  suffices ∀ size, pieces.foldl (fun size piece => size + piece.bytes.size) size =
      size + (pieces.flatMap (·.bytes.data.toList)).length by
    rw [this 0, Nat.zero_add]
  induction pieces with
  | nil => exact fun _ => rfl
  | cons piece pieces ih =>
      intro size
      rw [List.foldl_cons, ih, List.flatMap_cons, List.length_append, length_toList]
      omega

/-- A report tells what there is to tell of the trace at a path that was drained up to a clean end,
with the places of its chunks if these were asked for. -/
structure Report.Describes [Compression] (report : Report) (path : String) (d : Disk)
    (listChunks : Bool) (bytes : List UInt8) : Prop where
  path_eq : report.path = path
  detect_eq : Format.detect path d = some report.format
  supportsOffsets_eq : report.supportsOffsets = report.format.codec?.isSome
  compressedSize_eq : ∀ {F}, d.contents? path = some F → report.compressedSize = F.size
  uncompressedSize_eq : report.uncompressedSize = bytes.length
  chunks_eq_none : listChunks = false ∨ report.format.codec? = none → report.chunks = none
  indexes : ∀ {c F}, listChunks = true → report.format.codec? = some c →
    d.contents? path = some F → F.size < 2 ^ 64 →
    ∃ (chunks : List (Chunk c)) (listed : List Offset),
      F.data.toList = c.magicBytes.data.toList ++ Chunk.frames chunks ∧
      bytes = Chunk.decoded chunks ∧ report.chunks = some listed ∧
      Trace.Indexes path d chunks listed

/-! ### What is printed -/

/-- An output tells a report: as text with a line for each thing, or as a JSON object with a member for
each. Chunks that were not asked for have neither line nor member. -/
structure Report.PrintedAs (report : Report) (json : Bool) (output : String) : Prop where
  lines : json = false → output = String.join (List.map (· ++ "\n")
    (["path:             " ++ report.path,
      "format:           " ++ report.format.name,
      "supports offsets: " ++ (if report.supportsOffsets then "true" else "false"),
      "compressed:       " ++ toString report.compressedSize ++ " bytes",
      "uncompressed:     " ++ toString report.uncompressedSize ++ " bytes"] ++
    match report.chunks with
    | none => []
    | some listed => ("chunks:           " ++ toString listed.length) ::
        listed.map fun a => "  chunk @ " ++ toString a.chunk.toNat))
  members : json = true → Json.parse output = some (.object
    ([(some "path", .string (some report.path)),
      (some "format", .string (some report.format.name)),
      (some "supports_offsets", .bool report.supportsOffsets),
      (some "compressed_len", .number (.integer report.compressedSize)),
      (some "uncompressed_len", .number (.integer report.uncompressedSize))] ++
    match report.chunks with
    | none => []
    | some listed => [(some "chunks", .array (listed.map fun a => .object
        [(some "chunk", .number (.integer a.chunk.toNat)),
          (some "offset_in_chunk", .number (.integer a.inChunk.toNat))]))]))

theorem printableItems_offsets (listed : List Offset) :
    Json.PrintableItems (listed.map Offset.toJson) := by
  induction listed with
  | nil => simp [Json.PrintableItems]
  | cons a listed ih =>
      simp [Json.PrintableItems, Json.PrintableMembers, Json.Printable, Offset.toJson,
        Json.ofMembers, Json.ofNat, ih]

theorem Report.printable (report : Report) : report.toJson.Printable := by
  rw [toJson]
  cases report.chunks with
  | none =>
      simp [Json.PrintableMembers, Json.Printable, Json.ofMembers, Json.ofString, Json.ofNat,
        Format.toJson]
  | some listed =>
      simp [Json.PrintableMembers, Json.Printable, Json.ofMembers, Json.ofString, Json.ofNat,
        Format.toJson, printableItems_offsets]

/-- What is printed of a report tells it. -/
theorem Report.printedAs (report : Report) (json : Bool) : report.PrintedAs json
    (if json then report.toJson.pretty ++ "\n" else report.toText) := by
  refine ⟨?_, ?_⟩
  · rintro rfl
    rw [if_neg Bool.false_ne_true]
    unfold toText
    cases report.chunks with
    | none => simp [← String.toList_inj, yesNo]
    | some listed => simp [← String.toList_inj, yesNo, Function.comp_def]
  · rintro rfl
    rw [if_pos rfl, Json.parse_pretty report.printable (by simp [Json.Blank]), toJson]
    cases report.chunks with
    | none => simp [Json.ofMembers, Json.ofString, Json.ofNat, Format.toJson]
    | some listed =>
        simp [Json.ofMembers, Json.ofString, Json.ofNat, Format.toJson, Offset.toJson]

section

variable [Compression.ForGzip] {path : String} {d : Disk} {bytes : List UInt8}

/-! ### What is reported -/

/-- A trace that ends cleanly is reported on. -/
theorem info_of_clean {t t' : Trace} {node : Nat} (hlookup : d.lookup path = .ok node)
    (hopen : Trace.openForRead path d = .ok (t, d))
    (hdrains : Drains (fun t => t.readSome bufferSize d) t bytes (.ok ()) t')
    (hlength : bytes.length ≤ t.backend.remaining d) (listChunks : Bool) :
    info path listChunks d = .ok {
      path
      format := t'.format
      supportsOffsets := t'.supportsOffsets
      compressedSize := d.size node
      uncompressedSize := bytes.length
      chunks := if listChunks && t'.supportsOffsets
        then some ((chunksOf (t.pieces bufferSize d).1).map (⟨·, 0⟩)) else none } := by
  obtain ⟨pieces, hpieces, rfl⟩ := Trace.piecesWithin_of_drains hdrains _ (Nat.lt_succ_of_le hlength)
  rw [info, hlookup, hopen]
  dsimp only [Bind.bind, Except.bind, Pure.pure, Except.pure]
  rw [Trace.pieces, hpieces]
  dsimp only
  rw [length_of_pieces]

theorem exists_report (hdrains : Trace.DrainsTo path d bufferSize bytes (.ok ()))
    (listChunks : Bool) :
    ∃ report, info path listChunks d = .ok report ∧
      report.Describes path d listChunks bytes := by
  obtain ⟨t, t', hopen, hdrained⟩ := hdrains
  obtain ⟨-, node, F, format, hlookup, hF, hnode, hdetect, hkind⟩ := Trace.openForRead_cases hopen
  have hlength := Trace.length_le_of_open hopen (by decide) hdrained
  refine ⟨_, info_of_clean hlookup hopen hdrained hlength listChunks, ?_⟩
  have hcompressed {F' : ByteArray} (hF' : d.contents? path = some F') : d.size node = F'.size := by
    rw [Disk.size_file hnode, Option.some.inj (hF.symm.trans hF')]
  rcases hkind with ⟨c, r, hcodec, hr, rfl, -⟩ | ⟨rfl, rfl⟩
  · obtain ⟨r', rfl, -⟩ := hdrained.of_map (ChunkReader.trace path c)
      (ChunkReader.readSome_trace c bufferSize)
    have hformat : (r'.trace path c).format = format := Format.format_of_codec? hcodec
    refine ⟨rfl, by rw [hdetect, hformat], ?_, hcompressed, rfl, ?_, ?_⟩
    · rw [hformat, hcodec]
      rfl
    · rw [hformat, hcodec]
      rintro (rfl | hnone)
      · rfl
      · cases hnone
    · rw [hformat, hcodec]
      rintro c' F' rfl hc' hF' hsize
      obtain rfl := Option.some.inj hc'
      obtain rfl := Option.some.inj (hF.symm.trans hF')
      obtain ⟨chunks, hchunks, hbytes⟩ := Trace.exists_chunks_of_drainsTo hcodec hdetect hF
        (by decide : 0 < bufferSize) ⟨_, _, hopen, hdrained⟩
      refine ⟨chunks, _, hchunks, hbytes, rfl, ?_⟩
      rw [Trace.pieces, Trace.chunksOf_piecesWithin (by decide) hdrained _
        (Nat.lt_succ_of_le hlength) rfl (ChunkReader.visits_of_open hF hchunks hr)
        (Chunk.pairwise_starts 2 chunks)
        fun p hp => Nat.lt_trans (Chunk.lt_size_of_mem_starts hchunks hp) hsize]
      exact Trace.indexes_starts hcodec hF hsize hchunks
  · obtain ⟨r', rfl, -⟩ := hdrained.of_map (StreamReader.trace path)
      (StreamReader.readSome_trace bufferSize)
    refine ⟨rfl, hdetect, rfl, hcompressed, rfl, fun _ => ?_, fun _ hcodec => ?_⟩
    · exact if_neg (by rw [Bool.and_eq_true]; exact fun h => Bool.false_ne_true h.2)
    · cases hcodec

/-- The info command on a trace that ends cleanly succeeds with a report that tells its format and
sizes and, if that was asked for, where the chunks are that hold anything; and it prints all of this
report. On a trace that cannot be opened or ends in an error it fails and reports nothing. -/
theorem info_reports {args : List String} {json listChunks : Bool}
    (hargs : Request.parse args = some (.info path json listChunks)) :
    let ran := run args d
    ran.2 = d ∧
    (∀ count bytes, 0 < count → Trace.DrainsTo path d count bytes (.ok ()) →
      ran.1.code = 0 ∧ ∃ report, info path listChunks d = .ok report ∧
        report.Describes path d listChunks bytes ∧ report.PrintedAs json ran.1.output) ∧
    ((∃ e, Trace.openForRead path d = .error e) ∨
        (∃ count bytes e, 0 < count ∧ Trace.DrainsTo path d count bytes (.error e)) →
      ran.1.code = 1 ∧ ran.1.output = "") := by
  intro ran
  have hran : ran = (Request.info path json listChunks).run d := by
    simp only [ran, run, hargs]
  rw [Request.run] at hran
  refine ⟨?_, fun count bytes hcount hdrains => ?_, fun hfails => ?_⟩
  · rw [hran]
    split <;> rfl
  · obtain ⟨report, hinfo, hdescribes⟩ :=
      exists_report (hdrains.of_clean hcount (by decide : 0 < bufferSize)) listChunks
    rw [hran, hinfo]
    exact ⟨rfl, report, rfl, hdescribes, report.printedAs json⟩
  · obtain ⟨failure, hinfo⟩ : ∃ failure, info path listChunks d = .error failure := by
      rcases hfails with ⟨e, hopen⟩ | ⟨count, bytes, e, hcount, hdrains⟩
      · exact info_of_not_opened hopen _
      · obtain ⟨_, e', t, t', hopen, hdrained⟩ :=
          hdrains.exists_error hcount (by decide : 0 < bufferSize)
        exact info_of_drains hopen hdrained
          (Trace.length_le_of_open hopen (by decide) hdrained) _
    rw [hran, hinfo]
    exact ⟨rfl, rfl⟩

end

/-- A snappy trace with a chunk of no bytes between two chunks of one. -/
private def threeChunks : Disk :=
  ⟨[("a", 0)], #[.file ⟨#[0x61, 0x74, 3, 0, 0, 0, 1, 0, 7, 1, 0, 0, 0, 0, 3, 0, 0, 0, 1, 0, 8]⟩]⟩

theorem info_reports_three_chunks :
    let ran := @run Compression.stored ["info", "a", "--chunks"] threeChunks
    ran.1.code = 0 ∧ ∃ report, @info .stored "a" true threeChunks = .ok report ∧
      @Report.Describes .stored report "a" threeChunks true [7, 8] ∧
      report.PrintedAs false ran.1.output := by
  obtain ⟨chunks, hframes, hdecoded⟩ : ∃ chunks : List (Chunk Snappy.codec),
      Chunk.frames chunks = [3, 0, 0, 0, 1, 0, 7, 1, 0, 0, 0, 0, 3, 0, 0, 0, 1, 0, 8] ∧
        Chunk.decoded chunks = [7, 8] :=
    ⟨[⟨⟨#[1, 0, 7]⟩, ⟨#[7]⟩, by decide, by decide, rfl⟩,
      ⟨⟨#[0]⟩, ⟨#[]⟩, by decide, by decide, rfl⟩,
      ⟨⟨#[1, 0, 8]⟩, ⟨#[8]⟩, by decide, by decide, rfl⟩], rfl, rfl⟩
  have hdrains := @Trace.drainsTo_of_chunks Compression.stored threeChunks "a" .snappy Snappy.codec
    rfl _ rfl chunks (by rw [hframes]; rfl) 1 Nat.one_pos
  rw [hdecoded] at hdrains
  obtain ⟨-, hclean, -⟩ := @info_reports .stored "a" threeChunks ["info", "a", "--chunks"] false true
    (by decide)
  exact hclean 1 [7, 8] Nat.one_pos hdrains

example : (@run Compression.stored ["info", "a", "--chunks"] threeChunks).1.output =
    "path:             a\nformat:           snappy\nsupports offsets: true\n" ++
      "compressed:       21 bytes\nuncompressed:     2 bytes\n" ++
      "chunks:           2\n  chunk @ 2\n  chunk @ 14\n" := by
  decide +kernel

end Cli
end TraceStore
