import TraceStore.Proofs.Cli.Copy
import TraceStore.Proofs.Cli.Cut
import TraceStore.Proofs.Gzip.Fetched

/-!
# Repacking a trace into itself

A trace that is repacked into itself is emptied as soon as it is opened for writing, so that what
was not fetched by then is lost. If that leaves some members in full, no one notices:
`Cli.repack_in_place`. A trace that has been fetched in full is preserved, if what is written does
not come to where it has been read: `Cli.repack_in_place_preserves`.
-/
namespace TraceStore

open Gzip

namespace Disk

variable {d : Disk} {id : Nat} {path : String} {data : ByteArray}

/-- Creating a file that is there empties it. -/
theorem create_of_file (hfind : d.find? path = some id) (hnode : d.node? id = some (.file data)) :
    d.create path = .ok (id, d.setNode id (.file .empty)) := by
  simp only [create, hfind, hnode]

end Disk

variable {σ : Type} {c : Codec σ} {o : WriteOptions} {d₀ d : Disk} {id : Nat}

/-- A writer of chunks that has emitted nothing has passed on no more than the magic. -/
theorem ChunkWriter.Emits.size_le_two {w : ChunkWriter}
    (h : w.Emits d₀ id ([] : List (Emitted c o)) d) :
    ∃ data, d.node? id = some (.file data) ∧ data.size ≤ 2 := by
  obtain ⟨data, rfl, -, hs⟩ := h.wrote.passed
  refine ⟨data, Disk.node?_setNode h.wrote.id_lt, ?_⟩
  have hlength := congrArg List.length hs
  rw [Emitted.frames_nil, List.append_nil, List.length_append, length_toList, length_toList,
    length_toList, Codec.size_magicBytes] at hlength
  omega

namespace Cli

section

variable [Compression.ForGzip] {path : String} {format : Format} {past : List WholeMember}
  {F : List UInt8} {c : Codec Compression.Memory}

/-! ### A sink that holds everything back -/

/-- The trace that has a writer of chunks open. -/
private abbrev sinkOf (path : String) (c : Codec Compression.Memory) (o : WriteOptions)
    (w : Compression.Memory × ChunkWriter) : Trace :=
  (ChunkWriter.handle path (.new c Compression.fresh o) w).map AnyBackend.chunked

private theorem perform_sinkOf (path : String) (c : Codec Compression.Memory) (o : WriteOptions)
    (w : Compression.Memory × ChunkWriter) (d : Disk) (request : WriteRequest) :
    (sinkOf path c o w).perform request d =
      (ChunkWriter.perform c o request w d).mapState (sinkOf path c o) := by
  rw [File.perform_map AnyBackend.embeds_chunked, ChunkWriter.perform_handle]
  rfl

private theorem openForWrite_sinkOf (hformat : format.codec? = some c) {w : ChunkWriter} {d' : Disk}
    (hwriter : ChunkWriter.create c o path d = .ok (w, d')) :
    Trace.openForWrite path format o d = .ok (sinkOf path c o (Compression.fresh, w), d') := by
  have hopen := Chunked.open_new_write c Compression.fresh o path d
  rw [hwriter] at hopen
  have hnew : File.new (AnyBackend.ofFormat o format) =
      (File.new (Chunked.new c Compression.fresh o)).map .chunked := by
    rw [AnyBackend.ofFormat, hformat]
    rfl
  rw [Trace.openForWrite_eq_ok, hnew, File.open_map AnyBackend.embeds_chunked, hopen]
  rfl

/-- A sink that has emitted nothing, and has room for `rest` in its pending chunk. -/
private def HasRoom (path : String) (c : Codec Compression.Memory) (o : WriteOptions) (d₀ : Disk)
    (id : Nat) (d : Disk) (rest : List UInt8) (sink : Trace) : Prop :=
  ∃ w memory, sink = sinkOf path c o (memory, w) ∧ w.Emits d₀ id ([] : List (Emitted c o)) d ∧
    w.cache.size + rest.length < o.chunkSize.toNat

private theorem HasRoom.write {rest : List UInt8} {sink : Trace} (piece : ByteArray)
    (h : HasRoom path c o d₀ id d (piece.data.toList ++ rest) sink) :
    ∃ sink', sink.write piece d = ⟨.ok (), sink', d⟩ ∧ HasRoom path c o d₀ id d rest sink' := by
  obtain ⟨w, memory, rfl, hemits, hlt⟩ := h
  rw [List.length_append, length_toList] at hlt
  obtain ⟨w', hwrite, hemits', hsize⟩ := hemits.write_of_lt piece (by omega) memory
  have hperform := perform_sinkOf path c o (memory, w) d (.write piece)
  rw [show ChunkWriter.perform c o (.write piece) (memory, w) d = _ from hwrite] at hperform
  exact ⟨_, hperform, w', memory, rfl, hemits', by omega⟩

/-- What leaves room in the pending chunk does not reach the file, which has nothing but the magic
of a format at most. -/
private theorem holdsBack (hformat : format.codec? = some c) (ho : o.validate = .ok ())
    {node : Nat} {data : ByteArray} (hfind : d.find? path = some node)
    (hnode : d.node? node = some (.file data)) {sink : Trace} {d₁ : Disk}
    (hsink : Trace.openForWrite path format o d = .ok (sink, d₁)) :
    (∃ data, d₁.node? node = some (.file data) ∧ data.size ≤ 2) ∧
    ∀ (writes : List ByteArray) (sink' : Trace) (d₂ : Disk),
      (WriteRequest.written (writes.map .write)).length < o.chunkSize.toNat →
      WriteRequest.runAll File.perform (writes.map .write) sink d₁ = ⟨.ok (), sink', d₂⟩ →
      d₂ = d₁ := by
  have hempty := Disk.create_of_file hfind hnode
  obtain ⟨node', d₀, w, d', hcreate, hwriter, hemits, hcache⟩ :=
    ChunkWriter.create_of_creatable (c := c) ho
      ⟨_, _, hempty, Disk.node?_setNode (Array.getElem?_eq_some_iff.1 hnode).1⟩
  obtain ⟨rfl, rfl⟩ := Prod.mk.inj (Except.ok.inj (hempty.symm.trans hcreate))
  obtain ⟨rfl, rfl⟩ := Prod.mk.inj (Except.ok.inj
    ((openForWrite_sinkOf hformat hwriter).symm.trans hsink))
  refine ⟨hemits.size_le_two, fun writes sink' d₂ hroom hrun => ?_⟩
  suffices ∀ (writes : List ByteArray) (sink : Trace),
      HasRoom path c o (d.setNode node (.file .empty)) node d'
        (WriteRequest.written (writes.map .write)) sink →
      WriteRequest.runAll File.perform (writes.map .write) sink d' = ⟨.ok (), sink', d₂⟩ →
      d₂ = d' by
    refine this writes _ ⟨w, Compression.fresh, rfl, hemits, ?_⟩ hrun
    rwa [hcache, ByteArray.size_empty, Nat.zero_add]
  intro writes
  induction writes with
  | nil => intro sink _ hrun; exact ((Outcome.mk.inj hrun).2.2).symm
  | cons piece writes ih =>
      intro sink hsink hrun
      obtain ⟨sink₁, hpiece, hsink₁⟩ := hsink.write piece
      rw [List.map_cons, WriteRequest.runAll,
        show sink.perform (.write piece) d' = _ from hpiece] at hrun
      exact ih sink₁ hsink₁ hrun

/-! ### Traces that are lost -/

/-- A file that members are all of is drained of what they hold. -/
theorem drainsTo_of_members {ms : List WholeMember} (hms : ms ≠ [])
    (hcontents : d.contents? path = some ⟨(fileOf ms).toArray⟩) {count : Nat} (hcount : 0 < count) :
    Trace.DrainsTo path d count (dataOf ms) (.ok ()) := by
  obtain ⟨node, hlookup, hfile⟩ := Disk.lookup_of_contents hcontents
  obtain ⟨bytes, ending, r', hdrains, hends, -⟩ :=
    (StreamReader.inCut_open hms List.prefix_rfl hfile _).drains hcount
  obtain ⟨rfl, rfl⟩ := hends.eq_of_whole
  exact ⟨_, _, Trace.openForRead_of_members hms List.prefix_rfl hcontents hlookup,
    hdrains.map (StreamReader.trace path) (StreamReader.readSome_trace count)⟩

/-- If some members of a gzip trace take exactly the block that is fetched at first, repacking the
trace into itself succeeds, whatever comes behind them, and leaves what they hold. -/
theorem repack_in_place (hlossless : Compression.Lossless) (hformat : format.codec? = some c)
    (ho : o.validate = .ok ()) (hpast : past ≠ []) (hfull : (fileOf past).length = Gzip.blockSize)
    (hF : fileOf past <+: F) (hcontents : d.contents? path = some ⟨F.toArray⟩)
    (hroom : (dataOf past).length < o.chunkSize.toNat) :
    ∃ d', repack path path format o d = (.ok (), d') ∧ ∀ count, 0 < count →
      Trace.DrainsTo path d' count (dataOf past) (.ok ()) := by
  obtain ⟨node, hlookup, hfile⟩ := Disk.lookup_of_contents hcontents
  have hfind := Disk.find?_of_lookup hlookup
  -- The source is opened on the whole file.
  have hsource := Trace.openForRead_of_members hpast hF hcontents hlookup
  -- The sink is opened on the same file, and has emptied it then.
  have hpath : d.Creatable path := ⟨_, _, Disk.create_of_file hfind hfile,
    Disk.node?_setNode (Array.getElem?_eq_some_iff.1 hfile).1⟩
  obtain ⟨sink, d₁, hsink, -⟩ := Trace.round_trip hlossless format ho hpath []
  obtain ⟨⟨data, hnode, hsmall⟩, hheld⟩ := holdsBack hformat ho hfind hfile hsink
  -- What was fetched before is all that the source delivers.
  have hr : StreamReader.InCut d₁ node past (fileOf past) [] _
      ⟨Decoder.start node d, F.toArray.size, .pending⟩ :=
    ⟨rfl, Decoder.stands_start_of_fetched hpast hfull hF hfile hnode
      (Nat.le_trans hsmall (by decide))⟩
  obtain ⟨bytes, ending, r', hdrains, hends, -, hlength⟩ :=
    hr.remaining.drains (by decide : 0 < copySize)
  obtain ⟨rfl, rfl⟩ := hends.eq_of_whole
  have hdrained : Drains (fun t => File.readSome copySize t d₁) _ _ _ _ :=
    hdrains.map (StreamReader.trace path) (StreamReader.readSome_trace copySize)
  obtain ⟨requests, d', hwritten, hrepack, hrecords⟩ := repack_of_drains hlossless ho hpath
    hsource hsink (.gzip (Decoder.beyond_start node d))
    (fun writes sink' d₂ hwrites hrun => by
      rw [hheld writes sink' d₂ (Nat.lt_of_le_of_lt hwrites.length_le hroom) hrun]
      exact Disk.AgreeFrom.refl node 0 d₁) hdrained hlength
  refine ⟨d', hrepack, fun count hcount => ?_⟩
  rw [← hwritten]
  exact (drainsTo_of_records hlossless ho hpath hrecords).2 count hcount

/-! ### Traces that are preserved -/

/-- While the beginnings of `bytes` are written to a new trace in the place of the file at a path,
the file is no longer than `size`. -/
def StaysWithin (path : String) (format : Format) (o : WriteOptions) (d : Disk) (bytes : List UInt8)
    (size : Nat) : Prop :=
  ∀ (node : Nat) (sink : Trace) (d₁ : Disk), d.find? path = some node →
    Trace.openForWrite path format o d = .ok (sink, d₁) →
    ∀ (writes : List ByteArray) (sink' : Trace) (d₂ : Disk),
      WriteRequest.written (writes.map .write) <+: bytes →
      WriteRequest.runAll File.perform (writes.map .write) sink d₁ = ⟨.ok (), sink', d₂⟩ →
      ∃ data, d₂.node? node = some (.file data) ∧ data.size ≤ size

/-- What leaves room in the pending chunk does not come to the file. -/
theorem staysWithin_of_room (hformat : format.codec? = some c) (ho : o.validate = .ok ())
    {data : ByteArray} (hcontents : d.contents? path = some data) {bytes : List UInt8}
    (hroom : bytes.length < o.chunkSize.toNat) : StaysWithin path format o d bytes 2 := by
  intro node sink d₁ hfind hsink writes sink' d₂ hwrites hrun
  obtain ⟨node', hlookup, hnode⟩ := Disk.lookup_of_contents hcontents
  obtain rfl := Option.some.inj ((Disk.find?_of_lookup hlookup).symm.trans hfind)
  obtain ⟨hsmall, hheld⟩ := holdsBack hformat ho hfind hnode hsink
  rwa [hheld writes sink' d₂ (Nat.lt_of_le_of_lt hwrites.length_le hroom) hrun]

/-- A trace that is drained up to a clean end, and whose file is fetched in full when it is opened,
is preserved when it is repacked into itself, if the new trace does not become longer in the file
than the old one was before all is written. In a format with chunks it does not if all fits in a
chunk. -/
theorem repack_in_place_preserves (hlossless : Compression.Lossless) {args : List String}
    {chunkSize : UInt64} (hargs : Request.parse args = some (.repack path path format chunkSize))
    (hsize : 1 ≤ chunkSize.toNat ∧ chunkSize.toNat ≤ maxChunkSize) {F : ByteArray}
    (hcontents : d.contents? path = some F) {source : Format}
    (hdetect : Format.detect path d = some source) (hfits : F.size ≤ source.blockSize) {count : Nat}
    {bytes : List UInt8} (hcount : 0 < count)
    (hdrains : Trace.DrainsTo path d count bytes (.ok ()))
    (hstays : StaysWithin path format { (default : WriteOptions) with chunkSize } d bytes F.size ∨
      format.codec? ≠ none ∧ bytes.length < chunkSize.toNat) :
    let ran := run args d
    ran.1.code = 0 ∧ Format.detect path ran.2 = some format ∧
      ∀ count, 0 < count → Trace.DrainsTo path ran.2 count bytes (.ok ()) := by
  intro ran
  have ho := WriteOptions.validate_chunkSize.2 hsize
  obtain ⟨t, t', hopen, hdrained⟩ := hdrains
  obtain ⟨node, hlookup, hnode⟩ := Disk.lookup_of_contents hcontents
  obtain ⟨-, node', _, Rests, Yields, promise, hlookup', -, hsource, hrests⟩ :=
    Trace.exists_sourcesOn hopen
  obtain rfl := Except.ok.inj (hlookup.symm.trans hlookup')
  -- Blocks of another size bring the same.
  have hyields := (hsource.sources d).yields_of_drains hcount hrests hdrained
  have hpos : 0 < copySize := by decide
  obtain ⟨t'', hcopied⟩ := (hsource.sources d).drains hpos hrests hyields
  have hlength := (hsource.sources d).length_le_of_drains hpos (hsource.rests_remaining hrests)
    hcopied
  have hstays' :
      StaysWithin path format { (default : WriteOptions) with chunkSize } d bytes F.size := by
    rcases hstays with hstays | ⟨hchunked, hroom⟩
    · exact hstays
    · obtain ⟨c, hcodec⟩ := Option.ne_none_iff_exists'.1 hchunked
      intro node sink d₁ hfind hsink writes sink' d₂ hwrites hrun
      obtain ⟨data, hdata, hle⟩ := staysWithin_of_room hcodec ho hcontents hroom node sink d₁ hfind
        hsink writes sink' d₂ hwrites hrun
      -- The magic was in the file before.
      obtain ⟨_, hF, hmagic⟩ := Format.contents_of_detect hdetect
      obtain rfl := Option.some.inj (hcontents.symm.trans hF)
      have hlong := hmagic.length_le
      exact ⟨data, hdata, Nat.le_trans hle hlong⟩
  have hfind := Disk.find?_of_lookup hlookup
  have hpath : d.Creatable path := ⟨_, _, Disk.create_of_file hfind hnode,
    Disk.node?_setNode (Array.getElem?_eq_some_iff.1 hnode).1⟩
  obtain ⟨sink, d₁, hsink, -⟩ := Trace.round_trip hlossless format ho hpath []
  obtain ⟨requests, d', rfl, hrepack, hrecords⟩ := repack_of_drains hlossless ho hpath hopen hsink
    ((Trace.beyond_of_open hlookup hnode hopen).2 source hdetect hfits)
    (fun writes sink' d₂ hwrites hrun => by
      obtain ⟨data, hdata, hle⟩ := hstays' node sink d₁ hfind hsink writes sink' d₂ hwrites hrun
      exact Disk.agreeFrom_of_size_le hnode hdata (Nat.le_refl _) hle) hcopied hlength
  obtain ⟨hran, hcode, -⟩ := run_of_repack hargs hrepack
  obtain ⟨hdetected, hleft⟩ := drainsTo_of_records hlossless ho hpath hrecords
  obtain rfl : ran.2 = d' := hran
  exact ⟨hcode.2 rfl, hdetected, hleft⟩

end

theorem repack_in_place_preserves_five_bytes :
    let ran := @run Compression.stored ["repack", "a", "a", "--format", "zstd"] fiveBytes
    ran.1.code = 0 ∧ Format.detect "a" ran.2 = some .zstd ∧ ∀ count, 0 < count →
      @Trace.DrainsTo Compression.stored "a" ran.2 count [7, 8, 9, 5, 6] (.ok ()) :=
  @repack_in_place_preserves fiveBytes .stored "a" .zstd Compression.stored_lossless
    ["repack", "a", "a", "--format", "zstd"] 1048576 (by decide) (by decide) _ rfl .snappy
    (by decide) (by decide) 1 [7, 8, 9, 5, 6] Nat.one_pos (drainsTo_fiveBytes Nat.one_pos)
    (.inr (by decide))

/-- Members that fill the block that is fetched at first. -/
private theorem run_repack_nineBytes {n : Nat} (hfull : n * 32 = Gzip.blockSize)
    (hroom : n * 9 < 1048576) {F : List UInt8}
    (hF : Streamed.Written.fileOf (List.replicate n nineBytes) <+: F) :
    let d : Disk := ⟨[("a", 0)], #[.file ⟨F.toArray⟩]⟩
    let ran := @run Compression.stored ["repack", "a", "a"] d
    ran.1.code = 0 ∧ ∀ count, 0 < count → @Trace.DrainsTo Compression.stored "a" ran.2 count
      (Streamed.Written.dataOf (List.replicate n nineBytes)) (.ok ()) := by
  intro d
  have hne : List.replicate n nineBytes ≠ [] := by
    intro hnil
    rw [List.replicate_eq_nil_iff] at hnil
    rw [hnil] at hfull
    exact absurd hfull (by decide)
  have hfile := Streamed.Written.fileOf_members Gzip.Encoder.writesMembers
    (List.replicate n nineBytes)
  obtain ⟨d', hrepack, hdrains⟩ := @repack_in_place
    { (default : WriteOptions) with chunkSize := 1048576 } d .stored "a" .snappy
    ((List.replicate n nineBytes).map (Streamed.Written.member Gzip.Encoder.writesMembers)) F
    Snappy.codec Compression.stored_lossless rfl rfl (by simpa using hne)
    (by rw [hfile, length_fileOf_nineBytes, hfull]) (by rwa [hfile]) rfl
    (by rw [Streamed.Written.dataOf_members, length_dataOf_nineBytes]; exact hroom)
  rw [Streamed.Written.dataOf_members] at hdrains
  obtain ⟨rfl, hcode, -⟩ := @run_of_repack .stored ["repack", "a", "a"] "a" "a" .snappy 1048576 d d'
    (by decide) _ hrepack
  exact ⟨hcode.2 rfl, hdrains⟩

/-- A file that is cut within a member, but has as many members before as fill the block that is
fetched at first, is repacked into itself without a failure. -/
theorem repack_in_place_unnoticed :
    let ws : List (Streamed.Written Gzip.Encoder) := List.replicate 1025 nineBytes
    let F : List UInt8 :=
      Streamed.Written.fileOf (List.replicate 1024 nineBytes) ++ [0x1f, 0x8b, 8, 0]
    let d : Disk := ⟨[("a", 0)], #[.file ⟨F.toArray⟩]⟩
    F <+: Streamed.Written.fileOf ws ∧ ¬Streamed.Written.AtEnd ws F ∧
    d.contents? "a" = some ⟨F.toArray⟩ ∧
    (@run Compression.stored ["repack", "a", "a"] d).1.code = 0 := by
  intro ws F d
  refine ⟨?_, not_atEnd_nineBytes ?_, rfl,
    (run_repack_nineBytes (by decide) (by decide) (List.prefix_append ..)).1⟩
  · show F <+: Streamed.Written.fileOf (List.replicate (1024 + 1) nineBytes)
    rw [List.replicate_succ', Streamed.Written.fileOf, List.flatMap_append]
    exact (List.prefix_append_right_inj _).2 ⟨nineBytes.file.data.toList.drop 4, rfl⟩
  · rw [List.length_append, length_fileOf_nineBytes]
    decide

private theorem fileOf_nineBytes_succ (n : Nat) :
    Streamed.Written.fileOf (List.replicate (n + 1) nineBytes) =
      Streamed.Written.fileOf (List.replicate n nineBytes) ++ nineBytes.file.data.toList := by
  rw [List.replicate_succ', Streamed.Written.fileOf, List.flatMap_append, List.flatMap_singleton,
    Streamed.Written.fileOf]

private theorem drainsTo_nineBytes (n : Nat) {count : Nat} (hcount : 0 < count) :
    @Trace.DrainsTo Compression.stored "a"
      ⟨[("a", 0)], #[.file
        ⟨(Streamed.Written.fileOf (List.replicate (n + 1) nineBytes)).toArray⟩]⟩ count
      (Streamed.Written.dataOf (List.replicate (n + 1) nineBytes)) (.ok ()) := by
  rw [← Streamed.Written.dataOf_members Gzip.Encoder.writesMembers]
  refine @drainsTo_of_members _ .stored "a" _ (by simp) ?_ count hcount
  rw [Streamed.Written.fileOf_members]
  rfl

private theorem repack_nineBytes_loses {n : Nat} (hfull : n * 32 = Gzip.blockSize)
    (hroom : n * 9 < 1048576) :
    let F := Streamed.Written.fileOf (List.replicate (n + 1) nineBytes)
    let bytes (n : Nat) := Streamed.Written.dataOf (List.replicate n nineBytes)
    let d : Disk := ⟨[("a", 0)], #[.file ⟨F.toArray⟩]⟩
    let ran := @run Compression.stored ["repack", "a", "a"] d
    ran.1.code = 0 ∧ ∀ count, 0 < count →
      @Trace.DrainsTo Compression.stored "a" d count (bytes (n + 1)) (.ok ()) ∧
      @Trace.DrainsTo Compression.stored "a" ran.2 count (bytes n) (.ok ()) ∧
      ¬@Trace.DrainsTo Compression.stored "a" ran.2 count (bytes (n + 1)) (.ok ()) := by
  intro F bytes d ran
  obtain ⟨hcode, hleft⟩ := run_repack_nineBytes hfull hroom ⟨_, (fileOf_nineBytes_succ n).symm⟩
  refine ⟨hcode, fun count hcount =>
    ⟨drainsTo_nineBytes n hcount, hleft count hcount, fun hall => ?_⟩⟩
  have hlength := congrArg List.length (hall.unique (hleft count hcount)).1
  simp only [bytes, length_dataOf_nineBytes] at hlength
  omega

/-- A trace that is longer than the block that is fetched at first is repacked into itself without a
failure, and what it holds behind that block is lost. -/
theorem repack_in_place_loses :
    let F := Streamed.Written.fileOf (List.replicate 1025 nineBytes)
    let bytes (n : Nat) := Streamed.Written.dataOf (List.replicate n nineBytes)
    let d : Disk := ⟨[("a", 0)], #[.file ⟨F.toArray⟩]⟩
    let ran := @run Compression.stored ["repack", "a", "a"] d
    ran.1.code = 0 ∧ ∀ count, 0 < count →
      @Trace.DrainsTo Compression.stored "a" d count (bytes 1025) (.ok ()) ∧
      @Trace.DrainsTo Compression.stored "a" ran.2 count (bytes 1024) (.ok ()) ∧
      ¬@Trace.DrainsTo Compression.stored "a" ran.2 count (bytes 1025) (.ok ()) :=
  repack_nineBytes_loses (n := 1024) (by decide) (by decide)

end Cli
end TraceStore
