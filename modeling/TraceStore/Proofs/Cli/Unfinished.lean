import TraceStore.Proofs.Cli.Copy
import TraceStore.Proofs.Cli.Cut

/-!
# Repacking a trace that breaks off

Repacking a trace that ends in an error into another file fails. The other file has what was drained
until then, however, and is a trace like any other, which ends cleanly: `Cli.repack_leaves_short`.
-/
namespace TraceStore

namespace Cli

section

variable [Compression.ForGzip] {args : List String} {input output : String} {format : Format}
  {chunkSize : UInt64} {o : WriteOptions} {d d' : Disk} {bytes : List UInt8} {e : Error}

/-- What is drained of a trace up to an error has been recorded when repacking fails. -/
theorem repack_of_failing (hlossless : Compression.Lossless)
    (hspares : StreamEncoder.SparesOthers Compression.Encoder) (ho : o.validate = .ok ())
    (hdiffer : ∀ node, d.find? input = some node → d.find? output ≠ some node)
    (hpath : d.Creatable output) (hdrains : Trace.DrainsTo input d copySize bytes (.error e)) :
    ∃ d', repack input output format o d = (.error (decodeFailure e), d') ∧
      Format.detect output d' = some format ∧
      ∀ count, 0 < count → Trace.DrainsTo output d' count bytes (.ok ()) := by
  obtain ⟨t, t', hopen, hdrained⟩ := hdrains
  obtain ⟨-, node, data, _, _, _, hlookup, hfile, hsource, hrests⟩ := Trace.exists_sourcesOn hopen
  have hnode := (Array.getElem?_eq_some_iff.1 hfile).1
  have hne := hdiffer node (Disk.find?_of_lookup hlookup)
  obtain ⟨sink, d₁, hsink, -⟩ := Trace.round_trip hlossless format ho hpath []
  -- The trace that is read does not see what is written.
  obtain ⟨hcreated, hsinkspares⟩ := Trace.spares_of_openForWrite hspares hsink hnode hne
  have hagree (writes : List ByteArray) (sink' : Trace) (d₂ : Disk)
      (hrun : WriteRequest.runAll File.perform (writes.map .write) sink d₁ = ⟨.ok (), sink', d₂⟩) :
      d.AgreeFrom node 0 d₂ := by
    have hwritten := hsinkspares (writes.map .write)
    rw [hrun] at hwritten
    exact Disk.agreeFrom_of_node?_eq (hwritten.trans hcreated) 0
  have hlength := (hsource.sources d).length_le_of_drains (by decide : 0 < copySize)
    (hsource.rests_remaining hrests) hdrained
  obtain ⟨requests, d', rfl, hrepack, hrecords⟩ := repack_of_drains hlossless ho hpath hopen hsink
    (Trace.beyond_of_open hlookup hfile hopen).1 (fun writes sink' d₂ _ => hagree writes sink' d₂)
    hdrained hlength
  exact ⟨d', hrepack, drainsTo_of_records hlossless ho hpath hrecords⟩

/-- If a trace ends in an error, repacking it into another file fails. If that file can be created,
the error is the one that the trace ends in, and what was drained before it is left in the file as a
trace of the format asked for that ends cleanly. Otherwise nothing on the disk changes. -/
theorem repack_leaves_short (hlossless : Compression.Lossless)
    (hspares : StreamEncoder.SparesOthers Compression.Encoder)
    (hargs : Request.parse args = some (.repack input output format chunkSize))
    (hsize : 1 ≤ chunkSize.toNat ∧ chunkSize.toNat ≤ maxChunkSize)
    (hdiffer : ∀ node, d.find? input = some node → d.find? output ≠ some node)
    (hpath : d.NoDevice output) {count : Nat} (hcount : 0 < count)
    (hdrains : Trace.DrainsTo input d count bytes (.error e)) :
    let ran := run args d
    ran.1.code = 1 ∧
    (d.Creatable output → ∃ copied e', Trace.DrainsTo input d copySize copied (.error e') ∧
      ran.1 = .failed (decodeFailure e') ∧ Format.detect output ran.2 = some format ∧
      ∀ count, 0 < count → Trace.DrainsTo output ran.2 count copied (.ok ())) ∧
    (¬d.Creatable output → ran.2 = d) := by
  intro ran
  have ho := WriteOptions.validate_chunkSize.2 hsize
  have hran {failure : Failure} {d' : Disk}
      (hrepack : repack input output format { (default : WriteOptions) with chunkSize } d =
        (.error failure, d')) : ran = (.failed failure, d') := by
    simp only [ran, run, hargs, Request.run, hrepack]
  by_cases hcreatable : d.Creatable output
  · obtain ⟨copied, e', hcopied⟩ := hdrains.exists_error hcount (by decide : 0 < copySize)
    obtain ⟨d', hrepack, hdetect, hleft⟩ :=
      repack_of_failing hlossless hspares ho hdiffer hcreatable hcopied
    rw [hran hrepack]
    exact ⟨rfl, fun _ => ⟨copied, e', hcopied, rfl, hdetect, hleft⟩, absurd hcreatable⟩
  · obtain ⟨failure, hrepack⟩ : ∃ failure, repack input output format
        { (default : WriteOptions) with chunkSize } d = (.error failure, d) := by
      refine repack_of_not_opened (.inr fun _ hsink => ?_)
      obtain ⟨-, _, _, hcreate⟩ := Trace.create_of_openForWrite hsink
      exact hcreatable (Disk.creatable_of_create hpath hcreate)
    rw [hran hrepack]
    exact ⟨rfl, fun h => absurd h hcreatable, fun _ => rfl⟩

end

/-- Two members of nine bytes, cut in the header of the second one. -/
private theorem drainsTo_cut_nineBytes :
    let F : List UInt8 := nineBytes.file.data.toList ++ [0x1f, 0x8b, 8, 0]
    ∃ bytes, @Trace.DrainsTo Compression.stored "a" ⟨[("a", 0)], #[.file ⟨F.toArray⟩]⟩ copySize
      bytes (.error (.corrupt .truncatedGzip)) := by
  intro F
  let d : Disk := ⟨[("a", 0)], #[.file ⟨F.toArray⟩]⟩
  let member := Streamed.Written.member Gzip.Encoder.writesMembers
  have hfile (ws : List (Streamed.Written Gzip.Encoder)) :=
    Streamed.Written.fileOf_members Gzip.Encoder.writesMembers ws
  have hF : F <+: Gzip.fileOf ([nineBytes, nineBytes].map member) := by
    rw [hfile]
    exact ⟨nineBytes.file.data.toList.drop 4, rfl⟩
  have hend : ¬Gzip.AtEnd ([nineBytes, nineBytes].map member) F := by
    rw [Streamed.Written.atEnd_members]
    exact not_atEnd_nineBytes (n := 2) (by decide)
  have hopen := @Trace.openForRead_of_members .stored d "a" 0 ([nineBytes].map member) F (by simp)
    (by rw [hfile]; exact List.prefix_append _ _) rfl rfl
  have hnode : d.node? 0 = some (.file ⟨F.toArray⟩) := rfl
  obtain ⟨bytes, ending, r', hdrains, hends, -⟩ :=
    (StreamReader.inCut_open (by simp) hF hnode F.toArray.size).drains (by decide : 0 < copySize)
  obtain rfl := hends.truncated_of_not_atEnd hend
  exact ⟨bytes, _, _, hopen, hdrains.map (@StreamReader.trace .stored "a")
    (@StreamReader.readSome_trace .stored d "a" copySize)⟩

theorem repack_leaves_short_cut :
    let F : List UInt8 := nineBytes.file.data.toList ++ [0x1f, 0x8b, 8, 0]
    let d : Disk := ⟨[("a", 0)], #[.file ⟨F.toArray⟩]⟩
    let ran := @run Compression.stored ["repack", "a", "b", "--format", "zlib"] d
    ran.1.code = 1 ∧ Format.detect "b" ran.2 = some .zlib ∧ ∃ copied,
      @Trace.DrainsTo Compression.stored "a" d copySize copied (.error (.corrupt .truncatedGzip)) ∧
      @Trace.DrainsTo Compression.stored "b" ran.2 4 copied (.ok ()) := by
  intro F d ran
  obtain ⟨bytes, hdrains⟩ := drainsTo_cut_nineBytes
  have hpath : d.NoDevice "b" := by
    intro id hfind
    cases hfind
  obtain ⟨hcode, hleft, -⟩ := @repack_leaves_short .stored
    ["repack", "a", "b", "--format", "zlib"] "a" "b" .zlib 1048576 d bytes _
    Compression.stored_lossless Gzip.Encoder.writesMembers.spares (by decide) (by decide)
    (by decide) hpath copySize (by decide) hdrains
  obtain ⟨copied, e, hcopied, -, hdetect, hdrained⟩ := hleft ⟨1, _, rfl, rfl⟩
  obtain ⟨-, he⟩ := hcopied.unique hdrains
  obtain rfl := Except.error.inj he
  -- Comparing the results of the two runs instead of the runs would evaluate both.
  have hsame :
      @run (@Compression.forGzip .stored) ["repack", "a", "b", "--format", "zlib"] d = ran := rfl
  rw [hsame] at hcode hdetect hdrained
  exact ⟨hcode, hdetect, copied, hcopied, hdrained 4 (by decide)⟩

/-- A gzip trace that is cut behind the first nine of its bytes is repacked with a failure. What is
left by that is a snappy trace of these nine bytes. -/
theorem repack_leaves_first_member :
    let F : List UInt8 := nineBytes.file.data.toList ++ [0x1f, 0x8b, 8, 0]
    let d : Disk := ⟨[("a", 0)], #[.file ⟨F.toArray⟩]⟩
    let ran := @run Compression.stored ["repack", "a", "b"] d
    let bytes : List UInt8 := [1, 2, 3, 4, 5, 6, 7, 8, 9]
    @Trace.DrainsTo Compression.stored "a" d copySize bytes (.error (.corrupt .truncatedGzip)) ∧
    ran.1 = .failed (decodeFailure (.corrupt .truncatedGzip)) ∧
    Format.detect "b" ran.2 = some .snappy ∧
    ∀ count, 0 < count → @Trace.DrainsTo Compression.stored "b" ran.2 count bytes (.ok ()) := by
  intro F d ran bytes
  obtain ⟨copied, hcopied⟩ := drainsTo_cut_nineBytes
  obtain ⟨d', hrepack, hdetect, hleft⟩ := @repack_of_failing .stored "a" "b" .snappy
    { (default : WriteOptions) with chunkSize := 1048576 } d copied _ Compression.stored_lossless
    Gzip.Encoder.writesMembers.spares rfl (by decide) ⟨1, _, rfl, rfl⟩ hcopied
  have hran : ran = (.failed (decodeFailure (.corrupt .truncatedGzip)), d') := by
    simp only [ran, run, show Request.parse ["repack", "a", "b"] =
      some (.repack "a" "b" .snappy 1048576) by decide, Request.run, hrepack]
  -- The file that is left tells what was drained.
  have hcontents : ran.2.contents? "b" =
      some ⟨#[0x61, 0x74, 11, 0, 0, 0, 9, 32, 1, 2, 3, 4, 5, 6, 7, 8, 9]⟩ := by decide +kernel
  obtain ⟨chunk, hframe, hdata⟩ : ∃ chunk : Chunk Snappy.codec,
      chunk.frame = [11, 0, 0, 0, 9, 32, 1, 2, 3, 4, 5, 6, 7, 8, 9] ∧
        chunk.data.data.toList = bytes :=
    ⟨⟨⟨#[9, 32, 1, 2, 3, 4, 5, 6, 7, 8, 9]⟩, ⟨bytes.toArray⟩, by decide, by decide, rfl⟩,
      by decide, rfl⟩
  have hchunk := @Trace.drainsTo_of_chunks Compression.stored ran.2 "b" .snappy Snappy.codec rfl _
    hcontents [chunk] (by simp [hframe]; rfl) 1 Nat.one_pos
  rw [Chunk.decoded_cons, hdata] at hchunk
  rw [hran] at hchunk ⊢
  obtain ⟨rfl, -⟩ := hchunk.unique (hleft 1 Nat.one_pos)
  exact ⟨hcopied, rfl, hdetect, hleft⟩

end Cli
end TraceStore
