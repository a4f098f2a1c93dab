import TraceStore.Proofs.Cli.Repack

/-!
# Cut gzip traces are noticed

A gzip file that was cut is never taken for a complete one: what is left of it is delivered, and
unless the cut is behind a member, reading ends with an error and below 100 percent, and so do the
commands: `Cli.notices_cut`.
-/
namespace TraceStore

open Gzip Streamed

section

variable [Compression.ForGzip] {d : Disk} {path : String} {node : Nat} {ms : List WholeMember}
  {F : List UInt8}

/-! ### Handles on cut files -/

/-- A file that starts with some members is opened by a decoder. -/
theorem Trace.openForRead_of_members (hms : ms ≠ []) (hF : fileOf ms <+: F)
    (hcontents : d.contents? path = some ⟨F.toArray⟩) (hlookup : d.lookup path = .ok node) :
    Trace.openForRead path d = .ok (StreamReader.trace path
      ⟨Decoder.start node d, F.toArray.size, .pending⟩, d) := by
  obtain ⟨_, hlookup', hfile⟩ := Disk.lookup_of_contents hcontents
  obtain rfl := Except.ok.inj (hlookup'.symm.trans hlookup)
  have hmagic : [Format.zlib.magic.1, Format.zlib.magic.2] <+: F := by
    obtain ⟨cur, future, rfl⟩ := List.exists_cons_of_ne_nil hms
    exact (cur.isMember.magic.trans (List.prefix_append ..)).trans hF
  exact Trace.openForRead_of_magic AnyBackend.embeds_gzip rfl hcontents hmagic
    (Streamed.open_new_read (δ := Gzip.Decoder) (ε := Compression.Encoder) default hlookup hfile)

/-- A file that is the beginning of the file of some members is opened, unless it is too short to be
told from other files. -/
theorem Trace.openForRead_of_cut (hms : ms ≠ []) (hF : F <+: fileOf ms)
    (hcontents : d.contents? path = some ⟨F.toArray⟩) (hnode : d.lookup path = .ok node) :
    (∃ e, Trace.openForRead path d = .error e) ∨
    ∃ (r : StreamReader Gzip.Decoder) (promise : Nat),
      Trace.openForRead path d = .ok (r.trace path, d) ∧ r.InCut d node ms F [] promise := by
  obtain ⟨_, hlookup, hfile⟩ := Disk.lookup_of_contents hcontents
  obtain rfl := Except.ok.inj (hlookup.symm.trans hnode)
  by_cases hshort : F.length < 2
  · refine .inl ⟨.unknownFormat, ?_⟩
    rw [Trace.openForRead, Format.detect_of_short hcontents hshort]
  · have hmagic : [Format.zlib.magic.1, Format.zlib.magic.2] <+: F := by
      obtain ⟨cur, future, rfl⟩ := List.exists_cons_of_ne_nil hms
      refine List.prefix_of_prefix_length_le ?_ hF (Nat.le_of_not_lt hshort)
      exact cur.isMember.magic.trans (List.prefix_append ..)
    have hopen := Streamed.open_new_read (δ := Gzip.Decoder) (ε := Compression.Encoder) default
      hlookup hfile
    exact .inr ⟨_, _, Trace.openForRead_of_magic AnyBackend.embeds_gzip rfl hcontents hmagic hopen,
      StreamReader.inCut_open hms hF hfile _⟩

namespace Cli

/-! ### Commands on cut files -/

theorem info_of_cut (hms : ms ≠ []) (hF : F <+: fileOf ms)
    (hcontents : d.contents? path = some ⟨F.toArray⟩) (hend : ¬AtEnd ms F) (listChunks : Bool) :
    ∃ failure, info path listChunks d = .error failure := by
  obtain ⟨node, hlookup, -⟩ := Disk.lookup_of_contents hcontents
  rcases Trace.openForRead_of_cut hms hF hcontents hlookup with
    ⟨e, hopen⟩ | ⟨r, promise, hopen, hr⟩
  · exact info_of_not_opened hopen _
  · obtain ⟨bytes, ending, r', hdrains, hends, -, hlength⟩ :=
      hr.remaining.drains (by decide : 0 < bufferSize)
    obtain rfl := hends.truncated_of_not_atEnd hend
    exact info_of_drains hopen
      (hdrains.map (StreamReader.trace path) (StreamReader.readSome_trace bufferSize)) hlength _

theorem repack_of_cut (hwrites : WritesMembers Compression.Encoder) (hms : ms ≠ [])
    (hF : F <+: fileOf ms) (hcontents : d.contents? path = some ⟨F.toArray⟩)
    (hend : ¬AtEnd ms F) {output : String} (hne : d.find? output ≠ d.find? path)
    (format : Format) (o : WriteOptions) :
    ∃ failure, (repack path output format o d).1 = .error failure := by
  obtain ⟨node, hlookup, hfile⟩ := Disk.lookup_of_contents hcontents
  rcases Trace.openForRead_of_cut hms hF hcontents hlookup with
    ⟨e, hopen⟩ | ⟨r, promise, hopen, hr⟩
  · obtain ⟨failure, hrefused⟩ := repack_refused (o := o) (.inl ⟨e, hopen⟩) output format
    exact ⟨failure, by rw [hrefused]⟩
  · obtain ⟨-, node', _, Rests, Yields, _, hlookup', -, hsource, hrests⟩ :=
      Trace.exists_sourcesOn hopen
    obtain rfl := Except.ok.inj (hlookup'.symm.trans hlookup)
    rw [Disk.find?_of_lookup hlookup] at hne
    refine repack_of_not_yields hwrites.spares hsource hrests hopen
      (Array.getElem?_eq_some_iff.1 hfile).1 hne (fun s hs => ?_) format o
    -- What the trace would yield is not what is drained of it.
    obtain ⟨_, hyielded⟩ := (hsource.sources d).drains (by decide : 0 < copySize) hrests hs
    obtain ⟨bytes, ending, r', hdrains, hends, -⟩ := hr.drains (by decide : 0 < copySize)
    obtain rfl := hends.truncated_of_not_atEnd hend
    obtain ⟨-, hending, -⟩ := hyielded.unique
      (hdrains.map (StreamReader.trace path) (StreamReader.readSome_trace copySize))
    cases hending

/-- Some files were written by handles, and of the bytes of one after the other, the first `F` are
the file at a path. Then a handle reads a beginning of what was written that has all of every file
which is there in full. It ends cleanly and at 100 percent if `F` ends with one of the files, and
otherwise as truncated and below that. Then the commands fail on the file as well, unless it is
repacked into itself. -/
theorem notices_cut (hwrites : WritesMembers Compression.Encoder)
    {ws : List (Written Compression.Encoder)} (hws : ws ≠ []) (hF : F <+: Written.fileOf ws)
    (hcontents : d.contents? path = some ⟨F.toArray⟩) :
    (∀ o : WriteOptions, ∃ f : File GzipBackend,
      (File.new (.new o)).open path .read d = ⟨.ok (), f, d⟩ ∧
      ∀ count, 0 < count → ∃ bytes ending f',
        Drains (fun f => f.readSome count d) f bytes ending f' ∧
        bytes <+: Written.dataOf ws ∧
        (∀ past, past <+: ws → (Written.fileOf past).length ≤ F.length →
          Written.dataOf past <+: bytes) ∧
        (Written.AtEnd ws F → ending = .ok () ∧ f'.percentRead.1 = 100) ∧
        (¬Written.AtEnd ws F →
          ending = .error (.corrupt .truncatedGzip) ∧ f'.percentRead.1 ≤ 99)) ∧
    (¬Written.AtEnd ws F →
      (∀ args json chunks, Request.parse args = some (.info path json chunks) →
        (run args d).1.code = 1) ∧
      (∀ args output format chunkSize,
        Request.parse args = some (.repack path output format chunkSize) →
        d.find? output ≠ d.find? path → (run args d).1.code = 1)) := by
  obtain ⟨node, hlookup, hfile⟩ := Disk.lookup_of_contents hcontents
  have hms : ws.map (Written.member hwrites) ≠ [] := by simpa using hws
  rw [← Written.fileOf_members hwrites] at hF
  simp only [← Written.atEnd_members hwrites ws F]
  refine ⟨fun o => ⟨_, open_new_read o hlookup hfile, fun count hcount => ?_⟩, fun hend => ⟨?_, ?_⟩⟩
  · obtain ⟨bytes, ending, r, hdrains, hends, htail, -⟩ :=
      (StreamReader.inCut_open hms hF hfile (F.toArray.size)).drains hcount
    rw [List.nil_append] at hends
    refine ⟨bytes, _, _, hdrains.map (StreamReader.handle path o)
      (StreamReader.readSome_handle path o count), ?_, fun past hpast hle => ?_, fun hend => ?_,
      fun hend => ?_⟩
    · rw [← Written.dataOf_members hwrites]
      exact hends.prefix_data
    · rw [← Written.dataOf_members hwrites]
      refine hends.whole_prefix (hpast.map _) ?_
      rwa [Written.fileOf_members]
    · obtain rfl := hends.ok_of_atEnd hend
      exact ⟨rfl, StreamReader.percentRead_of_clean htail⟩
    · obtain rfl := hends.truncated_of_not_atEnd hend
      exact ⟨rfl, StreamReader.percentRead_le (by rw [htail]; simp [StreamReader.tailOf])⟩
  · intro args json chunks hargs
    obtain ⟨failure, hinfo⟩ := info_of_cut hms hF hcontents hend chunks
    rw [run, hargs]
    simp only [Request.run, hinfo]
    rfl
  · intro args output format chunkSize hargs hne
    obtain ⟨failure, hrepack⟩ := repack_of_cut hwrites hms hF hcontents hend hne format
      { (default : WriteOptions) with chunkSize }
    rw [run, hargs]
    simp only [Request.run]
    generalize repack path output format { (default : WriteOptions) with chunkSize } d = repacked
      at hrepack
    obtain ⟨result, d'⟩ := repacked
    obtain rfl : result = .error failure := hrepack
    rfl

end Cli

end

namespace Cli

/-- A file that holds nine bytes in a stored block, as level 0 asks for. -/
def nineBytes : Written Gzip.Encoder where
  options := { (default : WriteOptions) with zlibLevel := 0 }
  disk := .empty
  path := "t"
  requests := [.write ⟨#[1, 2, 3, 4, 5, 6, 7, 8, 9]⟩]
  file := ⟨#[0x1f, 0x8b, 8, 0, 0, 0, 0, 0, 0, 0xff, 1, 9, 0, 0xf6, 0xff, 1, 2, 3, 4, 5, 6, 7, 8, 9,
    0x9e, 0xab, 0xef, 0x40, 9, 0, 0, 0]⟩
  valid := rfl
  creatable := ⟨2, _, rfl, rfl⟩
  left := by decide +kernel

theorem length_fileOf_nineBytes (n : Nat) :
    (Written.fileOf (List.replicate n nineBytes)).length = n * 32 := by
  rw [Written.fileOf, List.length_flatMap, List.map_replicate, List.sum_replicate_nat]
  rfl

theorem length_dataOf_nineBytes (n : Nat) :
    (Written.dataOf (List.replicate n nineBytes)).length = n * 9 := by
  rw [Written.dataOf, List.length_flatMap, List.map_replicate, List.sum_replicate_nat]
  rfl

theorem not_atEnd_nineBytes {n : Nat} {F : List UInt8} (hF : ¬32 ∣ F.length) :
    ¬Written.AtEnd (List.replicate n nineBytes) F := by
  rintro ⟨past, hpast, -, rfl⟩
  rw [(List.prefix_replicate_iff.1 hpast).2, length_fileOf_nineBytes] at hF
  exact hF (Nat.dvd_mul_left ..)

theorem notices_cut_stored :
    let F : List UInt8 := nineBytes.file.data.toList ++ [0x1f, 0x8b, 8, 0]
    let d : Disk := ⟨[("a", 0)], #[.file ⟨F.toArray⟩]⟩
    (∃ (f f' : File (Streamed Gzip.Decoder Gzip.Encoder)) (bytes : List UInt8),
      (File.new (.new default)).open "a" .read d = ⟨.ok (), f, d⟩ ∧
      Drains (fun f => f.readSome 4 d) f bytes (.error (.corrupt .truncatedGzip)) f' ∧
      [1, 2, 3, 4, 5, 6, 7, 8, 9] <+: bytes) ∧
    (@run Compression.stored ["info", "a"] d).1.code = 1 ∧
    (@run Compression.stored ["repack", "a", "b"] d).1.code = 1 := by
  intro F d
  have hend : ¬Written.AtEnd (List.replicate 2 nineBytes) F := not_atEnd_nineBytes (by decide)
  obtain ⟨hread, hcommands⟩ := @notices_cut .stored d "a" F Gzip.Encoder.writesMembers
    (List.replicate 2 nineBytes) (by simp) ⟨nineBytes.file.data.toList.drop 4, rfl⟩ rfl
  obtain ⟨f, hopen, hdrains⟩ := hread default
  obtain ⟨bytes, ending, f', hdrains, -, hwhole, -, hcut⟩ := hdrains 4 (by decide)
  obtain ⟨rfl, -⟩ := hcut hend
  obtain ⟨hinfo, hrepack⟩ := hcommands hend
  exact ⟨⟨f, f', bytes, hopen, hdrains, hwhole [nineBytes] ⟨[nineBytes], rfl⟩ (by decide)⟩,
    hinfo _ false false (by decide), hrepack _ "b" .snappy 1048576 (by decide) (by decide)⟩

end Cli
end TraceStore
