import TraceStore.Proofs.Cli.Commands
import TraceStore.Proofs.Trace.Session
import TraceStore.Proofs.Trace.Source

/-!
# Repacking

Repacking a trace into another file succeeds if the trace ends cleanly and the other file can be
written, and what is written then is the stream of the trace, in chunks of the size asked for:
`Cli.repack_preserves`.
-/
namespace TraceStore

namespace Disk

variable {d d' : Disk} {path other : String} {id node : Nat}

/-- Whether a path is not bound to a device. -/
def NoDevice (d : Disk) (path : String) : Prop :=
  ∀ id, d.find? path = some id →
    (∃ data, d.node? id = some (.file data)) ∨ d.node? id = some .directory

/-- What is created and no device is an empty file. -/
theorem creatable_of_create (hpath : d.NoDevice path) (hcreate : d.create path = .ok (id, d')) :
    d.Creatable path := by
  refine ⟨id, d', hcreate, ?_⟩
  rcases cases_of_create hcreate with ⟨-, rfl, rfl⟩ | ⟨hfind, ⟨⟨data, hnode⟩, rfl⟩ | ⟨hnot, rfl⟩⟩
  · simp [node?]
  · exact node?_setNode (Array.getElem?_eq_some_iff.1 hnode).1
  · rcases hpath id hfind with ⟨data, hnode⟩ | hnode
    · exact absurd hnode (hnot data)
    · simp [create, hfind, hnode] at hcreate

/-- A file that is made at a path leaves those at other paths as they are. -/
theorem contents?_of_create (hcreate : d.create path = .ok (id, d')) (hother : other ≠ path)
    (hfind : d.find? other = some node) (hnode : node < d.nodes.size)
    (hne : d.find? path ≠ some node) (data : ByteArray) :
    (d'.setNode id (.file data)).contents? other = d.contents? other := by
  obtain ⟨hsame, hid⟩ := node?_of_create hcreate hnode hne
  simp only [contents?, find?_setNode, find?_create_of_ne hcreate hother, hfind, Option.bind_some,
    node?_setNode_of_ne hid, hsame]

end Disk

/-- With the default levels, options are valid if the chunk size is. -/
theorem WriteOptions.validate_chunkSize {chunkSize : UInt64} :
    ({ (default : WriteOptions) with chunkSize } : WriteOptions).validate = .ok () ↔
      1 ≤ chunkSize.toNat ∧ chunkSize.toNat ≤ maxChunkSize := by
  constructor
  · intro hvalid
    exact chunkSize_of_validate hvalid
  · rintro ⟨hpos, hle⟩
    have hzlib : ¬9 < (default : WriteOptions).zlibLevel.toNat := by decide
    have hzstd : ¬((default : WriteOptions).zstdLevel.toInt < 1 ∨
        22 < (default : WriteOptions).zstdLevel.toInt) := by decide
    rw [validate, if_neg (Nat.ne_of_gt hpos), if_neg (Nat.not_lt.2 hle), if_neg hzlib, if_neg hzstd]

namespace Cli

/-! ### Copying -/

section Copying

variable [Compression] {node : Nat} {Rests : Disk → Nat → Trace → Prop}
  {Yields : Disk → List UInt8 → Trace → Prop} {d d' : Disk} {source : Trace} {promise : Nat}

/-- Copying from a source to another file either writes what the source yields, in pieces, or fails,
and then the source yields nothing or the sink fails on something. -/
theorem pumpWithin_of_sourcesOn
    (hsource : SourcesOn (fun count t d => File.readSome count t d)
      (fun t d => t.backend.remaining d) node Rests Yields) (fuel : Nat) :
    ∀ (promise : Nat) (source sink : Trace) (d : Disk), promise < fuel → Rests d promise source →
      WriteRequest.Spares File.perform node sink d →
      (∃ (writes : List ByteArray) (sink' : Trace) (d' : Disk),
        Yields d (WriteRequest.written (writes.map .write)) source ∧
        WriteRequest.runAll File.perform (writes.map .write) sink d = ⟨.ok (), sink', d'⟩ ∧
        pumpWithin fuel source sink d = (.ok (), sink', d')) ∨
      ∃ failure sink' d', pumpWithin fuel source sink d = (.error failure, sink', d') ∧
        ((∀ s, ¬Yields d s source) ∨
          ∃ requests, (WriteRequest.runAll File.perform requests sink d).result ≠ .ok ()) := by
  induction fuel with
  | zero => intro promise source sink d hfuel; omega
  | succ fuel ih =>
      intro promise source sink d hfuel hrests hspares
      have hcount : 0 < copySize := by decide
      rw [pumpWithin]
      obtain ⟨⟨e | bytes, source'⟩, hread⟩ : ∃ answer, source.readSome copySize d = answer := ⟨_, rfl⟩
      · rw [hread]
        exact .inr ⟨_, sink, d, rfl, .inl ((hsource.sources d).failed hrests hcount hread)⟩
      rw [hread]
      dsimp only
      by_cases hsize : bytes.size = 0
      · rw [if_pos (isEmpty_iff.2 hsize)]
        exact .inl ⟨[], sink, d,
          ((hsource.sources d).eq_nil_of_ended hrests hcount hread hsize).2 rfl, rfl, rfl⟩
      rw [if_neg (mt isEmpty_iff.1 hsize)]
      obtain ⟨⟨promise', hpromise, hrests'⟩, hyields, -⟩ :=
        (hsource.sources d).answered hrests hcount hread
      obtain ⟨⟨result, sink₁, d₁⟩, hwrite⟩ : ∃ wrote, sink.write bytes d = wrote := ⟨_, rfl⟩
      rw [hwrite]
      have hperform : sink.perform (.write bytes) d = ⟨result, sink₁, d₁⟩ := hwrite
      cases result with
      | error e =>
          refine .inr ⟨_, sink₁, d₁, rfl, .inr ⟨[.write bytes], ?_⟩⟩
          rw [WriteRequest.runAll_singleton, hperform]
          simp
      | ok =>
          obtain ⟨hsame, hspares₁⟩ := hspares.of_perform (.write bytes) hperform
          rcases ih promise' source' sink₁ d₁ (by omega) (hsource.rests_frame hrests' hsame) hspares₁
            with ⟨writes, sink', d', hrest, hrun, hpump⟩ | ⟨failure, sink', d', hpump, hfailed⟩
          · refine .inl ⟨bytes :: writes, sink', d', ?_, ?_, hpump⟩
            · exact (hyields _).2 ⟨_, rfl, hsource.yields_frame hrest hsame.symm⟩
            · rw [List.map_cons, WriteRequest.runAll, hperform]
              exact hrun
          · refine .inr ⟨failure, sink', d', hpump, ?_⟩
            rcases hfailed with hnone | ⟨requests, hrequests⟩
            · refine .inl fun s hs => ?_
              obtain ⟨rest, -, hrest⟩ := (hyields s).1 hs
              exact hnone rest (hsource.yields_frame hrest hsame)
            · refine .inr ⟨.write bytes :: requests, ?_⟩
              rw [WriteRequest.runAll, hperform]
              exact hrequests

/-! ### Repacking -/

variable {input output : String} {format : Format} {o : WriteOptions} {bytes : List UInt8}

/-- A trace that does not end cleanly is not repacked into another file. -/
theorem repack_of_not_yields (hspares : StreamEncoder.SparesOthers Compression.Encoder)
    (hsource : SourcesOn (fun count t d => File.readSome count t d)
      (fun t d => t.backend.remaining d) node Rests Yields)
    (hrests : Rests d promise source) (hopen : Trace.openForRead input d = .ok (source, d))
    (hnode : node < d.nodes.size) (hne : d.find? output ≠ some node) (hnone : ∀ s, ¬Yields d s source)
    (format : Format) (o : WriteOptions) :
    ∃ failure, (repack input output format o d).1 = .error failure := by
  rw [repack, hopen]
  dsimp only
  cases hsink : Trace.openForWrite output format o d with
  | error e => exact ⟨_, rfl⟩
  | ok opened =>
      obtain ⟨sink, d₁⟩ := opened
      obtain ⟨hsame, hsinkspares⟩ := Trace.spares_of_openForWrite hspares hsink hnode hne
      dsimp only
      rcases pumpWithin_of_sourcesOn hsource _ _ source sink d₁ (Nat.lt_succ_self _)
          (hsource.rests_remaining (hsource.rests_frame hrests hsame)) hsinkspares with
        ⟨writes, _, _, hyields, -⟩ | ⟨failure, sink', d₂, hpump, -⟩
      · exact absurd (hsource.yields_frame hyields hsame.symm) (hnone _)
      · rw [pump, hpump]
        exact ⟨failure, rfl⟩

/-- A session that writes what a source yields, and is flushed in the end. -/
def Repacks (output : String) (format : Format) (o : WriteOptions) (d : Disk) (bytes : List UInt8)
    (d' : Disk) : Prop :=
  ∃ writes : List ByteArray, WriteRequest.written (writes.map .write) = bytes ∧
    File.Records (AnyBackend.ofFormat o format) output d (writes.map .write ++ [.flush]) d'

/-- A trace that is opened for writing does whatever is requested of it. -/
theorem exists_run_of_openForWrite (hlossless : Compression.Lossless) (ho : o.validate = .ok ())
    (hpath : d.Creatable output) {sink : Trace} {d₁ : Disk}
    (hsink : Trace.openForWrite output format o d = .ok (sink, d₁)) (requests : List WriteRequest) :
    ∃ sink' d₂, WriteRequest.runAll File.perform requests sink d₁ = ⟨.ok (), sink', d₂⟩ ∧
      File.Records (AnyBackend.ofFormat o format) output d requests (sink'.release d₂) := by
  obtain ⟨id, d₀, F, -, hrecords, -⟩ := Trace.exists_records hlossless format ho hpath requests
  obtain ⟨sink', d₂, hrun, hrelease⟩ := hrecords.exists_run (Trace.openForWrite_eq_ok.1 hsink)
  exact ⟨sink', d₂, hrun, hrelease ▸ hrecords⟩

/-- What was recorded is found to be of its format, and is drained up to the end of what was
written. -/
theorem drainsTo_of_records (hlossless : Compression.Lossless) (ho : o.validate = .ok ())
    (hpath : d.Creatable output) {requests : List WriteRequest}
    (hrecords : File.Records (AnyBackend.ofFormat o format) output d requests d') :
    Format.detect output d' = some format ∧ ∀ count, 0 < count →
      Trace.DrainsTo output d' count (WriteRequest.written requests) (.ok ()) := by
  obtain ⟨t, d₁, hopen, hround⟩ := Trace.round_trip hlossless format ho hpath requests
  obtain ⟨t', d₂, hrun, hrelease⟩ := hrecords.exists_run (Trace.openForWrite_eq_ok.1 hopen)
  rw [hrun] at hround
  obtain ⟨hdetect, r, hread, -, hdrains, -⟩ := hround.2 d' (.inr hrelease.symm)
  refine ⟨hdetect, fun count hcount => ?_⟩
  obtain ⟨r', hdrained⟩ := hdrains count hcount
  exact ⟨r, r', hread, hdrained⟩

/-- What repacking a trace that was opened comes to, if the other file can be written. -/
theorem repack_of_sourcesOn (hlossless : Compression.Lossless)
    (hspares : StreamEncoder.SparesOthers Compression.Encoder)
    (hsource : SourcesOn (fun count t d => File.readSome count t d)
      (fun t d => t.backend.remaining d) node Rests Yields)
    (hrests : Rests d promise source) (hopen : Trace.openForRead input d = .ok (source, d))
    (hnode : node < d.nodes.size) (hne : d.find? output ≠ some node) (ho : o.validate = .ok ())
    (hpath : d.Creatable output) :
    (∃ bytes d', Yields d bytes source ∧ repack input output format o d = (.ok (), d') ∧
      Repacks output format o d bytes d') ∨
    (∃ failure, (repack input output format o d).1 = .error failure) ∧ ∀ s, ¬Yields d s source := by
  obtain ⟨sink, d₁, hsink, -⟩ := Trace.round_trip hlossless format ho hpath []
  have htakes := exists_run_of_openForWrite hlossless ho hpath hsink
  obtain ⟨hsame, hsinkspares⟩ := Trace.spares_of_openForWrite hspares hsink hnode hne
  rcases pumpWithin_of_sourcesOn hsource _ _ source sink d₁ (Nat.lt_succ_self _)
      (hsource.rests_remaining (hsource.rests_frame hrests hsame)) hsinkspares with
    ⟨writes, sink', d₂, hyields, hrun, hpump⟩ | ⟨failure, sink', d₂, hpump, hfailed⟩
  · obtain ⟨sink'', d₃, hflush, hrecords⟩ := htakes (writes.map .write ++ [.flush])
    rw [WriteRequest.runAll_append hrun, WriteRequest.runAll_singleton] at hflush
    refine .inl ⟨_, _, hsource.yields_frame hyields hsame.symm, ?_, writes, rfl, hrecords⟩
    rw [repack, hopen]
    dsimp only
    rw [hsink]
    dsimp only
    rw [pump, hpump]
    dsimp only
    rw [show sink'.flush d₂ = _ from hflush]
  · refine .inr ⟨⟨failure, ?_⟩, fun s hs => ?_⟩
    · rw [repack, hopen]
      dsimp only
      rw [hsink]
      dsimp only
      rw [pump, hpump]
    · rcases hfailed with hnone | ⟨requests, hrequests⟩
      · exact hnone s (hsource.yields_frame hs hsame)
      · obtain ⟨_, _, htaken, -⟩ := htakes requests
        rw [htaken] at hrequests
        exact hrequests rfl

/-- What is left by repacking: a trace of the format asked for, with the bytes that were read, cut
into chunks of the size asked for. -/
theorem Repacks.leaves (h : Repacks output format o d bytes d') (hlossless : Compression.Lossless)
    (ho : o.validate = .ok ()) (hpath : d.Creatable output) :
    Format.detect output d' = some format ∧
    (∀ count, 0 < count → Trace.DrainsTo output d' count bytes (.ok ())) ∧
    (∀ c, format.codec? = some c → ∃ (F : ByteArray) (chunks : List (Chunk c)),
      d'.contents? output = some F ∧
      F.data.toList = c.magicBytes.data.toList ++ Chunk.frames chunks ∧
      chunks.map (·.data.data.toList) = cut o.chunkSize.toNat bytes) ∧
    ∀ path node, path ≠ output → d.find? path = some node → node < d.nodes.size →
      d.find? output ≠ some node → d'.contents? path = d.contents? path := by
  obtain ⟨writes, rfl, hrecords⟩ := h
  have hwritten : WriteRequest.written (writes.map .write ++ [.flush]) =
      WriteRequest.written (writes.map .write) := by
    simp [WriteRequest.bytes]
  obtain ⟨hdetect, hdrains⟩ := drainsTo_of_records hlossless ho hpath hrecords
  rw [hwritten] at hdrains
  obtain ⟨id, d₀, F, hcreate, hstored, hchunks⟩ :=
    Trace.exists_records hlossless format ho hpath (writes.map .write ++ [.flush])
  obtain rfl := hrecords.unique hstored
  refine ⟨hdetect, hdrains, fun c hc => ?_, fun path node hother hfind hnode hne => ?_⟩
  · obtain ⟨chunks, hF, hpieces⟩ := hchunks c hc
    rw [WriteRequest.pieces_writes] at hpieces
    refine ⟨F, chunks, Disk.contents?_setNode (Disk.find?_create hcreate) ?_, hF, hpieces⟩
    obtain ⟨_, _, hcreate', hempty⟩ := hpath
    obtain ⟨rfl, rfl⟩ := Prod.mk.inj (Except.ok.inj (hcreate'.symm.trans hcreate))
    exact (Array.getElem?_eq_some_iff.1 hempty).1
  · exact Disk.contents?_of_create hcreate hother hfind hnode hne F

end Copying

section

variable [Compression.ForGzip] {args : List String} {input output : String} {format : Format}
  {chunkSize : UInt64} {o : WriteOptions} {d d' : Disk}

/-- If the source or the other file is not opened, nothing on the disk is touched. -/
theorem repack_of_not_opened
    (h : (∃ e, Trace.openForRead input d = .error e) ∨
      ∀ opened, Trace.openForWrite output format o d ≠ .ok opened) :
    ∃ failure, repack input output format o d = (.error failure, d) := by
  rw [repack]
  cases hopen : Trace.openForRead input d with
  | error e => exact ⟨_, rfl⟩
  | ok opened =>
      obtain ⟨source, d₁⟩ := opened
      obtain ⟨rfl, -⟩ := Trace.exists_sourcesOn hopen
      dsimp only
      cases hsink : Trace.openForWrite output format o d₁ with
      | error e => exact ⟨_, rfl⟩
      | ok sunk =>
          rcases h with ⟨e, hclosed⟩ | hclosed
          · rw [hopen] at hclosed
            cases hclosed
          · exact absurd hsink (hclosed sunk)

/-- If the source is not opened, or the options are not valid, nothing on the disk is touched. -/
theorem repack_refused
    (h : (∃ e, Trace.openForRead input d = .error e) ∨ o.validate ≠ .ok ()) (output : String)
    (format : Format) : ∃ failure, repack input output format o d = (.error failure, d) :=
  repack_of_not_opened (h.imp_right fun hinvalid _ hsink =>
    hinvalid (Trace.create_of_openForWrite hsink).1)

theorem run_of_repack (hargs : Request.parse args = some (.repack input output format chunkSize))
    {result : Except Failure Unit}
    (hrepack : repack input output format { (default : WriteOptions) with chunkSize } d =
      (result, d')) :
    (run args d).2 = d' ∧ ((run args d).1.code = 0 ↔ result = .ok ()) ∧
      ((run args d).1.code = 1 ↔ result ≠ .ok ()) := by
  rw [run, hargs]
  simp only [Request.run, hrepack]
  cases result <;> simp [Exit.code]

/-- A trace that is drained up to a clean end is repacked, if the other file can be written. -/
theorem repack_of_drainsTo (hlossless : Compression.Lossless)
    (hspares : StreamEncoder.SparesOthers Compression.Encoder)
    (hdiffer : ∀ node, d.find? input = some node → d.find? output ≠ some node)
    (ho : o.validate = .ok ()) (hpath : d.Creatable output) {count : Nat} {bytes : List UInt8}
    (hcount : 0 < count) (hdrains : Trace.DrainsTo input d count bytes (.ok ())) (format : Format) :
    ∃ d', repack input output format o d = (.ok (), d') ∧ Repacks output format o d bytes d' := by
  obtain ⟨source, source', hopen, hdrained⟩ := hdrains
  obtain ⟨-, node, data, Rests, Yields, promise, hlookup, hfile, hsource, hrests⟩ :=
    Trace.exists_sourcesOn hopen
  rcases repack_of_sourcesOn hlossless hspares hsource hrests hopen
      (Array.getElem?_eq_some_iff.1 hfile).1 (hdiffer node (Disk.find?_of_lookup hlookup)) ho hpath with
    ⟨bytes', d', hyields, hrepack, hrepacks⟩ | ⟨-, hnone⟩
  · obtain ⟨_, hdrained'⟩ := (hsource.sources d).drains hcount hrests hyields
    obtain ⟨rfl, -⟩ := hdrained.unique hdrained'
    exact ⟨d', hrepack, hrepacks⟩
  · exact absurd ((hsource.sources d).yields_of_drains hcount hrests hdrained) (hnone bytes)

/-- What was repacked was drained up to a clean end, and written to a file that was created with
valid options. -/
theorem drainsTo_of_repack (hlossless : Compression.Lossless)
    (hspares : StreamEncoder.SparesOthers Compression.Encoder)
    (hdiffer : ∀ node, d.find? input = some node → d.find? output ≠ some node)
    (hpath : d.NoDevice output) (hrepack : repack input output format o d = (.ok (), d')) :
    (∃ count bytes, 0 < count ∧ Trace.DrainsTo input d count bytes (.ok ())) ∧
      o.validate = .ok () ∧ d.Creatable output := by
  cases hopen : Trace.openForRead input d with
  | error e =>
      obtain ⟨failure, hfailed⟩ := repack_refused (o := o) (.inl ⟨e, hopen⟩) output format
      rw [hfailed] at hrepack
      cases hrepack
  | ok opened =>
      obtain ⟨source, d₁⟩ := opened
      obtain ⟨rfl, node, data, Rests, Yields, promise, hlookup, hfile, hsource, hrests⟩ :=
        Trace.exists_sourcesOn hopen
      cases hsink : Trace.openForWrite output format o d₁ with
      | error e =>
          rw [repack, hopen] at hrepack
          dsimp only at hrepack
          rw [hsink] at hrepack
          cases hrepack
      | ok sunk =>
          obtain ⟨ho, id, d₀, hcreate⟩ := Trace.create_of_openForWrite hsink
          have hcreatable := Disk.creatable_of_create hpath hcreate
          rcases repack_of_sourcesOn hlossless hspares hsource hrests hopen
              (Array.getElem?_eq_some_iff.1 hfile).1 (hdiffer node (Disk.find?_of_lookup hlookup)) ho
              hcreatable with
            ⟨bytes, _, hyields, -⟩ | ⟨⟨failure, hfailed⟩, -⟩
          · obtain ⟨source', hdrained⟩ := (hsource.sources d₁).drains Nat.one_pos hrests hyields
            exact ⟨⟨1, bytes, Nat.one_pos, source, source', hopen, hdrained⟩, ho, hcreatable⟩
          · rw [hrepack] at hfailed
            cases hfailed

/-- Repacking a trace into another file succeeds iff the trace is opened and drained up to a clean
end, the chunk size is in range, and the other file can be created. That file is then of the format
asked for and is drained of the same bytes, which lie in chunks of the size asked for if it has
chunks, and the file that was repacked is as it was. If the trace is not opened, or the chunk size
is out of range, the command fails and nothing on the disk changes. -/
theorem repack_preserves (hlossless : Compression.Lossless)
    (hspares : StreamEncoder.SparesOthers Compression.Encoder)
    (hargs : Request.parse args = some (.repack input output format chunkSize))
    (hdiffer : ∀ node, d.find? input = some node → d.find? output ≠ some node)
    (hpath : d.NoDevice output) :
    let code := (run args d).1.code
    let d' := (run args d).2
    (code = 0 ↔
      (∃ count bytes, 0 < count ∧ Trace.DrainsTo input d count bytes (.ok ())) ∧
      (1 ≤ chunkSize.toNat ∧ chunkSize.toNat ≤ maxChunkSize) ∧ d.Creatable output) ∧
    (code = 0 → ∀ count bytes, 0 < count → Trace.DrainsTo input d count bytes (.ok ()) →
      Format.detect output d' = some format ∧
      (∀ count', 0 < count' → Trace.DrainsTo output d' count' bytes (.ok ())) ∧
      (∀ c, format.codec? = some c → ∃ (F : ByteArray) (chunks : List (Chunk c)),
        d'.contents? output = some F ∧
        F.data.toList = c.magicBytes.data.toList ++ Chunk.frames chunks ∧
        chunks.map (·.data.data.toList) = cut chunkSize.toNat bytes) ∧
      d'.contents? input = d.contents? input) ∧
    ((∃ e, Trace.openForRead input d = .error e) ∨
        ¬(1 ≤ chunkSize.toNat ∧ chunkSize.toNat ≤ maxChunkSize) →
      code = 1 ∧ d' = d) := by
  intro code d'
  obtain ⟨⟨result, d₁⟩, hrepack⟩ : ∃ repacked,
    repack input output format { (default : WriteOptions) with chunkSize } d = repacked := ⟨_, rfl⟩
  obtain ⟨hd', hdone, hfailed⟩ := run_of_repack hargs hrepack
  replace hd' : d' = d₁ := hd'
  clear_value d'
  subst hd'
  refine ⟨?_, fun hcode count bytes hcount hdrains => ?_, fun hrefused => ?_⟩
  · rw [show code = 0 ↔ _ from hdone, ← WriteOptions.validate_chunkSize]
    constructor
    · rintro rfl
      exact drainsTo_of_repack hlossless hspares hdiffer hpath hrepack
    · rintro ⟨⟨count, bytes, hcount, hdrains⟩, ho, hcreatable⟩
      obtain ⟨_, hrepack', -⟩ := repack_of_drainsTo hlossless hspares hdiffer ho hcreatable hcount
        hdrains format
      exact congrArg Prod.fst (hrepack.symm.trans hrepack')
  · obtain rfl := hdone.1 hcode
    obtain ⟨-, ho, hcreatable⟩ := drainsTo_of_repack hlossless hspares hdiffer hpath hrepack
    obtain ⟨_, hrepack', hrepacks⟩ := repack_of_drainsTo hlossless hspares hdiffer ho hcreatable
      hcount hdrains format
    obtain ⟨-, rfl⟩ := Prod.mk.inj (hrepack.symm.trans hrepack')
    obtain ⟨hdetect, hdrained, hchunks, hothers⟩ := hrepacks.leaves hlossless ho hcreatable
    refine ⟨hdetect, hdrained, hchunks, ?_⟩
    obtain ⟨source, _, hopen, -⟩ := hdrains
    obtain ⟨-, node, data, _, _, _, hlookup, hfile, -⟩ := Trace.exists_sourcesOn hopen
    have hfind := Disk.find?_of_lookup hlookup
    refine hothers input node ?_ hfind (Array.getElem?_eq_some_iff.1 hfile).1 (hdiffer node hfind)
    rintro rfl
    exact hdiffer node hfind hfind
  · obtain ⟨failure, hrepack'⟩ := repack_refused
      (hrefused.imp_right (mt WriteOptions.validate_chunkSize.1)) output format
    obtain ⟨rfl, rfl⟩ := Prod.mk.inj (hrepack.symm.trans hrepack')
    exact ⟨hfailed.2 (by simp), rfl⟩

end

/-- A snappy trace of five bytes in three chunks. -/
def fiveBytes : Disk := ⟨[("a", 0)], #[.file ⟨#[0x61, 0x74, 4, 0, 0, 0, 2, 4, 7, 8,
  3, 0, 0, 0, 1, 0, 9, 4, 0, 0, 0, 2, 4, 5, 6]⟩]⟩

theorem drainsTo_fiveBytes {count : Nat} (hcount : 0 < count) :
    @Trace.DrainsTo Compression.stored "a" fiveBytes count [7, 8, 9, 5, 6] (.ok ()) := by
  obtain ⟨chunks, hframes, hdecoded⟩ : ∃ chunks : List (Chunk Snappy.codec),
      Chunk.frames chunks = [4, 0, 0, 0, 2, 4, 7, 8, 3, 0, 0, 0, 1, 0, 9, 4, 0, 0, 0, 2, 4, 5, 6] ∧
        Chunk.decoded chunks = [7, 8, 9, 5, 6] :=
    ⟨[⟨⟨#[2, 4, 7, 8]⟩, ⟨#[7, 8]⟩, by decide, by decide, rfl⟩,
      ⟨⟨#[1, 0, 9]⟩, ⟨#[9]⟩, by decide, by decide, rfl⟩,
      ⟨⟨#[2, 4, 5, 6]⟩, ⟨#[5, 6]⟩, by decide, by decide, rfl⟩], rfl, rfl⟩
  have hdrains := @Trace.drainsTo_of_chunks Compression.stored fiveBytes "a" .snappy Snappy.codec
    rfl _ rfl chunks (by rw [hframes]; rfl) count hcount
  rwa [hdecoded] at hdrains

/-- Five bytes in three chunks are repacked into chunks of two. -/
theorem repack_preserves_five_bytes :
    let args := ["repack", "a", "b", "--format", "zstd", "--chunk-size", "2"]
    let ran := @run Compression.stored args fiveBytes
    ran.1.code = 0 ∧ Format.detect "b" ran.2 = some .zstd ∧
      (∀ count, 0 < count →
        @Trace.DrainsTo Compression.stored "b" ran.2 count [7, 8, 9, 5, 6] (.ok ())) ∧
      (∃ (F : ByteArray) (chunks : List (Chunk Zstd.codec)), ran.2.contents? "b" = some F ∧
        F.data.toList = Zstd.codec.magicBytes.data.toList ++ Chunk.frames chunks ∧
        chunks.map (·.data.data.toList) = [[7, 8], [9, 5], [6]]) ∧
      ran.2.contents? "a" = fiveBytes.contents? "a" := by
  intro args ran
  have hdrains : @Trace.DrainsTo Compression.stored "a" fiveBytes 9 [7, 8, 9, 5, 6] (.ok ()) :=
    drainsTo_fiveBytes (by decide)
  have hpath : fiveBytes.NoDevice "b" := by
    intro id hfind
    cases hfind
  have hdiffer : ∀ node, fiveBytes.find? "a" = some node → fiveBytes.find? "b" ≠ some node := by
    intro node _ hfind
    cases hfind
  obtain ⟨hcode, hleft, -⟩ := @repack_preserves .stored args "a" "b" .zstd 2 fiveBytes
    Compression.stored_lossless Gzip.Encoder.writesMembers.spares (by decide) hdiffer hpath
  have hdone : ran.1.code = 0 := hcode.2 ⟨⟨9, _, by decide, hdrains⟩, by decide, 1, _, rfl, rfl⟩
  obtain ⟨hdetect, hdrained, hchunks, hsame⟩ := hleft hdone 9 _ (by decide) hdrains
  have hcut : cut (UInt64.toNat 2) [7, 8, 9, 5, 6] = [[7, 8], [9, 5], [6]] := by decide +kernel
  rw [← hcut]
  exact ⟨hdone, hdetect, hdrained, hchunks Zstd.codec rfl, hsame⟩

end Cli
end TraceStore
