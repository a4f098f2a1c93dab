import TraceStore.Proofs.Chunk.Grammar
import TraceStore.Proofs.Chunk.Trail
import TraceStore.Proofs.Gzip.AnyFile
import TraceStore.Proofs.Source
import TraceStore.Proofs.Trace

/-!
# Traces on any file

Every trace that is opened, whatever file it is on, is a source: it is told beforehand which stream
it delivers before it ends cleanly, if it does, and how many bytes it delivers at most:
`Trace.exists_sourcesOn`.
-/
namespace TraceStore

/-! ### Single streams -/

/-- Readers of single streams are sources if their decoders are. -/
theorem StreamReader.sourcesOn {δ : Type} [StreamDecoder δ] {node : Nat}
    {Rests : Disk → Nat → δ → Prop} {Yields : Disk → List UInt8 → δ → Prop}
    (h : SourcesOn StreamDecoder.read StreamDecoder.remaining node Rests Yields) :
    SourcesOn readSome (fun r d => StreamDecoder.remaining r.decoder d) node
      (fun d promise (r : StreamReader δ) => r.tail ≠ .failed ∧ Rests d promise r.decoder)
      (fun d s r => r.tail ≠ .failed ∧ Yields d s r.decoder) where
  sources d := by
    constructor
    · rintro promise count r r' e ⟨htail, hr⟩ hcount hanswer s ⟨-, hs⟩
      rw [readSome, if_neg (by omega), if_neg htail] at hanswer
      split at hanswer
      case h_1 hread => exact (h.sources d).failed hr hcount hread s hs
      case h_2 => cases hanswer
    · rintro promise count r r' bytes ⟨htail, hr⟩ hcount hanswer
      rw [readSome, if_neg (by omega), if_neg htail] at hanswer
      split at hanswer
      case h_1 => cases hanswer
      case h_2 bytes' decoder hread =>
        obtain ⟨hbytes, rfl⟩ := Prod.mk.inj hanswer
        obtain rfl := Except.ok.inj hbytes
        obtain ⟨⟨promise', hpromise, hr'⟩, hsplit, hended⟩ := (h.sources d).answered hr hcount hread
        have htail' : (if bytes'.isEmpty then Tail.clean else r.tail) ≠ .failed := by
          split
          · simp
          · exact htail
        simp only [htail, htail', ne_eq, not_false_eq_true, true_and]
        exact ⟨⟨promise', hpromise, hr'⟩, hsplit, hended⟩
  rests_frame h' hsame := ⟨h'.1, h.rests_frame h'.2 hsame⟩
  yields_frame h' hsame := ⟨h'.1, h.yields_frame h'.2 hsame⟩
  rests_remaining h' := ⟨h'.1, h.rests_remaining h'.2⟩

/-! ### Chunked files -/

namespace Chunk

variable {σ : Type} {c : Codec σ}

/-- Chunks that take so many bytes of a file decode to so many bytes at most. -/
theorem length_decoded_le (hc : c.Bounded) (chunks : List (Chunk c)) :
    (decoded chunks).length ≤ maxChunkSize * (frames chunks).length := by
  induction chunks with
  | nil => exact Nat.le_refl 0
  | cons chunk chunks ih =>
      have hle := hc chunk.decompress_eq
      rw [decoded_cons, frames_cons, List.length_append, List.length_append, length_toList,
        length_frame, chunkHeaderSize]
      calc chunk.data.size + (decoded chunks).length
          ≤ maxChunkSize * 1 + maxChunkSize * (frames chunks).length := by omega
        _ = maxChunkSize * (1 + (frames chunks).length) := (Nat.mul_add ..).symm
        _ ≤ _ := Nat.mul_le_mul_left _ (by omega)

end Chunk

namespace ChunkReader

variable {σ : Type} {c : Codec σ} {d : Disk} {s : List UInt8} {r : ChunkReader}

/-- Other nodes can be changed at will. -/
theorem Streams.frame {d' : Disk} {ending : Except Error Unit} (h : r.Streams c d s ending)
    (hsame : d'.node? r.source.node = d.node? r.source.node) : r.Streams c d' s ending := by
  obtain ⟨hparked, chunks, tail, hahead, hrest⟩ := h
  exact ⟨hparked, chunks, tail, hahead.frame hsame, hrest⟩

/-- A reader can tell how many bytes it delivers at most. -/
theorem Streams.length_le {ending : Except Error Unit} (h : r.Streams c d s ending)
    (hc : c.Bounded) : s.length ≤ r.available + maxChunkSize * r.source.unread d := by
  obtain ⟨-, chunks, tail, hahead, -, rfl⟩ := h
  have hdecoded := Chunk.length_decoded_le hc chunks
  have hle : (Chunk.frames chunks).length ≤ r.source.unread d := by
    rw [hahead.unread_eq, List.length_append]
    exact Nat.le_add_right ..
  rw [List.length_append, List.length_drop, length_toList, available]
  exact Nat.add_le_add_left (Nat.le_trans hdecoded (Nat.mul_le_mul_left _ hle)) _

/-- Readers of a chunked file are sources, whatever their streams end in. -/
theorem sourcesOn (hc : c.Bounded) (node : Nat) :
    SourcesOn (readSome c) (fun r d => r.available + maxChunkSize * r.source.unread d) node
      (fun d promise r => r.source.node = node ∧
        ∃ s ending, r.Streams c d s ending ∧ s.length ≤ promise)
      (fun d s r => r.source.node = node ∧ r.Streams c d s (.ok ())) where
  sources d := by
    constructor
    · rintro promise count r r' e - hcount hanswer s ⟨-, hs⟩
      obtain ⟨_, _, _, hread, -⟩ := Streams.readSome_step s r hs count hcount
      cases hanswer.symm.trans hread
    · rintro promise count r r' bytes ⟨hnode, s, ending, h, hle⟩ hcount hanswer
      have hnode' : r'.source.node = node := by
        have hsame := ((kept_sameFile c d r).readSome (.refl r) count).node_eq
        rwa [hanswer, hnode] at hsame
      simp only [hnode, hnode', true_and]
      by_cases hs : s = []
      · subst hs
        obtain ⟨r₁, hread, hkeep⟩ := h.readSome_of_nil hcount
        obtain ⟨hbytes, rfl⟩ := Prod.mk.inj (hread.symm.trans hanswer)
        cases ending with
        | error e => cases hbytes
        | ok =>
            obtain rfl := Except.ok.inj hbytes
            have hnil : ∀ {r : ChunkReader}, r.Streams c d [] (.ok ()) →
                ∀ t, r.Streams c d t (.ok ()) ↔ t = [] :=
              fun hr t => ⟨fun ht => (ht.unique hr).1, fun ht => ht ▸ hr⟩
            refine ⟨⟨0, Nat.zero_le _, [], _, hkeep rfl, Nat.le_refl 0⟩, fun t => ?_,
              fun _ => hnil (hkeep rfl)⟩
            simp [hnil h, hnil (hkeep rfl)]
      · obtain ⟨piece, r₁, rest, hread, rfl, hpos, -, hrest⟩ := h.readSome_of_ne_nil hs hcount
        obtain ⟨hbytes, rfl⟩ := Prod.mk.inj (hread.symm.trans hanswer)
        obtain rfl := Except.ok.inj hbytes
        rw [List.length_append, length_toList] at hle
        refine ⟨⟨rest.length, hle, rest, ending, hrest, Nat.le_refl _⟩, fun t => ⟨fun ht => ?_, ?_⟩,
          fun hsize => absurd hsize (Nat.ne_of_gt hpos)⟩
        · obtain ⟨rfl, rfl⟩ := ht.unique h
          exact ⟨rest, rfl, hrest⟩
        · rintro ⟨rest', rfl, hrest'⟩
          obtain ⟨rfl, rfl⟩ := hrest'.unique hrest
          exact h
  rests_frame := by
    rintro d d' promise r ⟨rfl, s, ending, h, hle⟩ hsame
    exact ⟨rfl, s, ending, h.frame hsame, hle⟩
  yields_frame := by
    rintro d d' s r ⟨rfl, h⟩ hsame
    exact ⟨rfl, h.frame hsame⟩
  rests_remaining := by
    rintro d promise r ⟨hnode, s, ending, h, -⟩
    exact ⟨hnode, s, ending, h, h.length_le hc⟩

end ChunkReader

/-! ### Traces -/

/-- What has a format is a file that starts with the magic of that. -/
theorem Format.contents_of_detect {format : Format} {d : Disk} {path : String}
    (h : Format.detect path d = some format) :
    ∃ F, d.contents? path = some F ∧ [format.magic.1, format.magic.2] <+: F.data.toList := by
  have hhead : (headOf path d).data.toList = [format.magic.1, format.magic.2] := by
    have hmatches := List.find?_some h
    exact beq_iff_eq.1 hmatches
  rw [headOf] at hhead
  cases hlookup : d.lookup path with
  | error cause =>
      rw [hlookup] at hhead
      cases hhead
  | ok node =>
      have hfind := Disk.find?_of_lookup hlookup
      simp only [hlookup, Disk.readAt, Nat.zero_add] at hhead
      split at hhead
      case h_1 F hnode =>
        refine ⟨F, ?_, ?_⟩
        · simp only [Disk.contents?, hfind, Option.bind_some, hnode]
        · have htake : F.data.toList.take 2 = [format.magic.1, format.magic.2] := by
            rw [← hhead]
            simp [Except.toOption]
          exact htake ▸ List.take_prefix ..
      case h_2 => cases hhead
      case h_3 =>
        -- A device that delivers zeros has the magic of no format.
        cases format <;> cases hhead
      case h_4 => cases hhead

section

variable [Compression] {d : Disk} {path : String}

/-- The trace that has a reader of a chunked file open. -/
abbrev ChunkReader.trace (path : String) (c : Codec Compression.Memory) (r : ChunkReader) : Trace :=
  (r.handle path (.new c Compression.fresh default)).map AnyBackend.chunked

/-- The trace that has a reader of a gzip file open. -/
abbrev StreamReader.trace (path : String) (r : StreamReader Compression.Decoder) : Trace :=
  (r.handle path default : File GzipBackend).map AnyBackend.gzip

theorem ChunkReader.readSome_trace (c : Codec Compression.Memory) (count : Nat) (r : ChunkReader) :
    (r.trace path c).readSome count d = (r.readSome c count d).map id (trace path c) := by
  rw [trace, File.readSome_map AnyBackend.embeds_chunked, ChunkReader.readSome_handle]
  rfl

theorem StreamReader.readSome_trace (count : Nat) (r : StreamReader Compression.Decoder) :
    (r.trace path).readSome count d = (r.readSome count d).map id (trace path) := by
  rw [trace, File.readSome_map AnyBackend.embeds_gzip, StreamReader.readSome_handle]
  rfl

/-- Whether a trace is opened and drained with requests for some number of bytes, and what comes of
that. -/
def Trace.DrainsTo (path : String) (d : Disk) (count : Nat) (bytes : List UInt8)
    (ending : Except Error Unit) : Prop :=
  ∃ t t', openForRead path d = .ok (t, d) ∧ Drains (fun t => t.readSome count d) t bytes ending t'

/-- Draining a trace has one outcome. -/
theorem Trace.DrainsTo.unique {count : Nat} {bytes bytes' : List UInt8}
    {ending ending' : Except Error Unit} (h : DrainsTo path d count bytes ending)
    (h' : DrainsTo path d count bytes' ending') : bytes = bytes' ∧ ending = ending' := by
  obtain ⟨t, _, hopen, hdrains⟩ := h
  obtain ⟨_, _, hopen', hdrains'⟩ := h'
  obtain ⟨rfl, -⟩ := Prod.mk.inj (Except.ok.inj (hopen.symm.trans hopen'))
  obtain ⟨hbytes, hending, -⟩ := hdrains.unique hdrains'
  exact ⟨hbytes, hending⟩

/-- A chunked file is opened and delivers what its chunks decode to. -/
theorem Trace.openForRead_of_chunks {format : Format} {c : Codec Compression.Memory}
    (hcodec : format.codec? = some c) {F : ByteArray} (hF : d.contents? path = some F)
    {chunks : List (Chunk c)} {tail : List UInt8} {ending : Except Error Unit}
    (hends : Ends c tail ending)
    (hchunks : F.data.toList = c.magicBytes.data.toList ++ (Chunk.frames chunks ++ tail)) :
    ∃ r, ChunkReader.open c path d = .ok r ∧ openForRead path d = .ok (r.trace path c, d) ∧
      r.Streams c d (Chunk.decoded chunks) ending := by
  obtain ⟨r, hr, hstreams⟩ := ChunkReader.streams_of_open hF chunks hends hchunks
  have hnew := Chunked.open_new_read c Compression.fresh default path d
  rw [hr] at hnew
  have hmagic : [format.magic.1, format.magic.2] <+: F.data.toList := by
    rw [hchunks, ← Format.magic_of_codec? hcodec]
    exact List.prefix_append _ _
  exact ⟨r, hr, openForRead_of_magic AnyBackend.embeds_chunked
    (by rw [AnyBackend.ofFormat, hcodec]) hF hmagic hnew, hstreams⟩

theorem Trace.drainsTo_of_chunks {format : Format} {c : Codec Compression.Memory}
    (hcodec : format.codec? = some c) {F : ByteArray} (hF : d.contents? path = some F)
    (chunks : List (Chunk c))
    (hchunks : F.data.toList = c.magicBytes.data.toList ++ Chunk.frames chunks) (count : Nat)
    (hcount : 0 < count) : DrainsTo path d count (Chunk.decoded chunks) (.ok ()) := by
  obtain ⟨r, -, hopen, hstreams⟩ := openForRead_of_chunks hcodec hF .clean
    (by rwa [List.append_nil])
  obtain ⟨r', hdrains⟩ := hstreams.drains hcount
  exact ⟨_, _, hopen, hdrains.map (ChunkReader.trace path c) (ChunkReader.readSome_trace c count)⟩

/-- A chunked file that is drained up to a clean end is chunks only, and what is drained is what they
decode to. -/
theorem Trace.exists_chunks_of_drainsTo {format : Format} {c : Codec Compression.Memory}
    (hcodec : format.codec? = some c) (hdetect : Format.detect path d = some format)
    {F : ByteArray} (hF : d.contents? path = some F) {count : Nat} (hcount : 0 < count)
    {bytes : List UInt8} (h : DrainsTo path d count bytes (.ok ())) :
    ∃ chunks : List (Chunk c), F.data.toList = c.magicBytes.data.toList ++ Chunk.frames chunks ∧
      bytes = Chunk.decoded chunks := by
  obtain ⟨_, hF', body, hbody⟩ := Format.contents_of_detect hdetect
  obtain rfl := Option.some.inj (hF.symm.trans hF')
  obtain ⟨chunks, tail, ending, rfl, hends⟩ := exists_chunks c body
  have hchunks : F.data.toList = c.magicBytes.data.toList ++ (Chunk.frames chunks ++ tail) := by
    rw [← hbody, ← Format.magic_of_codec? hcodec]
    rfl
  obtain ⟨r, -, hopen, hstreams⟩ := openForRead_of_chunks hcodec hF hends hchunks
  obtain ⟨r', hdrains⟩ := hstreams.drains hcount
  obtain ⟨rfl, rfl⟩ := h.unique
    ⟨_, _, hopen, hdrains.map (ChunkReader.trace path c) (ChunkReader.readSome_trace c count)⟩
  obtain rfl := hends.eq_nil
  exact ⟨chunks, by rwa [List.append_nil] at hchunks, rfl⟩

end

/-- A trace that is opened is on a file, and its disk is left as it was. It has a reader open that the
format of the file asks for. -/
theorem Trace.openForRead_cases [Compression.ForGzip] {d d' : Disk} {path : String} {t : Trace}
    (hopen : openForRead path d = .ok (t, d')) :
    d' = d ∧ ∃ node F format, d.lookup path = .ok node ∧ d.contents? path = some F ∧
      d.node? node = some (.file F) ∧ Format.detect path d = some format ∧
      ((∃ c r, format.codec? = some c ∧ ChunkReader.open c path d = .ok r ∧ t = r.trace path c ∧
          ∃ s ending, r.Streams c d s ending) ∨
        format = .zlib ∧
          t = StreamReader.trace path ⟨Gzip.Decoder.start node d, F.size, .pending⟩) := by
  cases hdetect : Format.detect path d with
  | none =>
      rw [openForRead, hdetect] at hopen
      cases hopen
  | some format =>
      obtain ⟨F, hF, hmagic⟩ := Format.contents_of_detect hdetect
      obtain ⟨node, hlookup, hnode⟩ := Disk.lookup_of_contents hF
      cases hcodec : format.codec? with
      | some c =>
          obtain ⟨body, hbody⟩ := hmagic
          obtain ⟨chunks, tail, ending, rfl, hends⟩ := exists_chunks c body
          obtain ⟨r, hr, htrace, hstreams⟩ := openForRead_of_chunks hcodec hF hends
            (by rw [← hbody, ← Format.magic_of_codec? hcodec]; rfl)
          obtain ⟨rfl, rfl⟩ := Prod.mk.inj (Except.ok.inj (htrace.symm.trans hopen))
          exact ⟨rfl, node, F, format, hlookup, hF, hnode, rfl,
            .inl ⟨c, r, hcodec, hr, rfl, _, _, hstreams⟩⟩
      | none =>
          obtain rfl := Format.eq_zlib_of_codec? hcodec
          have hnew := Streamed.open_new_read (δ := Gzip.Decoder) (ε := Compression.Encoder) default
            hlookup hnode
          have htrace := openForRead_of_magic AnyBackend.embeds_gzip rfl hF hmagic hnew
          obtain ⟨rfl, rfl⟩ := Prod.mk.inj (Except.ok.inj (htrace.symm.trans hopen))
          exact ⟨rfl, node, F, .zlib, hlookup, hF, hnode, rfl, .inr ⟨rfl, rfl⟩⟩

/-- A trace that is opened is on a file and left on the same disk, and is a source. -/
theorem Trace.exists_sourcesOn [Compression.ForGzip] {d d' : Disk} {path : String} {t : Trace}
    (hopen : openForRead path d = .ok (t, d')) :
    d' = d ∧ ∃ node data Rests Yields promise, d.lookup path = .ok node ∧
      d.node? node = some (.file data) ∧
      SourcesOn (fun count t d => File.readSome count t d) (fun t d => t.backend.remaining d) node
        Rests Yields ∧ Rests d promise t := by
  obtain ⟨rfl, node, F, format, hlookup, hF, hnode, -, ⟨c, r, hcodec, hr, rfl, s, ending, hstreams⟩ |
    ⟨rfl, rfl⟩⟩ := openForRead_cases hopen
  · have hsource := (ChunkReader.source_of_open hF hr).1
    rw [hlookup] at hsource
    refine ⟨rfl, node, F, _, _, s.length, hlookup, hnode,
      (ChunkReader.sourcesOn (Format.bounded_of_codec? hcodec) node).map
        (g := ChunkReader.trace path c) ?_ ?_ ?_, r, rfl, (Except.ok.inj hsource).symm, s, ending,
      hstreams, Nat.le_refl _⟩
    · intro r r' heq
      cases heq
      rfl
    · exact fun count r d => ChunkReader.readSome_trace c count r
    · exact fun r d => rfl
  · refine ⟨rfl, node, F, _, _, _, hlookup, hnode,
      (StreamReader.sourcesOn (Gzip.Decoder.sourcesOn node)).map
        (g := StreamReader.trace path) ?_ ?_ ?_, _, rfl, by simp, Gzip.Decoder.rests_start hnode⟩
    · intro r r' heq
      cases heq
      rfl
    · exact fun count r d => StreamReader.readSome_trace count r
    · exact fun r d => rfl

/-- A trace that is drained up to a clean end is drained so by requests of any size. -/
theorem Trace.DrainsTo.of_clean [Compression.ForGzip] {d : Disk} {path : String}
    {count count' : Nat} {bytes : List UInt8} (hcount : 0 < count) (hcount' : 0 < count')
    (h : DrainsTo path d count bytes (.ok ())) : DrainsTo path d count' bytes (.ok ()) := by
  obtain ⟨t, _, hopen, hdrains⟩ := h
  obtain ⟨-, _, _, _, _, _, -, -, hsource, hrests⟩ := exists_sourcesOn hopen
  have hyields := (hsource.sources d).yields_of_drains hcount hrests hdrains
  obtain ⟨t', hdrains'⟩ := (hsource.sources d).drains hcount' hrests hyields
  exact ⟨t, t', hopen, hdrains'⟩

/-- A trace that is opened comes to an end. -/
theorem Trace.exists_drains_of_open [Compression.ForGzip] {d d' : Disk} {path : String} {t : Trace}
    (hopen : openForRead path d = .ok (t, d')) {count : Nat} (hcount : 0 < count) :
    ∃ bytes ending t', Drains (fun t => t.readSome count d) t bytes ending t' := by
  obtain ⟨rfl, _, _, _, _, _, -, -, hsource, hrests⟩ := exists_sourcesOn hopen
  exact (hsource.sources d').exists_drains hcount hrests

/-- A trace that is opened delivers no more bytes than it promises. -/
theorem Trace.length_le_of_open [Compression.ForGzip] {d d' : Disk} {path : String} {t t' : Trace}
    (hopen : openForRead path d = .ok (t, d')) {count : Nat} (hcount : 0 < count)
    {bytes : List UInt8} {ending : Except Error Unit}
    (hdrains : Drains (fun t => t.readSome count d) t bytes ending t') :
    bytes.length ≤ t.backend.remaining d := by
  obtain ⟨rfl, _, _, _, _, _, -, -, hsource, hrests⟩ := exists_sourcesOn hopen
  exact (hsource.sources d').length_le_of_drains hcount (hsource.rests_remaining hrests) hdrains

/-- A trace that ends in an error does so in the end, whatever the sizes of the requests are. -/
theorem Trace.DrainsTo.exists_error [Compression.ForGzip] {path : String} {d : Disk}
    {count count' : Nat} {bytes : List UInt8} {e : Error} (hcount : 0 < count)
    (hcount' : 0 < count') (h : DrainsTo path d count bytes (.error e)) :
    ∃ bytes' e', DrainsTo path d count' bytes' (.error e') := by
  obtain ⟨t, _, hopen, hdrains⟩ := h
  obtain ⟨bytes', ending, t', hdrains'⟩ := exists_drains_of_open hopen hcount'
  cases ending with
  | error e' => exact ⟨bytes', e', t, t', hopen, hdrains'⟩
  | ok =>
      have hclean := DrainsTo.of_clean hcount' hcount ⟨t, t', hopen, hdrains'⟩
      cases (hclean.unique ⟨t, _, hopen, hdrains⟩).2

end TraceStore
