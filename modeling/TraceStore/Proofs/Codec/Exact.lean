import TraceStore.Proofs.Codec.Snappy
import TraceStore.Proofs.Codec.Zstd

/-!
# The limit on what a block decodes to

The codecs limit what blocks decode to, and leave the decoding to a decoder of their format. The
snappy codec trusts the length that a block declares; the zstd codec stops reading one byte behind the
limit, and so may not see the rest of the block. Both deliver what the whole of a block decodes to if
that is within the limit, and call everything else corrupt: `decompress_exact`.
-/
namespace TraceStore

/-- A result is exact for what a block decodes to without a limit, if to anything: it is that, if it
is no longer than the largest chunk, and an error that calls the block corrupt otherwise. -/
structure Exact (decoded : Option ByteArray) (result : Except Error ByteArray) : Prop where
  ok_iff : ∀ {out}, result = .ok out ↔ decoded = some out ∧ out.size ≤ maxChunkSize
  corrupt_iff : (∃ cause, result = .error (.corrupt cause)) ↔
    ∀ out, decoded = some out → maxChunkSize < out.size

theorem Exact.intro {decoded : Option ByteArray} {result : Except Error ByteArray}
    (ok_iff : ∀ {out}, result = .ok out ↔ decoded = some out ∧ out.size ≤ maxChunkSize)
    (corrupt : ∀ {e}, result = .error e → ∃ cause, e = .corrupt cause) : Exact decoded result := by
  refine ⟨ok_iff, ?_, fun hlong => ?_⟩
  · rintro ⟨cause, rfl⟩ out hout
    refine Nat.not_le.1 fun hle => ?_
    cases ok_iff.2 ⟨hout, hle⟩
  · cases result with
    | ok out =>
        obtain ⟨hout, hle⟩ := ok_iff.1 rfl
        exact absurd (hlong out hout) (Nat.not_lt.2 hle)
    | error e =>
        obtain ⟨cause, rfl⟩ := corrupt rfl
        exact ⟨cause, rfl⟩

variable {block out : ByteArray}

/-! ### Snappy -/

namespace Snappy

theorem decompressWith_exact {decoder : Decoder} (hdeclares : decoder.Declares block) :
    Exact (decoder.contents? block) (decompressWith decoder block) :=
  .intro (decompressWith_eq_ok_iff hdeclares) corrupt_of_decompressWith

end Snappy

/-! ### Zstd -/

namespace Zstd

variable {δ : Type} {decoder : Decoder δ} {room : Room} {decoded : Option ByteArray}

/-- What is relied on in a decoder that reads a zstd block, the whole of which decodes to `decoded` if
to anything. -/
structure Decoder.Reads (decoder : Decoder δ) (block : ByteArray) (decoded : Option ByteArray) :
    Prop where
  /-- What the block decodes to is handed out, whatever the sizes of the requests are. -/
  delivers : ∀ out, decoded = some out →
    ∃ x, decoder.start block = .ok x ∧ Delivers decoder.read out.data.toList x
  /-- The end is told only after everything was decoded and checked. -/
  ends : ∀ {x x' bytes}, decoder.start block = .ok x → HandsOut decoder.read x bytes x' →
    TellsEnd decoder.read x' → ∃ out, decoded = some out ∧ out.data.toList = bytes

/-- A decoder that delivers some bytes reads a block that decodes to these. -/
theorem Decoder.reads_of_delivers {x : δ} (hstart : decoder.start block = .ok x)
    (h : Delivers decoder.read out.data.toList x) : decoder.Reads block (some out) where
  delivers _ hout := Option.some.inj hout ▸ ⟨x, hstart, h⟩
  ends hstart' hhands hends := by
    obtain rfl := Except.ok.inj (hstart.symm.trans hstart')
    exact ⟨out, rfl, h.eq_of_handsOut hhands hends⟩

/-- Reading stops behind the limit only if the block is too long. What is shorter ends where the
decoder says so, and that is at the end of the block. -/
theorem decompressWith_exact (hreads : decoder.Reads block decoded) :
    Exact decoded (decompressWith decoder room block) := by
  refine .intro ?_ corrupt_of_decompressWith
  intro out
  constructor
  · intro h
    obtain ⟨hsize, x, hstart, hread⟩ := of_decompressWith h
    obtain ⟨x', hhands, hends⟩ := Take.handsOut_of_readToEnd hread (Nat.lt_succ_of_le hsize)
    obtain ⟨out', hout, hbytes⟩ := hreads.ends hstart hhands hends
    rw [hout, eq_of_toList_eq hbytes]
    exact ⟨rfl, hsize⟩
  · rintro ⟨hout, hsize⟩
    obtain ⟨x, hstart, hdelivers⟩ := hreads.delivers out hout
    exact decompressWith_of_delivers room hstart hdelivers hsize

end Zstd

/-! ### Both codecs -/

/-- Whatever bytes the codecs are given, they deliver what the whole of these decodes to, if that is
no longer than the largest chunk, and call everything else corrupt; with any decoders of the formats,
and any room in the buffer that zstd data is read into. -/
theorem decompress_exact {δ : Type} (snappy : Snappy.Decoder) (zstd : Zstd.Decoder δ) (room : Room)
    (decode : ByteArray → Option ByteArray) :
    (∀ block, snappy.Declares block →
      Exact (snappy.contents? block) (Snappy.decompressWith snappy block)) ∧
    ∀ block, zstd.Reads block (decode block) →
      Exact (decode block) (Zstd.decompressWith zstd room block) :=
  ⟨fun _ => Snappy.decompressWith_exact, fun _ => Zstd.decompressWith_exact⟩

/-- Two frames with a skippable one between them. -/
private def twoFrames : ByteArray :=
  Zstd.encode ⟨#[1, 2]⟩ ++ ⟨#[0x51, 0x2a, 0x4d, 0x18, 1, 0, 0, 0, 9]⟩ ++ Zstd.encode ⟨#[3]⟩

theorem decompress_exact_two_frames :
    (Snappy.decoder.Declares ⟨#[1, 0, 7]⟩ ∧
      Exact (some ⟨#[7]⟩) (Snappy.decompress ⟨#[1, 0, 7]⟩)) ∧
    Zstd.decoder.Reads twoFrames (some ⟨#[1, 2, 3]⟩) ∧
      Exact (some ⟨#[1, 2, 3]⟩) (Zstd.decompress twoFrames) := by
  have hframes : Zstd.Frames twoFrames.data.toList [1, 2, 3] := by
    have hlast : Zstd.Frames ((Zstd.encode ⟨#[3]⟩).data.toList ++ []) ([3] ++ []) :=
      .frame (by decide) .nil
    have hskip := @Zstd.Frames.skippable 1 [9] _ _ (by decide) (by decide) hlast
    have hfirst := @Zstd.Frames.frame ⟨#[1, 2]⟩ _ _ (by decide) hskip
    simpa [twoFrames, LittleEndian.encode, Zstd.skippableMagic] using hfirst
  have hreads : Zstd.decoder.Reads twoFrames (some ⟨#[1, 2, 3]⟩) :=
    Zstd.Decoder.reads_of_delivers rfl (Zstd.delivers_of_frames (by decide) hframes)
  obtain ⟨hsnappy, hzstd⟩ := decompress_exact Snappy.decoder Zstd.decoder .doubling
    fun block => if block = twoFrames then some ⟨#[1, 2, 3]⟩ else none
  refine ⟨⟨Snappy.decoder_declares _, ?_⟩, hreads, ?_⟩
  · exact hsnappy ⟨#[1, 0, 7]⟩ (Snappy.decoder_declares _)
  · have h := hzstd twoFrames (by rwa [if_pos rfl])
    rwa [if_pos rfl] at h

end TraceStore
