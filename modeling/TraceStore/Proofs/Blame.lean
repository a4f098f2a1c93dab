import TraceStore.Proofs.Chunk.Reader
import TraceStore.Proofs.Compression

/-!
# Who is to blame

Errors of misuse are raised by handles. What codecs, readers, writers and streams fail with is never
one of them: it tells what is wrong with a file, with the disk, or with the options.
-/
namespace TraceStore

/-- Whether a result does not blame its caller: it is no error of misuse. -/
def Blameless {α : Type} : Except Error α → Prop
  | .error e => e.isMisuse = false
  | .ok _ => True

section

variable {α β : Type}

@[simp] theorem blameless_ok (a : α) : Blameless (.ok a) := trivial

@[simp] theorem blameless_error {e : Error} :
    Blameless (.error e : Except Error α) ↔ e.isMisuse = false := Iff.rfl

theorem Blameless.map {result : Except Error α} (h : Blameless result) (f : α → β) :
    Blameless (result.map f) := by
  cases result with
  | error e => exact h
  | ok a => exact blameless_ok _

/-- An error that stands for a failure of another type is as blameless as that. -/
theorem Blameless.error {result : Except Error α} (h : Blameless result) {e : Error}
    (he : result = .error e) : Blameless (.error e : Except Error β) := by
  subst he
  exact h

/-- What calls something corrupt does not blame its caller. -/
theorem Blameless.of_corrupt {result : Except Error α}
    (h : ∀ {e}, result = .error e → ∃ cause, e = .corrupt cause) : Blameless result := by
  cases result with
  | ok a => trivial
  | error e =>
      obtain ⟨cause, rfl⟩ := h rfl
      rfl

end

namespace Error

@[simp] theorem isMisuse_io (cause : IoError) : (io cause).isMisuse = false := rfl
@[simp] theorem isMisuse_corrupt (what : Corruption) : (corrupt what).isMisuse = false := rfl
@[simp] theorem isMisuse_unexpectedEof : unexpectedEof.isMisuse = false := rfl
@[simp] theorem isMisuse_invalidConfig (fault : ConfigFault) :
    (invalidConfig fault).isMisuse = false := rfl
@[simp] theorem isMisuse_invalidOffset (chunk : UInt64) (inChunk : UInt32) :
    (invalidOffset chunk inChunk).isMisuse = false := rfl

end Error

theorem WriteOptions.blameless_validate (o : WriteOptions) : Blameless o.validate := by
  rw [validate]
  repeat' split
  all_goals simp

/-! ### Codecs -/

/-- Whether a codec fails for reasons of its own only. -/
structure Codec.Blameless {σ : Type} (c : Codec σ) : Prop where
  compress : ∀ o bytes memory, TraceStore.Blameless (c.compress o bytes memory).1
  decompress : ∀ block, TraceStore.Blameless (c.decompress block)

theorem Snappy.blameless_decompress (block : ByteArray) : Blameless (decompress block) :=
  .of_corrupt corrupt_of_decompressWith

/-- Whatever the encoder does, the codec fails because of it only. -/
theorem Snappy.blameless_codecOf {σ : Type} (encode : Encoder σ) : (codecOf encode).Blameless where
  compress o bytes memory := by
    show Blameless (compressWith encode o bytes memory).1
    rw [compressWith]
    split <;> simp
  decompress := blameless_decompress

theorem Zstd.blameless_decompress (block : ByteArray) : Blameless (decompress block) :=
  .of_corrupt corrupt_of_decompressWith

/-- Whatever the encoder does, the codec fails because of it only. -/
theorem Zstd.blameless_codecOf {σ : Type} (encode : Encoder σ) : (codecOf encode).Blameless where
  compress o bytes memory := by
    show Blameless ((encode o.zstdLevel bytes memory).1.mapError .io)
    cases (encode o.zstdLevel bytes memory).1 with
    | error cause => exact Error.isMisuse_io cause
    | ok block => exact blameless_ok block
  decompress := blameless_decompress

/-! ### Files -/

namespace FileWriter

theorem blameless_passOn (bytes : ByteArray) (w : FileWriter) (d : Disk) :
    Blameless (w.passOn bytes d).result := by
  rw [passOn]
  split <;> simp

theorem blameless_flush (w : FileWriter) (d : Disk) : Blameless (w.flush d).result := by
  have hpass := blameless_passOn w.pending w d
  rw [flush]
  split
  case h_1 => exact blameless_ok ()
  case h_2 h => exact hpass.error h

theorem blameless_write (bytes : ByteArray) (w : FileWriter) (d : Disk) :
    Blameless (w.write bytes d).result := by
  rw [write]
  split
  · exact blameless_ok ()
  have hmade : Blameless (if w.pending.size + bytes.size ≤ blockSize then
      (⟨.ok (), w, d⟩ : Outcome FileWriter Unit) else w.flush d).result := by
    split
    · exact blameless_ok ()
    · exact blameless_flush w d
  dsimp only
  split
  case h_1 h => exact hmade.error h
  split
  · exact blameless_passOn ..
  · exact blameless_ok ()

end FileWriter

/-! ### Chunked files -/

namespace ChunkReader

variable {σ : Type} (c : Codec σ) (d : Disk)

theorem blameless_open (path : String) : Blameless (ChunkReader.open c path d) := by
  simp only [ChunkReader.open]
  repeat' split
  all_goals simp

theorem blameless_setCurrentOffset (a : Offset) (r : ChunkReader) :
    Blameless (r.setCurrentOffset c a d).1 := by
  simp only [setCurrentOffset]
  repeat' split
  all_goals simp

variable {c} (hc : c.Blameless)

include hc

theorem blameless_loadNext (r : ChunkReader) : Blameless (r.loadNext c d).1 := by
  simp only [loadNext]
  repeat' split
  all_goals first
    | exact (hc.decompress _).error ‹_›
    | simp

theorem blameless_fill (r : ChunkReader) : Blameless (r.fill c d).1 := by
  suffices ∀ fuel (r : ChunkReader), Blameless (fillWithin c d fuel r).1 from this _ r
  intro fuel
  induction fuel with
  | zero => exact fun r => blameless_ok _
  | succ fuel ih =>
      intro r
      have hload := blameless_loadNext d hc r
      rw [fillWithin]
      split
      · exact blameless_ok _
      split
      case h_1 => exact ih _
      case h_2 => exact blameless_ok _
      case h_3 h => exact hload.error (congrArg Prod.fst h)

theorem blameless_read (count : Nat) (r : ChunkReader) : Blameless (r.read c count d).1 := by
  suffices ∀ fuel count done (r : ChunkReader), Blameless (readWithin c d fuel count done r).1 from
    this _ _ _ r
  intro fuel
  induction fuel with
  | zero => exact fun _ _ _ => blameless_ok _
  | succ fuel ih =>
      intro count done r
      have hfill := blameless_fill d hc r
      rw [readWithin]
      split
      · exact blameless_ok _
      split
      case h_1 h => exact hfill.error (congrArg Prod.fst h)
      case h_2 => simp
      case h_3 => exact ih ..

theorem blameless_readSome (count : Nat) (r : ChunkReader) :
    Blameless (r.readSome c count d).1 := by
  have hfill := blameless_fill d hc r
  rw [readSome]
  split
  · exact blameless_ok _
  split
  case h_1 h => exact hfill.error (congrArg Prod.fst h)
  case h_2 => exact blameless_ok _
  case h_3 => exact blameless_ok _

theorem blameless_skip (count : Nat) (r : ChunkReader) : Blameless (r.skip c count d).1 := by
  rw [skip_eq_read]
  exact (blameless_read d hc count r).map _

end ChunkReader

namespace ChunkWriter

variable {σ : Type} {c : Codec σ} (o : WriteOptions)

theorem blameless_create (c : Codec σ) (path : String) (d : Disk) :
    Blameless (create c o path d) := by
  rw [create]
  split
  case h_1 e h => exact o.blameless_validate.error h
  split
  case h_1 => simp
  case h_2 => exact (FileWriter.blameless_write ..).map _

variable (hc : c.Blameless)

include hc

theorem blameless_emit (memory : σ) (w : ChunkWriter) (d : Disk) :
    Blameless (w.emit c o memory d).result := by
  have hcompress := hc.compress o w.cache memory
  rw [emit]
  split
  · exact blameless_ok ()
  split
  case h_1 h => exact hcompress.error (congrArg Prod.fst h)
  split
  · simp
  dsimp only
  split
  case h_1 h => exact (FileWriter.blameless_write ..).error h
  split
  case h_1 h => exact (FileWriter.blameless_write ..).error h
  case h_2 => exact blameless_ok ()

theorem blameless_write (bytes : ByteArray) (memory : σ) (w : ChunkWriter) (d : Disk) :
    Blameless (w.write c o bytes memory d).result := by
  suffices ∀ fuel start memory (w : ChunkWriter) d,
      Blameless (writeWithin c o bytes fuel start memory w d).result from this ..
  intro fuel
  induction fuel with
  | zero => exact fun _ _ _ _ => blameless_ok ()
  | succ fuel ih =>
      intro start memory w d
      rw [writeWithin]
      split
      · exact blameless_ok ()
      dsimp only
      split
      · exact ih ..
      split
      case h_1 h => exact (blameless_emit o hc ..).error (congrArg Outcome.result h)
      case h_2 => exact ih ..

theorem blameless_flush (memory : σ) (w : ChunkWriter) (d : Disk) :
    Blameless (w.flush c o memory d).result := by
  have hemit := blameless_emit o hc memory w d
  rw [flush]
  split
  case h_1 h => exact hemit.error (congrArg Outcome.result h)
  case h_2 => exact FileWriter.blameless_flush ..

end ChunkWriter

/-! ### Streams -/

theorem StreamFault.blameless_toError {α : Type} (fault : StreamFault) :
    Blameless (.error fault.toError : Except Error α) := by
  cases fault <;> simp [toError]

namespace StreamReader

variable {δ : Type} [StreamDecoder δ] (d : Disk)

theorem blameless_open (path : String) :
    Blameless (StreamReader.open path d : Except Error (StreamReader δ)) := by
  rw [StreamReader.open]
  split <;> simp

theorem blameless_readSome (count : Nat) (r : StreamReader δ) :
    Blameless (r.readSome count d).1 := by
  rw [readSome]
  split
  · exact blameless_ok _
  split
  · simp
  split
  · exact StreamFault.blameless_toError _
  · exact blameless_ok _

theorem blameless_read (count : Nat) (r : StreamReader δ) : Blameless (r.read count d).1 := by
  suffices ∀ fuel count done (r : StreamReader δ), Blameless (readWithin d fuel count done r).1 from
    this _ _ _ r
  intro fuel
  induction fuel with
  | zero => exact fun _ _ _ => blameless_ok _
  | succ fuel ih =>
      intro count done r
      have hpiece := blameless_readSome d count r
      rw [readWithin]
      split
      · exact blameless_ok _
      split
      case h_1 h => exact hpiece.error (congrArg Prod.fst h)
      split
      · simp
      · exact ih ..

theorem blameless_skip (count : Nat) (r : StreamReader δ) : Blameless (r.skip count d).1 := by
  suffices ∀ fuel count (r : StreamReader δ), Blameless (skipWithin d fuel count r).1 by
    rw [skip]
    split
    · simp
    · exact this ..
  intro fuel
  induction fuel with
  | zero => exact fun _ _ => blameless_ok _
  | succ fuel ih =>
      intro count r
      rw [skipWithin]
      split
      · exact blameless_ok _
      split
      · exact StreamFault.blameless_toError _
      split
      · simp
      · exact ih ..

end StreamReader

/-- Whether an encoder fails for reasons of its own only. -/
structure StreamEncoder.Blameless (ε : Type) [StreamEncoder ε] : Prop where
  write : ∀ bytes (e : ε) d, TraceStore.Blameless (StreamEncoder.write bytes e d).result
  flush : ∀ (e : ε) d, TraceStore.Blameless (StreamEncoder.flush e d).result

namespace Gzip.Encoder

theorem blameless_put (bytes : ByteArray) (e : Encoder) (d : Disk) :
    Blameless (e.put bytes d).result := FileWriter.blameless_write bytes e.sink d

theorem blameless_begin (e : Encoder) (d : Disk) : Blameless (e.begin d).result := by
  rw [begin]
  split
  · exact blameless_ok ()
  · exact blameless_put ..

theorem blameless_writeWithin (bytes : ByteArray) (fuel start : Nat) (e : Encoder) (d : Disk) :
    Blameless (writeWithin bytes fuel start e d).result := by
  induction fuel generalizing start e d with
  | zero => exact blameless_ok ()
  | succ fuel ih =>
      rw [writeWithin]
      split
      · exact blameless_ok ()
      dsimp only
      split
      · exact ih ..
      split
      case h_1 h => exact (blameless_put ..).error (congrArg Outcome.result h)
      case h_2 => exact ih ..

/-- The encoder fails when the disk does. -/
theorem blameless : StreamEncoder.Blameless Encoder where
  write bytes e d := by
    show Blameless (write bytes e d).result
    rw [write]
    split
    case h_1 h => exact (blameless_begin e d).error (congrArg Outcome.result h)
    case h_2 => exact blameless_writeWithin ..
  flush e d := by
    show Blameless (flush e d).result
    rw [flush]
    split
    case h_1 h => exact (blameless_begin e d).error (congrArg Outcome.result h)
    split
    case h_1 h =>
      split at h
      · cases (Outcome.mk.inj h).1
      · exact (blameless_put ..).error (congrArg Outcome.result h)
    case h_2 => exact FileWriter.blameless_flush ..

end Gzip.Encoder

/-! ### Formats -/

theorem Format.blameless_of_codec? [Compression] {format : Format} {c : Codec Compression.Memory}
    (hformat : format.codec? = some c) : c.Blameless :=
  Format.of_codec? hformat (Snappy.blameless_codecOf _) (Zstd.blameless_codecOf _)

end TraceStore
