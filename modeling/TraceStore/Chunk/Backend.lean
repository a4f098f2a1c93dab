import TraceStore.Backend
import TraceStore.Chunk.Reader
import TraceStore.Chunk.Writer

/-!
# The chunked backend

Stores a trace as a chunked file, for any block codec. Offsets are supported.
-/
namespace TraceStore

/-- What a chunked backend has open. -/
inductive ChunkState
  | closed
  | reading (r : ChunkReader)
  | writing (w : ChunkWriter)

/-- A backend that stores chunked files. -/
structure Chunked (σ : Type) where
  codec : Codec σ
  memory : σ
  options : WriteOptions
  state : ChunkState

namespace Chunked

variable {σ : Type}

/-- A backend with nothing open. -/
def new (codec : Codec σ) (memory : σ) (options : WriteOptions) : Chunked σ :=
  ⟨codec, memory, options, .closed⟩

/-- Gives up what is open. Chunks emitted reach the file, the pending one is lost. -/
def release (b : Chunked σ) (d : Disk) : Disk :=
  match b.state with
  | .writing w => w.release d
  | _ => d

/-- Opens a path. What was open before is given up if that succeeds. -/
def acquire (path : String) (mode : Mode) (b : Chunked σ) (d : Disk) : Outcome (Chunked σ) Unit :=
  match mode with
  | .read =>
    match ChunkReader.open b.codec path d with
    | .error e => ⟨.error e, b, d⟩
    | .ok r => ⟨.ok (), { b with state := .reading r }, b.release d⟩
  | .write =>
    match ChunkWriter.create b.codec b.options path d with
    | .error e => ⟨.error e, b, d⟩
    | .ok (w, d) => ⟨.ok (), { b with state := .writing w }, b.release d⟩

/-- Runs an operation on the open reader, if there is one. -/
def withReader {α : Type} (b : Chunked σ)
    (f : ChunkReader → Except Error α × ChunkReader) : Except Error α × Chunked σ :=
  match b.state with
  | .reading r => let (result, r) := f r; (result, { b with state := .reading r })
  | _ => (.error .notOpened, b)

/-- Runs an operation on the open writer, if there is one. -/
def withWriter {α : Type} (b : Chunked σ) (d : Disk)
    (f : ChunkWriter → Outcome (σ × ChunkWriter) α) : Outcome (Chunked σ) α :=
  match b.state with
  | .writing w =>
    (f w).mapState fun (memory, w) => { b with memory, state := .writing w }
  | _ => ⟨.error .notOpened, b, d⟩

/-- The next byte, if a reader is open. -/
def getc (b : Chunked σ) (d : Disk) : Option UInt8 × Chunked σ :=
  match b.state with
  | .reading r => let (byte, r) := r.getc b.codec d; (byte, { b with state := .reading r })
  | _ => (none, b)

/-- Finishes what is open. -/
def close (b : Chunked σ) (d : Disk) : Chunked σ × Disk :=
  match b.state with
  | .writing w =>
    let (memory, d) := w.finish b.codec b.options b.memory d
    ({ b with memory, state := .closed }, d)
  | _ => ({ b with state := .closed }, d)

/-- Position of the next byte; the start of the stream if nothing is open. -/
def currentOffset (b : Chunked σ) : Offset :=
  match b.state with
  | .reading r => r.currentOffset
  | .writing w => w.currentOffset
  | .closed => default

/-- Share of the file that has been read; nothing unless it is open for reading. -/
def percentRead (b : Chunked σ) : Nat :=
  match b.state with
  | .reading r => r.percentRead
  | _ => 0

instance : Backend (Chunked σ) where
  format b := b.codec.format
  supportsOffsets _ := true
  acquire := acquire
  write bytes b d := b.withWriter d fun w => w.write b.codec b.options bytes b.memory d
  read count b d := b.withReader fun r => r.read b.codec count d
  readSome count b d := b.withReader fun r => r.readSome b.codec count d
  getc := getc
  skip count b d := b.withReader fun r => r.skip b.codec count d
  flush b d := b.withWriter d fun w => w.flush b.codec b.options b.memory d
  close := close
  currentOffset b := (b.currentOffset, b)
  setCurrentOffset a b d := b.withReader fun r => r.setCurrentOffset b.codec a d
  percentRead b := (b.percentRead, b)
  release := release

end Chunked
end TraceStore
