import TraceStore.Compression
import TraceStore.File

/-!
# Traces

Opens traces in any of the three formats: for reading in the format that the file has, for writing
in the one that is asked for.
-/
namespace TraceStore

/-- A backend that is chosen when a trace is opened. -/
inductive AnyBackend [Compression]
  | chunked (b : Chunked Compression.Memory)
  | gzip (b : GzipBackend)

variable [Compression]

namespace AnyBackend

/-- The backend of a format with nothing open. -/
def ofFormat (options : WriteOptions) (format : Format) : AnyBackend :=
  match format.codec? with
  | some codec => chunked (.new codec Compression.fresh options)
  | none => gzip (.new options)

/-- Runs an operation that may change the disk. -/
private def update {α : Type} (a : AnyBackend)
    (f : {β : Type} → [Backend β] → β → Outcome β α) : Outcome AnyBackend α :=
  match a with
  | chunked b => (f b).mapState chunked
  | gzip b => (f b).mapState gzip

/-- Runs an operation that leaves the disk alone. -/
private def look {α : Type} (a : AnyBackend)
    (f : {β : Type} → [Backend β] → β → α × β) : α × AnyBackend :=
  match a with
  | chunked b => let (result, b) := f b; (result, chunked b)
  | gzip b => let (result, b) := f b; (result, gzip b)

/-- Asks something. -/
private def ask {α : Type} (a : AnyBackend) (f : {β : Type} → [Backend β] → β → α) : α :=
  match a with
  | chunked b => f b
  | gzip b => f b

instance : Backend AnyBackend where
  format a := a.ask Backend.format
  supportsOffsets a := a.ask Backend.supportsOffsets
  acquire path mode a d := a.update fun b => Backend.acquire path mode b d
  write bytes a d := a.update fun b => Backend.write bytes b d
  read count a d := a.look fun b => Backend.read count b d
  readSome count a d := a.look fun b => Backend.readSome count b d
  getc a d := a.look fun b => Backend.getc b d
  skip count a d := a.look fun b => Backend.skip count b d
  flush a d := a.update fun b => Backend.flush b d
  close a d := let (d, a) := a.look fun b => (Backend.close b d).swap; (a, d)
  currentOffset a := a.look Backend.currentOffset
  setCurrentOffset offset a d := a.look fun b => Backend.setCurrentOffset offset b d
  percentRead a := a.look Backend.percentRead
  release a d := a.ask fun b => Backend.release b d

/-- Bytes that an open reader still delivers, at most. -/
def remaining (a : AnyBackend) (d : Disk) : Nat :=
  match a with
  | chunked ⟨_, _, _, .reading r⟩ => r.available + maxChunkSize * r.source.unread d
  | gzip ⟨_, .reading r⟩ => StreamDecoder.remaining r.decoder d
  | _ => 0

end AnyBackend

/-- A handle over a backend that is chosen when a trace is opened. -/
abbrev Trace := File AnyBackend

namespace Format

/-- The first two bytes of a file; nothing if it cannot be read. -/
def headOf (path : String) (d : Disk) : ByteArray :=
  match d.lookup path with
  | .ok node => (d.readAt node 0 2).toOption.getD .empty
  | .error _ => .empty

/-- Whether a file starts with this format's magic. What cannot be read does not. -/
def probe (format : Format) (path : String) (d : Disk) : Bool := format.matchesHead (headOf path d)

/-- The format of a file, if it has one. -/
def detect (path : String) (d : Disk) : Option Format := ofHead? (headOf path d)

end Format

namespace Trace

/-- Opens a file for reading in the format that it has. -/
def openForRead (path : String) (d : Disk) : Except Error (Trace × Disk) :=
  match Format.detect path d with
  | none => .error .unknownFormat
  | some format =>
    let o := (File.new (.ofFormat default format)).open path .read d
    o.result.map fun () => (o.state, o.disk)

/-- Creates a file in a format for writing, or empties one that is there. -/
def openForWrite (path : String) (format : Format) (options : WriteOptions) (d : Disk) :
    Except Error (Trace × Disk) :=
  let o := (File.new (.ofFormat options format)).open path .write d
  o.result.map fun () => (o.state, o.disk)

/-- A piece of a trace as it was read, and the chunk that it came from. -/
structure Piece where
  bytes : ByteArray
  chunk : UInt64

/-- Reads pieces of at most `count` bytes until none is left or an error ends it. Every piece holds
a byte at least, so `fuel` rounds are enough for fewer bytes. -/
def piecesWithin (count : Nat) (d : Disk) : Nat → Trace → List Piece × Except Error Unit × Trace
  | 0, f => ([], .ok (), f)
  | fuel + 1, f =>
    match f.readSome count d with
    | (.error e, f) => ([], .error e, f)
    | (.ok bytes, f) =>
      if bytes.isEmpty then ([], .ok (), f)
      else
        let (offset, f) := f.currentOffset
        let (pieces, result, f) := piecesWithin count d fuel f
        (⟨bytes, offset.chunk⟩ :: pieces, result, f)

/-- Reads a trace to its end in pieces of at most `count` bytes. -/
def pieces (count : Nat) (f : Trace) (d : Disk) : List Piece × Except Error Unit × Trace :=
  piecesWithin count d (f.backend.remaining d + 1) f

end Trace
end TraceStore
