import TraceStore.Disk.Reader
import TraceStore.Disk.Writer
import TraceStore.Options

/-!
# Stream decoders and encoders

A trace can be stored as one compressed stream, which is read and written from front to back only.
These are the operations that the backend for such files needs of the format of the stream.
-/
namespace TraceStore

/-- Why a stream cannot be decoded any further. -/
inductive StreamFault
  /-- The file ends within the stream. -/
  | truncated
  /-- The stream is damaged, or the file cannot be read. -/
  | io (cause : IoError)
deriving DecidableEq, Repr

namespace StreamFault

/-- The error that a fault is reported as. -/
def toError : StreamFault → Error
  | truncated => .corrupt .truncatedGzip
  | io cause => .io cause

end StreamFault

/-- A decoder that fetches a compressed stream from a file. -/
class StreamDecoder (δ : Type) where
  /-- Looks at the beginning of the stream in a node. -/
  start : Nat → Disk → δ
  /-- Some of the next bytes, at most as many as asked for; none at the end of the stream. -/
  read : Nat → δ → Disk → Except StreamFault ByteArray × δ
  /-- File position up to which the stream has been fetched. -/
  position : δ → Nat
  /-- Bytes that are still to come, at most. -/
  remaining : δ → Disk → Nat

/-- An encoder that writes a compressed stream to a file. -/
class StreamEncoder (ε : Type) where
  /-- A stream at the start of a file. -/
  start : WriteOptions → FileWriter → ε
  /-- Writes all of the given bytes. -/
  write : ByteArray → ε → Disk → Outcome ε Unit
  /-- Makes everything written so far decodable from the file. -/
  flush : ε → Disk → Outcome ε Unit
  /-- Ends the stream and gives the file up. -/
  finish : ε → Disk → Disk

end TraceStore
