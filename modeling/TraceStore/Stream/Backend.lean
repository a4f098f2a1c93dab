import TraceStore.Backend
import TraceStore.Percent
import TraceStore.Stream.Basic

/-!
# The stream backend

Stores a trace as a single compressed stream. A decoder resumes nowhere but at the start, so there
are no offsets. Once a stream has failed it stays failed until it is opened again, and only a clean
end counts as all of the file.
-/
namespace TraceStore

/-- How a stream that is being read has ended. -/
inductive Tail
  | pending
  | clean
  | failed
deriving DecidableEq, Repr

/-- A stream that is open for reading. -/
structure StreamReader (δ : Type) where
  decoder : δ
  /-- Length of the file when it was opened. -/
  fileSize : Nat
  tail : Tail

namespace StreamReader

variable {δ : Type} [StreamDecoder δ]

/-- Bytes asked of the decoder at a time when they are passed over. -/
def skipSize : Nat := 8192

/-- Opens a file. What is wrong with its beginning shows when it is read. -/
def «open» (path : String) (d : Disk) : Except Error (StreamReader δ) :=
  match d.lookup path with
  | .error cause => .error (.io cause)
  | .ok node => .ok ⟨StreamDecoder.start node d, d.size node, .pending⟩

/-- Some of the next bytes, at most `count`. -/
def readSome (count : Nat) (r : StreamReader δ) (d : Disk) :
    Except Error ByteArray × StreamReader δ :=
  if count = 0 then (.ok .empty, r)
  else if r.tail = .failed then (.error (.corrupt .failedGzip), r)
  else
    match StreamDecoder.read count r.decoder d with
    | (.error fault, decoder) => (.error fault.toError, { r with decoder, tail := .failed })
    | (.ok bytes, decoder) =>
      (.ok bytes, { r with decoder, tail := if bytes.isEmpty then .clean else r.tail })

/-- Delivers bytes into `done` until `count` more have come. Every round delivers one at least, so
`fuel` rounds are enough for as many bytes. -/
def readWithin (d : Disk) :
    Nat → Nat → ByteArray → StreamReader δ → Except Error ByteArray × StreamReader δ
  | 0, _, done, r => (.ok done, r)
  | fuel + 1, count, done, r =>
    if count = 0 then (.ok done, r)
    else
      match r.readSome count d with
      | (.error e, r) => (.error e, r)
      | (.ok bytes, r) =>
        if bytes.isEmpty then (.error .unexpectedEof, r)
        else readWithin d fuel (count - bytes.size) (done ++ bytes) r

/-- The next `count` bytes. If the stream ends before, those left are used up. -/
def read (count : Nat) (r : StreamReader δ) (d : Disk) :
    Except Error ByteArray × StreamReader δ :=
  readWithin d count count .empty r

/-- The next byte. A failure counts as none. -/
def getc (r : StreamReader δ) (d : Disk) : Option UInt8 × StreamReader δ :=
  match r.read 1 d with
  | (.ok bytes, r) => (bytes.data[0]?, r)
  | (.error _, r) => (none, r)

/-- Passes over bytes until `count` more have gone by. Every round passes over one at least. -/
def skipWithin (d : Disk) : Nat → Nat → StreamReader δ → Except Error Unit × StreamReader δ
  | 0, _, r => (.ok (), r)
  | fuel + 1, count, r =>
    if count = 0 then (.ok (), r)
    else
      match StreamDecoder.read (min count skipSize) r.decoder d with
      | (.error fault, decoder) => (.error fault.toError, { r with decoder, tail := .failed })
      | (.ok bytes, decoder) =>
        if bytes.isEmpty then (.error .unexpectedEof, { r with decoder, tail := .clean })
        else skipWithin d fuel (count - bytes.size) { r with decoder }

/-- Passes over the next `count` bytes. If the stream ends before, those left are used up. -/
def skip (count : Nat) (r : StreamReader δ) (d : Disk) : Except Error Unit × StreamReader δ :=
  if r.tail = .failed then (.error (.corrupt .failedGzip), r)
  else skipWithin d count count r

/-- Share of the file that has been fetched, in percent. It is all of it only after a clean end,
as the decoder fetches ahead. -/
def percentRead (r : StreamReader δ) : Nat :=
  if r.tail = .clean then 100
  else min (percent (StreamDecoder.position r.decoder) r.fileSize) 99

end StreamReader

/-- What a stream backend has open. -/
inductive StreamState (δ ε : Type)
  | closed
  | reading (r : StreamReader δ)
  | writing (encoder : ε)

/-- A backend that stores single streams. -/
structure Streamed (δ ε : Type) where
  options : WriteOptions
  state : StreamState δ ε

namespace Streamed

variable {δ ε : Type} [StreamDecoder δ] [StreamEncoder ε]

/-- A backend with nothing open. -/
def new (options : WriteOptions) : Streamed δ ε := ⟨options, .closed⟩

/-- Gives up what is open. A stream that is being written is ended. -/
def release (b : Streamed δ ε) (d : Disk) : Disk :=
  match b.state with
  | .writing encoder => StreamEncoder.finish encoder d
  | _ => d

/-- Opens a path. What was open before is given up if that succeeds. -/
def acquire (path : String) (mode : Mode) (b : Streamed δ ε) (d : Disk) :
    Outcome (Streamed δ ε) Unit :=
  match mode with
  | .read =>
    match StreamReader.open path d with
    | .error e => ⟨.error e, b, d⟩
    | .ok r => ⟨.ok (), { b with state := .reading r }, b.release d⟩
  | .write =>
    match b.options.validate with
    | .error e => ⟨.error e, b, d⟩
    | .ok () =>
      match d.create path with
      | .error cause => ⟨.error (.io cause), b, d⟩
      | .ok (node, d) =>
        let encoder := StreamEncoder.start b.options (FileWriter.start node)
        ⟨.ok (), { b with state := .writing encoder }, b.release d⟩

/-- Runs an operation on the open reader, if there is one. -/
def withReader {α : Type} (b : Streamed δ ε)
    (f : StreamReader δ → Except Error α × StreamReader δ) : Except Error α × Streamed δ ε :=
  match b.state with
  | .reading r => let (result, r) := f r; (result, { b with state := .reading r })
  | _ => (.error .notOpened, b)

/-- Some of the next bytes; none are asked of a reader if the count is zero. -/
def readSome (count : Nat) (b : Streamed δ ε) (d : Disk) :
    Except Error ByteArray × Streamed δ ε :=
  if count = 0 then (.ok .empty, b) else b.withReader fun r => r.readSome count d

/-- The next bytes; none are asked of a reader if the count is zero. -/
def read (count : Nat) (b : Streamed δ ε) (d : Disk) : Except Error ByteArray × Streamed δ ε :=
  if count = 0 then (.ok .empty, b) else b.withReader fun r => r.read count d

/-- The next byte, if a reader is open. -/
def getc (b : Streamed δ ε) (d : Disk) : Option UInt8 × Streamed δ ε :=
  match b.state with
  | .reading r => let (byte, r) := r.getc d; (byte, { b with state := .reading r })
  | _ => (none, b)

/-- Writes bytes, if a writer is open. -/
def write (bytes : ByteArray) (b : Streamed δ ε) (d : Disk) : Outcome (Streamed δ ε) Unit :=
  match b.state with
  | .writing encoder =>
    (StreamEncoder.write bytes encoder d).mapState fun encoder =>
      { b with state := .writing encoder }
  | _ => ⟨.error .notOpened, b, d⟩

/-- Makes what was written decodable. There is nothing to do unless a writer is open. -/
def flush (b : Streamed δ ε) (d : Disk) : Outcome (Streamed δ ε) Unit :=
  match b.state with
  | .writing encoder =>
    (StreamEncoder.flush encoder d).mapState fun encoder => { b with state := .writing encoder }
  | _ => ⟨.ok (), b, d⟩

/-- Finishes what is open. -/
def close (b : Streamed δ ε) (d : Disk) : Streamed δ ε × Disk :=
  ({ b with state := .closed }, b.release d)

/-- Share of the file that has been read; nothing unless it is open for reading. -/
def percentRead (b : Streamed δ ε) : Nat :=
  match b.state with
  | .reading r => r.percentRead
  | _ => 0

instance : Backend (Streamed δ ε) where
  format _ := .zlib
  supportsOffsets _ := false
  acquire := acquire
  write := write
  read := read
  readSome := readSome
  getc := getc
  skip count b d := b.withReader fun r => r.skip count d
  flush := flush
  close := close
  percentRead b := (b.percentRead, b)
  release := release

end Streamed
end TraceStore
