import TraceStore.Codec.Basic
import TraceStore.Disk.Reader
import TraceStore.Bytes.LittleEndian
import TraceStore.Offset
import TraceStore.Percent

/-!
# Reading a chunked file

A chunked file is two bytes of magic and then chunks, each a length in four bytes and a block of
that length. A `ChunkReader` holds one decoded chunk at a time. It goes on after a failure with
whatever follows in the file, and it is parked at the end of the stream by a position that it
rejects, until it gets one that it accepts.
-/
namespace TraceStore

/-- Length of the header of a chunk. -/
def chunkHeaderSize : Nat := 4

/-- A chunked file that is open for reading. -/
structure ChunkReader where
  source : FileReader
  /-- Length of the file when it was opened. -/
  fileSize : Nat
  /-- File position of the chunk held in `cache`. -/
  chunkStart : Nat
  /-- File position of the chunk after it. -/
  nextChunk : Nat
  /-- Decoded bytes of one chunk. -/
  cache : ByteArray
  /-- Bytes of `cache` that have been delivered. -/
  pos : Nat
  /-- Whether a position was rejected and none accepted since. -/
  parked : Bool

namespace ChunkReader

variable {σ : Type}

/-- Bytes fetched from a chunked file at a time. -/
def blockSize : Nat := 8192

/-- Opens a file, which has to start with the codec's magic. -/
def «open» (c : Codec σ) (path : String) (d : Disk) : Except Error ChunkReader :=
  match d.lookup path with
  | .error cause => .error (.io cause)
  | .ok node =>
    match (FileReader.start node blockSize).read 2 d with
    | (.error cause, _) => .error (.io cause)
    | (.ok head, source) =>
      if head = c.magicBytes then
        .ok { source, fileSize := d.size node, chunkStart := 2, nextChunk := 2,
              cache := .empty, pos := 0, parked := false }
      else .error (.corrupt .magicMismatch)

/-- Decoded bytes that have not been delivered. -/
def available (r : ChunkReader) : Nat := r.cache.size - r.pos

/-- Delivers the next `count` decoded bytes of the chunk in the cache. -/
def take (r : ChunkReader) (count : Nat) : ByteArray × ChunkReader :=
  (r.cache.extract r.pos (r.pos + count), { r with pos := r.pos + count })

/-- Reads and decodes the chunk that follows in the file. False says that the file ended where a
chunk could have started, or that the reader is parked. The recorded positions move only with a
chunk that decodes, the place in the file always. -/
def loadNext (c : Codec σ) (r : ChunkReader) (d : Disk) : Except Error Bool × ChunkReader :=
  if r.parked then (.ok false, r)
  else
    match r.source.read chunkHeaderSize d with
    | (.error cause, source) => (.error (.io cause), { r with source })
    | (.ok header, source) =>
      let r := { r with source }
      if header.isEmpty then (.ok false, r)
      else if header.size < chunkHeaderSize then (.error (.corrupt .truncatedHeader), r)
      else
        let length := LittleEndian.decode header.data.toList
        if c.lengthLimit < length then (.error (.corrupt .lengthOverLimit), r)
        else
          match r.source.read length d with
          | (.error cause, source) => (.error (.io cause), { r with source })
          | (.ok block, source) =>
            let r := { r with source }
            if block.size < length then (.error (.corrupt .truncatedChunk), r)
            else
              match c.decompress block with
              | .error e => (.error e, r)
              | .ok cache =>
                (.ok true, { r with
                  cache, pos := 0, chunkStart := r.nextChunk
                  nextChunk := r.nextChunk + chunkHeaderSize + length })

/-- Loads chunks until a decoded byte is available. Every load takes a header from the file, so
`fuel` loads reach its end if that many bytes are unread. -/
def fillWithin (c : Codec σ) (d : Disk) : Nat → ChunkReader → Except Error Bool × ChunkReader
  | 0, r => (.ok (r.pos < r.cache.size), r)
  | fuel + 1, r =>
    if r.pos < r.cache.size then (.ok true, r)
    else
      match r.loadNext c d with
      | (.ok true, r) => fillWithin c d fuel r
      | (.ok false, r) => (.ok false, r)
      | (.error e, r) => (.error e, r)

/-- Makes a decoded byte available. False says that the stream has ended. -/
def fill (c : Codec σ) (r : ChunkReader) (d : Disk) : Except Error Bool × ChunkReader :=
  fillWithin c d (r.source.unread d + 1) r

/-- Delivers bytes into `done` until `count` more have come. Every round delivers one at least, so
`fuel` rounds are enough for as many bytes. -/
def readWithin (c : Codec σ) (d : Disk) :
    Nat → Nat → ByteArray → ChunkReader → Except Error ByteArray × ChunkReader
  | 0, _, done, r => (.ok done, r)
  | fuel + 1, count, done, r =>
    if count = 0 then (.ok done, r)
    else
      match r.fill c d with
      | (.error e, r) => (.error e, r)
      | (.ok false, r) => (.error .unexpectedEof, r)
      | (.ok true, r) =>
        let step := min r.available count
        let (bytes, r) := r.take step
        readWithin c d fuel (count - step) (done ++ bytes) r

/-- The next `count` bytes. If the stream ends before, those left are used up. -/
def read (c : Codec σ) (count : Nat) (r : ChunkReader) (d : Disk) :
    Except Error ByteArray × ChunkReader :=
  readWithin c d count count .empty r

/-- Some of the next bytes, all of one chunk, so that the position afterwards names the chunk that
they came from. -/
def readSome (c : Codec σ) (count : Nat) (r : ChunkReader) (d : Disk) :
    Except Error ByteArray × ChunkReader :=
  if count = 0 then (.ok .empty, r)
  else
    match r.fill c d with
    | (.error e, r) => (.error e, r)
    | (.ok false, r) => (.ok .empty, r)
    | (.ok true, r) =>
      let (bytes, r) := r.take (min r.available count)
      (.ok bytes, r)

/-- The next byte. A chunk that does not decode counts as none. -/
def getc (c : Codec σ) (r : ChunkReader) (d : Disk) : Option UInt8 × ChunkReader :=
  match r.fill c d with
  | (.ok true, r) =>
    let (bytes, r) := r.take 1
    (bytes.data[0]?, r)
  | (_, r) => (none, r)

/-- Passes over bytes until `count` more have gone by. Every round passes over one at least. -/
def skipWithin (c : Codec σ) (d : Disk) :
    Nat → Nat → ChunkReader → Except Error Unit × ChunkReader
  | 0, _, r => (.ok (), r)
  | fuel + 1, count, r =>
    if count = 0 then (.ok (), r)
    else
      match r.fill c d with
      | (.error e, r) => (.error e, r)
      | (.ok false, r) => (.error .unexpectedEof, r)
      | (.ok true, r) =>
        let step := min r.available count
        skipWithin c d fuel (count - step) { r with pos := r.pos + step }

/-- Passes over the next `count` bytes. If the stream ends before, those left are used up. -/
def skip (c : Codec σ) (count : Nat) (r : ChunkReader) (d : Disk) :
    Except Error Unit × ChunkReader :=
  skipWithin c d count count r

/-- Position of the next byte: the chunk in the cache and the bytes delivered from it. -/
def currentOffset (r : ChunkReader) : Offset := .ofNat r.chunkStart r.pos

/-- The reader at the end of the stream, where it stays until a position is accepted. -/
def park (r : ChunkReader) : ChunkReader := { r with cache := .empty, pos := 0, parked := true }

/-- Goes to a position. It is accepted if a chunk starts there that decodes and is long enough, or
if it is the end of the file. A chunk position of zero means the first chunk. -/
def setCurrentOffset (c : Codec σ) (a : Offset) (r : ChunkReader) (d : Disk) :
    Except Error Unit × ChunkReader :=
  let rejected := .error (.invalidOffset a.chunk a.inChunk)
  let target := if a.chunk = 0 then 2 else a.chunk.toNat
  if r.fileSize < target then (rejected, r.park)
  else
    let r := { r with
      source := r.source.seek target, parked := false, nextChunk := target
      cache := .empty, pos := 0, chunkStart := target }
    match r.loadNext c d with
    | (.ok true, r) =>
      if a.inChunk.toNat ≤ r.cache.size then (.ok (), { r with pos := a.inChunk.toNat })
      else (rejected, r.park)
    | (.ok false, r) => if a.inChunk = 0 then (.ok (), r) else (rejected, r.park)
    | (.error _, r) => (rejected, r.park)

/-- Share of the file before the next chunk, in percent. A parked reader has read all. -/
def percentRead (r : ChunkReader) : Nat :=
  if r.parked then 100 else percent r.nextChunk r.fileSize

end ChunkReader
end TraceStore
