import TraceStore.Codec.Basic
import TraceStore.Disk.Writer
import TraceStore.Bytes.LittleEndian
import TraceStore.Offset

/-!
# Writing a chunked file

A `ChunkWriter` gathers bytes until a chunk is full, and emits it as a length in four bytes and a
block. A chunk that the codec refuses to encode stays where it is.
-/
namespace TraceStore

/-- A chunked file that is open for writing. -/
structure ChunkWriter where
  sink : FileWriter
  /-- Bytes of the file up to the place where the pending chunk will start. -/
  written : Nat
  /-- Bytes of the pending chunk. -/
  cache : ByteArray

namespace ChunkWriter

variable {σ : Type}

/-- Creates a file and writes the codec's magic. The options are checked first. -/
def create (c : Codec σ) (o : WriteOptions) (path : String) (d : Disk) :
    Except Error (ChunkWriter × Disk) :=
  match o.validate with
  | .error e => .error e
  | .ok () =>
    match d.create path with
    | .error cause => .error (.io cause)
    | .ok (node, d) =>
      let start := (FileWriter.start node).write c.magicBytes d
      start.result.map fun () => (⟨start.state, 2, .empty⟩, start.disk)

/-- Emits the pending chunk, if it holds anything. After a failure it is still pending. -/
def emit (c : Codec σ) (o : WriteOptions) (memory : σ) (w : ChunkWriter) (d : Disk) :
    Outcome (σ × ChunkWriter) Unit :=
  if w.cache.isEmpty then ⟨.ok (), (memory, w), d⟩
  else
    match c.compress o w.cache memory with
    | (.error e, memory) => ⟨.error e, (memory, w), d⟩
    | (.ok block, memory) =>
      if 2 ^ 32 ≤ block.size then ⟨.error (.corrupt .lengthOverField), (memory, w), d⟩
      else
        let header := w.sink.write (LittleEndian.bytes 4 block.size) d
        match header.result with
        | .error e => ⟨.error e, (memory, { w with sink := header.state }), header.disk⟩
        | .ok () =>
          let body := header.state.write block header.disk
          match body.result with
          | .error e => ⟨.error e, (memory, { w with sink := body.state }), body.disk⟩
          | .ok () =>
            ⟨.ok (), (memory, ⟨body.state, w.written + 4 + block.size, .empty⟩), body.disk⟩

/-- Writes the bytes from `start` on, a chunk a round. A round takes bytes in, except that the
first may find a full chunk that was refused before; so one round more than bytes is enough. -/
def writeWithin (c : Codec σ) (o : WriteOptions) (bytes : ByteArray) :
    Nat → Nat → σ → ChunkWriter → Disk → Outcome (σ × ChunkWriter) Unit
  | 0, _, memory, w, d => ⟨.ok (), (memory, w), d⟩
  | fuel + 1, start, memory, w, d =>
    if bytes.size ≤ start then ⟨.ok (), (memory, w), d⟩
    else
      let stop := start + min (o.chunkSize.toNat - w.cache.size) (bytes.size - start)
      let w := { w with cache := w.cache ++ bytes.extract start stop }
      if w.cache.size < o.chunkSize.toNat then writeWithin c o bytes fuel stop memory w d
      else
        match w.emit c o memory d with
        | ⟨.error e, state, d⟩ => ⟨.error e, state, d⟩
        | ⟨.ok (), (memory, w), d⟩ => writeWithin c o bytes fuel stop memory w d

/-- Writes bytes, emitting every chunk that becomes full. -/
def write (c : Codec σ) (o : WriteOptions) (bytes : ByteArray) (memory : σ) (w : ChunkWriter)
    (d : Disk) : Outcome (σ × ChunkWriter) Unit :=
  writeWithin c o bytes (bytes.size + 1) 0 memory w d

/-- Ends the pending chunk and makes everything emitted visible in the file. -/
def flush (c : Codec σ) (o : WriteOptions) (memory : σ) (w : ChunkWriter) (d : Disk) :
    Outcome (σ × ChunkWriter) Unit :=
  match w.emit c o memory d with
  | ⟨.error e, state, d⟩ => ⟨.error e, state, d⟩
  | ⟨.ok (), (memory, w), d⟩ =>
    (w.sink.flush d).mapState fun sink => (memory, { w with sink })

/-- Gives the writer up without its pending chunk. -/
def release (w : ChunkWriter) (d : Disk) : Disk := w.sink.release d

/-- Emits the pending chunk if the codec takes it, and gives the writer up. -/
def finish (c : Codec σ) (o : WriteOptions) (memory : σ) (w : ChunkWriter) (d : Disk) :
    σ × Disk :=
  let o := w.emit c o memory d
  (o.state.1, o.state.2.release o.disk)

/-- Position of the next byte: where the pending chunk will start, and the bytes in it. -/
def currentOffset (w : ChunkWriter) : Offset := .ofNat w.written w.cache.size

end ChunkWriter
end TraceStore
