import TraceStore.Bytes.Crc32
import TraceStore.Bytes.LittleEndian
import TraceStore.Gzip.Header

/-!
# Encoding gzip

A trace is written as one member whose deflate stream consists of stored blocks, so every level of
compression gives the same file. The header is written with the first bytes; a flush ends the block
at hand.
-/
namespace TraceStore.Gzip

/-- A gzip file that is being written. -/
structure Encoder where
  sink : FileWriter
  /-- Whether the header has been written. -/
  started : Bool
  /-- Bytes of the block at hand. -/
  block : ByteArray
  /-- Check of everything written. -/
  crc : UInt32
  /-- Number of bytes written. -/
  length : Nat

namespace Encoder

/-- Longest stored block. -/
def maxBlockSize : Nat := 65535

/-- A file before its header. -/
def start (sink : FileWriter) : Encoder := ⟨sink, false, .empty, 0, 0⟩

/-- Writes a piece of the file. -/
def put (bytes : ByteArray) (e : Encoder) (d : Disk) : Outcome Encoder Unit :=
  (e.sink.write bytes d).mapState ({ e with sink := · })

/-- Writes the header if that is still to be done. -/
def begin (e : Encoder) (d : Disk) : Outcome Encoder Unit :=
  if e.started then ⟨.ok (), e, d⟩ else { e with started := true }.put fixedHeader d

/-- A stored block: its kind, its length, the complement of that, and the bytes. -/
def storedBlock (last : Bool) (bytes : ByteArray) : ByteArray :=
  LittleEndian.bytes 1 (if last then 1 else 0) ++ LittleEndian.bytes 2 bytes.size
    ++ LittleEndian.bytes 2 (65535 - bytes.size) ++ bytes

/-- Writes the block at hand. -/
def emit (last : Bool) (e : Encoder) (d : Disk) : Outcome Encoder Unit :=
  { e with block := .empty }.put (storedBlock last e.block) d

/-- Takes the bytes from `start` on in, a block a round. Every round takes one in at least, so as
many rounds as bytes are enough. -/
def writeWithin (bytes : ByteArray) : Nat → Nat → Encoder → Disk → Outcome Encoder Unit
  | 0, _, e, d => ⟨.ok (), e, d⟩
  | fuel + 1, start, e, d =>
    if bytes.size ≤ start then ⟨.ok (), e, d⟩
    else
      let stop := start + min (maxBlockSize - e.block.size) (bytes.size - start)
      let e := { e with block := e.block ++ bytes.extract start stop }
      if e.block.size < maxBlockSize then writeWithin bytes fuel stop e d
      else
        match e.emit false d with
        | ⟨.error cause, e, d⟩ => ⟨.error cause, e, d⟩
        | ⟨.ok (), e, d⟩ => writeWithin bytes fuel stop e d

/-- Writes bytes. -/
def write (bytes : ByteArray) (e : Encoder) (d : Disk) : Outcome Encoder Unit :=
  match e.begin d with
  | ⟨.error cause, e, d⟩ => ⟨.error cause, e, d⟩
  | ⟨.ok (), e, d⟩ =>
    let e := { e with crc := Crc32.update e.crc bytes, length := e.length + bytes.size }
    writeWithin bytes bytes.size 0 e d

/-- Ends the block at hand and passes everything on to the file. -/
def flush (e : Encoder) (d : Disk) : Outcome Encoder Unit :=
  match e.begin d with
  | ⟨.error cause, e, d⟩ => ⟨.error cause, e, d⟩
  | ⟨.ok (), e, d⟩ =>
    match if e.block.isEmpty then ⟨.ok (), e, d⟩ else e.emit false d with
    | ⟨.error cause, e, d⟩ => ⟨.error cause, e, d⟩
    | ⟨.ok (), e, d⟩ => (e.sink.flush d).mapState ({ e with sink := · })

/-- The check and the length at the end of a member. -/
def trailer (e : Encoder) : ByteArray :=
  LittleEndian.bytes 4 e.crc.toNat ++ LittleEndian.bytes 4 e.length

/-- Ends the stream and gives the file up. -/
def finish (e : Encoder) (d : Disk) : Disk :=
  let o := e.begin d
  let o := o.state.emit true o.disk
  let o := o.state.put o.state.trailer o.disk
  o.state.sink.release o.disk

instance : StreamEncoder Encoder where
  start _ sink := start sink
  write := write
  flush := flush
  finish := finish

end Encoder
end TraceStore.Gzip
