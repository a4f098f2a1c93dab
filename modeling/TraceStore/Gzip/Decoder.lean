import TraceStore.Deflate.Inflate
import TraceStore.Gzip.Header

/-!
# Decoding gzip

A file is one member after the other, each a header, a deflate stream, and a trailer with a check
and the length of what the stream decodes to. The members decode as one stream. Input is fetched
in blocks, and a member is decoded in rounds that end at whole windows of its output.
-/
namespace TraceStore.Gzip

open Deflate

/-- Bytes fetched from a file at a time. -/
def blockSize : Nat := 32768

/-- Output of a round of decoding at most. -/
def windowSize : Nat := 32768

/-- A member whose header has been read. -/
structure Member where
  inflate : Inflate
  /-- Output that has been delivered. -/
  delivered : Nat
  /-- Output up to which the last round decoded. -/
  horizon : Nat
  /-- Check of the output that has been delivered. -/
  crc : UInt32

namespace Member

/-- A member whose stream is about to start. -/
def start : Member := ⟨.start, 0, 0, 0⟩

/-- Output that is decoded and can be delivered. -/
def ready (m : Member) : Nat := min m.inflate.output.size m.horizon - m.delivered

/-- Delivers up to `count` bytes of what is ready. -/
def deliver (m : Member) (count : Nat) : ByteArray × Member :=
  let stop := m.delivered + min count m.ready
  let bytes := m.inflate.output.extract m.delivered stop
  (bytes, { m with delivered := stop, crc := Crc32.update m.crc bytes })

/-- Output up to which the next round decodes: that of the windows that are begun. -/
def nextHorizon (m : Member) : Nat := m.delivered + (windowSize - m.delivered % windowSize)

/-- Decodes a round from the input that has been fetched. Input that is not needed for it is left
in the source; if it does not suffice, all of it is taken. -/
def round (m : Member) (source : FileReader) : Inflate.Halt × Member × FileReader :=
  let (halt, inflate) := (m.inflate.feed source.pending).run m.nextHorizon
  if halt = .starved then
    (halt, { m with inflate, horizon := m.nextHorizon }, { source with pending := .empty })
  else
    let (pending, inflate) := inflate.giveBack
    (halt, { m with inflate, horizon := m.nextHorizon }, { source with pending })

/-- Decodes and delivers into `done` until `count` more bytes have come, or the fetched input is
used up, or the stream ends. Every round but the last delivers a byte, so `fuel` rounds are enough
for fewer bytes. -/
def roundsWithin : Nat → Nat → ByteArray → Member → FileReader →
    Except StreamFault (ByteArray × Bool) × Member × FileReader
  | 0, _, done, m, source => (.ok (done, false), m, source)
  | fuel + 1, count, done, m, source =>
    match m.round source with
    | (.invalid, m, source) => (.error (.io .deflate), m, source)
    | (halt, m, source) =>
      let (bytes, m) := m.deliver count
      let count := count - bytes.size
      let done := done ++ bytes
      if halt = .finished ∨ source.pending.isEmpty ∨ count = 0 ∨ m.ready ≠ 0 then
        (.ok (done, halt = .finished), m, source)
      else roundsWithin fuel count done m source

/-- Up to `count` of the next bytes of the output; none at its end. More input is fetched as long
as nothing can be delivered and there is some. Every round but the last takes a block in, so
`fuel` rounds are enough for fewer bytes of the file. -/
def readWithin (count : Nat) (d : Disk) : Nat → Member → FileReader →
    Except StreamFault ByteArray × Member × FileReader
  | 0, m, source => (.ok .empty, m, source)
  | fuel + 1, m, source =>
    match source.fetch d with
    | .error cause => (.error (.io cause), m, source)
    | .ok source =>
      if m.ready ≠ 0 then
        let (bytes, m) := m.deliver count
        (.ok bytes, m, source)
      else
        let ended := source.pending.isEmpty
        match roundsWithin (count + 1) count .empty m source with
        | (.error fault, m, source) => (.error fault, m, source)
        | (.ok (bytes, finished), m, source) =>
          if bytes.isEmpty && !ended && !finished then readWithin count d fuel m source
          else (.ok bytes, m, source)

/-- Up to `count` of the next bytes of the output; none at its end, and none if the file ends
first. -/
def read (count : Nat) (m : Member) (source : FileReader) (d : Disk) :
    Except StreamFault ByteArray × Member × FileReader :=
  readWithin count d (source.unread d + 1) m source

/-- Whether a trailer is that of the output that has been delivered. -/
def trailerMatches (m : Member) (trailer : ByteArray) : Bool :=
  LittleEndian.decodeAt trailer 0 4 == m.crc.toNat
    && LittleEndian.decodeAt trailer 4 4 == m.delivered % 2 ^ 32

end Member

/-- Where in a file decoding stands. -/
inductive Stage
  | body (m : Member)
  | finished
  /-- The header of a member is not well formed. -/
  | broken (fault : StreamFault)

/-- A gzip file that is being decoded. -/
structure Decoder where
  source : FileReader
  stage : Stage

namespace Decoder

/-- Stage behind a header. -/
def afterHeader : Except StreamFault Unit → Stage
  | .ok () => .body .start
  | .error fault => .broken fault

/-- Fetches the first block of a node and reads the header of its first member. -/
def start (node : Nat) (d : Disk) : Decoder :=
  let (result, source) := readHeader (FileReader.start node blockSize) d
  ⟨source, afterHeader result⟩

/-- Checks the trailer of a member and goes to the next one, if there is one. -/
def nextMember (m : Member) (source : FileReader) (d : Disk) :
    Except StreamFault Unit × Decoder :=
  match exactly 8 source d with
  | (.error fault, source) => (.error fault, ⟨source, .body m⟩)
  | (.ok trailer, source) =>
    if !m.trailerMatches trailer then (.error (.io .gzipChecksum), ⟨source, .finished⟩)
    else
      match source.fetch d with
      | .error cause => (.error (.io cause), ⟨source, .finished⟩)
      | .ok source =>
        if source.pending.isEmpty then (.ok (), ⟨source, .finished⟩)
        else
          let (result, source) := readHeader source d
          (result, ⟨source, afterHeader result⟩)

/-- Up to `count` of the next bytes; none at the end of the last member. Every member that decodes
to nothing takes its header and trailer from the file, so `fuel` members are enough for as many
bytes of it. -/
def readWithin (count : Nat) (d : Disk) : Nat → Decoder → Except StreamFault ByteArray × Decoder
  | 0, decoder => (.ok .empty, decoder)
  | fuel + 1, decoder =>
    match decoder.stage with
    | .finished => (.ok .empty, decoder)
    | .broken fault => (.error fault, decoder)
    | .body m =>
      match m.read count decoder.source d with
      | (.error fault, m, source) => (.error fault, ⟨source, .body m⟩)
      | (.ok bytes, m, source) =>
        if !bytes.isEmpty then (.ok bytes, ⟨source, .body m⟩)
        else
          match nextMember m source d with
          | (.error fault, decoder) => (.error fault, decoder)
          | (.ok (), decoder) => readWithin count d fuel decoder

/-- Up to `count` of the next bytes; none at the end of the last member. -/
def read (count : Nat) (decoder : Decoder) (d : Disk) : Except StreamFault ByteArray × Decoder :=
  readWithin count d (decoder.source.unread d + 2) decoder

/-- Bytes that a bit of input decodes to at most: a copy of the largest length. -/
def maxExpansion : Nat := 258

/-- Bytes that are still to come, at most. -/
def remaining (decoder : Decoder) (d : Disk) : Nat :=
  let unread := 8 * maxExpansion * decoder.source.unread d
  match decoder.stage with
  | .body m =>
    m.inflate.output.size - m.delivered + 8 * maxExpansion * m.inflate.input.size + unread
  | _ => unread

instance : StreamDecoder Decoder where
  start := start
  read := read
  position decoder := decoder.source.position
  remaining := remaining

end Decoder
end TraceStore.Gzip
