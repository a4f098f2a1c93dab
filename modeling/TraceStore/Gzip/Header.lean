import TraceStore.Bytes.Crc32
import TraceStore.Bytes.LittleEndian
import TraceStore.Stream.Basic

/-!
# Headers of gzip members

A member starts with ten fixed bytes, whose flags say which of the optional fields follow: extra
data, a file name, a comment, a check of the header. Nothing of a header is kept; it only has to
be well formed.
-/
namespace TraceStore.Gzip

/-- Flags of a header. -/
structure HeaderFlags where
  check : Bool
  extra : Bool
  name : Bool
  comment : Bool
  reserved : Bool

namespace HeaderFlags

/-- The flags in the fourth byte of a header. -/
def ofByte (b : UInt8) : HeaderFlags where
  check := b &&& 2 != 0
  extra := b &&& 4 != 0
  name := b &&& 8 != 0
  comment := b &&& 16 != 0
  reserved := b &&& 0xe0 != 0

end HeaderFlags

/-- Length of the fixed part of a header. -/
def fixedHeaderSize : Nat := 10

/-- Longest file name or comment. -/
def maxFieldSize : Nat := 65535

/-- The fixed part of the headers that are written here: no flags, no time, an unknown system. -/
def fixedHeader : ByteArray := ⟨#[0x1f, 0x8b, 8, 0, 0, 0, 0, 0, 0, 0xff]⟩

/-- A step of reading a header: what it delivers, and the rest of the file. -/
abbrev HeaderStep (α : Type) := Except StreamFault α × FileReader

/-- Exactly `count` bytes. -/
def exactly (count : Nat) (source : FileReader) (d : Disk) : HeaderStep ByteArray :=
  match source.read count d with
  | (.error cause, source) => (.error (.io cause), source)
  | (.ok bytes, source) =>
    if bytes.size < count then (.error .truncated, source) else (.ok bytes, source)

/-- A field of bytes up to a zero, which is delivered too, added to `done`. Fields longer than
`fuel` bytes and a zero are refused. -/
def untilZeroWithin (d : Disk) : Nat → ByteArray → FileReader → HeaderStep ByteArray
  | fuel, done, source =>
    match exactly 1 source d with
    | (.error fault, source) => (.error fault, source)
    | (.ok byte, source) =>
      if byte.data[0]? = some 0 then (.ok (done ++ byte), source)
      else
        match fuel with
        | 0 => (.error (.io .gzipFieldTooLong), source)
        | fuel + 1 => untilZeroWithin d fuel (done ++ byte) source

/-- A field of bytes up to a zero, which is delivered too. -/
def untilZero (source : FileReader) (d : Disk) : HeaderStep ByteArray :=
  untilZeroWithin d maxFieldSize .empty source

/-- Extra data with its length in front. -/
def extraField (source : FileReader) (d : Disk) : HeaderStep ByteArray :=
  match exactly 2 source d with
  | (.error fault, source) => (.error fault, source)
  | (.ok length, source) =>
    match exactly (LittleEndian.decode length.data.toList) source d with
    | (.error fault, source) => (.error fault, source)
    | (.ok extra, source) => (.ok (length ++ extra), source)

/-- Adds a field to the header read so far if it is there. -/
def optional (present : Bool) (field : FileReader → Disk → HeaderStep ByteArray)
    (step : HeaderStep ByteArray) (d : Disk) : HeaderStep ByteArray :=
  match step with
  | (.error fault, source) => (.error fault, source)
  | (.ok done, source) =>
    if !present then (.ok done, source)
    else
      match field source d with
      | (.error fault, source) => (.error fault, source)
      | (.ok bytes, source) => (.ok (done ++ bytes), source)

/-- Reads the header of a member. -/
def readHeader (source : FileReader) (d : Disk) : HeaderStep Unit :=
  match exactly fixedHeaderSize source d with
  | (.error fault, source) => (.error fault, source)
  | (.ok fixed, source) =>
    let flags := HeaderFlags.ofByte (fixed.data.getD 3 0)
    if fixed.data[0]? ≠ some 0x1f ∨ fixed.data[1]? ≠ some 0x8b ∨ fixed.data[2]? ≠ some 8
        ∨ flags.reserved then
      (.error (.io .gzipHeader), source)
    else
      let step := optional flags.extra extraField (.ok fixed, source) d
      let step := optional flags.name untilZero step d
      match optional flags.comment untilZero step d with
      | (.error fault, source) => (.error fault, source)
      | (.ok header, source) =>
        if !flags.check then (.ok (), source)
        else
          match exactly 2 source d with
          | (.error fault, source) => (.error fault, source)
          | (.ok check, source) =>
            if LittleEndian.decode check.data.toList = (Crc32.compute header).toNat % 65536
            then (.ok (), source)
            else (.error (.io .gzipChecksum), source)

end TraceStore.Gzip
