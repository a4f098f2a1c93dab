import TraceStore.Error

/-!
# Formats

The three storage formats of a trace, their names, and the two bytes that tell them apart.
-/
namespace TraceStore

/-- How a trace is stored. -/
inductive Format
  | zlib
  | snappy
  | zstd
deriving DecidableEq, Repr

namespace Format

/-- Traces are written as snappy unless another format is asked for. -/
instance : Inhabited Format := ⟨snappy⟩

/-- Name of a format. -/
def name : Format → String
  | zlib => "zlib"
  | snappy => "snappy"
  | zstd => "zstd"

/-- The format with exactly this name. -/
def ofName? (s : String) : Option Format :=
  [zlib, snappy, zstd].find? (·.name == s)

/-- Reads a format's name in any case of ASCII letters; `gzip` and `gz` also mean zlib. -/
def parse (s : String) : Except Error Format :=
  let lower := String.ofList (s.toList.map Char.toLower)
  if lower = "gzip" ∨ lower = "gz" then .ok zlib
  else match ofName? lower with
    | some format => .ok format
    | none => .error .unknownFormat

/-- The two bytes that a file of this format starts with. -/
def magic : Format → UInt8 × UInt8
  | zlib => (0x1f, 0x8b)
  | snappy => (0x61, 0x74)
  | zstd => (0x7a, 0x74)

/-- Whether `head`, the first two bytes of a file, is exactly this format's magic. -/
def matchesHead (format : Format) (head : ByteArray) : Bool :=
  head.data.toList == [format.magic.1, format.magic.2]

/-- The format of a file that starts with `head`. -/
def ofHead? (head : ByteArray) : Option Format :=
  [snappy, zstd, zlib].find? (·.matchesHead head)

end Format
end TraceStore
