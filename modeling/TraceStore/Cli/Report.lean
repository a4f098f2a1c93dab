import TraceStore.Json.Record

/-!
# The report on a trace

What the info command finds out, as text and as JSON.
-/
namespace TraceStore.Cli

/-- What is known of a trace that was read to its end. -/
structure Report where
  path : String
  format : Format
  supportsOffsets : Bool
  compressedSize : Nat
  uncompressedSize : Nat
  /-- Where the chunks that hold anything start, if that was asked for and there are chunks. -/
  chunks : Option (List Offset)
deriving DecidableEq, Repr

namespace Report

/-- A truth value in words. -/
def yesNo (b : Bool) : String := if b then "true" else "false"

/-- A report as text: a line for each thing, with the values below each other. -/
def toText (r : Report) : String :=
  "path:             " ++ r.path ++ "\n"
    ++ "format:           " ++ r.format.name ++ "\n"
    ++ "supports offsets: " ++ yesNo r.supportsOffsets ++ "\n"
    ++ "compressed:       " ++ toString r.compressedSize ++ " bytes\n"
    ++ "uncompressed:     " ++ toString r.uncompressedSize ++ " bytes\n"
    ++ match r.chunks with
      | none => ""
      | some chunks =>
        "chunks:           " ++ toString chunks.length ++ "\n"
          ++ String.join (chunks.map fun a => "  chunk @ " ++ toString a.chunk.toNat ++ "\n")

/-- A report as a JSON object. Chunks that were not asked for are left out. -/
def toJson (r : Report) : Json :=
  .ofMembers <|
    [("path", .ofString r.path), ("format", r.format.toJson),
      ("supports_offsets", .bool r.supportsOffsets),
      ("compressed_len", .ofNat r.compressedSize),
      ("uncompressed_len", .ofNat r.uncompressedSize)]
    ++ match r.chunks with
      | none => []
      | some chunks => [("chunks", .array (chunks.map Offset.toJson))]

end Report
end TraceStore.Cli
