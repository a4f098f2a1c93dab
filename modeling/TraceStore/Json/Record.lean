import TraceStore.Json.Parser
import TraceStore.Format
import TraceStore.Offset
import TraceStore.Options

/-!
# Offsets, write options and formats as JSON

The two records are written as objects with their fields in order. They are read from an object
with the fields in any order among unknown ones, or from an array of the fields in order. A field
may not be repeated. An offset needs both of its fields; write options default those they lack.
A format is its name, or an object with its name as the only key and `null` as the value.
-/
namespace TraceStore

namespace Json

/-- An integer of a value, if it lies from `low` up to but not including `high`. -/
def intBetween? (low high : Int) : Json → Option Int
  | number (.integer n) => if low ≤ n ∧ n < high then some n else none
  | _ => none

/-- A 64-bit count. -/
def uint64? (value : Json) : Option UInt64 :=
  (value.intBetween? 0 (2 ^ 64)).map fun n => UInt64.ofNat n.toNat

/-- A 32-bit count. -/
def uint32? (value : Json) : Option UInt32 :=
  (value.intBetween? 0 (2 ^ 32)).map fun n => UInt32.ofNat n.toNat

/-- A signed 32-bit number. -/
def int32? (value : Json) : Option Int32 :=
  (value.intBetween? (-2 ^ 31) (2 ^ 31)).map Int32.ofInt

/-- The values of the fields `names` in an object or an array, in the order of `names`, each
missing if it is not there. An array may leave out fields at its end. -/
def fields? (names : List String) : Json → Option (List (Option Json))
  | object members =>
    if members.any (·.1.isNone) then none
    else names.mapM fun name =>
      match members.filter (·.1 == some name) with
      | [] => some none
      | [(_, value)] => some (some value)
      | _ => none
  | array items =>
    if items.length ≤ names.length then
      some (items.map some ++ List.replicate (names.length - items.length) none)
    else none
  | _ => none

/-- Reads a field that may be missing, for which `absent` then stands. -/
def fieldOr {α : Type} (read : Json → Option α) (absent : Option α) : Option Json → Option α
  | some value => read value
  | none => absent

end Json

namespace Offset

/-- Field names of an offset, in order. -/
def fieldNames : List String := ["chunk", "offset_in_chunk"]

/-- An offset as a JSON object. -/
def toJson (a : Offset) : Json :=
  .ofMembers [("chunk", .ofNat a.chunk.toNat), ("offset_in_chunk", .ofNat a.inChunk.toNat)]

/-- The offset that a JSON value describes. -/
def ofJson? (json : Json) : Option Offset := do
  match ← json.fields? fieldNames with
  | [chunk, inChunk] =>
    return ⟨← Json.fieldOr Json.uint64? none chunk, ← Json.fieldOr Json.uint32? none inChunk⟩
  | _ => none

/-- An offset as JSON text. -/
def toJsonText (a : Offset) : String := a.toJson.compact

/-- The offset that a JSON text describes. -/
def ofJsonText? (text : String) : Option Offset := (Json.parse text).bind ofJson?

end Offset

namespace WriteOptions

/-- Field names of write options, in order. -/
def fieldNames : List String := ["chunk_size", "zlib_level", "zstd_level"]

/-- Write options as a JSON object. -/
def toJson (o : WriteOptions) : Json :=
  .ofMembers [("chunk_size", .ofNat o.chunkSize.toNat), ("zlib_level", .ofNat o.zlibLevel.toNat),
    ("zstd_level", .number (.integer o.zstdLevel.toInt))]

/-- The write options that a JSON value describes. -/
def ofJson? (json : Json) : Option WriteOptions := do
  let preset : WriteOptions := default
  match ← json.fields? fieldNames with
  | [chunkSize, zlibLevel, zstdLevel] =>
    return ⟨← Json.fieldOr Json.uint64? (some preset.chunkSize) chunkSize,
      ← Json.fieldOr Json.uint32? (some preset.zlibLevel) zlibLevel,
      ← Json.fieldOr Json.int32? (some preset.zstdLevel) zstdLevel⟩
  | _ => none

/-- Write options as JSON text. -/
def toJsonText (o : WriteOptions) : String := o.toJson.compact

/-- The write options that a JSON text describes. -/
def ofJsonText? (text : String) : Option WriteOptions := (Json.parse text).bind ofJson?

end WriteOptions

namespace Format

/-- A format as JSON. -/
def toJson (format : Format) : Json := .ofString format.name

/-- The format that a JSON value describes. -/
def ofJson? : Json → Option Format
  | .string (some name) => ofName? name
  | .object [(some name, .null)] => ofName? name
  | _ => none

/-- A format as JSON text. -/
def toJsonText (format : Format) : String := format.toJson.compact

/-- The format that a JSON text describes. -/
def ofJsonText? (text : String) : Option Format := (Json.parse text).bind ofJson?

end Format
end TraceStore
