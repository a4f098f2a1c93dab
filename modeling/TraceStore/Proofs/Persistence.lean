import TraceStore.Proofs.Bytes
import TraceStore.Proofs.Json.Print
import TraceStore.Proofs.Json.Record

/-!
# What is kept outlives the program

Offsets are kept in index files, as twelve bytes or as JSON, and write options in configurations, as
JSON. Both are read back as they were written. A text that somebody else wrote is read by what it
spells: fields may stand in any order among others, and whatever is left out of write options has
its default.

* `Offset.decode_encode`, `Offset.encode_decode`: offsets as bytes.
* `Offset.ofJson?_toJson`, `WriteOptions.ofJson?_toJson`: the records as JSON values.
* `records_survive`: all forms together, with the texts that are refused.
-/
namespace TraceStore

namespace Offset

theorem decode_encode (a : Offset) : decode a.encode = a := by
  have hchunk : a.chunk.toNat < 256 ^ 8 := a.chunk.toNat_lt
  have hinChunk : a.inChunk.toNat < 256 ^ 4 := a.inChunk.toNat_lt
  rw [decode, encode, List.take_left' (LittleEndian.length_encode 8 _),
    List.drop_left' (LittleEndian.length_encode 8 _),
    List.take_of_length_le (LittleEndian.length_encode 4 _).le,
    LittleEndian.decode_encode_of_lt hchunk, LittleEndian.decode_encode_of_lt hinChunk, ofNat,
    UInt64.ofNat_toNat, UInt32.ofNat_toNat]

theorem encode_decode {bytes : List UInt8} (h : bytes.length = encodedSize) :
    (decode bytes).encode = bytes := by
  have hfour : (bytes.drop 8).length = 4 := by
    rw [List.length_drop, h]
    rfl
  have height : (bytes.take 8).length = 8 := by
    rw [List.length_take, h]
    rfl
  have hfirst := LittleEndian.encode_decode (bytes.take 8)
  have hsecond := LittleEndian.encode_decode (bytes.drop 8)
  have hlt := LittleEndian.decode_lt (bytes.take 8)
  have hlt' := LittleEndian.decode_lt (bytes.drop 8)
  rw [height] at hfirst hlt
  rw [hfour] at hsecond hlt'
  rw [encode, decode, List.take_of_length_le hfour.le, ofNat, UInt64.toNat_ofNat_of_lt' hlt,
    UInt32.toNat_ofNat_of_lt' hlt', hfirst, hsecond, List.take_append_drop]

theorem ofJson?_toJson (a : Offset) : ofJson? a.toJson = some a :=
  ofJson?_eq_some_iff.2 (.object (by simp) (.cons (by simp) (.cons (by simp) .nil)))

theorem ofJsonText?_toJsonText (a : Offset) : ofJsonText? a.toJsonText = some a := by
  have hprintable : a.toJson.Printable := ⟨rfl, trivial, rfl, trivial, trivial⟩
  rw [ofJsonText?, toJsonText, Json.parse_compact hprintable, Option.bind_some, ofJson?_toJson]

end Offset

namespace WriteOptions

theorem ofJson?_toJson (o : WriteOptions) : ofJson? o.toJson = some o :=
  ofJson?_eq_some_iff.2 ⟨some o.chunkSize, some o.zlibLevel, some o.zstdLevel,
    .object (by simp) (.cons (by simp) (.cons (by simp) (.cons (by simp) .nil))), rfl⟩

theorem ofJsonText?_toJsonText (o : WriteOptions) : ofJsonText? o.toJsonText = some o := by
  have hprintable : o.toJson.Printable := ⟨rfl, trivial, rfl, trivial, rfl, trivial, trivial⟩
  rw [ofJsonText?, toJsonText, Json.parse_compact hprintable, Option.bind_some, ofJson?_toJson]

end WriteOptions

/-- Offsets and write options are read back from their bytes and from their texts. Any other text
is read by the value that it spells. If that holds some of the fields of write options, each once
and in its range, the others have their defaults, and if it holds both fields of an offset, it is
that offset. A text is refused if a field is there twice or has anything but an integer of its
range, if an array is too long, and for offsets if a field is not there. -/
theorem records_survive :
    (∀ a : Offset, Offset.decode a.encode = a) ∧
    (∀ bytes : List UInt8, bytes.length = Offset.encodedSize →
      (Offset.decode bytes).encode = bytes) ∧
    (∀ a : Offset, Offset.ofJsonText? a.toJsonText = some a) ∧
    (∀ o : WriteOptions, WriteOptions.ofJsonText? o.toJsonText = some o) ∧
    ∀ (json : Json) (text : String), json.SpelledBy text →
      (∀ (chunkSize : Option UInt64) (zlibLevel : Option UInt32) (zstdLevel : Option Int32),
        json.Holds WriteOptions.fieldNames [chunkSize.map (.ofNat ·.toNat),
          zlibLevel.map (.ofNat ·.toNat),
          zstdLevel.map fun level => .number (.integer level.toInt)] →
        WriteOptions.ofJsonText? text = some ⟨chunkSize.getD (default : WriteOptions).chunkSize,
          zlibLevel.getD (default : WriteOptions).zlibLevel,
          zstdLevel.getD (default : WriteOptions).zstdLevel⟩) ∧
      (∀ a : Offset, json.Holds Offset.fieldNames
          [some (.ofNat a.chunk.toNat), some (.ofNat a.inChunk.toNat)] →
        Offset.ofJsonText? text = some a) ∧
      (json.Misfits WriteOptions.fields → WriteOptions.ofJsonText? text = none) ∧
      (json.Misfits Offset.fields ∨ json.Lacks Offset.fields → Offset.ofJsonText? text = none) := by
  refine ⟨Offset.decode_encode, fun _ h => Offset.encode_decode h, Offset.ofJsonText?_toJsonText,
    WriteOptions.ofJsonText?_toJsonText, fun json text hspelled => ?_⟩
  have hparse := Json.parse_eq_some_iff.2 hspelled
  rw [WriteOptions.ofJsonText?, Offset.ofJsonText?, hparse, Option.bind_some, Option.bind_some]
  refine ⟨fun chunkSize zlibLevel zstdLevel h => ?_, fun a h => Offset.ofJson?_eq_some_iff.2 h,
    WriteOptions.ofJson?_eq_none, Offset.ofJson?_eq_none⟩
  exact WriteOptions.ofJson?_eq_some_iff.2 ⟨chunkSize, zlibLevel, zstdLevel, h, rfl⟩

/-- Options in another order, with a comment between them, and a list of two numbers. -/
theorem records_survive_reordered :
    let options := Json.ofMembers [("zstd_level", .number (.integer (-7))),
      ("comment", .array [.null, .bool true]), ("chunk_size", .ofNat 4)]
    let pair := Json.array [.ofNat 8, .ofNat 3]
    Offset.ofJsonText? pair.compact = some ⟨8, 3⟩ ∧
      WriteOptions.ofJsonText? options.compact = some ⟨4, 6, -7⟩ ∧
      Offset.ofJsonText? options.compact = none ∧
      (Offset.decode (List.replicate 12 7)).encode = List.replicate 12 7 := by
  intro options pair
  obtain ⟨-, hbytes, -, -, htexts⟩ := records_survive
  have hoptions : options.SpelledBy options.compact := Json.spells_compact _
    ⟨rfl, trivial, rfl, ⟨trivial, trivial, trivial⟩, rfl, trivial, trivial⟩
  have hpair : pair.SpelledBy pair.compact := Json.spells_compact _ ⟨trivial, trivial, trivial⟩
  refine ⟨?_, ?_, ?_, hbytes _ rfl⟩
  · exact (htexts pair _ hpair).2.1 ⟨8, 3⟩ (.array (by decide))
  · refine (htexts options _ hoptions).1 (some 4) none (some (-7)) (.object ?_ ?_)
    · simp
    · exact .cons (by simp) (.cons (by simp) (.cons (by simp) .nil))
  · refine (htexts options _ hoptions).2.2.2 (.inr (.object List.mem_cons_self ?_))
    simp

end TraceStore
