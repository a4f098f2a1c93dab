import TraceStore.Format
import TraceStore.Gzip.Header
import TraceStore.Proofs.Deflate.Inflate

/-!
# Members of a gzip file

A member is a header, a deflate stream, and a trailer that belongs to what the stream holds. A file
is one member after the other.
-/
namespace TraceStore.Gzip

open Deflate

/-- The check and the length at the end of a member. -/
def trailerOf (written : List UInt8) : ByteArray :=
  LittleEndian.bytes 4 (Crc32.compute ⟨written.toArray⟩).toNat ++ LittleEndian.bytes 4 written.length

@[simp] theorem size_trailerOf (written : List UInt8) : (trailerOf written).size = 8 := by
  simp [trailerOf]

/-- The header of a member that has none of the optional fields. -/
structure PlainHeader (header : List UInt8) : Prop where
  length_eq : header.length = fixedHeaderSize
  begins : [0x1f, 0x8b, 8, 0] <+: header

theorem plainHeader_fixedHeader : PlainHeader fixedHeader.data.toList :=
  ⟨rfl, ⟨[0, 0, 0, 0, 0, 0xff], rfl⟩⟩

/-- The bytes of a member that holds `data`. -/
def IsMember (bytes data : List UInt8) : Prop :=
  ∃ header stream, PlainHeader header ∧ Inflate.Holds data stream ∧
    bytes = header ++ (stream ++ (trailerOf data).data.toList)

theorem IsMember.magic {bytes data : List UInt8} (h : IsMember bytes data) :
    [Format.zlib.magic.1, Format.zlib.magic.2] <+: bytes := by
  obtain ⟨header, stream, hheader, -, rfl⟩ := h
  obtain ⟨behind, rfl⟩ := hheader.begins
  exact ⟨_, rfl⟩

/-- A member in full, and what it holds. -/
structure WholeMember where
  bytes : List UInt8
  data : List UInt8
  isMember : IsMember bytes data

/-- The file of some members. -/
def fileOf (ms : List WholeMember) : List UInt8 := ms.flatMap (·.bytes)

/-- What some members hold. -/
def dataOf (ms : List WholeMember) : List UInt8 := ms.flatMap (·.data)

@[simp] theorem fileOf_nil : fileOf [] = [] := rfl
@[simp] theorem fileOf_cons (m : WholeMember) (ms : List WholeMember) :
    fileOf (m :: ms) = m.bytes ++ fileOf ms := rfl
@[simp] theorem fileOf_append (ms ms' : List WholeMember) :
    fileOf (ms ++ ms') = fileOf ms ++ fileOf ms' := List.flatMap_append ..
@[simp] theorem dataOf_nil : dataOf [] = [] := rfl
@[simp] theorem dataOf_cons (m : WholeMember) (ms : List WholeMember) :
    dataOf (m :: ms) = m.data ++ dataOf ms := rfl
@[simp] theorem dataOf_append (ms ms' : List WholeMember) :
    dataOf (ms ++ ms') = dataOf ms ++ dataOf ms' := List.flatMap_append ..

end TraceStore.Gzip
