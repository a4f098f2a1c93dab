import TraceStore.Disk.Basic

/-!
# Reading a file through a buffer

A `FileReader` fetches a file in blocks and hands the bytes out in order. What it has fetched it
delivers even if the file changes afterwards; what it has not fetched it takes from the file as
that is when it asks.
-/
namespace TraceStore

/-- A file that is being read from front to back. -/
structure FileReader where
  node : Nat
  /-- Bytes fetched at a time. -/
  blockSize : Nat
  /-- Position in the file of the next byte to fetch. -/
  position : Nat
  /-- Bytes fetched and not handed out. -/
  pending : ByteArray

namespace FileReader

/-- A reader at the start of a node. -/
def start (node blockSize : Nat) : FileReader := ⟨node, blockSize, 0, .empty⟩

/-- A reader at a position of the same file, with nothing fetched. -/
def seek (r : FileReader) (position : Nat) : FileReader :=
  { r with position, pending := .empty }

/-- Bytes of the file, and of what has been fetched, that were not handed out. -/
def unread (r : FileReader) (d : Disk) : Nat :=
  r.pending.size + (d.size r.node - r.position)

/-- Fetches a block if nothing fetched is left. The reader stays as it was if that fails. -/
def fetch (r : FileReader) (d : Disk) : Except IoError FileReader :=
  if r.pending.isEmpty then
    (d.readAt r.node r.position r.blockSize).map fun block =>
      { r with position := r.position + block.size, pending := block }
  else .ok r

/-- The next `count` bytes, or all that are left. A request of a block or more beyond what has
been fetched goes to the file directly; a smaller one fetches a block. -/
def read (r : FileReader) (count : Nat) (d : Disk) : Except IoError ByteArray × FileReader :=
  if count ≤ r.pending.size then
    (.ok (r.pending.extract 0 count),
      { r with pending := r.pending.extract count r.pending.size })
  else
    let missing := count - r.pending.size
    let emptied := { r with pending := .empty }
    if r.blockSize ≤ missing then
      match d.readAt r.node r.position missing with
      | .ok bytes => (.ok (r.pending ++ bytes), { emptied with position := r.position + bytes.size })
      | .error cause => (.error cause, emptied)
    else
      match emptied.fetch d with
      | .ok fetched =>
        (.ok (r.pending ++ fetched.pending.extract 0 missing),
          { fetched with pending := fetched.pending.extract missing fetched.pending.size })
      | .error cause => (.error cause, emptied)

end FileReader
end TraceStore
