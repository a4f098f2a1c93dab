import TraceStore.Disk.Writer
import TraceStore.Format
import TraceStore.Offset

/-!
# Backends

A backend stores one trace at a time. Its operations trust their caller: a handle asks only for
what the backend is open for. Reading looks at the disk and leaves it alone; opening, writing,
flushing and closing may change it.
-/
namespace TraceStore

/-- The operations that a storage format provides. -/
class Backend (β : Type) where
  /-- Format of the traces that it stores. -/
  format : β → Format
  /-- Whether it can tell and set positions. -/
  supportsOffsets : β → Bool
  /-- Opens a path. If that fails, what was open before stays. -/
  acquire : String → Mode → β → Disk → Outcome β Unit
  /-- Writes all of the given bytes. -/
  write : ByteArray → β → Disk → Outcome β Unit
  /-- The next bytes, exactly as many as asked for. -/
  read : Nat → β → Disk → Except Error ByteArray × β
  /-- Some of the next bytes, at most as many as asked for. None are left if it delivers none
  though some were asked for. -/
  readSome : Nat → β → Disk → Except Error ByteArray × β
  /-- The next byte, if there is one and it can be had. -/
  getc : β → Disk → Option UInt8 × β
  /-- Passes over exactly as many bytes as told. -/
  skip : Nat → β → Disk → Except Error Unit × β
  /-- Makes everything written so far visible to readers of the file. -/
  flush : β → Disk → Outcome β Unit
  /-- Finishes what is open. Failures stay without an answer. -/
  close : β → Disk → β × Disk
  /-- Position of the next byte. -/
  currentOffset : β → Offset × β := fun b => (default, b)
  /-- Goes to a position. -/
  setCurrentOffset : Offset → β → Disk → Except Error Unit × β := fun _ b _ => (.ok (), b)
  /-- Share of the file that has been read, in percent. -/
  percentRead : β → Nat × β := fun b => (0, b)
  /-- Gives the backend up without closing it. -/
  release : β → Disk → Disk := fun _ d => d

end TraceStore
