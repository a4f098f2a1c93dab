import TraceStore.Backend

/-!
# Handles

A `File` is a handle on one trace. It knows whether it is open and for what, checks every request
against that before its backend hears of it, and closes what it has opened.
-/
namespace TraceStore

/-- A handle over a backend. -/
structure File (β : Type) where
  filename : String
  mode : Mode
  opened : Bool
  backend : β

namespace File

variable {β : Type}

/-- A closed handle without a file name. -/
def new (backend : β) : File β := ⟨"", .read, false, backend⟩

/-- A closed handle with a file name and a mode to open it with. -/
def bound (backend : β) (filename : String) (mode : Mode) : File β :=
  ⟨filename, mode, false, backend⟩

/-- Refuses a request that needs the handle open in another mode. -/
def check (f : File β) (expected : Mode) : Except Error Unit :=
  if !f.opened then .error .notOpened
  else if f.mode = expected then .ok ()
  else .error (.wrongMode expected f.mode)

variable [Backend β]

/-- Format of the traces of this handle. -/
def format (f : File β) : Format := Backend.format f.backend

/-- Whether the handle can tell and set positions. -/
def supportsOffsets (f : File β) : Bool := Backend.supportsOffsets f.backend

/-- Closes the handle, if it is open. -/
def close (f : File β) (d : Disk) : File β × Disk :=
  if f.opened then
    let (backend, d) := Backend.close f.backend d
    ({ f with opened := false, backend }, d)
  else (f, d)

/-- Closes the handle and opens a path. The path and the mode are kept even if that fails, and the
handle is then closed. -/
def «open» (filename : String) (mode : Mode) (f : File β) (d : Disk) : Outcome (File β) Unit :=
  let (f, d) := f.close d
  let o := Backend.acquire filename mode f.backend d
  ⟨o.result, ⟨filename, mode, o.result.isOk, o.state⟩, o.disk⟩

/-- Opens the file name and mode that the handle holds. -/
def openBound (f : File β) (d : Disk) : Outcome (File β) Unit := f.open f.filename f.mode d

/-- Runs a request that needs the handle open for reading. -/
def reading {α : Type} (f : File β) (request : β → Except Error α × β) :
    Except Error α × File β :=
  match f.check .read with
  | .error e => (.error e, f)
  | .ok () => let (result, backend) := request f.backend; (result, { f with backend })

/-- Writes all of the given bytes. -/
def write (bytes : ByteArray) (f : File β) (d : Disk) : Outcome (File β) Unit :=
  match f.check .write with
  | .error e => ⟨.error e, f, d⟩
  | .ok () => (Backend.write bytes f.backend d).mapState ({ f with backend := · })

/-- The next `count` bytes, all of them or an error. -/
def read (count : Nat) (f : File β) (d : Disk) : Except Error ByteArray × File β :=
  f.reading fun b => Backend.read count b d

/-- Some of the next bytes, at most `count`; none at the end of the stream. -/
def readSome (count : Nat) (f : File β) (d : Disk) : Except Error ByteArray × File β :=
  f.reading fun b => Backend.readSome count b d

/-- The next byte. Misuse and failures count as none. -/
def getc (f : File β) (d : Disk) : Option UInt8 × File β :=
  match f.check .read with
  | .error _ => (none, f)
  | .ok () => let (byte, backend) := Backend.getc f.backend d; (byte, { f with backend })

/-- Passes over the next `count` bytes. -/
def skip (count : Nat) (f : File β) (d : Disk) : Except Error Unit × File β :=
  f.reading fun b => Backend.skip count b d

/-- Makes what was written visible in the file. Does nothing unless the handle is open for
writing. -/
def flush (f : File β) (d : Disk) : Outcome (File β) Unit :=
  match f.check .write with
  | .error _ => ⟨.ok (), f, d⟩
  | .ok () => (Backend.flush f.backend d).mapState ({ f with backend := · })

/-- Position of the next byte; the start of the stream if the handle is closed or its backend has
no positions. -/
def currentOffset (f : File β) : Offset × File β :=
  if f.opened && f.supportsOffsets then
    let (a, backend) := Backend.currentOffset f.backend
    (a, { f with backend })
  else (default, f)

/-- Goes to a position. -/
def setCurrentOffset (a : Offset) (f : File β) (d : Disk) : Except Error Unit × File β :=
  f.reading fun b =>
    if Backend.supportsOffsets b then Backend.setCurrentOffset a b d
    else (.error .offsetsUnsupported, b)

/-- Share of the file that has been read, in percent; nothing unless it is open for reading. -/
def percentRead (f : File β) : Nat × File β :=
  match f.check .read with
  | .error _ => (0, f)
  | .ok () => let (share, backend) := Backend.percentRead f.backend; (share, { f with backend })

/-- Closes the handle and gives its backend up. -/
def release (f : File β) (d : Disk) : Disk :=
  let (f, d) := f.close d
  Backend.release f.backend d

end File
end TraceStore
