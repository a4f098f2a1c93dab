import TraceStore.Disk.Basic

/-!
# Writing a file through a buffer

A `FileWriter` holds bytes back until a block of them has come together, or until they are asked
to reach the file. `Outcome` is the shape of every operation that may change a disk: its result,
and the state and the disk that it leaves, whether it succeeded or not.
-/
namespace TraceStore

/-- What an operation on a state `σ` and a disk leaves behind. -/
structure Outcome (σ α : Type) where
  result : Except Error α
  state : σ
  disk : Disk

namespace Outcome

variable {σ τ α : Type}

/-- The same outcome seen as one of a larger state. -/
def mapState (f : σ → τ) (o : Outcome σ α) : Outcome τ α :=
  ⟨o.result, f o.state, o.disk⟩

end Outcome

/-- A file that is being written from front to back. -/
structure FileWriter where
  node : Nat
  /-- Position in the file of the next byte to pass on. -/
  position : Nat
  /-- Bytes written and not passed on. -/
  pending : ByteArray

namespace FileWriter

/-- Bytes held back at most. -/
def blockSize : Nat := 8192

/-- A writer at the start of a node. -/
def start (node : Nat) : FileWriter := ⟨node, 0, .empty⟩

/-- Passes bytes on to the file. -/
def passOn (bytes : ByteArray) (w : FileWriter) (d : Disk) : Outcome FileWriter Unit :=
  match d.writeAt w.node w.position bytes with
  | .ok d => ⟨.ok (), { w with position := w.position + bytes.size }, d⟩
  | .error cause => ⟨.error (.io cause), w, d⟩

/-- Passes everything on that was held back. It stays held back if the file refuses it. -/
def flush (w : FileWriter) (d : Disk) : Outcome FileWriter Unit :=
  let o := w.passOn w.pending d
  match o.result with
  | .ok () => ⟨.ok (), { o.state with pending := .empty }, o.disk⟩
  | .error e => ⟨.error e, w, o.disk⟩

/-- Writes bytes. Those held back are passed on first if the new ones do not fit beside them, and
a block or more at once is passed on directly. -/
def write (bytes : ByteArray) (w : FileWriter) (d : Disk) : Outcome FileWriter Unit :=
  if w.pending.size + bytes.size ≤ blockSize ∧ bytes.size < blockSize then
    ⟨.ok (), { w with pending := w.pending ++ bytes }, d⟩
  else
    let o := if w.pending.size + bytes.size ≤ blockSize then ⟨.ok (), w, d⟩ else w.flush d
    match o.result with
    | .error e => ⟨.error e, o.state, o.disk⟩
    | .ok () =>
      if blockSize ≤ bytes.size then o.state.passOn bytes o.disk
      else ⟨.ok (), { o.state with pending := o.state.pending ++ bytes }, o.disk⟩

/-- Gives the writer up. What was held back is passed on if the file takes it. -/
def release (w : FileWriter) (d : Disk) : Disk := (w.flush d).disk

end FileWriter
end TraceStore
