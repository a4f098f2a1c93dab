import TraceStore.Cli.Failure
import TraceStore.Cli.Report
import TraceStore.Trace

/-!
# The info command

Reads a trace to its end and reports on it.
-/
namespace TraceStore.Cli

variable [Compression]

/-- Bytes read from a trace at a time. -/
def bufferSize : Nat := 65536

/-- The chunks that pieces came from, in order and each once. -/
def chunksOf : List Trace.Piece → List UInt64
  | [] => []
  | piece :: rest =>
    match chunksOf rest with
    | [] => [piece.chunk]
    | chunk :: chunks => if piece.chunk = chunk then chunk :: chunks else piece.chunk :: chunk :: chunks

/-- Reports on the trace at a path. -/
def info (path : String) (listChunks : Bool) (d : Disk) : Except Failure Report := do
  let fail {α : Type} (activity : Activity) (reason : Reason) : Except Failure α :=
    .error ⟨activity, reason⟩
  let compressedSize ← match d.lookup path with
    | .ok node => pure (d.size node)
    | .error cause => fail (.stat path) (.fileSystem cause)
  let (f, d) ← match Trace.openForRead path d with
    | .ok opened => pure opened
    | .error e => fail (.openTrace path) (.trace e)
  match f.pieces bufferSize d with
  | (_, .error e, _) => fail .decodeInput (.trace e)
  | (pieces, .ok (), f) =>
    return {
      path
      format := f.format
      supportsOffsets := f.supportsOffsets
      compressedSize
      uncompressedSize := pieces.foldl (fun size piece => size + piece.bytes.size) 0
      chunks := if listChunks && f.supportsOffsets
        then some ((chunksOf pieces).map (⟨·, 0⟩)) else none }

end TraceStore.Cli
