import TraceStore.Cli.Failure
import TraceStore.Trace

/-!
# The repack command

Copies a trace into another one, which may have another format and other chunks.
-/
namespace TraceStore.Cli

variable [Compression]

/-- Bytes copied at a time. -/
def copySize : Nat := 65536

/-- Copies pieces until the source ends or an operation fails. Every piece holds a byte at least,
so `fuel` rounds are enough for fewer bytes. -/
def pumpWithin : Nat → Trace → Trace → Disk → Except Failure Unit × Trace × Disk
  | 0, _, sink, d => (.ok (), sink, d)
  | fuel + 1, source, sink, d =>
    match source.readSome copySize d with
    | (.error e, _) => (.error ⟨.decodeInput, .trace e⟩, sink, d)
    | (.ok bytes, source) =>
      if bytes.isEmpty then (.ok (), sink, d)
      else
        match sink.write bytes d with
        | ⟨.error e, sink, d⟩ => (.error ⟨.writeOutput, .trace e⟩, sink, d)
        | ⟨.ok (), sink, d⟩ => pumpWithin fuel source sink d

/-- Copies the whole of a source. -/
def pump (source sink : Trace) (d : Disk) : Except Failure Unit × Trace × Disk :=
  pumpWithin (source.backend.remaining d + 1) source sink d

/-- Repacks the trace at `input` into `output`. If it fails on the way, the output holds what was
copied by then. -/
def repack (input output : String) (format : Format) (options : WriteOptions) (d : Disk) :
    Except Failure Unit × Disk :=
  match Trace.openForRead input d with
  | .error e => (.error ⟨.openTrace input, .trace e⟩, d)
  | .ok (source, d) =>
    match Trace.openForWrite output format options d with
    | .error e => (.error ⟨.createTrace output, .trace e⟩, d)
    | .ok (sink, d) =>
      match pump source sink d with
      | (.error failure, sink, d) => (.error failure, sink.release d)
      | (.ok (), sink, d) =>
        match sink.flush d with
        | ⟨.error e, sink, d⟩ => (.error ⟨.flushOutput, .trace e⟩, sink.release d)
        | ⟨.ok (), sink, d⟩ => (.ok (), sink.release d)

end TraceStore.Cli
