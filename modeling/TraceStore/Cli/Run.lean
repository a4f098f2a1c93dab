import TraceStore.Cli.Args
import TraceStore.Cli.Info
import TraceStore.Cli.Repack

/-!
# Running a command line
-/
namespace TraceStore.Cli

variable [Compression]

/-- How a command line ends. -/
inductive Exit
  /-- It is not a proper command line. -/
  | usage
  /-- The command was carried out and prints `output`. -/
  | done (output : String)
  /-- The command failed. -/
  | failed (failure : Failure)
deriving DecidableEq, Repr

namespace Exit

/-- Exit code of a command line. -/
def code : Exit → UInt8
  | done _ => 0
  | failed _ => 1
  | usage => 2

/-- What a command line prints as its output. -/
def output : Exit → String
  | done output => output
  | _ => ""

/-- What a command line prints on failure. -/
def errorOutput : Exit → String
  | failed failure => failure.report
  | usage => "usage: info PATH [--json] [--chunks]\n"
      ++ "       repack INPUT OUTPUT [--format zlib|snappy|zstd] [--chunk-size N]\n"
  | done _ => ""

end Exit

namespace Request

/-- Carries a request out. -/
def run (request : Request) (d : Disk) : Exit × Disk :=
  match request with
  | .info path json chunks =>
    match Cli.info path chunks d with
    | .error failure => (.failed failure, d)
    | .ok report => (.done (if json then report.toJson.pretty ++ "\n" else report.toText), d)
  | .repack input output format chunkSize =>
    match Cli.repack input output format { (default : WriteOptions) with chunkSize } d with
    | (.error failure, d) => (.failed failure, d)
    | (.ok (), d) => (.done "", d)

end Request

/-- Runs a command line. -/
def run (args : List String) (d : Disk) : Exit × Disk :=
  match Request.parse args with
  | none => (.usage, d)
  | some request => request.run d

end TraceStore.Cli
