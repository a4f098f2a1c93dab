import TraceStore.Error

/-!
# Failures of a command

A command that fails says what it was doing and what went wrong there.
-/
namespace TraceStore.Cli

/-- What a command was doing when it failed. -/
inductive Activity
  | stat (path : String)
  | openTrace (path : String)
  | createTrace (path : String)
  | decodeInput
  | writeOutput
  | flushOutput
deriving DecidableEq, Repr

namespace Activity

/-- Text of an activity. -/
def text : Activity → String
  | stat path => "stat " ++ path
  | openTrace path => "open " ++ path
  | createTrace path => "create " ++ path
  | decodeInput => "decode input"
  | writeOutput => "write output"
  | flushOutput => "flush output"

end Activity

/-- Why an activity failed: the file system refused it, or an operation on a trace. -/
inductive Reason
  | fileSystem (cause : IoError)
  | trace (e : Error)
deriving DecidableEq, Repr

namespace Reason

/-- Texts of a reason, each explained by the next. -/
def texts : Reason → List String
  | fileSystem cause => [cause.message]
  | trace (.io cause) => [(Error.io cause).message, cause.message]
  | trace e => [e.message]

end Reason

/-- A failure of a command. -/
structure Failure where
  activity : Activity
  reason : Reason
deriving DecidableEq, Repr

namespace Failure

/-- The report of a failure: what was done, and the reasons, numbered if there are several. -/
def report (f : Failure) : String :=
  let lines := match f.reason.texts with
    | [text] => "    " ++ text ++ "\n"
    | texts => String.join <| texts.zipIdx.map fun (text, i) =>
      "    " ++ toString i ++ ": " ++ text ++ "\n"
  "Error: " ++ f.activity.text ++ "\n\nCaused by:\n" ++ lines

end Failure
end TraceStore.Cli
