import TraceStore.Format

/-!
# Command lines

A command line is a command, its paths, and its flags in any order among them. Everything behind
`--` is a path. Flags can be given once; those with a value take it from the next argument, or
behind an equals sign.
-/
namespace TraceStore.Cli

/-- What a command line asks for. -/
inductive Request
  | info (path : String) (json chunks : Bool)
  | repack (input output : String) (format : Format) (chunkSize : UInt64)
deriving DecidableEq, Repr

namespace Args

/-- A flag of a command. -/
structure Flag where
  name : String
  takesValue : Bool

/-- The arguments of a command, sorted out. -/
structure Sorted where
  paths : List String
  flags : List (String × String)

/-- Splits an argument at its first equals sign. -/
def splitEquals (arg : String) : String × Option String :=
  let name := arg.toList.takeWhile (· != '=')
  match arg.toList.drop name.length with
  | _ :: value => (String.ofList name, some (String.ofList value))
  | [] => (arg, none)

/-- Adds a path in front of sorted arguments. Paths are not empty. -/
def addPath (path : String) (rest : Sorted) : Option Sorted :=
  if path.isEmpty then none else some { rest with paths := path :: rest.paths }

/-- Adds a flag in front of sorted arguments that do not hold it. -/
def addFlag (name value : String) (rest : Sorted) : Option Sorted :=
  if rest.flags.any (·.1 == name) then none
  else some { rest with flags := (name, value) :: rest.flags }

/-- Whether an argument can be the value of the flag before it: it is not a flag itself. -/
def isValue (arg : String) : Bool :=
  match arg.toList with
  | ['-'] => true
  | '-' :: _ => false
  | _ => true

/-- Sorts the arguments of a command with the given flags. Unknown flags are refused, and so are
values missing or not wanted. -/
def sort (flags : List Flag) : List String → Option Sorted
  | [] => some ⟨[], []⟩
  | arg :: rest =>
    if arg = "--" then rest.foldr (fun path sorted => sorted.bind (addPath path)) (some ⟨[], []⟩)
    else if isValue arg then (sort flags rest).bind (addPath arg)
    else
      let (name, value) := splitEquals arg
      match flags.find? (·.name == name) with
      | none => none
      | some flag =>
        if !flag.takesValue then
          if value.isSome then none else (sort flags rest).bind (addFlag name "")
        else
          match value, rest with
          | some value, rest => (sort flags rest).bind (addFlag name value)
          | none, value :: rest =>
            if isValue value then (sort flags rest).bind (addFlag name value) else none
          | none, [] => none

/-- The value of a flag, if it was given. -/
def Sorted.value? (s : Sorted) (name : String) : Option String := s.flags.lookup name

/-- Whether a flag was given. -/
def Sorted.has (s : Sorted) (name : String) : Bool := (s.value? name).isSome

/-- A count in decimal digits, maybe behind a plus sign, that fits 64 bits. -/
def parseCount (s : String) : Option UInt64 :=
  let digits := match s.toList with
    | '+' :: digits => digits
    | digits => digits
  if digits.isEmpty || !digits.all Char.isDigit then none
  else
    let n := Nat.ofDigitChars 10 digits 0
    if n < 2 ^ 64 then some (UInt64.ofNat n) else none

/-- Flags of the info command. -/
def infoFlags : List Flag := [⟨"--json", false⟩, ⟨"--chunks", false⟩]

/-- Flags of the repack command. -/
def repackFlags : List Flag := [⟨"--format", true⟩, ⟨"--chunk-size", true⟩]

/-- Decoded bytes per chunk unless a command line tells otherwise. -/
def defaultChunkSize : UInt64 := 1048576

end Args

open Args in
/-- The request that a command line spells, if it is a proper one. -/
def Request.parse : List String → Option Request
  | "info" :: args => do
    let sorted ← sort infoFlags args
    match sorted.paths with
    | [path] => return .info path (sorted.has "--json") (sorted.has "--chunks")
    | _ => none
  | "repack" :: args => do
    let sorted ← sort repackFlags args
    match sorted.paths with
    | [input, output] =>
      let format ← match sorted.value? "--format" with
        | none => some default
        | some name => Format.ofName? name
      let chunkSize ← match sorted.value? "--chunk-size" with
        | none => some defaultChunkSize
        | some count => parseCount count
      return .repack input output format chunkSize
    | _ => none
  | _ => none

end TraceStore.Cli
