import TraceStore.Cli.Run

/-!
# The command line program

Takes the files that the arguments name from the file system onto a disk, runs the command line
there, and writes back the files that it has changed.
-/
namespace TraceStore.Cli

/-- The disk with what the file system holds under a path. -/
def loadPath (d : Disk) (path : String) : IO Disk := do
  try
    let data ← IO.FS.readBinFile path
    return (d.put path data).toOption.getD d
  catch _ =>
    return d

/-- The directories that a path goes through, added to a disk as far as they are there. -/
def loadParents (d : Disk) (path : String) : IO Disk :=
  (Disk.ancestors path).foldlM (fun d parent => do
    let there ← (System.mkFilePath [parent]).isDir
    return if there then (d.makeDirectory parent).toOption.getD d else d) d

/-- Writes a file back if a run has changed it. -/
def storePath (before after : Disk) (path : String) : IO Unit :=
  match after.contents? path with
  | some data =>
    if before.contents? path = some data then pure () else IO.FS.writeBinFile path data
  | none => pure ()

end TraceStore.Cli

open TraceStore in
/-- Runs the arguments of the program. -/
def main (args : List String) : IO UInt32 := do
  let paths := args.eraseDups
  let parents ← paths.foldlM Cli.loadParents Disk.empty
  let before ← paths.foldlM Cli.loadPath parents
  let (exit, after) := Cli.run args before
  paths.forM (Cli.storePath before after)
  (← IO.getStdout).putStr exit.output
  (← IO.getStderr).putStr exit.errorOutput
  return exit.code.toUInt32
