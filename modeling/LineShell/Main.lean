import LineShell.CommandLine

/-!
# The program

Runs the command line on a machine of its own: the installed programs, an empty working directory,
and the standard input of this program as the lines to run.

This is the one module that acts on the surroundings, and it is no more than a frame: it reads the
arguments, a few variables and the input, hands them to `CommandLine.exitCode` on a machine that
was just started, and shows what reached the two outputs of that machine.
-/

namespace LineShell.Host

/-- The variables of the surrounding process that a session looks at. -/
def hostVariables : List String :=
  ["HOME", "TREE_SHELL_STRICT_ASSIGNMENTS", "TREE_SHELL_PROMPT", "TREE_SHELL_LOG_LEVEL"]

/-- Reads lines until there are no more. -/
partial def readLines (stream : IO.FS.Stream) (read : String) : IO String := do
  let line ← stream.getLine
  if line.isEmpty then return read else readLines stream (read ++ line)

/-- Shows what reached the two outputs of a machine. -/
def showOutputs (m : Machine) : IO Unit := do
  let out ← IO.getStdout
  let err ← IO.getStderr
  out.write (ByteArray.mk m.world.output.toArray)
  out.flush
  err.write (ByteArray.mk m.world.errors.toArray)
  err.flush

/-- Runs the command line and gives its exit code. -/
def run (arguments : List String) : IO UInt32 := do
  let mut table : Table := [("PATH".toList, "/bin".toList)]
  for name in hostVariables do
    if let some value ← IO.getEnv name then
      table := table.set name.toList value.toList
  let machine := Machine.boot FileTree.standard FileTree.home [] [] [] table
  let arguments := arguments.map String.toList
  let stdin ← IO.getStdin
  let input ← if CommandLine.readsInput arguments then readLines stdin "" else pure ""
  match CommandLine.exitCode arguments (← stdin.isTty) input.toList machine with
  | .error failure m =>
    showOutputs m
    IO.eprintln (String.ofList failure.message)
    return 1
  | .ok code m =>
    showOutputs m
    return code.toUInt32

end LineShell.Host

/-- The program. -/
def main (arguments : List String) : IO UInt32 :=
  LineShell.Host.run arguments
