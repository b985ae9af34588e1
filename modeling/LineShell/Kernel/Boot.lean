import LineShell.Kernel.Image

/-!
# Starting machines

The state that a session finds: its file tree with the installed programs, its standard streams,
and its variables.

`Machine.boot` leaves open what can differ between starts: the file tree, the input, which of the
three standard streams are closed, which calls are to fail, and the variables. All that is proved
of sessions is proved for every choice of these, or for those that a stated condition admits.
-/

namespace LineShell

namespace FileTree

/-- The working directory of a new session. -/
def home : Place := ["work".toList]

/-- The file tree that every session finds: a working directory, the null device, and every
program in the directory of programs. -/
def standard : FileTree :=
  let base := (root.makeDirectory home).install ["dev".toList, "null".toList] .null
  Program.all.foldl
    (fun t p => t.install ["bin".toList, p.name] (.file .program [] (some p))) base

end FileTree

/-- The number of the shell's process. -/
def shellPid : Nat := 100

/-- A machine before anything happened. The descriptors 0, 1 and 2 refer to the input, the
output and the error output that the shell was started with, unless they are closed. -/
def Machine.boot (files : FileTree) (cwd : Place) (input : Bytes) (closed : List Nat)
    (faults : List Fault) (table : Table) : Machine where
  world :=
    { files := files
      opened := [⟨.input, false, false, 0⟩, ⟨.output, true, false, 0⟩, ⟨.errors, true, false, 0⟩]
      channels := []
      input := input
      output := []
      errors := []
      nextPid := shellPid + 1
      ended := []
      faults := faults
      made := []
      echoFrom := none
      journal := [] }
  proc :=
    { pid := shellPid
      fds := closed.foldl Descriptors.erase Descriptors.standard
      cwd := cwd
      table := table
      stats := ⟨0, 0, 0, 0⟩
      commandLast := 0
      sessionLast := 0 }

end LineShell
