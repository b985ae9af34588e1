import LineShell.Tree.Offered
import LineShell.Kernel.Errno

/-!
# Failures

Why an action of the shell is broken off, and what is said of it: a system call failed, a text
that is meant for the system holds a NUL, a variable has a name that no program can be given, a
tree is not accepted or cannot be run, an operator is not registered, or no level has a given
name. Most failures are turned into a status where they happen. The others leave the line in which
they happen, and a failure keeps what it needs for its message, the path of a failed call among
it.
-/

namespace LineShell

/-- Why an action was broken off. -/
inductive Failure where
  /-- A system call failed; some failures name the path they are about. -/
  | system (errno : Errno) (path : Option Text)
  /-- A text for the system holds a NUL. -/
  | embeddedNull
  /-- The name of a variable is empty or holds `=`. -/
  | illegalName
  /-- A tree is not acceptable. -/
  | tree (e : TreeError)
  /-- Nothing is registered for an operator. -/
  | noCombinator (op : Operator)
  /-- A value that is no command and no pair cannot be run. -/
  | notRunnable (given : Offered)
  /-- A text that is no name of a level stands where a level is needed. -/
  | unknownLevel (name : Text)
  /-- Something other than a level or a text stands where a level is needed. -/
  | notALevel (shown : Text)
  deriving DecidableEq, Repr

/-- What is said of a failure. -/
def Failure.message : Failure → Text
  | .system errno path =>
    "[Errno ".toList ++ natText errno.number ++ "] ".toList ++ errno.reason
      ++ (path.map fun p => ": ".toList ++ quoted p).getD []
  | .embeddedNull => "embedded null byte".toList
  | .illegalName => "illegal environment variable name".toList
  | .tree e => e.message
  | .noCombinator op => "No combinator for operator ".toList ++ op.shown
  | .notRunnable given => "Unknown command tree node: ".toList ++ given.typeName
  | .unknownLevel name => "Unknown level: ".toList ++ quoted name
  | .notALevel shown => "Level not an integer or a valid string: ".toList ++ shown

end LineShell
