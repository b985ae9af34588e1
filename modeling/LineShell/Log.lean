import LineShell.Failure

/-!
# The log

Records of what the shell does, by weight. The log is kept apart from what the shell says to its
user: it never decides how a command runs.

There are three weights. A session has a threshold, given by name, and the records at or above it
are also written to standard error as lines of text. A record names the part of the shell that it
comes from, and where it tells of a failure it holds that as well. That the log decides nothing is
a theorem about every action of the shell and no property of this module.
-/

namespace LineShell

/-- How weighty a record of the log is. -/
inductive Level where
  /-- Of use to those who look for a mistake. -/
  | debug
  /-- Something worth knowing happened. -/
  | info
  /-- Something failed. -/
  | error
  deriving DecidableEq, Repr

namespace Level

/-- The level's place in the order of levels. -/
def number : Level → Nat
  | .debug => 10
  | .info => 20
  | .error => 40

/-- The name of the level. -/
def name : Level → Text
  | .debug => "DEBUG".toList
  | .info => "INFO".toList
  | .error => "ERROR".toList

/-- The names of thresholds with their places in the order of levels. -/
def thresholds : List (Text × Nat) :=
  [("CRITICAL".toList, 50), ("FATAL".toList, 50), ("ERROR".toList, 40), ("WARNING".toList, 30),
   ("WARN".toList, 30), ("INFO".toList, 20), ("DEBUG".toList, 10), ("NOTSET".toList, 0)]

/-- The threshold of a name; one that is not known counts as `WARNING`. -/
def threshold (name : Text) : Nat :=
  ((thresholds.find? fun e => e.1 == name).map (·.2)).getD 30

end Level

/-- A record of the log. -/
structure Record where
  /-- Its weight. -/
  level : Level
  /-- Who wrote it. -/
  logger : Text
  /-- What it says. -/
  message : Text
  /-- The failure that it reports, if it reports one. -/
  cause : Option Failure

end LineShell
