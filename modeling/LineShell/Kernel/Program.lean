import LineShell.Text.Basic

/-!
# Installed programs

The programs that can be run, by name: programs that succeed and fail, that write their arguments,
that copy, count or cut what they read, that show their variables, their directory or their
descriptors, and that end in a way which an argument chooses, by an exit code, a signal or a raw
status. Between them they let everything be seen that a process hands on to a program. What each
of them does is a matter of its image.
-/

namespace LineShell

/-- The programs that a file can hold. -/
inductive Program where
  /-- Succeeds. -/
  | succeed
  /-- Fails. -/
  | fail
  /-- Writes its arguments to standard output. -/
  | echo
  /-- Writes its arguments to standard error. -/
  | err
  /-- Writes its arguments, one a line, to standard output and standard error in turn. -/
  | both
  /-- Copies what is left of its input. -/
  | cat
  /-- Counts the bytes left in its input. -/
  | count
  /-- Copies one line of its input. -/
  | head
  /-- Exits with a given code. -/
  | status
  /-- Is killed by a given signal. -/
  | die
  /-- Ends with a given raw wait status. -/
  | raw
  /-- Lists its environment. -/
  | env
  /-- Lists its arguments. -/
  | args
  /-- Tells its working directory. -/
  | pwd
  /-- Lists its open descriptors. -/
  | fds
  deriving DecidableEq, Repr

namespace Program

/-- All programs. -/
def all : List Program :=
  [.succeed, .fail, .echo, .err, .both, .cat, .count, .head, .status, .die, .raw, .env, .args,
   .pwd, .fds]

/-- The name that a program goes by. -/
def name : Program → Text
  | .succeed => "true".toList
  | .fail => "false".toList
  | .echo => "echo".toList
  | .err => "err".toList
  | .both => "both".toList
  | .cat => "cat".toList
  | .count => "count".toList
  | .head => "head".toList
  | .status => "status".toList
  | .die => "die".toList
  | .raw => "raw".toList
  | .env => "env".toList
  | .args => "args".toList
  | .pwd => "pwd".toList
  | .fds => "fds".toList

/-- The program of a name. -/
def ofName? (t : Text) : Option Program :=
  all.find? fun p => p.name == t

end Program

end LineShell
