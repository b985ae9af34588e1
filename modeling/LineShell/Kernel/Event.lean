import LineShell.Kernel.FileTree

/-!
# Events

The system calls that processes make: their names, the failures that can be planned for them, and
what is noted of each, with its arguments and its answer.

## The model

* `CallName` names the calls that are counted. A `Fault` plans a failure for one of them by its
  name and by how many calls of that name come before it, over all processes; so every way in
  which calls can fail is some list of faults.
* `OpenMode` is how a file is opened: for reading, emptied first, or at its end.
* `Event` is what is noted of a call. A call that failed is noted with its error, so what was
  tried can be told from a journal as well as what was done. The exit of a process and the end of
  a program are events too, though no call answers to them.
-/

namespace LineShell

/-- The system calls that are counted, and that can be made to fail. -/
inductive CallName where
  /-- Asking for the working directory. -/
  | getcwd
  /-- Changing the working directory. -/
  | chdir
  /-- Making a child. -/
  | fork
  /-- Waiting for a child. -/
  | wait
  /-- Making a channel. -/
  | pipe
  /-- Duplicating a descriptor. -/
  | dup
  /-- Closing a descriptor. -/
  | close
  /-- Opening a file. -/
  | openFile
  /-- Entering a program. -/
  | exec
  deriving DecidableEq, Repr

namespace CallName

/-- All counted calls. -/
def all : List CallName :=
  [.getcwd, .chdir, .fork, .wait, .pipe, .dup, .close, .openFile, .exec]

/-- The name of the call. -/
def name : CallName → Text
  | .getcwd => "getcwd".toList
  | .chdir => "chdir".toList
  | .fork => "fork".toList
  | .wait => "wait".toList
  | .pipe => "pipe".toList
  | .dup => "dup2".toList
  | .close => "close".toList
  | .openFile => "open".toList
  | .exec => "exec".toList

/-- The call of a name. -/
def ofName? (t : Text) : Option CallName :=
  all.find? fun c => c.name == t

end CallName

/-- A planned failure: the `nth` call of a name, over all processes, fails. -/
structure Fault where
  /-- The call. -/
  call : CallName
  /-- Which of the calls of that name, counted from one. -/
  nth : Nat
  /-- The error that it fails with. -/
  errno : Errno
  deriving DecidableEq, Repr

/-- How a file is opened. -/
inductive OpenMode where
  /-- For reading. -/
  | read
  /-- For writing, made if it is missing, emptied if it is not. -/
  | truncate
  /-- For writing at its end, made if it is missing. -/
  | append
  deriving DecidableEq, Repr

/-- The permissions of files that redirects make: `rw-r--r--`. -/
def newFilePermissions : Nat := 0o644

/-- A system call with its arguments and its answer. -/
inductive Event where
  /-- The working directory was asked for. -/
  | getcwd (answer : Except Errno Place)
  /-- The working directory was changed. -/
  | chdir (path : Text) (answer : Except Errno Unit)
  /-- A child was made. -/
  | fork (answer : Except Errno Nat)
  /-- A child was waited for; the answer is its raw wait status. -/
  | wait (pid : Nat) (answer : Except Errno Nat)
  /-- A channel was made; the answer is its read end and its write end. -/
  | pipe (answer : Except Errno (Nat × Nat))
  /-- A descriptor was made to refer to what another one refers to. -/
  | dup (source target : Nat) (answer : Except Errno Unit)
  /-- A descriptor was closed. -/
  | close (fd : Nat) (answer : Except Errno Unit)
  /-- A file was opened; the answer is the descriptor. -/
  | openFile (path : Text) (mode : OpenMode) (answer : Except Errno Nat)
  /-- The signal for broken channels was given its usual effect again. -/
  | restoreSignal
  /-- A program was entered; the answer is the absolute path of its place. -/
  | exec (file : Text) (argv : List Text) (answer : Except Errno Text)
  /-- A program ended with a raw wait status. -/
  | ended (raw : Nat)
  /-- A process exited with a code. -/
  | exited (code : Nat)

end LineShell
