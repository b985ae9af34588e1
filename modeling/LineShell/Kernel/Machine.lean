import LineShell.Log
import LineShell.Status
import LineShell.Kernel.Event
import LineShell.Kernel.Descriptors

/-!
# The machine

Everything that a session can change, as one value: what all processes share (`World`), what the
running process has for itself (`Proc`), and a journal of all that happened. An action (`Act`)
takes the machine from one state to the next and either answers or fails; whatever it did before
it failed stays done.

## The model

* A `Proc` has descriptors, a directory and variables, and besides them its counts of calls and
  the last numbers of a command and of a line. A child starts with a copy of all of it.
* The `World` holds the file tree, the open files and the channels; what is left of the input and
  what reached the two outputs; the children that ended and were not waited for; and the calls
  made so far with the failures that are planned.
* The journal tells every call with its answer, the leaves that were begun and the programs that
  were entered with the process as it then was, the bytes that were written and read, and the
  records of the log. It is never read by an action. Most of what is proved of runs is said about
  it.

## What is left out

There is one running process at a time. A child runs from its making to its end before its maker
goes on, so of all the ways in which processes can take turns the model has one. A channel takes
whatever is written to it, and a read from one that is empty finds its end. Nothing is said of
time, memory or signals but that a signal can end a program.
-/

namespace LineShell

/-! ### Open files and processes -/

/-- What an open file gives access to. -/
inductive Target where
  /-- A file or directory of the file tree. -/
  | place (p : Place)
  /-- The null device. -/
  | null
  /-- The read end of a channel. -/
  | readEnd (channel : Nat)
  /-- The write end of a channel. -/
  | writeEnd (channel : Nat)
  /-- The input that the shell was started with. -/
  | input
  /-- The output that the shell was started with. -/
  | output
  /-- The error output that the shell was started with. -/
  | errors
  deriving DecidableEq, Repr

/-- An open file. Descriptors that were duplicated or inherited share one, and so its offset. -/
structure OpenFile where
  /-- What it gives access to. -/
  target : Target
  /-- Whether it is open for writing; it is open for reading otherwise. -/
  writes : Bool
  /-- Whether every write goes to the end. -/
  atEnd : Bool
  /-- Where the next read or write starts. -/
  offset : Nat
  deriving DecidableEq, Repr

/-- How often a process used the four calls that make and run processes. -/
structure Stats where
  /-- Children made. -/
  fork : Nat
  /-- Programs tried. -/
  exec : Nat
  /-- Children waited for. -/
  wait : Nat
  /-- Channels made. -/
  pipe : Nat
  deriving DecidableEq, Repr

/-- What a process has for itself. A child starts with a copy of it. -/
structure Proc where
  /-- Its number. -/
  pid : Nat
  /-- Its descriptors. -/
  fds : Descriptors
  /-- Its working directory. -/
  cwd : Place
  /-- Its variables. -/
  table : Table
  /-- Its call counts. -/
  stats : Stats
  /-- The last number that a command answered with. -/
  commandLast : Int
  /-- The last number that a line answered with. -/
  sessionLast : Int

/-- An entry of the journal. -/
inductive Entry where
  /-- A process made a system call. -/
  | called (pid : Nat) (event : Event)
  /-- A record was logged. -/
  | logged (record : Record)
  /-- A process began to run a leaf of a tree. -/
  | began (proc : Proc) (mark : Option Nat) (command : Command)
  /-- A process was replaced by a program with an argument vector. -/
  | entered (proc : Proc) (argv : List Text)
  /-- A process wrote bytes through an open file, for the log or for itself. -/
  | wrote (pid file : Nat) (bytes : Bytes) (log : Bool)
  /-- A process took bytes through an open file. -/
  | took (pid file : Nat) (bytes : Bytes)

/-- What all processes share. -/
structure World where
  /-- The file tree. -/
  files : FileTree
  /-- The open files, by number. -/
  opened : List OpenFile
  /-- What is in each channel, by number. -/
  channels : List Bytes
  /-- What is left of the input that the shell was started with. -/
  input : Bytes
  /-- What reached the output that the shell was started with. -/
  output : Bytes
  /-- What reached the error output that the shell was started with. -/
  errors : Bytes
  /-- The number of the next process. -/
  nextPid : Nat
  /-- The processes that ended and were not waited for, with their raw wait statuses. -/
  ended : List (Nat × Nat)
  /-- The planned failures. -/
  faults : List Fault
  /-- The counted calls made so far. -/
  made : List CallName
  /-- The level from which on records are also written to standard error, if any are. -/
  echoFrom : Option Nat
  /-- What happened so far, oldest first. -/
  journal : List Entry

/-- The state of everything, seen from the running process. -/
structure Machine where
  /-- What all processes share. -/
  world : World
  /-- The running process. -/
  proc : Proc

/-- Writes an entry into the journal. -/
def World.note (w : World) (e : Entry) : World :=
  { w with journal := w.journal ++ [e] }

/-- Writes an entry into the journal of a machine. -/
def Machine.note (m : Machine) (e : Entry) : Machine :=
  { m with world := m.world.note e }

/-- An action on the machine. -/
abbrev Act := EStateM Failure Machine

namespace Act

/-- Runs an action and gives its failure as an answer. -/
def attempt {α : Type} (a : Act α) : Act (Except Failure α) := fun m =>
  match a m with
  | .ok x m => .ok (.ok x) m
  | .error e m => .ok (.error e) m

/-- The running process. -/
def proc : Act Proc := fun m => .ok m.proc m

/-- What all processes share. -/
def world : Act World := fun m => .ok m.world m

/-- Changes the running process. -/
def modifyProc (f : Proc → Proc) : Act Unit := fun m => .ok () { m with proc := f m.proc }

/-- Changes what all processes share. -/
def modifyWorld (f : World → World) : Act Unit := fun m => .ok () { m with world := f m.world }

/-- Writes an entry into the journal. -/
def note (e : Entry) : Act Unit := fun m => .ok () (m.note e)

/-- Notes a system call of the running process. -/
def called (e : Event) : Act Unit := fun m => .ok () (m.note (.called m.proc.pid e))

end Act

end LineShell
